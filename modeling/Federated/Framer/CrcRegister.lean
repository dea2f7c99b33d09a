import Federated.Framer.Framers
import Federated.Library.ShiftRegister
import Federated.Library.StreamCipher

/-!
# The checksum as a shift register

The table of the checksum holds the results of eight shifts, so that one look-up
takes in the eight bits of a byte, the least significant first. The checksums of
two texts of one length therefore differ by what a register that starts empty
makes of the difference of the texts.
-/

namespace Federated.Framer

open Library ShiftRegister

/-- The polynomial of the checksum, reversed. -/
def crcPolynomial : BitVec 32 := 0xEDB88320

/-- The bits of a byte, least significant first. -/
def byteBits (b : UInt8) : List Bool := (List.range 8).map b.toBitVec.getLsbD

/-- The bits of a text, byte after byte. -/
def bits (bytes : Bytes) : List Bool := bytes.flatMap byteBits

@[simp] theorem length_byteBits (b : UInt8) : (byteBits b).length = 8 := by simp [byteBits]

@[simp] theorem bits_nil : bits [] = [] := rfl

@[simp] theorem bits_cons (b : UInt8) (bytes : Bytes) :
    bits (b :: bytes) = byteBits b ++ bits bytes :=
  rfl

@[simp] theorem length_bits (bytes : Bytes) : (bits bytes).length = 8 * bytes.length := by
  induction bytes with
  | nil => rfl
  | cons b bytes ih => simp [ih]; omega

/-! ## The table -/

theorem and_one_ne_zero_iff (crc : UInt32) : crc &&& 1 ≠ 0 ↔ crc.toBitVec.getLsbD 0 = true := by
  rw [Ne, ← UInt32.toBitVec_inj, UInt32.toBitVec_and]
  have hone : crc.toBitVec &&& (1 : UInt32).toBitVec =
      (BitVec.ofBool (crc.toBitVec.getLsbD 0)).setWidth 32 :=
    BitVec.and_one_eq_setWidth_ofBool_getLsbD
  rw [hone]
  cases crc.toBitVec.getLsbD 0 <;> decide

theorem toBitVec_crc32Table (i : UInt32) :
    (crc32Table i).toBitVec = (shift crcPolynomial)^[8] i.toBitVec := by
  have hshift (crc : UInt32) :
      (if crc &&& 1 ≠ 0 then (crc >>> 1) ^^^ 0xEDB88320 else crc >>> 1).toBitVec =
        shift crcPolynomial crc.toBitVec := by
    rw [shift]
    by_cases hlow : crc &&& 1 ≠ 0
    · rw [if_pos hlow, if_pos ((and_one_ne_zero_iff crc).mp hlow)]
      rfl
    · rw [if_neg hlow, if_neg (mt (and_one_ne_zero_iff crc).mpr hlow)]
      rfl
  have hfold (n : Nat) (crc : UInt32) : ((List.range n).foldl (fun (crc : UInt32) _ =>
      if crc &&& 1 ≠ 0 then (crc >>> 1) ^^^ 0xEDB88320 else crc >>> 1) crc).toBitVec =
        (shift crcPolynomial)^[n] crc.toBitVec := by
    induction n with
    | zero => rfl
    | succ n ih =>
      rw [List.range_succ, List.foldl_append, List.foldl_cons, List.foldl_nil, hshift, ih,
        Function.iterate_succ_apply']
  exact hfold 8 i

/-! ## A byte at a time -/

theorem word_byteBits (b : UInt8) : (word (byteBits b) : BitVec 32) = b.toBitVec.setWidth 32 := by
  apply BitVec.eq_of_getLsbD_eq
  intro i hi
  rw [getLsbD_word, BitVec.getLsbD_setWidth, byteBits, List.getD_eq_getElem?_getD,
    List.getElem?_map]
  by_cases h : i < 8
  · simp [hi, h]
  · simp [h, BitVec.getLsbD_of_ge b.toBitVec i (by omega)]

/-- A step of the checksum takes in the bits of its byte. -/
theorem toBitVec_crc32Step (crc : UInt32) (b : UInt8) :
    (crc32Step crc b).toBitVec = feed crcPolynomial crc.toBitVec (byteBits b) := by
  have hlookup (x : BitVec 32) : (shift crcPolynomial)^[8] x =
      (shift crcPolynomial)^[8] (x &&& 0xFF#32) ^^^ (x >>> 8) := by
    have hsplit : x = (x &&& 0xFF#32) ^^^ (x >>> 8 <<< 8) := by
      ext i hi
      have hmask : (0xFF#32)[i] = decide (i < 8) := by
        change ((BitVec.allOnes 8).setWidth 32)[i] = _
        rw [BitVec.getElem_setWidth, BitVec.getLsbD_allOnes]
      by_cases h : i < 8
      · simp [hmask, h]
      · simp [hmask, h, Nat.add_sub_cancel' (Nat.not_lt.mp h), BitVec.getLsbD_eq_getElem hi]
    have hdown : (shift crcPolynomial)^[8] (x >>> 8 <<< 8) = x >>> 8 :=
      iterate_shift_shiftLeft crcPolynomial 8 fun i hi => by simp [Nat.add_comm 8 i, hi]
    conv_lhs => rw [hsplit]
    rw [iterate_shift_xor, hdown]
  have hbyte : (b.toBitVec.setWidth 32) >>> 8 = 0#32 := by
    ext i hi
    simp
  rw [feed_eq_iterate crcPolynomial (by simp), length_byteBits, word_byteBits, hlookup,
    BitVec.ushiftRight_xor_distrib, hbyte, BitVec.xor_zero, crc32Step, UInt32.toBitVec_xor,
    toBitVec_crc32Table, BitVec.xor_comm]
  rfl

theorem toBitVec_foldl_crc32Step (crc : UInt32) (bytes : Bytes) :
    (bytes.foldl crc32Step crc).toBitVec = feed crcPolynomial crc.toBitVec (bits bytes) := by
  induction bytes generalizing crc with
  | nil => rfl
  | cons b bytes ih => rw [List.foldl_cons, ih, toBitVec_crc32Step, bits_cons, feed_append]

/-! ## Differences -/

theorem byteBits_xor (a b : UInt8) :
    byteBits (a ^^^ b) = List.zipWith (· ^^ ·) (byteBits a) (byteBits b) := by
  simp [byteBits, List.zipWith_map_left, List.zipWith_map_right, List.zipWith_self]

theorem bits_xorBytes {a e : Bytes} (h : a.length = e.length) :
    bits (xorBytes a e) = List.zipWith (· ^^ ·) (bits a) (bits e) := by
  induction a generalizing e with
  | nil =>
    cases e with
    | nil => rfl
    | cons _ _ => cases h
  | cons b a ih =>
    cases e with
    | nil => cases h
    | cons c e =>
      have hzip : List.zipWith (· ^^ ·) (byteBits b ++ bits a) (byteBits c ++ bits e) =
          List.zipWith (· ^^ ·) (byteBits b) (byteBits c) ++
            List.zipWith (· ^^ ·) (bits a) (bits e) :=
        List.zipWith_append (by simp)
      rw [xorBytes, List.zipWith_cons_cons, bits_cons, bits_cons, bits_cons, hzip, byteBits_xor,
        ← ih (by simpa using h)]
      rfl

/-- Texts of one length have the same checksum exactly when their difference leaves
an empty register empty. -/
theorem crc32Compute_xorBytes_eq_iff {a e : Bytes} (h : a.length = e.length) :
    crc32Compute (xorBytes a e) = crc32Compute a ↔ feed crcPolynomial 0 (bits e) = 0 := by
  have hlen : (bits a).length = (bits e).length := by simp [h]
  have hfeed := feed_xor crcPolynomial hlen (0xFFFFFFFF : UInt32).toBitVec 0
  have hstart : (0xFFFFFFFF : UInt32).toBitVec ^^^ 0 = (0xFFFFFFFF : UInt32).toBitVec :=
    BitVec.xor_zero
  rw [hstart, ← bits_xorBytes h, ← toBitVec_foldl_crc32Step,
    ← toBitVec_foldl_crc32Step] at hfeed
  have hself (x y : BitVec 32) : x ^^^ y = x ↔ y = 0 := by
    rw [← BitVec.xor_right_inj x, ← BitVec.xor_assoc, BitVec.xor_self, BitVec.zero_xor]
    rfl
  rw [crc32Compute, crc32Compute, UInt32.xor_left_inj, ← UInt32.toBitVec_inj, hfeed, hself]

end Federated.Framer
