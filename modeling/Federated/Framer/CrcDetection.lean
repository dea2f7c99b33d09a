import Federated.Framer.CrcRegister
import Federated.Framer.PrefixedAccept

/-!
# What the checksum detects

Bursts of up to 32 bits in the payload and every change of the checksum itself are
detected. The length in front of the payload is not covered: a flipped bit of it
goes unnoticed when the bytes at the new place happen to be the checksum of the
shorter payload.
-/

namespace Federated.Framer

open Library Comp ShiftRegister

variable {p e c : Bytes} {target coded output : Buffer}

/-! ## Errors -/

/-- Some bits are set, and they lie within 32 positions one behind the other. -/
def Burst (e : Bytes) : Prop :=
  true ∈ bits e ∧ ∃ k, ∀ i, (bits e)[i]? = some true → k ≤ i ∧ i < k + 32

/-- A burst changes the checksum. -/
theorem crc32Compute_ne_of_burst (h : p.length = e.length) (he : Burst e) :
    crc32Compute (xorBytes p e) ≠ crc32Compute p := by
  obtain ⟨hset, k, hburst⟩ := he
  rw [Ne, crc32Compute_xorBytes_eq_iff h]
  exact feed_burst_ne_zero (by decide) hset hburst

/-- Flip one bit of a text. -/
def flipBit (bytes : Bytes) (i : Nat) : Bytes :=
  bytes.modify (i / 8) (· ^^^ (1 <<< UInt8.ofNat (i % 8)))

@[simp] theorem length_flipBit (bytes : Bytes) (i : Nat) :
    (flipBit bytes i).length = bytes.length := by
  simp [flipBit]

theorem flipBit_append_left {a : Bytes} (b : Bytes) {i : Nat} (h : i < 8 * a.length) :
    flipBit (a ++ b) i = flipBit a i ++ b := by
  apply List.ext_getElem?
  grind [flipBit]

theorem flipBit_append_right (a b : Bytes) (i : Nat) :
    flipBit (a ++ b) (8 * a.length + i) = a ++ flipBit b i := by
  apply List.ext_getElem?
  grind [flipBit]

/-- Flipping a bit is adding an error of one bit. -/
theorem flipBit_eq_xorBytes (bytes : Bytes) (i : Nat) :
    flipBit bytes i = xorBytes bytes (flipBit (List.replicate bytes.length 0) i) := by
  apply List.ext_getElem
  · simp [xorBytes]
  · intro j _ _
    simp only [flipBit, xorBytes, List.getElem_modify, List.getElem_zipWith,
      List.getElem_replicate]
    split <;> simp

theorem bits_append (a b : Bytes) : bits (a ++ b) = bits a ++ bits b :=
  List.flatMap_append

theorem bits_replicate_zero (n : Nat) :
    bits (List.replicate n 0) = List.replicate (8 * n) false := by
  induction n with
  | zero => rfl
  | succ n ih =>
    rw [List.replicate_succ, bits_cons, ih, Nat.mul_succ, Nat.add_comm, List.replicate_add]
    rfl

/-- Four bytes among zeros are a burst as soon as a bit of them is set. -/
theorem burst_of_length_le {e : Bytes} (hlen : e.length ≤ 4) (hset : true ∈ bits e) (m n : Nat) :
    Burst (List.replicate m 0 ++ e ++ List.replicate n 0) := by
  have hbits : bits (List.replicate m 0 ++ e ++ List.replicate n 0) =
      List.replicate (8 * m) false ++ bits e ++ List.replicate (8 * n) false := by
    rw [bits_append, bits_append, bits_replicate_zero, bits_replicate_zero]
  rw [Burst, hbits]
  refine ⟨by simp [hset], 8 * m, fun i hi => ?_⟩
  have hbitsLen := length_bits e
  grind

theorem burst_flipBit {n i : Nat} (h : i < 8 * n) : Burst (flipBit (List.replicate n 0) i) := by
  have hsplit : List.replicate n (0 : UInt8) =
      List.replicate (i / 8) 0 ++ ([0] ++ List.replicate (n - i / 8 - 1) 0) := by
    rw [← List.replicate_one, ← List.replicate_add, ← List.replicate_add]
    congr 1
    omega
  have hflip := flipBit_append_right (List.replicate (i / 8) 0)
    ([0] ++ List.replicate (n - i / 8 - 1) 0) (i % 8)
  rw [List.length_replicate, Nat.div_add_mod, ← hsplit,
    flipBit_append_left _ (by simp; omega), ← List.append_assoc] at hflip
  have hset : ∀ r < 8, true ∈ bits (flipBit [0] r) := by decide
  rw [hflip]
  exact burst_of_length_le (by simp) (hset _ (Nat.mod_lt _ (by decide))) _ _

theorem flipBit_ne_self {bytes : Bytes} {i : Nat} (h : i < 8 * bytes.length) :
    flipBit bytes i ≠ bytes := by
  rw [flipBit_eq_xorBytes, Ne, xorBytes_eq_self_iff (by simp)]
  intro hzero
  have hlen := length_flipBit (List.replicate bytes.length 0) i
  rw [List.length_replicate] at hlen
  have hset := (burst_flipBit h).1
  rw [List.eq_replicate_iff.mpr ⟨hlen, hzero⟩, bits_replicate_zero] at hset
  simp at hset

/-! ## Payload and checksum -/

/-- A frame that is encoded has the length, the payload and its checksum. -/
theorem crcEncode_bytes (h : crcEncode p target = .ok (.ok, coded)) :
    coded.bytes = prefixedFrame p (writeBe32 (crc32Compute p)) ∧
      (prefixedFrame p (writeBe32 (crc32Compute p))).length < 2 ^ 32 := by
  have hover : (8 : UInt32).toNat = 4 + (writeBe32 (crc32Compute p)).length := by
    rw [length_writeBe32]
    rfl
  exact prefixedEncode_ok hover h

/-- With a checksum that is not that of the payload, the frame is rejected. -/
theorem crcDecode_mismatch {trailer : Bytes} (htrailer : trailer.length = 4)
    (hlen : (prefixedFrame p trailer).length < 2 ^ 32)
    (hne : readBe32 trailer ≠ crc32Compute p) (output : Buffer) :
    crcDecode (prefixedFrame p trailer) output = .ok (.errFormat, output) := by
  rw [← List.append_nil (prefixedFrame p trailer), crcDecode_frame htrailer hlen, if_pos hne,
    ite_self]

theorem crcDecode_payload_changed {q : Bytes} (hq : q.length = p.length)
    (hlen : (prefixedFrame p (writeBe32 (crc32Compute p))).length < 2 ^ 32)
    (hne : crc32Compute q ≠ crc32Compute p) (output : Buffer) :
    crcDecode (writeBe32 (UInt32.ofNat p.length) ++ q ++ writeBe32 (crc32Compute p)) output =
      .ok (.errFormat, output) := by
  have hlen' : (prefixedFrame q (writeBe32 (crc32Compute p))).length < 2 ^ 32 := by
    rw [length_prefixedFrame, hq, ← length_prefixedFrame]
    exact hlen
  have hread : readBe32 (writeBe32 (crc32Compute p)) ≠ crc32Compute q := by
    rw [readBe32_writeBe32]
    exact hne.symm
  have hdecode := crcDecode_mismatch (length_writeBe32 _) hlen' hread output
  rwa [prefixedFrame, hq] at hdecode

theorem crcDecode_trailer_changed {trailer : Bytes} (htrailer : trailer.length = 4)
    (hlen : (prefixedFrame p (writeBe32 (crc32Compute p))).length < 2 ^ 32)
    (hne : trailer ≠ writeBe32 (crc32Compute p)) (output : Buffer) :
    crcDecode (prefixedFrame p trailer) output = .ok (.errFormat, output) := by
  have hlen' : (prefixedFrame p trailer).length < 2 ^ 32 := by
    rw [length_prefixedFrame, length_writeBe32] at hlen
    rw [length_prefixedFrame, htrailer]
    exact hlen
  have hread : readBe32 trailer ≠ crc32Compute p := by
    intro hread
    rw [← hread, writeBe32_readBe32 htrailer] at hne
    exact hne rfl
  exact crcDecode_mismatch htrailer hlen' hread output

/-- A burst of up to 32 bits in the payload, and any change of the checksum, makes
the decoder answer `ERR_FORMAT`. -/
theorem crcDecode_detects (h : crcEncode p target = .ok (.ok, coded)) (output : Buffer) :
    (∀ e, e.length = p.length → Burst e →
      crcDecode (xorBytes coded.bytes (List.replicate 4 0 ++ e ++ List.replicate 4 0)) output =
        .ok (.errFormat, output)) ∧
    ∀ e, e.length = 4 → (∃ b ∈ e, b ≠ 0) →
      crcDecode (xorBytes coded.bytes (List.replicate (4 + p.length) 0 ++ e)) output =
        .ok (.errFormat, output) := by
  obtain ⟨hbytes, hlen⟩ := crcEncode_bytes h
  have hheader : xorBytes (writeBe32 (UInt32.ofNat p.length)) (List.replicate 4 0) =
      writeBe32 (UInt32.ofNat p.length) := xorBytes_replicate_zero _
  constructor
  · intro e he hburst
    have htrailer : xorBytes (writeBe32 (crc32Compute p)) (List.replicate 4 0) =
        writeBe32 (crc32Compute p) := xorBytes_replicate_zero _
    have hxor : xorBytes coded.bytes (List.replicate 4 0 ++ e ++ List.replicate 4 0) =
        writeBe32 (UInt32.ofNat p.length) ++ xorBytes p e ++ writeBe32 (crc32Compute p) := by
      rw [hbytes, prefixedFrame, xorBytes_append_append (by simp [he]; omega),
        xorBytes_append_append (by simp), hheader, htrailer]
    rw [hxor]
    exact crcDecode_payload_changed (by simp [xorBytes, he]) hlen
      (crc32Compute_ne_of_burst he.symm hburst) output
  · intro e he hset
    have hxor : xorBytes coded.bytes (List.replicate (4 + p.length) 0 ++ e) =
        prefixedFrame p (xorBytes (writeBe32 (crc32Compute p)) e) := by
      rw [hbytes, prefixedFrame, List.replicate_add,
        xorBytes_append_append (by simp; omega), xorBytes_append_append (by simp), hheader,
        xorBytes_replicate_zero]
      rfl
    have hne : xorBytes (writeBe32 (crc32Compute p)) e ≠ writeBe32 (crc32Compute p) := by
      rw [Ne, xorBytes_eq_self_iff (by simp [he])]
      grind
    rw [hxor]
    exact crcDecode_trailer_changed (by simp [xorBytes, he]) hlen hne output

/-- A payload whose frame has room is encoded. -/
theorem exists_crcEncode (hlen : p.length + 8 < 2 ^ 32) (hroom : p.length + 8 ≤ target.size) :
    ∃ coded, crcEncode p target = .ok (.ok, coded) := by
  have hframe : (prefixedFrame p (writeBe32 (crc32Compute p))).length = p.length + 8 :=
    length_prefixedFrame _ _
  have hover : (8 : UInt32).toNat = 4 + (writeBe32 (crc32Compute p)).length := rfl
  obtain ⟨coded, hcoded, -⟩ :=
    prefixedEncode_eq hover (hframe.trans_lt hlen) (hframe.trans_le hroom)
  exact ⟨coded, hcoded⟩

/-- Two flipped bits of a payload, and one of the checksum. -/
theorem crcDecode_detects_hello :
    ∃ coded, crcEncode (ascii "Hello") (.ofBlock (List.replicate 16 0)) = .ok (.ok, coded) ∧
      crcDecode (xorBytes coded.bytes (List.replicate 4 0 ++ [0, 0x80, 1, 0, 0] ++
        List.replicate 4 0)) ⟨[], 0⟩ = .ok (.errFormat, ⟨[], 0⟩) ∧
      crcDecode (xorBytes coded.bytes (List.replicate 9 0 ++ [0, 0, 1, 0])) ⟨[], 0⟩ =
        .ok (.errFormat, ⟨[], 0⟩) := by
  obtain ⟨coded, hcoded⟩ : ∃ coded,
      crcEncode (ascii "Hello") (.ofBlock (List.replicate 16 0)) = .ok (.ok, coded) :=
    exists_crcEncode (by decide) (by decide)
  obtain ⟨hburst, hchecksum⟩ := crcDecode_detects hcoded ⟨[], 0⟩
  refine ⟨coded, hcoded, hburst [0, 0x80, 1, 0, 0] rfl ?_, hchecksum [0, 0, 1, 0] rfl ?_⟩
  · exact burst_of_length_le (e := [0x80, 1]) (by decide) (by decide) 1 2
  · exact ⟨1, by simp, by decide⟩

/-! ## The length -/

theorem writeBe32_xor (v m : UInt32) :
    writeBe32 (v ^^^ m) = xorBytes (writeBe32 v) (writeBe32 m) := by
  have hshift (n : UInt32) : (v ^^^ m) >>> n = v >>> n ^^^ m >>> n := by
    rw [← UInt32.toBitVec_inj]
    exact BitVec.ushiftRight_xor_distrib _ _ _
  simp [writeBe32, xorBytes, hshift]

/-- A flipped bit of the header flips a bit of the length. -/
theorem flipBit_header (v : UInt32) {i : Nat} (h : i < 32) :
    ∃ k < 32, flipBit (writeBe32 v) i = writeBe32 (v ^^^ UInt32.ofNat (2 ^ k)) := by
  have hzero : ∀ i < 32, flipBit (List.replicate 4 0) i =
      writeBe32 (UInt32.ofNat (2 ^ (8 * (3 - i / 8) + i % 8))) := by decide
  refine ⟨8 * (3 - i / 8) + i % 8, by omega, ?_⟩
  rw [writeBe32_xor, ← hzero i h]
  exact flipBit_eq_xorBytes _ _

/-- Every bit of the length can be flipped. -/
theorem exists_flipBit_header (v : UInt32) {k : Nat} (h : k < 32) :
    ∃ i < 32, flipBit (writeBe32 v) i = writeBe32 (v ^^^ UInt32.ofNat (2 ^ k)) := by
  have hzero : ∀ k < 32, flipBit (List.replicate 4 0) (8 * (3 - k / 8) + k % 8) =
      writeBe32 (UInt32.ofNat (2 ^ k)) := by decide
  refine ⟨8 * (3 - k / 8) + k % 8, by omega, ?_⟩
  rw [writeBe32_xor, ← hzero k h]
  exact flipBit_eq_xorBytes _ _

/-- The four bytes a decoder takes for the checksum when it reads `n` as the length. -/
def checksumAt (p : Bytes) (n : Nat) : Bytes := ((p ++ writeBe32 (crc32Compute p)).drop n).take 4

theorem length_checksumAt {n : Nat} (h : n ≤ p.length) : (checksumAt p n).length = 4 := by
  rw [checksumAt, List.length_take, List.length_drop, List.length_append, length_writeBe32]
  omega

/-- No shorter length that differs in one bit leads to bytes that are the checksum of
the payload up to there. -/
def LengthFlipsCaught (p : Bytes) : Prop :=
  ∀ k < 32, p.length ^^^ 2 ^ k < p.length →
    checksumAt p (p.length ^^^ 2 ^ k) ≠ writeBe32 (crc32Compute (p.take (p.length ^^^ 2 ^ k)))

/-- With a shorter length in front, the frame is that of a shorter payload, and more. -/
theorem prefixedFrame_shorter {m : UInt32} (h : m.toNat < p.length) :
    writeBe32 m ++ p ++ writeBe32 (crc32Compute p) =
      prefixedFrame (p.take m.toNat) (checksumAt p m.toNat) ++
        ((p ++ writeBe32 (crc32Compute p)).drop m.toNat).drop 4 := by
  have hlen : (p.take m.toNat).length = m.toNat := List.length_take_of_le (by omega)
  have htake : p.take m.toNat = (p ++ writeBe32 (crc32Compute p)).take m.toNat :=
    (List.take_append_of_le_length (by omega)).symm
  rw [prefixedFrame, hlen, UInt32.ofNat_toNat, htake, checksumAt]
  simp only [List.append_assoc, List.take_append_drop]

theorem crcDecode_shorter {m : UInt32} (h : m.toNat < p.length) (hlen : p.length + 8 < 2 ^ 32)
    (output : Buffer) :
    crcDecode (writeBe32 m ++ p ++ writeBe32 (crc32Compute p)) output =
      if output.size < m.toNat then .ok (.errFormat, output)
      else if checksumAt p m.toNat ≠ writeBe32 (crc32Compute (p.take m.toNat)) then
        .ok (.errFormat, output)
      else .ok (.ok, filled output (p.take m.toNat)) := by
  have htake : (p.take m.toNat).length = m.toNat := List.length_take_of_le (by omega)
  have hchecksum := length_checksumAt (p := p) (Nat.le_of_lt h)
  have hread : readBe32 (checksumAt p m.toNat) ≠ crc32Compute (p.take m.toNat) ↔
      checksumAt p m.toNat ≠ writeBe32 (crc32Compute (p.take m.toNat)) := by
    constructor
    · intro hne heq
      exact hne (by rw [heq, readBe32_writeBe32])
    · intro hne heq
      exact hne (by rw [← heq, writeBe32_readBe32 hchecksum])
  rw [prefixedFrame_shorter h, crcDecode_frame hchecksum, htake]
  · simp only [hread]
  · rw [length_prefixedFrame, htake, hchecksum]
    omega

/-- With a longer length in front, the frame is too short. -/
theorem crcDecode_longer {m : UInt32} (h : p.length < m.toNat) (output : Buffer) :
    crcDecode (writeBe32 m ++ p ++ writeBe32 (crc32Compute p)) output =
      .ok (.errFormat, output) := by
  obtain ⟨q, trailer, rest, hframe, htrailer, hlen⟩ | herr :=
    prefixedDecode_cases (show (8 : UInt32).toNat = 4 + 4 from rfl)
      (writeBe32 m ++ p ++ writeBe32 (crc32Compute p)) output _
  · rw [prefixedFrame, List.append_assoc, List.append_assoc, List.append_assoc] at hframe
    obtain ⟨hheader, htail⟩ := List.append_inj hframe rfl
    rw [length_prefixedFrame] at hlen
    have hm := congrArg readBe32 hheader
    rw [readBe32_writeBe32, readBe32_writeBe32] at hm
    have hq : m.toNat = q.length := by rw [hm, UInt32.toNat_ofNat_of_lt' (show _ < 2 ^ 32 by omega)]
    have htailLen := congrArg List.length htail
    simp only [List.length_append, length_writeBe32] at htailLen
    omega
  · exact herr

theorem xor_two_pow_ne (n k : Nat) : n ^^^ 2 ^ k ≠ n := by
  intro h
  have hbit := congrArg (Nat.testBit · k) h
  simp at hbit

theorem toNat_xor_two_pow {n k : Nat} (hn : n < 2 ^ 32) (hk : k < 32) :
    (UInt32.ofNat n ^^^ UInt32.ofNat (2 ^ k)).toNat = n ^^^ 2 ^ k := by
  have hpow : 2 ^ k < 2 ^ 32 := Nat.pow_lt_pow_right (by decide) hk
  rw [UInt32.toNat_xor, UInt32.toNat_ofNat_of_lt' hn, UInt32.toNat_ofNat_of_lt' hpow]

/-! ## A bit of the frame -/

variable {trailer : Bytes} {i : Nat}

theorem flipBit_prefixedFrame_header (h : i < 32) : flipBit (prefixedFrame p trailer) i =
    flipBit (writeBe32 (UInt32.ofNat p.length)) i ++ p ++ trailer := by
  rw [prefixedFrame, List.append_assoc, flipBit_append_left _ (by simpa using h),
    List.append_assoc]

theorem flipBit_prefixedFrame_payload (h : i < 8 * p.length) :
    flipBit (prefixedFrame p trailer) (32 + i) =
      writeBe32 (UInt32.ofNat p.length) ++ flipBit p i ++ trailer := by
  have hsplit := flipBit_append_right (writeBe32 (UInt32.ofNat p.length)) (p ++ trailer) i
  rwa [length_writeBe32, flipBit_append_left _ h, ← List.append_assoc, ← List.append_assoc]
    at hsplit

theorem flipBit_prefixedFrame_trailer (i : Nat) :
    flipBit (prefixedFrame p trailer) (32 + 8 * p.length + i) =
      prefixedFrame p (flipBit trailer i) := by
  have hsplit := flipBit_append_right (writeBe32 (UInt32.ofNat p.length) ++ p) trailer i
  rwa [List.length_append, length_writeBe32, Nat.mul_add] at hsplit

/-- A flipped bit behind the length is always noticed. -/
theorem crcDecode_flipBit_behind
    (hlen : (prefixedFrame p (writeBe32 (crc32Compute p))).length < 2 ^ 32) (hhead : 32 ≤ i)
    (hi : i < 32 + 8 * p.length + 32) (output : Buffer) :
    crcDecode (flipBit (prefixedFrame p (writeBe32 (crc32Compute p))) i) output =
      .ok (.errFormat, output) := by
  obtain ⟨j, rfl⟩ := Nat.exists_eq_add_of_le hhead
  obtain hpay | hpay := Nat.lt_or_ge j (8 * p.length)
  · have hne : crc32Compute (flipBit p j) ≠ crc32Compute p := by
      rw [flipBit_eq_xorBytes]
      exact crc32Compute_ne_of_burst (by simp) (burst_flipBit hpay)
    rw [flipBit_prefixedFrame_payload hpay]
    exact crcDecode_payload_changed (length_flipBit p _) hlen hne output
  · obtain ⟨k, rfl⟩ := Nat.exists_eq_add_of_le hpay
    have hne : flipBit (writeBe32 (crc32Compute p)) k ≠ writeBe32 (crc32Compute p) :=
      flipBit_ne_self (by rw [length_writeBe32]; omega)
    rw [← Nat.add_assoc, flipBit_prefixedFrame_trailer]
    exact crcDecode_trailer_changed (length_flipBit _ _) hlen hne output

/-- A flipped bit of the whole frame never makes the decoder accept another payload,
exactly when the flips of the length are caught. -/
theorem crcDecode_flipBit_iff (h : crcEncode p target = .ok (.ok, coded)) :
    (∀ i < 8 * coded.bytes.length, ∀ output buffer,
      crcDecode (flipBit coded.bytes i) output = .ok (.ok, buffer) → buffer.bytes = p) ↔
    LengthFlipsCaught p := by
  obtain ⟨hbytes, hlen⟩ := crcEncode_bytes h
  have hshort : p.length + 8 < 2 ^ 32 := by
    rw [length_prefixedFrame] at hlen
    exact hlen
  have hword {k : Nat} (hk : k < 32) := toNat_xor_two_pow (show p.length < 2 ^ 32 by omega) hk
  rw [hbytes, length_prefixedFrame, length_writeBe32]
  constructor
  · intro hall k hk hlt hsame
    obtain ⟨i, hi, hflip⟩ := exists_flipBit_header (UInt32.ofNat p.length) hk
    rw [← hword hk] at hlt hsame
    have hdecode := crcDecode_shorter hlt hshort ⟨[], p.length⟩
    rw [← hflip, ← flipBit_prefixedFrame_header hi, if_neg (Nat.not_lt.mpr (Nat.le_of_lt hlt)),
      if_neg (not_not.mpr hsame)] at hdecode
    have hpayload := congrArg List.length (hall i (by omega) _ _ hdecode)
    rw [bytes_filled, List.length_take] at hpayload
    omega
  · intro hcaught i hi output buffer hdecode
    obtain hhead | hhead := Nat.lt_or_ge i 32
    · obtain ⟨k, hk, hflip⟩ := flipBit_header (UInt32.ofNat p.length) hhead
      rw [flipBit_prefixedFrame_header hhead, hflip] at hdecode
      obtain hlt | hgt := Nat.lt_or_gt_of_ne (xor_two_pow_ne p.length k)
      · have hne := hcaught k hk hlt
        rw [← hword hk] at hlt hne
        rw [crcDecode_shorter hlt hshort, if_pos hne, ite_self] at hdecode
        cases hdecode
      · rw [← hword hk] at hgt
        rw [crcDecode_longer hgt] at hdecode
        cases hdecode
    · rw [crcDecode_flipBit_behind hlen hhead (by omega)] at hdecode
      cases hdecode

/-- The length of four zero bytes becomes zero when its bit 2 is flipped, and the
checksum of no bytes is zero. -/
theorem crcDecode_flipBit_zeros :
    ∃ coded buffer, crcEncode [0, 0, 0, 0] (.ofBlock (List.replicate 12 0)) = .ok (.ok, coded) ∧
      26 < 8 * coded.bytes.length ∧
      crcDecode (flipBit coded.bytes 26) (.ofBlock (List.replicate 4 0)) = .ok (.ok, buffer) ∧
      buffer.bytes ≠ [0, 0, 0, 0] :=
  ⟨⟨prefixedFrame [0, 0, 0, 0] (writeBe32 (crc32Compute [0, 0, 0, 0])), 12⟩,
    ⟨List.replicate 4 0, 0⟩, by decide +kernel, by decide +kernel, by decide +kernel, by decide⟩

/-- The frame of `Hello` with any bit flipped is not taken for another payload. -/
theorem crcDecode_flipBit_iff_hello :
    ∃ coded, crcEncode (ascii "Hello") (.ofBlock (List.replicate 16 0)) = .ok (.ok, coded) ∧
      ∀ i < 8 * coded.bytes.length, ∀ output buffer,
        crcDecode (flipBit coded.bytes i) output = .ok (.ok, buffer) →
          buffer.bytes = ascii "Hello" := by
  obtain ⟨coded, hcoded⟩ : ∃ coded,
      crcEncode (ascii "Hello") (.ofBlock (List.replicate 16 0)) = .ok (.ok, coded) :=
    exists_crcEncode (by decide) (by decide)
  have hcaught : LengthFlipsCaught (ascii "Hello") := by
    unfold LengthFlipsCaught
    decide +kernel
  exact ⟨coded, hcoded, (crcDecode_flipBit_iff hcoded).mpr hcaught⟩

end Federated.Framer
