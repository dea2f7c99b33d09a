import Federated.Transport.DnsTunnel
import Federated.Library.BitGroups
import Mathlib.Algebra.Order.Floor.Div

/-!
# Base32

The characters for an input have its bits, and the bytes of a text have those of its
characters, whatever stands between them. So a text decodes to the input that it was made of,
also if the case of its letters has changed and it was split into labels.
-/

namespace Federated.Transport

open Library.BitGroups

/-! ## The bits of a text -/

/-- The bits of some bytes. -/
def byteBits (data : Bytes) : List Bool := bits (data.map UInt8.toBitVec)

@[simp] theorem byteBits_cons (byte : UInt8) (data : Bytes) :
    byteBits (byte :: data) = lowBits byte.toBitVec 8 ++ byteBits data := rfl

theorem length_byteBits (data : Bytes) : (byteBits data).length = 8 * data.length := by
  rw [byteBits, length_bits, List.length_map]

/-- The values taken out of the buffer are the front of its bits. -/
theorem bits_drain (buffer : BitVec 32) (n : Nat) :
    bits (drain buffer n).1 ++ lowBits buffer (drain buffer n).2 = lowBits buffer n ∧
      (drain buffer n).2 < 5 := by
  fun_induction drain buffer n with
  | case1 n values left hdrain ih =>
    rw [hdrain] at ih
    refine ⟨?_, ih.2⟩
    have hsplit := lowBits_add buffer 5 n
    rw [Nat.add_comm] at hsplit
    rw [bits_cons, List.append_assoc, ih.1, lowBits_setWidth]
    exact hsplit.symm
  | case2 n hn => exact ⟨rfl, Nat.lt_of_not_ge fun hge => hn (n - 5) (by omega)⟩

/-- The values for an input have its bits, filled up with fewer than five others. -/
theorem bits_encodeValues (input : Bytes) {n : Nat} (hn : n < 5) (buffer : BitVec 32) :
    ∃ pad, pad.length < 5 ∧
      bits (encodeValues buffer n input) = lowBits buffer n ++ byteBits input ++ pad := by
  induction input generalizing n buffer with
  | nil =>
    rcases Nat.eq_zero_or_pos n with rfl | hpos
    · exact ⟨[], by decide, rfl⟩
    · refine ⟨List.replicate (5 - n) false, by rw [List.length_replicate]; omega, ?_⟩
      have hshift := lowBits_shiftLeft (r := buffer) (k := n) (m := 5 - n) (by omega)
      rw [Nat.add_sub_cancel' (by omega)] at hshift
      rw [encodeValues, if_pos hpos, bits_cons, lowBits_setWidth, hshift]
      simp [byteBits]
  | cons byte input ih =>
    obtain ⟨hbits, hleft⟩ := bits_drain (buffer <<< 8 ||| byte.toBitVec.setWidth 32) (n + 8)
    obtain ⟨pad, hpad, hrest⟩ := ih hleft (buffer <<< 8 ||| byte.toBitVec.setWidth 32)
    refine ⟨pad, hpad, ?_⟩
    rw [encodeValues, bits_append, hrest, ← List.append_assoc, ← List.append_assoc, hbits,
      lowBits_push byte.toBitVec (by omega), byteBits_cons, List.append_assoc (lowBits buffer n)]

/-- The characters of the alphabet are told apart. -/
theorem base32Value_base32Char : ∀ value, base32Value (base32Char value) = some value := by
  decide +kernel

theorem base32Char_ne : ∀ value, base32Char value ≠ dot ∧ base32Char value ≠ 0 := by
  decide +kernel

/-- The bytes decoded from a text have the bits of its characters but for fewer than eight,
where there is room for them. -/
theorem bits_decodeFrom (text : Bytes) {n room : Nat} (hn : n < 8)
    (hroom : n + 5 * (text.filterMap base32Value).length < 8 * (room + 1)) (buffer : BitVec 32) :
    ∃ rest, rest.length < 8 ∧
      byteBits (decodeFrom buffer n room text) ++ rest =
        lowBits buffer n ++ bits (text.filterMap base32Value) := by
  induction text generalizing n room buffer with
  | nil => exact ⟨lowBits buffer n, by simpa using hn, by simp [decodeFrom, byteBits]⟩
  | cons c text ih =>
    rw [decodeFrom]
    cases hvalue : base32Value c with
    | none =>
      rw [List.filterMap_cons_none hvalue] at hroom ⊢
      exact ih hn hroom buffer
    | some value =>
      rw [List.filterMap_cons_some hvalue, List.length_cons] at hroom
      have hpush := lowBits_push (r := buffer) (k := n) value (by omega)
      rw [List.filterMap_cons_some hvalue, bits_cons, ← List.append_assoc, ← hpush]
      by_cases hfull : n + 5 ≥ 8
      · have hfirst := lowBits_add (buffer <<< 5 ||| value.setWidth 32) 8 (n + 5 - 8)
        rw [Nat.add_sub_cancel' hfull] at hfirst
        have hleft : n + 5 - 8 < 8 := by omega
        have hroom' : n + 5 - 8 + 5 * (text.filterMap base32Value).length <
            8 * (room - 1 + 1) := by omega
        obtain ⟨rest, hrest, hbits⟩ := ih hleft hroom' (buffer <<< 5 ||| value.setWidth 32)
        refine ⟨rest, hrest, ?_⟩
        have hpos : room > 0 := by omega
        simp only [hfull, hpos, if_true]
        rw [byteBits_cons, List.append_assoc, hbits, hfirst, ← List.append_assoc, lowBits_setWidth]
      · simp only [hfull, if_false]
        exact ih (by omega) (by omega) _

/-- The values for a payload: their number, and that texts with these values decode to it. -/
theorem encodeValues_payload (data : Bytes) :
    5 * (encodeValues 0 0 data).length < 8 * data.length + 5 ∧
      8 * data.length ≤ 5 * (encodeValues 0 0 data).length ∧
      ∀ text : Bytes, text.filterMap base32Value = encodeValues 0 0 data →
        ∀ size, data.length ≤ size → base32Decode text size = data := by
  obtain ⟨pad, hpad, hbits⟩ := bits_encodeValues data (n := 0) (by decide) 0
  have hlength := congrArg List.length hbits
  rw [length_bits, List.length_append, List.length_append, length_lowBits, length_byteBits]
    at hlength
  refine ⟨by omega, by omega, fun text htext size hsize => ?_⟩
  have hroom : 0 + 5 * (text.filterMap base32Value).length < 8 * (size + 1) := by
    rw [htext]
    omega
  obtain ⟨rest, hrest, hdecoded⟩ := bits_decodeFrom text (by decide) hroom 0
  simp only [htext, hbits, lowBits, List.nil_append] at hdecoded
  have hsame := eq_of_bits_append hdecoded hrest (by omega)
  exact (List.map_injective_iff.mpr fun _ _ => UInt8.eq_of_toBitVec_eq) hsame

theorem filterMap_base32Char (values : List (BitVec 5)) :
    (values.map base32Char).filterMap base32Value = values := by
  rw [List.filterMap_map]
  exact (List.filterMap_congr fun value _ => base32Value_base32Char value).trans List.filterMap_some

/-! ## Texts that were changed on their way -/

/-- A character, or the small letter for it. -/
def CaseOf (c d : UInt8) : Prop := d = c ∨ (65 ≤ c ∧ c ≤ 90 ∧ d = c + 32)

instance (c d : UInt8) : Decidable (CaseOf c d) := inferInstanceAs (Decidable (_ ∨ _))

/-- A character that stands for none of the alphabet, in either case. -/
def Foreign (d : UInt8) : Prop := ∀ c ∈ base32Alphabet, ¬ CaseOf c d

/-- A text with the case of some letters changed and foreign characters put in between. -/
inductive Altered : Bytes → Bytes → Prop where
  | nil : Altered [] []
  | keep {c d : UInt8} {text altered : Bytes} (h : CaseOf c d) (rest : Altered text altered) :
      Altered (c :: text) (d :: altered)
  | insert {d : UInt8} {text altered : Bytes} (h : Foreign d) (rest : Altered text altered) :
      Altered text (d :: altered)

theorem base32Value_of_caseOf {c d : UInt8} (h : CaseOf c d) : base32Value d = base32Value c := by
  rcases h with rfl | ⟨hlow, hhigh, rfl⟩
  · rfl
  · revert hlow hhigh
    exact forall_byte (p := fun c => 65 ≤ c → c ≤ 90 → base32Value (c + 32) = base32Value c)
      (by decide +kernel) c

theorem base32Char_mem : ∀ value, base32Char value ∈ base32Alphabet := by
  decide +kernel

/-- A character that has a value stands for the one of the alphabet that has it. -/
theorem caseOf_of_base32Value {d : UInt8} {value : BitVec 5} (h : base32Value d = some value) :
    CaseOf (base32Char value) d := by
  have hvalue : (base32Value d).all fun value => CaseOf (base32Char value) d :=
    forall_byte (p := fun d => (base32Value d).all fun value => CaseOf (base32Char value) d)
      (by decide +kernel) d
  simpa [h] using hvalue

theorem base32Value_of_foreign {d : UInt8} (h : Foreign d) : base32Value d = none := by
  cases hvalue : base32Value d with
  | none => rfl
  | some value => exact absurd (caseOf_of_base32Value hvalue) (h _ (base32Char_mem value))

/-- The values of the characters do not change. -/
theorem Altered.filterMap_eq {text altered : Bytes} (h : Altered text altered) :
    altered.filterMap base32Value = text.filterMap base32Value := by
  induction h with
  | nil => rfl
  | keep h _ ih => rw [List.filterMap_cons, List.filterMap_cons, base32Value_of_caseOf h, ih]
  | insert h _ ih => rw [List.filterMap_cons_none (base32Value_of_foreign h), ih]

/-- With room for the characters and a terminator they are all written. -/
theorem base32Encode_of_lt {data : Bytes} {outputSize : Nat}
    (h : (data.length * 8 + 4) / 5 < outputSize) :
    base32Encode data outputSize = (encodeValues 0 0 data).map base32Char := by
  rw [base32Encode]
  split_ifs with hempty hfull
  · rw [List.length_eq_zero_iff.mp hempty]
    rfl
  · omega
  · rfl

/-- Where its output has room, an input becomes five bits a character of the alphabet, and
however the case of these is changed and others are put in between, they decode to it. -/
theorem base32Decode_base32Encode {data : Bytes} {outputSize : Nat}
    (h : (data.length * 8 + 4) / 5 < outputSize) :
    (base32Encode data outputSize).length = (8 * data.length) ⌈/⌉ 5 ∧
    (∀ c ∈ base32Encode data outputSize, c ∈ base32Alphabet) ∧
    ∀ text, Altered (base32Encode data outputSize) text →
      ∀ size, data.length ≤ size → base32Decode text size = data := by
  obtain ⟨hshort, hlong, hdecode⟩ := encodeValues_payload data
  rw [base32Encode_of_lt h]
  refine ⟨?_, fun c hc => ?_, fun text haltered size hsize => ?_⟩
  · rw [List.length_map, Nat.ceilDiv_eq_add_pred_div]
    omega
  · obtain ⟨value, -, rfl⟩ := List.mem_map.mp hc
    exact base32Char_mem value
  · refine hdecode text ?_ size hsize
    rw [haltered.filterMap_eq, filterMap_base32Char]

/-- Two bytes, in a name with a small letter and a dot. -/
theorem base32Decode_base32Encode_hi :
    (base32Encode (ascii "hi") 16).length = (8 * (ascii "hi").length) ⌈/⌉ 5 ∧
    (∀ c ∈ base32Encode (ascii "hi") 16, c ∈ base32Alphabet) ∧
    ∀ text, Altered (base32Encode (ascii "hi") 16) text →
      ∀ size, (ascii "hi").length ≤ size → base32Decode text size = ascii "hi" :=
  base32Decode_base32Encode (by decide)

end Federated.Transport
