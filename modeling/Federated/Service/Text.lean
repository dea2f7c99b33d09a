import Federated.Core

/-!
# Text of the protocols

The comparison by which the text protocols tell their commands apart, the tokens of a
line, and the decimal numbers in the replies.
-/

namespace Federated.Service

def toUpper (c : UInt8) : UInt8 := if 97 ≤ c ∧ c ≤ 122 then c - 32 else c

/-- Equality of C strings without regard to case. -/
def strEq : Bytes → Bytes → Bool
  | a :: as, b :: bs => toUpper a = toUpper b && strEq as bs
  | [], [] => true
  | _, _ => false

/-! ## Tokens -/

/-- The characters up to the first that `stop` accepts, and the rest from there. -/
def token (stop : UInt8 → Bool) (s : Bytes) : Bytes × Bytes := s.span fun c => ¬ stop c

def isBlank (c : UInt8) : Bool := c = 32

def isLineEnd (c : UInt8) : Bool := c = 13 ∨ c = 10

/-- A command name ends at a blank or with the line. -/
def endsName (c : UInt8) : Bool := isBlank c || isLineEnd c

/-- A token is the longest front without a character that stops it. -/
theorem token_eq_iff {stop : UInt8 → Bool} {s t rest : Bytes} :
    token stop s = (t, rest) ↔
      s = t ++ rest ∧ (∀ c ∈ t, stop c = false) ∧ ∀ c ∈ rest.head?, stop c = true := by
  rw [token, List.span_eq_takeWhile_dropWhile, Prod.mk.injEq]
  constructor
  · rintro ⟨rfl, rfl⟩
    refine ⟨List.takeWhile_append_dropWhile.symm, fun c hc => ?_, fun c hc => ?_⟩
    · simpa using List.mem_takeWhile_imp hc
    · have hhead := List.head?_dropWhile_not (fun c => !stop c) s
      grind
  · rintro ⟨rfl, hfront, hrest⟩
    have hpos : ∀ c ∈ t, (!stop c) = true := by simpa using hfront
    cases rest with
    | nil => simpa using hfront
    | cons c rest =>
      have hc := hrest c rfl
      simp [List.takeWhile_append_of_pos hpos, List.dropWhile_append_of_pos hpos, hc]

/-! ## Formatted text -/

/-- A C string goes on behind text without a NUL. -/
theorem cstr_append {text : Bytes} (h : 0 ∉ text) (rest : Bytes) :
    cstr (text ++ rest) = text ++ cstr rest :=
  List.takeWhile_append_of_pos (Library.forall_ne_of_notMem h)

theorem snprintf_of_le (block : Bytes) {text : Bytes} (h : 2 ^ 31 ≤ text.length) :
    snprintf block text = none :=
  if_neg (Nat.not_lt_of_ge h)

/-- Text without a NUL that an `int` can count is read back as far as the block has room for it. -/
theorem snprintf_of_lt (block : Bytes) {text : Bytes} (h : 0 ∉ text)
    (hint : text.length < 2 ^ 31) :
    ∃ block', snprintf block text = some block' ∧ cstr block' = text.take (block.length - 1) := by
  refine ⟨_, if_pos hint, ?_⟩
  split_ifs with hblock
  · simp [hblock, cstr]
  · have htext : 0 ∉ text.take (block.length - 1) := fun hmem => h (List.mem_of_mem_take hmem)
    rw [overwrite, List.take_zero, List.nil_append, List.append_assoc, cstr_append htext]
    simp [cstr]

/-! ## Decimal numbers -/

theorem ascii_append (s t : String) : ascii (s ++ t) = ascii s ++ ascii t := by
  simp [ascii]

theorem toList_toString (n : Nat) : (toString n).toList = Nat.toDigits 10 n := by
  rw [Nat.toString_eq_ofList_toDigits, String.toList_ofList]

/-- The characters of a decimal number are digits. -/
theorem digit_of_mem_toString {n : Nat} {c : Char} (h : c ∈ (toString n).toList) :
    48 ≤ c.toNat ∧ c.toNat ≤ 57 := by
  rw [toList_toString] at h
  have hdigit := Nat.isDigit_of_mem_toDigits (by decide) (by decide) h
  rw [Char.isDigit, Bool.and_eq_true, decide_eq_true_eq, decide_eq_true_eq] at hdigit
  exact ⟨UInt32.le_iff_toNat_le.mp hdigit.1, UInt32.le_iff_toNat_le.mp hdigit.2⟩

/-- The bytes of a decimal number are digits. -/
theorem digit_of_mem_ascii_toString {n : Nat} {c : UInt8} (h : c ∈ ascii (toString n)) :
    48 ≤ c.toNat ∧ c.toNat ≤ 57 := by
  rw [ascii, List.mem_map] at h
  obtain ⟨d, hd, rfl⟩ := h
  have hdigit := digit_of_mem_toString hd
  rw [Nat.toUInt8_eq, UInt8.toNat_ofNat']
  omega

/-- The number that digits stand for. -/
def decimalOf (digits : Bytes) : Nat :=
  Nat.ofDigitChars 10 (digits.map fun c => Char.ofNat c.toNat) 0

/-- A decimal number is read back. -/
@[simp] theorem decimalOf_ascii_toString (n : Nat) : decimalOf (ascii (toString n)) = n := by
  have hread : (ascii (toString n)).map (fun c => Char.ofNat c.toNat) = Nat.toDigits 10 n := by
    rw [ascii, List.map_map, ← toList_toString]
    refine (List.map_congr_left fun c hc => ?_).trans (List.map_id _)
    have hdigit := digit_of_mem_toString hc
    have hmod : c.toNat % 2 ^ 8 = c.toNat := by omega
    rw [Function.comp_apply, Nat.toUInt8_eq, UInt8.toNat_ofNat', hmod, Char.ofNat_toNat, id]
  rw [decimalOf, hread, Nat.ofDigitChars_ten_toDigits]

/-- The number that a text starts with. -/
def leadingNumber (text : Bytes) : Nat :=
  decimalOf (text.takeWhile fun c => 48 ≤ c.toNat ∧ c.toNat ≤ 57)

theorem leadingNumber_toString (n : Nat) {c : UInt8} (hc : ¬ (48 ≤ c.toNat ∧ c.toNat ≤ 57))
    (rest : Bytes) : leadingNumber (ascii (toString n) ++ c :: rest) = n := by
  rw [leadingNumber, List.takeWhile_append_of_pos, List.takeWhile_cons_of_neg, List.append_nil,
    decimalOf_ascii_toString]
  · simpa using hc
  · intro d hd
    simpa using digit_of_mem_ascii_toString hd

end Federated.Service
