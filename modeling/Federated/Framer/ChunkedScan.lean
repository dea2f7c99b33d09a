import Federated.Framer.Chunked
import Mathlib.Tactic.IntervalCases

/-!
# What a scan of the chunked decoder reads

`ReadsAt frame f text` says that `text` stands in the frame from offset `f` on,
with offsets counted modulo 2^32 as the decoder counts them. The size scan and
the CRLF test are described by it: the scan returns exactly the runs of hex
digits whose value fits 32 bits, and it ends unless the first 2^32 bytes of the
frame are all zero digits.
-/

namespace Federated.Framer

open Library Comp

/-! ## Hex digits -/

def IsHex (c : UInt8) : Prop := (hexToValue c).isSome

instance (c : UInt8) : Decidable (IsHex c) := inferInstanceAs (Decidable ((hexToValue c).isSome))

/-- The value of a digit, zero for other characters. -/
def digitValue (c : UInt8) : Nat := ((hexToValue c).getD 0).toNat

/-- The number that hex digits read behind the value `v` lead to. -/
def hexValueFrom (v : Nat) (digits : Bytes) : Nat :=
  digits.foldl (fun v c => 16 * v + digitValue c) v

def hexValue (digits : Bytes) : Nat := hexValueFrom 0 digits

@[simp] theorem hexValueFrom_nil (v : Nat) : hexValueFrom v [] = v := rfl

@[simp] theorem hexValueFrom_cons (v : Nat) (c : UInt8) (digits : Bytes) :
    hexValueFrom v (c :: digits) = hexValueFrom (16 * v + digitValue c) digits := rfl

theorem le_hexValueFrom (v : Nat) (digits : Bytes) : v ≤ hexValueFrom v digits := by
  induction digits generalizing v with
  | nil => exact Nat.le_refl v
  | cons c digits ih =>
    have := ih (16 * v + digitValue c)
    rw [hexValueFrom_cons]
    omega

theorem hexToValue_spec (c : UInt8) :
    digitValue c < 16 ∧ (IsHex c → c ≠ cr ∧ (digitValue c = 0 → c = 48)) := by
  revert c
  refine forall_byte ?_
  decide +kernel

theorem digitValue_lt (c : UInt8) : digitValue c < 16 := (hexToValue_spec c).1

theorem IsHex.ne_cr {c : UInt8} (h : IsHex c) : c ≠ cr := ((hexToValue_spec c).2 h).1

theorem IsHex.eq_zero_digit {c : UInt8} (h : IsHex c) (hv : digitValue c = 0) : c = 48 :=
  ((hexToValue_spec c).2 h).2 hv

theorem digitValue_of_some {c : UInt8} {v : UInt32} (h : hexToValue c = some v) :
    digitValue c = v.toNat := by
  simp [digitValue, h]

/-- A run of hex digits is worth nothing only if all of them are zeros. -/
theorem eq_zero_of_hexValue {digits : Bytes} (hex : ∀ c ∈ digits, IsHex c)
    (h : hexValue digits = 0) : ∀ c ∈ digits, c = 48 := by
  unfold hexValue at h
  induction digits with
  | nil => simp
  | cons c digits ih =>
    have hle := le_hexValueFrom (16 * 0 + digitValue c) digits
    rw [hexValueFrom_cons] at h
    have hc : digitValue c = 0 := by omega
    rw [hc] at h
    rintro d (_ | ⟨_, hd⟩)
    · exact (hex c (by simp)).eq_zero_digit hc
    · exact ih (fun d hd => hex d (by simp [hd])) h d hd

theorem hexValue_replicate_zero (n : Nat) : hexValue (List.replicate n 48) = 0 := by
  unfold hexValue
  induction n with
  | zero => rfl
  | succ n ih => simpa [List.replicate_succ, show digitValue 48 = 0 by decide] using ih

/-- The 32-bit shift and or that append one digit. -/
theorem append_digit {size v : UInt32} (hs : ¬ size > (0xFFFFFFFF : UInt32) >>> 4)
    (hv : v.toNat < 16) : ((size <<< 4) ||| v).toNat = 16 * size.toNat + v.toNat := by
  have hs : size.toNat ≤ 0x0FFFFFFF := by simpa [UInt32.lt_iff_toNat_lt] using hs
  have hor := Nat.two_pow_add_eq_or_of_lt (i := 4) hv size.toNat
  simp only [UInt32.toNat_or, UInt32.toNat_shiftLeft, Nat.shiftLeft_eq]
  rw [Nat.mod_eq_of_lt (by simp; omega), Nat.mul_comm]
  exact hor.symm

/-! ## Text at an offset -/

/-- `text` stands in the frame from the 32-bit offset `f` on. -/
def ReadsAt (frame : Bytes) : UInt32 → Bytes → Prop
  | _, [] => True
  | f, c :: text => frame[f.toNat]? = some c ∧ ReadsAt frame (f + 1) text

/-- Advance a 32-bit offset. -/
def advance (f : UInt32) (n : Nat) : UInt32 := f + UInt32.ofNat n

theorem toNat_advance (f : UInt32) (n : Nat) : (advance f n).toNat = (f.toNat + n) % 2 ^ 32 := by
  simp [advance, UInt32.toNat_add]

@[simp] theorem advance_zero (f : UInt32) : advance f 0 = f := by simp [advance]

theorem advance_succ (f : UInt32) (n : Nat) : advance f (n + 1) = advance (f + 1) n := by
  apply UInt32.toNat_inj.mp
  simp only [toNat_advance, UInt32.toNat_add, UInt32.toNat_one]
  omega

theorem advance_advance (f : UInt32) (m n : Nat) :
    advance (advance f m) n = advance f (m + n) := by
  apply UInt32.toNat_inj.mp
  simp only [toNat_advance]
  omega

theorem advance_two (f : UInt32) : f + 2 = advance f 2 := rfl

theorem advance_toNat (f size : UInt32) : f + size = advance f size.toNat := by simp [advance]

@[simp] theorem readsAt_nil (frame : Bytes) (f : UInt32) : ReadsAt frame f [] := trivial

@[simp] theorem readsAt_cons (frame : Bytes) (f : UInt32) (c : UInt8) (text : Bytes) :
    ReadsAt frame f (c :: text) ↔ frame[f.toNat]? = some c ∧ ReadsAt frame (f + 1) text :=
  Iff.rfl

/-- Below 2^32 bytes, text at an offset is a piece of the frame. -/
theorem readsAt_iff_drop {frame : Bytes} (hframe : frame.length < 2 ^ 32) {f : UInt32}
    {text : Bytes} (hf : f.toNat ≤ frame.length) :
    ReadsAt frame f text ↔ ∃ rest, frame.drop f.toNat = text ++ rest := by
  induction text generalizing f with
  | nil => simp
  | cons c text ih =>
    constructor
    · rintro ⟨hc, htext⟩
      obtain ⟨hlt, hget⟩ := List.getElem?_eq_some_iff.mp hc
      have hone : (f + 1).toNat = f.toNat + 1 := by
        rw [UInt32.toNat_add]; simp; omega
      obtain ⟨rest, hrest⟩ := (ih (by omega)).mp htext
      exact ⟨rest, by rw [List.drop_eq_getElem_cons hlt, hget, ← hone, hrest]; rfl⟩
    · rintro ⟨rest, hrest⟩
      have hlt : f.toNat < frame.length := by
        have := congrArg List.length hrest
        simp at this
        omega
      have hone : (f + 1).toNat = f.toNat + 1 := by
        rw [UInt32.toNat_add]; simp; omega
      rw [List.drop_eq_getElem_cons hlt] at hrest
      obtain ⟨hget, hdrop⟩ := List.cons.inj hrest
      refine ⟨List.getElem?_eq_some_iff.mpr ⟨hlt, hget⟩, (ih (by omega)).mpr ⟨rest, ?_⟩⟩
      rw [hone]
      exact hdrop

/-! ## The size scan -/

/-- The scan has come to the end of the frame or to a `\r`. -/
def AtLineEnd (frame : Bytes) (f : UInt32) : Prop :=
  frame[f.toNat]? = none ∨ frame[f.toNat]? = some cr

/-- What one character does to a scan. -/
theorem sizePass_cases (frame : Bytes) (s : SizeScan) :
    (AtLineEnd frame s.frameOffset ∧ sizePass frame s = .exit (some s)) ∨
    (∃ c, frame[s.frameOffset.toNat]? = some c ∧ IsHex c ∧
      16 * s.chunkSize.toNat + digitValue c < 2 ^ 32 ∧
      sizePass frame s = .next ⟨s.frameOffset + 1,
        UInt32.ofNat (16 * s.chunkSize.toNat + digitValue c), true⟩) ∨
    (∃ c, frame[s.frameOffset.toNat]? = some c ∧ c ≠ cr ∧
      (IsHex c → 2 ^ 32 ≤ 16 * s.chunkSize.toNat) ∧ sizePass frame s = .exit none) := by
  unfold sizePass AtLineEnd
  cases hc : frame[s.frameOffset.toNat]? with
  | none => simp
  | some c =>
    by_cases hcr : c = cr
    · simp [hcr]
    · cases hv : hexToValue c with
      | none =>
        refine .inr (.inr ⟨c, rfl, hcr, ?_, by simp [hcr, hv]⟩)
        simp [IsHex, hv]
      | some v =>
        have hdigit := digitValue_of_some hv
        have hlt := digitValue_lt c
        by_cases hbig : s.chunkSize > (0xFFFFFFFF : UInt32) >>> 4
        · refine .inr (.inr ⟨c, rfl, hcr, fun _ => ?_, by simp [hcr, hv, hbig]⟩)
          have : 0x0FFFFFFF < s.chunkSize.toNat := by simpa [UInt32.lt_iff_toNat_lt] using hbig
          omega
        · have happend := append_digit hbig (hdigit ▸ hlt)
          have hsize : (s.chunkSize <<< 4) ||| v =
              UInt32.ofNat (16 * s.chunkSize.toNat + digitValue c) := by
            rw [hdigit, ← happend, UInt32.ofNat_toNat]
          refine .inr (.inl ⟨c, rfl, by simp [IsHex, hv], ?_, ?_⟩)
          · rw [hdigit, ← happend]
            exact UInt32.toNat_lt _
          · simp [hcr, hv, hbig, hsize]

/-- A pass that goes on has taken a digit. -/
theorem sizePass_next {frame : Bytes} {s t : SizeScan}
    (h : (Comp.pure (sizePass frame s)).Returns (.next t)) :
    ∃ c, frame[s.frameOffset.toNat]? = some c ∧ IsHex c ∧
      16 * s.chunkSize.toNat + digitValue c < 2 ^ 32 ∧
      t = ⟨s.frameOffset + 1, UInt32.ofNat (16 * s.chunkSize.toNat + digitValue c), true⟩ := by
  rw [returns_pure] at h
  obtain ⟨-, hs⟩ | ⟨c, hc, hhex, hfit, hs⟩ | ⟨c, -, -, -, hs⟩ := sizePass_cases frame s
  · rw [hs] at h
    cases h
  · rw [hs] at h
    cases h
    exact ⟨c, hc, hhex, hfit, rfl⟩
  · rw [hs] at h
    cases h

/-- A scan that ends in `scan` has read digits up to the end of the line. -/
def Scanned (frame : Bytes) (s scan : SizeScan) : Prop :=
  ∃ digits, (∀ c ∈ digits, IsHex c) ∧ ReadsAt frame s.frameOffset digits ∧
    hexValueFrom s.chunkSize.toNat digits < 2 ^ 32 ∧
    AtLineEnd frame (advance s.frameOffset digits.length) ∧
    scan = ⟨advance s.frameOffset digits.length,
      UInt32.ofNat (hexValueFrom s.chunkSize.toNat digits),
      s.foundHex || !digits.isEmpty⟩

theorem scanned_of_returns {frame : Bytes} {s scan : SizeScan}
    (h : (loop (fun s => .pure (sizePass frame s)) s).Returns (some scan)) :
    Scanned frame s scan := by
  refine h.loop_induction (motive := fun s => Scanned frame s scan) ?_ ?_
  · intro s hexit
    rw [returns_pure] at hexit
    obtain ⟨hend, hs⟩ | ⟨c, -, -, -, hs⟩ | ⟨c, -, -, -, hs⟩ := sizePass_cases frame s
    · rw [hs] at hexit
      cases hexit
      exact ⟨[], by simp, by simp, UInt32.toNat_lt _, by simpa using hend, by simp⟩
    · rw [hs] at hexit; cases hexit
    · rw [hs] at hexit; cases hexit
  · intro s t hnext _ ih
    obtain ⟨c, hc, hhex, hfit, rfl⟩ := sizePass_next hnext
    obtain ⟨digits, hdigits, hreads, hvalue, hend, rfl⟩ := ih
    simp only [UInt32.toNat_ofNat_of_lt' hfit] at hvalue
    refine ⟨c :: digits, ?_, ⟨hc, hreads⟩, hvalue, ?_, ?_⟩
    · simpa [hhex] using hdigits
    · simpa [advance_succ] using hend
    · simp only [UInt32.toNat_ofNat_of_lt' hfit]
      simp [advance_succ]

/-- Digits in front of a scan are what it returns. -/
theorem Scanned.returns {frame : Bytes} {s scan : SizeScan} (h : Scanned frame s scan) :
    (loop (fun s => .pure (sizePass frame s)) s).Returns (some scan) := by
  obtain ⟨digits, hdigits, hreads, hvalue, hend, rfl⟩ := h
  induction digits generalizing s with
  | nil =>
    apply returns_loop_of_exit
    have hs : sizePass frame s = .exit (some s) := by
      simp only [advance_zero, List.length_nil] at hend
      obtain h | h := hend <;> simp [sizePass, h]
    simp [hs]
  | cons c digits ih =>
    obtain ⟨hc, hreads⟩ := hreads
    have hhex : IsHex c := hdigits c (by simp)
    rw [hexValueFrom_cons] at hvalue
    have hle := le_hexValueFrom (16 * s.chunkSize.toNat + digitValue c) digits
    obtain ⟨hend', -⟩ | ⟨d, hd, -, hfit, hs⟩ | ⟨d, hd, -, hbig, -⟩ := sizePass_cases frame s
    · obtain h | h := hend'
      · simp [h] at hc
      · exact absurd (Option.some.inj (h.symm.trans hc)).symm hhex.ne_cr
    · obtain rfl : c = d := Option.some.inj (hc.symm.trans hd)
      refine returns_loop_of_next ((returns_pure).mpr hs.symm) ?_
      have hrest := @ih ⟨s.frameOffset + 1,
        UInt32.ofNat (16 * s.chunkSize.toNat + digitValue c), true⟩
        (fun d hd => hdigits d (by simp [hd])) hreads
        (by simpa only [UInt32.toNat_ofNat_of_lt' hfit] using hvalue)
        (by simpa [advance_succ] using hend)
      simpa only [UInt32.toNat_ofNat_of_lt' hfit, List.length_cons, advance_succ, hexValueFrom_cons,
        Bool.true_or, List.isEmpty_cons, Bool.not_false, Bool.or_true] using hrest
    · obtain rfl : c = d := Option.some.inj (hc.symm.trans hd)
      have := hbig hhex
      omega

/-- From any state, a scan returns the runs of hex digits in front of it. -/
theorem scanLoop_some_iff (frame : Bytes) (s scan : SizeScan) :
    (loop (fun s => .pure (sizePass frame s)) s).Returns (some scan) ↔ Scanned frame s scan :=
  ⟨scanned_of_returns, Scanned.returns⟩

/-- A line of hex digits at offset `f` whose value is `size`, without its CRLF. -/
structure SizeLine (frame : Bytes) (f : UInt32) (digits : Bytes) (size : UInt32) : Prop where
  nonempty : digits ≠ []
  hex : ∀ c ∈ digits, IsHex c
  reads : ReadsAt frame f digits
  value : hexValue digits = size.toNat

theorem scanSize_some_iff (frame : Bytes) (f : UInt32) (scan : SizeScan) :
    (scanSize frame f).Returns (some scan) ↔
      ∃ digits, (∀ c ∈ digits, IsHex c) ∧ ReadsAt frame f digits ∧ hexValue digits < 2 ^ 32 ∧
        AtLineEnd frame (advance f digits.length) ∧
        scan = ⟨advance f digits.length, UInt32.ofNat (hexValue digits), !digits.isEmpty⟩ := by
  simpa [hexValue, scanSize, Scanned] using scanLoop_some_iff frame ⟨f, 0, false⟩ scan

/-- The first 2^32 bytes of the frame are zero digits, the only ones a scan can
read for ever. -/
def AllZeros (frame : Bytes) : Prop := ∀ f : UInt32, frame[f.toNat]? = some 48

theorem not_scanSize_of_allZeros {frame : Bytes} (h : AllZeros frame) (f : UInt32)
    (r : Option SizeScan) : ¬ (scanSize frame f).Returns r := by
  intro hr
  have hpass : ∀ s : SizeScan, s.chunkSize = 0 →
      sizePass frame s = .next ⟨s.frameOffset + 1, 0, true⟩ := by
    intro s hs
    have hv : hexToValue 48 = some 0 := by decide
    have hcr : (48 : UInt8) ≠ cr := by decide
    simp [sizePass, h s.frameOffset, hs, hv, hcr]
  refine hr.loop_induction (motive := fun s => s.chunkSize = 0 → False) ?_ ?_ rfl
  · intro s hexit hs
    rw [returns_pure, hpass s hs] at hexit
    cases hexit
  · intro s t hnext _ ih hs
    rw [returns_pure, hpass s hs] at hnext
    cases hnext
    exact ih rfl

/-- As long as the size is zero, the offset gets closer to a byte that is no
zero digit; afterwards the size grows. -/
theorem exists_scanSize {frame : Bytes} (h : ¬ AllZeros frame) (f : UInt32) :
    ∃ r, (scanSize frame f).Returns r := by
  obtain ⟨target, htarget⟩ := not_forall.mp h
  refine exists_returns_of_measure (fun _ => True)
    (fun s => if s.chunkSize = 0 then 2 ^ 32 + (target - s.frameOffset).toNat
      else 2 ^ 32 - s.chunkSize.toNat) trivial (fun s _ => ⟨_, returns_pure.mpr rfl⟩) ?_
  intro s t _ hnext
  refine ⟨trivial, ?_⟩
  obtain ⟨c, hc, hhex, hfit, rfl⟩ := sizePass_next hnext
  have hmod : (16 * s.chunkSize.toNat + digitValue c) % 2 ^ 32 =
    16 * s.chunkSize.toNat + digitValue c := Nat.mod_eq_of_lt hfit
  simp only [← UInt32.toNat_inj, UInt32.toNat_ofNat', hmod, UInt32.toNat_zero]
  by_cases hzero : s.chunkSize.toNat = 0
  · by_cases hdigit : digitValue c = 0
    · have hne : s.frameOffset ≠ target := by
        rintro rfl
        exact htarget (hhex.eq_zero_digit hdigit ▸ hc)
      have hne' : s.frameOffset.toNat ≠ target.toNat := fun h => hne (UInt32.toNat_inj.mp h)
      simp only [hzero, hdigit, UInt32.toNat_sub, UInt32.toNat_add]
      have := s.frameOffset.toNat_lt
      have := target.toNat_lt
      simp
      omega
    · simp [hzero, hdigit]
      omega
  · have : 16 * s.chunkSize.toNat + digitValue c ≠ 0 := by omega
    simp only [hzero, this, if_false]
    omega

/-- No scan of a frame shorter than 2^32 bytes goes on for ever. -/
theorem not_allZeros_of_length {frame : Bytes} (h : frame.length < 2 ^ 32) :
    ¬ AllZeros frame := by
  intro hzeros
  have hlast := hzeros (UInt32.ofNat frame.length)
  rw [UInt32.toNat_ofNat', Nat.mod_eq_of_lt h] at hlast
  simp at hlast

/-! ## The CRLF test -/

/-- The 32-bit test passes although one of the bytes it lets through to is outside. -/
def CrlfOverrun (frame : Bytes) (f : UInt32) : Prop :=
  (advance f 2).toNat ≤ frame.length ∧
    (frame[f.toNat]? = none ∨
      (frame[f.toNat]? = some cr ∧ frame[(advance f 1).toNat]? = none))

/-- The three ways out of the CRLF test. -/
theorem expectCrlf_cases (frame : Bytes) (f : UInt32) :
    (ReadsAt frame f crlf ∧ expectCrlf frame f = .ok (some (advance f 2))) ∨
    (¬ ReadsAt frame f crlf ∧ ¬ CrlfOverrun frame f ∧ expectCrlf frame f = .ok none) ∨
    (¬ ReadsAt frame f crlf ∧ CrlfOverrun frame f ∧ expectCrlf frame f = .error .read) := by
  simp only [expectCrlf, CrlfOverrun, crlf, readsAt_cons, readsAt_nil, and_true, advance_two,
    show f + 1 = advance f 1 from rfl]
  by_cases htest : (advance f 2).toNat > frame.length
  · refine .inr (.inl ⟨?_, by omega, by simp [htest]⟩)
    rintro ⟨hc, hd⟩
    have hc := (List.getElem?_eq_some_iff.mp hc).1
    have hd := (List.getElem?_eq_some_iff.mp hd).1
    simp only [toNat_advance] at htest hd
    omega
  · simp only [htest, if_false]
    cases hc : frame[f.toNat]? with
    | none => exact .inr (.inr ⟨by simp, ⟨by omega, .inl rfl⟩, rfl⟩)
    | some c =>
      by_cases hcr : c = cr
      · cases hd : frame[(advance f 1).toNat]? with
        | none => exact .inr (.inr ⟨by simp, ⟨by omega, .inr ⟨by simp [hcr], rfl⟩⟩, by simp [hcr]⟩)
        | some d => by_cases hlf : d = lf <;> simp [hcr, hlf]
      · simp [hcr]

theorem expectCrlf_of_reads {frame : Bytes} {f : UInt32} (h : ReadsAt frame f crlf) :
    expectCrlf frame f = .ok (some (advance f 2)) := by
  obtain ⟨-, he⟩ | ⟨hn, -⟩ | ⟨hn, -⟩ := expectCrlf_cases frame f
  · exact he
  · exact absurd h hn
  · exact absurd h hn

theorem expectCrlf_error_iff {frame : Bytes} {f : UInt32} :
    (∃ fault, expectCrlf frame f = .error fault) ↔ CrlfOverrun frame f := by
  obtain ⟨⟨hc, hd, -⟩, he⟩ | ⟨-, hn, he⟩ | ⟨-, ho, he⟩ := expectCrlf_cases frame f
  · rw [he]
    simp only [CrlfOverrun, show advance f 1 = f + 1 from rfl, hc, hd]
    simp
  · simp [he, hn]
  · simp [he, ho]

/-- Away from the end of the 32-bit range the CRLF test keeps inside the frame. -/
theorem not_crlfOverrun {frame : Bytes} {f : UInt32} (h : f.toNat + 2 < 2 ^ 32) :
    ¬ CrlfOverrun frame f := by
  rintro ⟨htest, hout⟩
  simp only [toNat_advance, Nat.mod_eq_of_lt h] at htest
  rw [toNat_advance, Nat.mod_eq_of_lt (by omega)] at hout
  obtain hout | ⟨-, hout⟩ := hout
  · simp at hout
    omega
  · simp at hout
    omega

end Federated.Framer
