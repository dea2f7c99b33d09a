import Mathlib.Data.List.GetD
import Mathlib.Logic.Function.Iterate

/-!
# Feedback shift registers

A register moves right and folds the bit it drops back in through a polynomial.
Shifting is linear over exclusive or, and injective when the polynomial feeds the
top bit. A register that starts empty and takes in a burst of bits no longer than
itself does not become empty again, however many zero bits stand around the burst.
-/

namespace Federated.Library.ShiftRegister

variable {w : Nat} (poly : BitVec w)

/-- Move right and fold the dropped bit back in. -/
def shift (r : BitVec w) : BitVec w := if r.getLsbD 0 then (r >>> 1) ^^^ poly else r >>> 1

/-- A bit at the low end of a register. -/
def lowBit (b : Bool) : BitVec w := if b then BitVec.twoPow w 0 else 0

/-- Take bits in, one with each shift. -/
def feed (r : BitVec w) (bits : List Bool) : BitVec w :=
  bits.foldl (fun r b => shift poly (r ^^^ lowBit b)) r

/-- The register that holds bits from its low end on. -/
def word : List Bool → BitVec w
  | [] => 0
  | b :: bits => lowBit b ^^^ (word bits <<< 1)

@[simp] theorem feed_nil (r : BitVec w) : feed poly r [] = r := rfl

@[simp] theorem feed_cons (r : BitVec w) (b : Bool) (bits : List Bool) :
    feed poly r (b :: bits) = feed poly (shift poly (r ^^^ lowBit b)) bits := rfl

theorem feed_append (r : BitVec w) (a b : List Bool) :
    feed poly r (a ++ b) = feed poly (feed poly r a) b :=
  List.foldl_append

/-! ## Linearity -/

@[simp] theorem shift_zero : shift poly 0 = 0 := by
  simp [shift]

@[simp] theorem lowBit_false : (lowBit false : BitVec w) = 0 := rfl

theorem lowBit_xor (a b : Bool) : (lowBit (a ^^ b) : BitVec w) = lowBit a ^^^ lowBit b := by
  cases a <;> cases b <;> simp [lowBit]

theorem shift_xor (a b : BitVec w) : shift poly (a ^^^ b) = shift poly a ^^^ shift poly b := by
  have hcancel (x y : BitVec w) : x ^^^ y = x ^^^ poly ^^^ (y ^^^ poly) := by
    rw [BitVec.xor_comm y, ← BitVec.xor_assoc, BitVec.xor_assoc x, BitVec.xor_self,
      BitVec.xor_zero]
  simp only [shift, BitVec.getLsbD_xor, BitVec.ushiftRight_xor_distrib]
  cases a.getLsbD 0 <;> cases b.getLsbD 0
  · simp
  · simp [BitVec.xor_assoc]
  · simp only [Bool.xor_false, if_true, Bool.false_eq_true, if_false]
    rw [BitVec.xor_assoc, BitVec.xor_comm (b >>> 1), ← BitVec.xor_assoc]
  · simpa using hcancel (a >>> 1) (b >>> 1)

theorem iterate_shift_xor (n : Nat) (a b : BitVec w) :
    (shift poly)^[n] (a ^^^ b) = (shift poly)^[n] a ^^^ (shift poly)^[n] b := by
  induction n generalizing a b with
  | zero => rfl
  | succ n ih => rw [Function.iterate_succ_apply, shift_xor, ih]; rfl

/-- What stands above `n` empty places comes down unchanged. -/
theorem iterate_shift_shiftLeft (n : Nat) {r : BitVec w}
    (h : ∀ i, w ≤ i + n → r.getLsbD i = false) : (shift poly)^[n] (r <<< n) = r := by
  induction n generalizing r with
  | zero => simp
  | succ n ih =>
    have hone : shift poly (r <<< n <<< 1) = r <<< n := by
      have hlow : (r <<< n <<< 1).getLsbD 0 = false := by simp
      rw [shift, if_neg (by simp [hlow])]
      apply BitVec.eq_of_getLsbD_eq
      intro i hi
      simp only [BitVec.getLsbD_ushiftRight, BitVec.getLsbD_shiftLeft]
      by_cases hout : w ≤ 1 + i
      · have hclear : r.getLsbD (i - n) = false := h _ (by omega)
        simp [hclear]
      · simp [hi, Nat.not_le.mp hout]
    rw [Function.iterate_succ_apply, BitVec.shiftLeft_add, hone]
    exact ih fun i hi => h i (by omega)

/-- Feeding the difference of two texts leaves the difference of the registers. -/
theorem feed_xor {a b : List Bool} (h : a.length = b.length) (r s : BitVec w) :
    feed poly (r ^^^ s) (List.zipWith (· ^^ ·) a b) = feed poly r a ^^^ feed poly s b := by
  induction a generalizing b r s with
  | nil =>
    cases b with
    | nil => rfl
    | cons c b => cases h
  | cons c a ih =>
    cases b with
    | nil => cases h
    | cons d b =>
      have hswap : r ^^^ s ^^^ (lowBit c ^^^ lowBit d) = (r ^^^ lowBit c) ^^^ (s ^^^ lowBit d) := by
        ac_rfl
      rw [List.zipWith_cons_cons, feed_cons, lowBit_xor, hswap, shift_xor, ih (by simpa using h)]
      rfl

/-! ## Injectivity -/

variable {poly}

theorem eq_zero_of_shift (hpoly : poly.getLsbD (w - 1) = true) {r : BitVec w}
    (h : shift poly r = 0) : r = 0 := by
  have hw : 0 < w := by
    have := BitVec.lt_of_getLsbD hpoly
    omega
  unfold shift at h
  split at h
  · -- The bit folded in at the top cannot come from the shift.
    have htop := congrArg (fun r => r.getLsbD (w - 1)) h
    have hout : w ≤ 1 + (w - 1) := by omega
    simp [hpoly, BitVec.getLsbD_of_ge r _ hout] at htop
  · rename_i hlow
    apply BitVec.eq_of_getLsbD_eq
    intro i hi
    cases i with
    | zero => simpa using hlow
    | succ i =>
      have hbit := congrArg (fun r => r.getLsbD i) h
      simpa [Nat.add_comm] using hbit

theorem iterate_shift_ne_zero (hpoly : poly.getLsbD (w - 1) = true) {r : BitVec w} (hr : r ≠ 0)
    (n : Nat) : (shift poly)^[n] r ≠ 0 := by
  induction n generalizing r with
  | zero => exact hr
  | succ n ih =>
    rw [Function.iterate_succ_apply]
    exact ih (mt (eq_zero_of_shift hpoly) hr)

/-! ## Bursts -/

variable (poly)

theorem getLsbD_word (bits : List Bool) (i : Nat) :
    (word bits : BitVec w).getLsbD i = (decide (i < w) && bits.getD i false) := by
  induction bits generalizing i with
  | nil => simp [word]
  | cons b bits ih =>
    cases i with
    | zero => cases b <;> simp [word, lowBit]
    | succ i =>
      have hlow : (lowBit b : BitVec w).getLsbD (i + 1) = false := by
        cases b <;> simp [lowBit]
      simp only [word, BitVec.getLsbD_xor, BitVec.getLsbD_shiftLeft, hlow, ih]
      by_cases hi : i + 1 < w
      · have hi' : i < w := by omega
        simp [hi, hi']
      · simp [hi]

theorem word_ne_zero {bits : List Bool} (hlen : bits.length ≤ w) (h : true ∈ bits) :
    (word bits : BitVec w) ≠ 0 := by
  obtain ⟨i, hi, hbit⟩ := List.mem_iff_getElem.mp h
  intro hzero
  have hget := congrArg (fun r => r.getLsbD i) hzero
  have hw : i < w := by omega
  simp only [getLsbD_word, hw, List.getD_eq_getElem _ _ hi, hbit] at hget
  simp at hget

/-- Bits that fit the register can be put there before the shifts. -/
theorem feed_eq_iterate {bits : List Bool} (h : bits.length ≤ w) (r : BitVec w) :
    feed poly r bits = (shift poly)^[bits.length] (r ^^^ word bits) := by
  induction bits generalizing r with
  | nil => simp [word]
  | cons b bits ih =>
    rw [List.length_cons] at h
    have hback : shift poly (word bits <<< 1) = word bits := by
      refine iterate_shift_shiftLeft poly 1 fun i hi => ?_
      have hend : bits.getD i false = false := List.getD_eq_default _ _ (by omega)
      rw [getLsbD_word, hend, Bool.and_false]
    rw [feed_cons, ih (by omega), List.length_cons, Function.iterate_succ_apply, word,
      ← BitVec.xor_assoc, shift_xor poly (r ^^^ lowBit b), hback]

theorem feed_replicate_false (n : Nat) (r : BitVec w) :
    feed poly r (List.replicate n false) = (shift poly)^[n] r := by
  induction n generalizing r with
  | zero => rfl
  | succ n ih => simp [List.replicate_succ, ih]

variable {poly}

/-- A burst of bits no longer than the register is never forgotten. -/
theorem feed_burst_ne_zero (hpoly : poly.getLsbD (w - 1) = true) {bits : List Bool}
    (hset : true ∈ bits) {k : Nat} (hburst : ∀ i, bits[i]? = some true → k ≤ i ∧ i < k + w) :
    feed poly 0 bits ≠ 0 := by
  let burst := (bits.drop k).take w
  have hsplit : bits = bits.take k ++ burst ++ (bits.drop k).drop w := by
    rw [List.append_assoc, List.take_append_drop, List.take_append_drop]
  have hbefore : bits.take k = List.replicate (bits.take k).length false := by
    refine List.eq_replicate_iff.mpr ⟨rfl, fun b hb => ?_⟩
    obtain ⟨i, hi⟩ := List.mem_iff_getElem?.mp hb
    have hik : i < k := by
      have := (List.getElem?_eq_some_iff.mp hi).1
      simp at this
      omega
    rw [List.getElem?_take_of_lt hik] at hi
    cases b with
    | false => rfl
    | true => have := hburst i hi; omega
  have hafter : (bits.drop k).drop w = List.replicate ((bits.drop k).drop w).length false := by
    refine List.eq_replicate_iff.mpr ⟨rfl, fun b hb => ?_⟩
    obtain ⟨i, hi⟩ := List.mem_iff_getElem?.mp hb
    rw [List.getElem?_drop, List.getElem?_drop] at hi
    cases b with
    | false => rfl
    | true => have := hburst _ hi; omega
  have hmem : true ∈ burst := by
    rw [hsplit, hbefore, hafter] at hset
    simpa using hset
  have hfit : burst.length ≤ w := List.length_take_le _ _
  have hzero : (0 : BitVec w) ^^^ word burst = word burst := BitVec.zero_xor
  rw [hsplit, feed_append, feed_append, hbefore, hafter, feed_replicate_false,
    feed_replicate_false, Function.iterate_fixed (shift_zero poly), feed_eq_iterate poly hfit,
    hzero]
  exact iterate_shift_ne_zero hpoly (iterate_shift_ne_zero hpoly (word_ne_zero hfit hmem) _) _

end Federated.Library.ShiftRegister
