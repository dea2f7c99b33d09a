import Federated.Library.ShiftRegister
import Mathlib.Algebra.CharP.Two
import Mathlib.Algebra.Field.ZMod
import Mathlib.Algebra.Polynomial.Div
import Mathlib.Algebra.Polynomial.OfFn
import Mathlib.Tactic.LinearCombination

/-!
# Division of binary polynomials by a shift register

The bits of a word are the coefficients of a polynomial over the field of two
elements, and so are the bits of a text, from its highest power down. A shift of a
register, read in reverse, multiplies by `X` modulo the divisor whose low
coefficients are folded in. What a register holds behind a text is therefore a
remainder.
-/

namespace Federated.Library.BinaryDivision

open Polynomial ShiftRegister

variable {w : Nat}

/-- The coefficient a bit stands for. -/
def coefficient (b : Bool) : ZMod 2 := if b then 1 else 0

/-- The polynomial of a word: its bit `i` belongs to `X ^ i`. -/
noncomputable def ofWord (v : BitVec w) : (ZMod 2)[X] := ofFn w fun i => coefficient (v.getLsbD i)

/-- The word of the coefficients of a polynomial below `X ^ w`. -/
noncomputable def toWord (w : Nat) (p : (ZMod 2)[X]) : BitVec w :=
  word ((List.range w).map fun i => decide (p.coeff i = 1))

/-- The polynomial of a text of bits: the first one belongs to the highest power, the last
one is the constant. -/
noncomputable def ofBits : List Bool → (ZMod 2)[X]
  | [] => 0
  | b :: bits => C (coefficient b) * X ^ bits.length + ofBits bits

/-- The divisor of degree `w` with given coefficients below `X ^ w`. -/
noncomputable def divisor (g : BitVec w) : (ZMod 2)[X] := X ^ w + ofWord g

/-! ## Words -/

theorem coefficient_xor (a b : Bool) : coefficient (a ^^ b) = coefficient a + coefficient b := by
  cases a <;> cases b <;> decide

@[simp] theorem coeff_ofWord (v : BitVec w) (i : Nat) :
    (ofWord v).coeff i = coefficient (v.getLsbD i) := by
  by_cases hi : i < w
  · rw [ofWord, ofFn_coeff_eq_val_of_lt _ hi]
  · rw [ofWord, ofFn_coeff_eq_zero_of_ge _ (Nat.not_lt.mp hi),
      BitVec.getLsbD_of_ge v i (Nat.not_lt.mp hi)]
    rfl

theorem ofWord_xor (a b : BitVec w) : ofWord (a ^^^ b) = ofWord a + ofWord b := by
  ext i
  rw [coeff_add, coeff_ofWord, coeff_ofWord, coeff_ofWord, BitVec.getLsbD_xor, coefficient_xor]

theorem degree_ofWord_lt (v : BitVec w) : (ofWord v).degree < w := ofFn_degree_lt _

theorem toWord_ofWord (v : BitVec w) : toWord w (ofWord v) = v := by
  apply BitVec.eq_of_getLsbD_eq
  intro i hi
  rw [toWord, getLsbD_word, List.getD_eq_getElem?_getD, List.getElem?_map, List.getElem?_range hi]
  rw [Option.map_some, Option.getD_some, coeff_ofWord]
  cases v.getLsbD i <;> simp [hi, coefficient]

theorem reverse_xor (a b : BitVec w) : (a ^^^ b).reverse = a.reverse ^^^ b.reverse := by
  apply BitVec.eq_of_getLsbD_eq
  intro i hi
  simp only [BitVec.getLsbD_xor, BitVec.getLsbD_reverse, BitVec.getMsbD_xor]

theorem ofWord_reverse_allOnes :
    ofWord (BitVec.allOnes w).reverse = ∑ i ∈ Finset.range w, (X ^ i : (ZMod 2)[X]) := by
  ext i
  rw [coeff_ofWord, BitVec.getLsbD_reverse, BitVec.getMsbD_eq_getLsbD, BitVec.getLsbD_allOnes,
    finsetSum_coeff]
  simp only [coeff_X_pow, Finset.sum_ite_eq, Finset.mem_range]
  by_cases hi : i < w
  · rw [if_pos hi, decide_eq_true hi, decide_eq_true (by omega)]
    rfl
  · rw [if_neg hi, decide_eq_false hi]
    rfl

theorem monic_divisor (g : BitVec w) : (divisor g).Monic := monic_X_pow_add (degree_ofWord_lt g)

theorem degree_divisor (g : BitVec w) : (divisor g).degree = w := by
  rw [divisor, degree_add_eq_left_of_degree_lt, degree_X_pow]
  rw [degree_X_pow]
  exact degree_ofWord_lt g

/-! ## Registers in reverse -/

/-- What a shift drops has come to the power `w`. -/
theorem ofWord_reverse_ushiftRight (hw : 0 < w) (r : BitVec w) :
    ofWord (r >>> 1).reverse + C (coefficient (r.getLsbD 0)) * X ^ w = X * ofWord r.reverse := by
  ext i
  rw [coeff_add, coeff_C_mul_X_pow, coeff_ofWord, BitVec.getLsbD_reverse,
    BitVec.getMsbD_eq_getLsbD, BitVec.getLsbD_ushiftRight]
  cases i with
  | zero =>
    have hout : r.getLsbD (1 + (w - 1 - 0)) = false := BitVec.getLsbD_of_ge _ _ (by omega)
    rw [coeff_X_mul_zero, hout, Bool.and_false, if_neg (by omega), add_zero]
    rfl
  | succ i =>
    rw [coeff_X_mul, coeff_ofWord, BitVec.getLsbD_reverse, BitVec.getMsbD_eq_getLsbD]
    obtain hlt | heq | hgt := Nat.lt_trichotomy (i + 1) w
    · have hindex : 1 + (w - 1 - (i + 1)) = w - 1 - i := by omega
      rw [if_neg (by omega), add_zero, hindex, decide_eq_true hlt, decide_eq_true (by omega)]
    · have hindex : w - 1 - i = 0 := by omega
      rw [if_pos heq, hindex, decide_eq_false (by omega), decide_eq_true (by omega),
        Bool.false_and, Bool.true_and]
      exact zero_add _
    · rw [if_neg (by omega), decide_eq_false (by omega), decide_eq_false (by omega), add_zero,
        Bool.false_and, Bool.false_and]

theorem ofWord_reverse_lowBit (hw : 0 < w) (b : Bool) :
    X * ofWord (lowBit b : BitVec w).reverse = C (coefficient b) * X ^ w := by
  have hshift : (lowBit b : BitVec w) >>> 1 = 0 := by
    ext i hi
    cases b with
    | false => simp
    | true => simp [lowBit]; omega
  have hlow : (lowBit b : BitVec w).getLsbD 0 = b := by
    cases b <;> simp [lowBit, hw]
  have hzero : ofWord (0 : BitVec w).reverse = 0 := by
    ext i
    rw [coeff_ofWord, BitVec.getLsbD_reverse]
    simp [coefficient]
  rw [← ofWord_reverse_ushiftRight hw, hshift, hlow, hzero, zero_add]

/-- A shift multiplies by `X`, and takes the divisor away where a bit has dropped. -/
theorem ofWord_reverse_shift (hw : 0 < w) (g r : BitVec w) :
    ofWord (shift g.reverse r).reverse =
      X * ofWord r.reverse + C (coefficient (r.getLsbD 0)) * divisor g := by
  have hdown := ofWord_reverse_ushiftRight hw r
  rw [shift]
  cases hbit : r.getLsbD 0 with
  | false =>
    rw [hbit] at hdown
    simpa [coefficient] using hdown
  | true =>
    rw [hbit] at hdown
    have htwo : (2 : (ZMod 2)[X]) = 0 := CharTwo.two_eq_zero
    rw [if_pos rfl, reverse_xor, BitVec.reverse_reverse_eq, ofWord_xor, divisor]
    simp only [coefficient, if_true, map_one, one_mul] at hdown ⊢
    linear_combination hdown - X ^ w * htwo

/-- Feeding a text multiplies by `X` for each bit and adds the text at the power `w`, up to a
multiple of the divisor. -/
theorem divisor_dvd_feed (hw : 0 < w) (g r : BitVec w) (bits : List Bool) :
    divisor g ∣ ofWord (feed g.reverse r bits).reverse -
      (ofBits bits * X ^ w + ofWord r.reverse * X ^ bits.length) := by
  induction bits generalizing r with
  | nil => simp [ofBits]
  | cons b bits ih =>
    have hshift := ofWord_reverse_shift hw g (r ^^^ lowBit b)
    have hlow := ofWord_reverse_lowBit hw b
    obtain ⟨q, hq⟩ := ih (shift g.reverse (r ^^^ lowBit b))
    rw [reverse_xor, ofWord_xor] at hshift
    refine ⟨q + C (coefficient ((r ^^^ lowBit b).getLsbD 0)) * X ^ bits.length, ?_⟩
    rw [feed_cons, ofBits, List.length_cons, pow_succ]
    linear_combination hq + X ^ bits.length * hshift + X ^ bits.length * hlow

/-- The register behind a text is the remainder of the text and of what it started from. -/
theorem ofWord_reverse_feed (hw : 0 < w) (g r : BitVec w) (bits : List Bool) :
    ofWord (feed g.reverse r bits).reverse =
      (ofBits bits * X ^ w + ofWord r.reverse * X ^ bits.length) %ₘ divisor g := by
  rw [← modByMonic_eq_of_dvd_sub (monic_divisor g) (divisor_dvd_feed hw g r bits), eq_comm,
    modByMonic_eq_self_iff (monic_divisor g), degree_divisor]
  exact degree_ofWord_lt _

end Federated.Library.BinaryDivision
