import Mathlib.Data.List.Flatten

/-!
# Regrouping bits

Digits of one width are shifted into a register at its low end, and digits of
another width are taken from the bits that are still pending there. What matters of
a register is the list of its pending bits, highest first: a digit that comes in
adds its bits at the end, a digit that is taken is the front.
-/

namespace Federated.Library.BitGroups

variable {w v : Nat}

/-- The low `k` bits, highest first. -/
def lowBits (r : BitVec w) : Nat → List Bool
  | 0 => []
  | k + 1 => r.getLsbD k :: lowBits r k

/-- The bits of a list of digits of one width. -/
def bits (digits : List (BitVec w)) : List Bool := digits.flatMap fun d => lowBits d w

@[simp] theorem length_lowBits (r : BitVec w) (k : Nat) : (lowBits r k).length = k := by
  induction k with
  | zero => rfl
  | succ k ih => rw [lowBits, List.length_cons, ih]

/-- The low bits depend on nothing above them. -/
theorem lowBits_congr {r : BitVec w} {s : BitVec v} {k : Nat}
    (h : ∀ i < k, r.getLsbD i = s.getLsbD i) : lowBits r k = lowBits s k := by
  induction k with
  | zero => rfl
  | succ k ih => rw [lowBits, lowBits, h k (Nat.lt_succ_self k), ih fun i hi => h i (by omega)]

theorem lowBits_inj {r s : BitVec w} (h : lowBits r w = lowBits s w) : r = s := by
  have hbits : ∀ k, lowBits r k = lowBits s k → ∀ i < k, r.getLsbD i = s.getLsbD i := by
    intro k
    induction k with
    | zero => exact fun _ i hi => absurd hi (Nat.not_lt_zero i)
    | succ k ih =>
      intro h i hi
      obtain ⟨hhigh, hlow⟩ := List.cons.inj h
      rcases Nat.lt_succ_iff_lt_or_eq.mp hi with hi | rfl
      · exact ih hlow i hi
      · exact hhigh
  exact BitVec.eq_of_getLsbD_eq fun i hi => hbits w h i hi

/-- The pending bits of a register are those above, and those below a place. -/
theorem lowBits_add (r : BitVec w) (k m : Nat) :
    lowBits r (k + m) = lowBits (r >>> m) k ++ lowBits r m := by
  induction k with
  | zero => rw [Nat.zero_add]; rfl
  | succ k ih =>
    rw [Nat.succ_add, lowBits, lowBits, ih, BitVec.getLsbD_ushiftRight, Nat.add_comm m k]
    rfl

/-- A digit that is shifted in adds its bits behind those that were pending. -/
theorem lowBits_push {r : BitVec w} {k m : Nat} (d : BitVec m) (hroom : k + m ≤ w) :
    lowBits (r <<< m ||| d.setWidth w) (k + m) = lowBits r k ++ lowBits d m := by
  induction k with
  | zero =>
    rw [Nat.zero_add, lowBits, List.nil_append]
    refine lowBits_congr fun i hi => ?_
    have hw : i < w := by omega
    simp [hi, hw]
  | succ k ih =>
    have hw : k + m < w := by omega
    have hdigit : d.getLsbD (k + m) = false := BitVec.getLsbD_of_ge d _ (by omega)
    have htop : (r <<< m ||| d.setWidth w).getLsbD (k + m) = r.getLsbD k := by
      rw [BitVec.getLsbD_or, BitVec.getLsbD_shiftLeft, BitVec.getLsbD_setWidth, hdigit,
        Nat.add_sub_cancel]
      simp only [hw, decide_true, Bool.true_and, Bool.and_false, Bool.or_false]
      rw [decide_eq_false (by omega), Bool.not_false, Bool.true_and]
    rw [Nat.succ_add, lowBits, htop, ih (by omega)]
    rfl

/-- Zero bits that are shifted in stand behind the pending ones. -/
theorem lowBits_shiftLeft {r : BitVec w} {k m : Nat} (hroom : k + m ≤ w) :
    lowBits (r <<< m) (k + m) = lowBits r k ++ List.replicate m false := by
  have hzero : lowBits (0 : BitVec m) m = List.replicate m false := by
    have hall : ∀ k, lowBits (0 : BitVec m) k = List.replicate k false := by
      intro k
      induction k with
      | zero => rfl
      | succ k ih =>
        rw [lowBits, ih, List.replicate_succ, BitVec.ofNat_eq_ofNat, BitVec.getLsbD_zero]
    exact hall m
  rw [← hzero, ← lowBits_push 0 hroom]
  simp

theorem lowBits_setWidth (r : BitVec w) (k : Nat) : lowBits (r.setWidth k) k = lowBits r k :=
  lowBits_congr fun i hi => by simp [hi]

@[simp] theorem bits_nil : bits ([] : List (BitVec w)) = [] := rfl

@[simp] theorem bits_cons (d : BitVec w) (digits : List (BitVec w)) :
    bits (d :: digits) = lowBits d w ++ bits digits := rfl

@[simp] theorem bits_append (a b : List (BitVec w)) : bits (a ++ b) = bits a ++ bits b :=
  List.flatMap_append

@[simp] theorem length_bits (digits : List (BitVec w)) :
    (bits digits).length = w * digits.length := by
  induction digits with
  | nil => rfl
  | cons d digits ih => rw [bits_cons, List.length_append, length_lowBits, ih,
      List.length_cons, Nat.mul_succ, Nat.add_comm]

/-- Digits of one width are read off their bits. -/
theorem bits_inj {a b : List (BitVec w)} (hlength : a.length = b.length) (h : bits a = bits b) :
    a = b := by
  induction a generalizing b with
  | nil => exact (List.eq_nil_of_length_eq_zero hlength.symm).symm
  | cons d a ih =>
    cases b with
    | nil => cases hlength
    | cons e b =>
      obtain ⟨hdigit, hrest⟩ := List.append_inj h (by simp)
      rw [lowBits_inj hdigit, ih (Nat.succ.inj hlength) hrest]

/-- Digits that agree with others in all but a remainder shorter than a digit on either side. -/
theorem eq_of_bits_append {a b : List (BitVec w)} {rest pad : List Bool}
    (h : bits a ++ rest = bits b ++ pad) (hrest : rest.length < w) (hpad : pad.length < w) :
    a = b := by
  have hlength : a.length = b.length := by
    have htotal := congrArg List.length h
    simp only [List.length_append, length_bits] at htotal
    have hrests : rest.length / w = 0 := Nat.div_eq_of_lt hrest
    have hpads : pad.length / w = 0 := Nat.div_eq_of_lt hpad
    have hw : 0 < w := by omega
    calc a.length = (w * a.length + rest.length) / w := by
          rw [Nat.mul_add_div hw, hrests, Nat.add_zero]
      _ = (w * b.length + pad.length) / w := by rw [htotal]
      _ = b.length := by rw [Nat.mul_add_div hw, hpads, Nat.add_zero]
  exact bits_inj hlength (List.append_inj h (by rw [length_bits, length_bits, hlength])).1

end Federated.Library.BitGroups
