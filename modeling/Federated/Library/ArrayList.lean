import Mathlib.Data.List.Basic

/-!
# A list in front of an array

The first cells of an array hold a list. It grows by a write behind it, and shrinks
by moving every entry behind the one that goes one cell to the front.
-/

namespace Federated.Library

variable {α : Type*}

/-- A write in the cell behind the first `n` puts an entry behind theirs. -/
theorem take_set_succ {l : List α} {n : Nat} (h : n < l.length) (a : α) :
    (l.set n a).take (n + 1) = l.take n ++ [a] := by
  rw [List.take_add_one, List.take_set_of_le (Nat.le_refl _), List.getElem?_set_self h]
  rfl

/-- Move the entry behind a cell to it. -/
def shiftAt (l : List α) (j : Nat) : List α :=
  match l[j + 1]? with
  | some a => l.set j a
  | none => l

theorem shiftAt_of_lt {l : List α} {j : Nat} (h : j + 1 < l.length) :
    shiftAt l j = l.set j l[j + 1] := by
  simp [shiftAt, h]

theorem length_shiftAt (l : List α) (j : Nat) : (shiftAt l j).length = l.length := by
  unfold shiftAt
  split <;> simp

/-- The moves, written out: what lies behind the cell moves, the rest stays. -/
theorem foldl_shiftAt {l : List α} {i n : Nat} (h : i + n < l.length) :
    (List.range' i n).foldl shiftAt l =
      l.take i ++ (l.drop (i + 1)).take n ++ l.drop (i + n) := by
  induction n generalizing l i with
  | zero => simp
  | succ n ih =>
    have hlt : i + 1 < l.length := by omega
    have hstep := shiftAt_of_lt hlt
    have hlen : i + 1 + n < (shiftAt l i).length := by
      rw [length_shiftAt]
      omega
    have hfront : (shiftAt l i).take (i + 1) = l.take i ++ [l[i + 1]] := by
      rw [hstep, take_set_succ (by omega)]
    have hbehind : ∀ k, i < k → (shiftAt l i).drop k = l.drop k := by
      intro k hk
      rw [hstep, List.drop_set_of_lt hk]
    have hcell : (l.drop (i + 1)).take (n + 1) = l[i + 1] :: (l.drop (i + 2)).take n := by
      rw [List.drop_eq_getElem_cons hlt, List.take_succ_cons]
    rw [List.range'_succ, List.foldl_cons, ih hlen, hfront, hbehind _ (by omega),
      hbehind _ (by omega), hcell, show i + 1 + n = i + (n + 1) by omega]
    simp

/-- Moving the entries behind the `i`-th of the first `i + n + 1` takes that one out of the
list. -/
theorem take_foldl_shiftAt {l : List α} {i n : Nat} (h : i + n < l.length) :
    ((List.range' i n).foldl shiftAt l).take (i + n) = (l.take (i + n + 1)).eraseIdx i := by
  have hkept : (l.take i ++ (l.drop (i + 1)).take n).length = i + n := by
    simp
    omega
  rw [foldl_shiftAt h, List.take_append_of_le_length (Nat.le_of_eq hkept.symm),
    List.take_of_length_le (Nat.le_of_eq hkept), List.eraseIdx_eq_take_drop_succ, List.take_take,
    List.drop_take]
  congr 2 <;> omega

end Federated.Library
