import Mathlib.Data.List.TakeWhile

/-!
# Texts up to a mark

What stands in front of the first mark of a text, and what is left from the mark on.
-/

namespace Federated.Library

variable {α : Type*} [DecidableEq α] {mark : α} {front : List α}

/-- A text without the mark passes the test of the loops that look for it. -/
theorem forall_ne_of_notMem (h : mark ∉ front) : ∀ c ∈ front, decide (c ≠ mark) = true := by
  intro c hc
  simpa using fun heq : c = mark => h (heq ▸ hc)

theorem notMem_takeWhile_ne (text : List α) : mark ∉ text.takeWhile (· ≠ mark) := by
  intro h
  simpa using List.mem_takeWhile_imp h

theorem takeWhile_ne_self (h : mark ∉ front) : front.takeWhile (· ≠ mark) = front :=
  List.takeWhile_eq_self_iff.mpr (forall_ne_of_notMem h)

theorem dropWhile_ne_self (h : mark ∉ front) : front.dropWhile (· ≠ mark) = [] :=
  List.dropWhile_eq_nil_iff.mpr (forall_ne_of_notMem h)

theorem takeWhile_ne_append (h : mark ∉ front) (rest : List α) :
    (front ++ mark :: rest).takeWhile (· ≠ mark) = front := by
  rw [List.takeWhile_append_of_pos (forall_ne_of_notMem h)]
  simp

theorem dropWhile_ne_append (h : mark ∉ front) (rest : List α) :
    (front ++ mark :: rest).dropWhile (· ≠ mark) = mark :: rest := by
  rw [List.dropWhile_append_of_pos (forall_ne_of_notMem h)]
  simp

end Federated.Library
