import Mathlib.Data.List.Basic

/-!
# Paths and their components

A path is a list of characters cut into components by a separator. A name lies
below a root if it goes on behind the root with a separator and none of the
components that follow leads up again.
-/

namespace Federated.Library

variable {α : Type*}

/-- `name` continues `root` without a component that leads up. -/
def Below [DecidableEq α] (sep : α) (up root name : List α) : Prop :=
  ∃ rest, name = root ++ sep :: rest ∧ up ∉ rest.splitOn sep

theorem infix_intercalate {c between : List α} {parts : List (List α)} (h : c ∈ parts) :
    c <:+: between.intercalate parts := by
  induction parts with
  | nil => simp at h
  | cons part parts ih =>
    cases parts with
    | nil =>
      obtain rfl : c = part := by simpa using h
      simp
    | cons next parts =>
      rw [List.intercalate_cons_cons]
      rcases List.mem_cons.mp h with rfl | h
      · exact ⟨[], between ++ between.intercalate (next :: parts), by simp⟩
      · exact (ih h).trans List.infix_append_right

variable [DecidableEq α] {sep : α} {up : List α}

/-- A component is a part of its path. -/
theorem infix_of_mem_splitOn {c path : List α} (h : c ∈ path.splitOn sep) : c <:+: path := by
  have hpart : c <:+: [sep].intercalate (path.splitOn sep) := infix_intercalate h
  rwa [List.intercalate_splitOn] at hpart

/-- Without the name for the way up in it, a path that starts with a separator stays below. -/
theorem below_append {root path : List α} (h : ¬ up <:+: path) :
    Below sep up root (root ++ sep :: path) :=
  ⟨path, rfl, fun hup => h (infix_of_mem_splitOn hup)⟩

/-- So it does with a file name behind it. -/
theorem below_append_append {root path file : List α} (h : ¬ up <:+: path)
    (hfile : ¬ up <:+: file) : Below sep up root (root ++ sep :: (path ++ sep :: file)) := by
  refine ⟨_, rfl, ?_⟩
  rw [List.splitOn_append_cons_self, List.mem_append]
  rintro (hup | hup)
  · exact h (infix_of_mem_splitOn hup)
  · exact hfile (infix_of_mem_splitOn hup)

/-- A name that does not go on with a separator is not below the root. -/
theorem not_below_append {root path : List α} (h : path.head? ≠ some sep) :
    ¬ Below sep up root (root ++ path) := by
  rintro ⟨rest, hname, -⟩
  rw [List.append_cancel_left hname] at h
  exact h rfl

end Federated.Library
