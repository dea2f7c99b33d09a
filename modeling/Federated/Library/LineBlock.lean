import Mathlib.Data.List.Basic

/-!
# Blocks of lines

Some lines, each in front of a line end of two characters, and one more line end. The
lines are not empty and do not contain the first character of the line end, so that two
line ends meet only at the end of the block.
-/

namespace Federated.Library

variable {α : Type*} {cr lf : α}

structure LineBlock (cr lf : α) where
  lines : List (List α)
  nonempty : ∀ line ∈ lines, line ≠ []
  clean : ∀ line ∈ lines, cr ∉ line

namespace LineBlock

/-- Lines and their ends, and one more line end. -/
def spread (cr lf : α) (lines : List (List α)) : List α :=
  lines.flatMap (· ++ [cr, lf]) ++ [cr, lf]

def bytes (b : LineBlock cr lf) : List α := spread cr lf b.lines

@[simp] theorem spread_nil : spread cr lf [] = [cr, lf] := rfl

@[simp] theorem spread_cons (line : List α) (lines : List (List α)) :
    spread cr lf (line :: lines) = line ++ cr :: lf :: spread cr lf lines := by
  simp [spread]

/-- A line end in front of a block stands at its beginning only if there are no lines. -/
theorem eq_nil_of_spread_eq {lines : List (List α)} {post : List α}
    (hne : ∀ line ∈ lines, line ≠ []) (hclean : ∀ line ∈ lines, cr ∉ line)
    (h : spread cr lf lines = cr :: lf :: post) : post = [] := by
  cases lines with
  | nil => simpa using h.symm
  | cons line lines =>
    obtain ⟨c, rest, rfl⟩ := List.exists_cons_of_ne_nil (hne line List.mem_cons_self)
    have hc : c = cr := by simpa using congrArg List.head? h
    exact absurd (hc ▸ List.mem_cons_self) (hclean _ List.mem_cons_self)

/-- Two line ends meet only at the end of the block. -/
theorem eq_nil_of_two_ends (hends : cr ≠ lf) (b : LineBlock cr lf) {pre post : List α}
    (h : b.bytes = pre ++ cr :: lf :: cr :: lf :: post) : post = [] := by
  obtain ⟨lines, hne, hclean⟩ := b
  change spread cr lf lines = _ at h
  induction lines generalizing pre with
  | nil =>
    have hlength := congrArg List.length h
    simp at hlength
    omega
  | cons line lines ih =>
    obtain ⟨-, hne'⟩ := List.forall_mem_cons.mp hne
    obtain ⟨hline, hclean'⟩ := List.forall_mem_cons.mp hclean
    rw [spread_cons] at h
    rcases List.append_eq_append_iff.mp h with ⟨mid, hpre, hrest⟩ | ⟨mid, hline', hrest⟩
    · -- The ends are behind the line.
      match mid with
      | [] =>
        simp only [List.nil_append, List.cons.injEq, true_and] at hrest
        exact eq_nil_of_spread_eq hne' hclean' hrest
      | [c] =>
        simp only [List.singleton_append, List.cons.injEq] at hrest
        exact absurd hrest.2.1.symm hends
      | c :: d :: mid =>
        simp only [List.cons_append, List.cons.injEq] at hrest
        exact ih hne' hclean' hrest.2.2
    · -- The first one starts within the line.
      cases mid with
      | nil =>
        simp only [List.nil_append, List.cons.injEq, true_and] at hrest
        exact eq_nil_of_spread_eq hne' hclean' hrest.symm
      | cons c mid =>
        simp only [List.cons_append, List.cons.injEq] at hrest
        exact absurd (by rw [hline', hrest.1]; simp) hline

/-- A block with a line ends with two line ends. -/
theorem exists_two_ends {b : LineBlock cr lf} (h : b.lines ≠ []) :
    ∃ pre, b.bytes = pre ++ [cr, lf, cr, lf] := by
  obtain ⟨lines, last, hlast⟩ := List.eq_nil_or_concat b.lines |>.resolve_left h
  refine ⟨lines.flatMap (· ++ [cr, lf]) ++ last, ?_⟩
  rw [bytes, spread, hlast]
  simp

end LineBlock

end Federated.Library
