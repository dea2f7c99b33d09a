import Mathlib.Data.List.Infix

/-!
# Texts cut into pieces

A cutter takes a front off a text, and by taking fronts until nothing is left it
cuts the text into pieces. Where a cut falls whatever comes behind, texts can be
cut one after the other.
-/

namespace Federated.Library

variable {α : Type*}

/-- A front of each text, which is empty for the empty text only. -/
structure Cutter (α : Type*) where
  front : List α → List α
  isPrefix : ∀ text, front text <+: text
  nonempty : ∀ {text}, text ≠ [] → front text ≠ []

namespace Cutter

variable (c : Cutter α) {text a b : List α}

theorem length_front_pos (h : text ≠ []) : 0 < (c.front text).length :=
  List.length_pos_iff.mpr (c.nonempty h)

theorem front_append_drop (text : List α) :
    c.front text ++ text.drop (c.front text).length = text :=
  List.prefix_iff_eq_append.mp (c.isPrefix text)

/-- Take fronts until nothing is left. -/
def pieces (text : List α) : List (List α) :=
  if _h : text = [] then [] else c.front text :: pieces (text.drop (c.front text).length)
termination_by text.length
decreasing_by
  have := c.length_front_pos _h
  have := List.length_pos_iff.mpr _h
  simp only [List.length_drop]
  omega

@[simp] theorem pieces_nil : c.pieces [] = [] := by
  rw [pieces, dif_pos rfl]

theorem pieces_of_ne_nil (h : text ≠ []) :
    c.pieces text = c.front text :: c.pieces (text.drop (c.front text).length) := by
  rw [pieces, dif_neg h]

@[simp] theorem flatten_pieces (text : List α) : (c.pieces text).flatten = text := by
  induction text using pieces.induct c with
  | case1 => simp
  | case2 text h ih => rw [c.pieces_of_ne_nil h, List.flatten_cons, ih, c.front_append_drop]

/-- A piece is the front of what was left. -/
theorem exists_front {piece : List α} (h : piece ∈ c.pieces text) :
    ∃ left, left ≠ [] ∧ piece = c.front left := by
  induction text using pieces.induct c with
  | case1 => simp at h
  | case2 text hne ih =>
    rw [c.pieces_of_ne_nil hne] at h
    rcases List.mem_cons.mp h with rfl | h
    · exact ⟨text, hne, rfl⟩
    · exact ih h

theorem pieces_eq_singleton (h : text ≠ []) (hwhole : c.front text = text) :
    c.pieces text = [text] := by
  rw [c.pieces_of_ne_nil h, hwhole, List.drop_length, pieces_nil]

/-! ## Texts that end with a mark -/

/-- The text is empty or ends with a mark. -/
def Closed (mark : α) (text : List α) : Prop := ∀ x ∈ text.getLast?, x = mark

variable {mark : α}

theorem Closed.of_append (h : Closed mark (a ++ b)) : Closed mark b := by
  intro x hx
  have hlast : b.getLast? = some x := hx
  exact h x (by simp [List.getLast?_append, hlast])

/-- Behind a mark there is always a cut. -/
def CutsAt (mark : α) : Prop :=
  ∀ a b, a ≠ [] → Closed mark a → c.front (a ++ b) = c.front a

/-- Texts in front of a mark are cut by themselves. -/
theorem pieces_append {c : Cutter α} (h : c.CutsAt mark) (ha : Closed mark a) (b : List α) :
    c.pieces (a ++ b) = c.pieces a ++ c.pieces b := by
  induction a using pieces.induct c with
  | case1 => simp
  | case2 a hne ih =>
    have hfront := h a b hne ha
    have hle : (c.front a).length ≤ a.length := (c.isPrefix a).length_le
    have hrest : Closed mark (a.drop (c.front a).length) :=
      Closed.of_append (by rwa [c.front_append_drop])
    have happend : a ++ b ≠ [] := List.append_ne_nil_of_left_ne_nil hne b
    rw [c.pieces_of_ne_nil happend, c.pieces_of_ne_nil hne, hfront,
      List.drop_append_of_le_length hle, ih hrest, List.cons_append]

/-- Where coarse pieces end with a mark, a finer cutter cuts each of them by itself. -/
theorem pieces_eq_flatMap {fine coarse : Cutter α} (hfine : fine.CutsAt mark)
    (hcoarse : ∀ text, coarse.front text = text ∨ Closed mark (coarse.front text))
    (text : List α) : fine.pieces text = (coarse.pieces text).flatMap fine.pieces := by
  induction text using pieces.induct coarse with
  | case1 => simp
  | case2 text hne ih =>
    rw [coarse.pieces_of_ne_nil hne, List.flatMap_cons, ← ih]
    rcases hcoarse text with hwhole | hclosed
    · rw [hwhole, List.drop_length, pieces_nil, List.append_nil]
    · rw [← pieces_append hfine hclosed, coarse.front_append_drop]

end Cutter

end Federated.Library
