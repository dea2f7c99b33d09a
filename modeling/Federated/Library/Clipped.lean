import Mathlib.Data.List.Basic

/-!
# Texts that are clipped to a size

A text is written in pieces while there is room. The piece that does not fit is clipped, and
nothing comes behind it. One place is kept free for an end mark.
-/

namespace Federated.Library

variable {α : Type*}

/-- What was written so far, and the room that is left with the place of the end mark. -/
structure Clipped (α : Type*) where
  written : List α
  room : Nat

namespace Clipped

/-- Nothing is written yet. -/
def start (size : Nat) : Clipped α := ⟨[], size⟩

/-- Write a piece, or its front if that is what fits. -/
def write (c : Clipped α) (piece : List α) : Clipped α :=
  if piece.length < c.room then ⟨c.written ++ piece, c.room - piece.length⟩
  else ⟨c.written ++ piece.take (c.room - 1), 0⟩

/-- A part of a text is written: the whole of it, with room left, or as much of it as fits. -/
def Holds (size : Nat) (text : List α) (c : Clipped α) : Prop :=
  c.written = text.take (size - 1) ∧
    (text.length < size ∧ c.room = size - text.length ∨ size ≤ text.length ∧ c.room = 0)

variable {size : Nat} {text : List α} {c : Clipped α}

theorem holds_start (size : Nat) : (start size : Clipped α).Holds size [] := by
  refine ⟨by simp [start], ?_⟩
  rcases Nat.eq_zero_or_pos size with rfl | hpos
  · exact .inr ⟨Nat.le_refl _, rfl⟩
  · exact .inl ⟨hpos, rfl⟩

/-- Behind a text that was clipped, nothing more is to be written. -/
theorem Holds.append_of_full (h : c.Holds size text) (hroom : c.room = 0) (more : List α) :
    c.Holds size (text ++ more) := by
  obtain ⟨hwritten, ⟨hfits, hleft⟩ | ⟨hfull, -⟩⟩ := h
  · omega
  · refine ⟨?_, .inr ⟨by rw [List.length_append]; omega, hroom⟩⟩
    rw [hwritten, List.take_append_of_le_length (by omega)]

/-- There is room left as long as the text fits. -/
theorem Holds.written_of_room (h : c.Holds size text) (hroom : c.room ≠ 0) :
    c.written = text ∧ text.length + c.room = size := by
  obtain ⟨hwritten, ⟨hfits, hleft⟩ | ⟨-, hleft⟩⟩ := h
  · exact ⟨by rw [hwritten, List.take_of_length_le (by omega)], by omega⟩
  · exact absurd hleft hroom

theorem Holds.write (h : c.Holds size text) (piece : List α) :
    (c.write piece).Holds size (text ++ piece) := by
  by_cases hroom : c.room = 0
  · have hnone : c.write piece = c := by
      obtain ⟨written, room⟩ := c
      subst hroom
      simp [Clipped.write]
    rw [hnone]
    exact h.append_of_full hroom piece
  · obtain ⟨htext, hsize⟩ := h.written_of_room hroom
    rw [Clipped.write, htext]
    split_ifs with hlt
    · refine ⟨?_, .inl ⟨?_, ?_⟩⟩
      · rw [List.take_of_length_le (by rw [List.length_append]; omega)]
      · rw [List.length_append]
        omega
      · simp only [List.length_append]
        omega
    · refine ⟨?_, .inr ⟨by rw [List.length_append]; omega, rfl⟩⟩
      have hpiece : c.room - 1 = size - 1 - text.length := by omega
      rw [hpiece, List.take_append, List.take_of_length_le (l := text) (by omega)]

end Clipped

end Federated.Library
