import Mathlib.Data.List.ReduceOption

/-!
# Tables of slots

Each slot is free or has one occupant. A newcomer takes the first free slot, and
one that leaves frees the first that it occupies. The occupants are compared as a
list, up to their order.
-/

namespace Federated.Library

variable {α : Type*} {slots : List (Option α)} {i : Nat}

theorem reduceOption_set (hi : i < slots.length) (x : Option α) :
    (slots.set i x).reduceOption =
      (slots.take i).reduceOption ++ x.toList ++ (slots.drop (i + 1)).reduceOption := by
  rw [List.set_eq_take_append_cons_drop, if_pos hi, List.reduceOption_append]
  cases x <;> simp

/-- While there are fewer occupants than slots, one of these is free. -/
theorem exists_free (h : slots.reduceOption.length < slots.length) :
    ∃ i, slots.findIdx? (·.isNone) = some i := by
  rw [List.reduceOption_length_lt_iff] at h
  rw [← Option.isSome_iff_exists, List.findIdx?_isSome, List.any_eq_true]
  exact ⟨none, h, rfl⟩

/-- A newcomer joins the occupants. -/
theorem reduceOption_fill (h : slots.findIdx? (·.isNone) = some i) (a : α) :
    (slots.set i (some a)).reduceOption.Perm (a :: slots.reduceOption) := by
  obtain ⟨hi, hfree, -⟩ := List.findIdx?_eq_some_iff_getElem.mp h
  have hsame : slots.reduceOption = (slots.set i none).reduceOption := by
    rw [← Option.isNone_iff_eq_none.mp hfree, List.set_getElem_self]
  rw [hsame, reduceOption_set hi, reduceOption_set hi]
  simp

variable [DecidableEq α] {a : α}

theorem exists_slot (h : a ∈ slots.reduceOption) : ∃ i, slots.findIdx? (· = some a) = some i := by
  rw [List.reduceOption_mem_iff] at h
  rw [← Option.isSome_iff_exists, List.findIdx?_isSome, List.any_eq_true]
  exact ⟨some a, h, by simp⟩

/-- One that leaves is missing among the occupants. -/
theorem reduceOption_free (h : slots.findIdx? (· = some a) = some i) :
    slots.reduceOption.Perm (a :: (slots.set i none).reduceOption) := by
  obtain ⟨hi, htaken, -⟩ := List.findIdx?_eq_some_iff_getElem.mp h
  have hsame : slots.reduceOption = (slots.set i (some a)).reduceOption := by
    rw [← of_decide_eq_true htaken, List.set_getElem_self]
  rw [hsame, reduceOption_set hi, reduceOption_set hi]
  simp

theorem count_reduceOption (slots : List (Option α)) (a : α) :
    slots.reduceOption.count a = slots.count (some a) := by
  induction slots with
  | nil => rfl
  | cons x slots ih => cases x <;> simp [List.count_cons, ih]

end Federated.Library
