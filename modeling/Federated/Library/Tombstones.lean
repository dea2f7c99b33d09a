import Mathlib.Data.List.Basic

/-!
# Entries that are marked instead of taken out

A list of slots, some of which stand for an entry. Marking the first slot whose
entry is looked for takes that entry out of the entries in order; nothing else
moves. A loop that copies entries into an array stops at a limit.
-/

namespace Federated.Library

variable {α β : Type*} {view : α → Option β}

/-- Marking the slot that a search stops at erases its entry. -/
theorem filterMap_modify_findIdx? {p : α → Bool} {q : β → Bool} (mark : α → α)
    (hmark : ∀ x, view (mark x) = none) (hfind : ∀ x, p x = (view x).any q) {slots : List α}
    {i : Nat} (h : slots.findIdx? p = some i) :
    (slots.modify i mark).filterMap view = (slots.filterMap view).eraseP q := by
  induction slots generalizing i with
  | nil => simp at h
  | cons x slots ih =>
    rw [List.findIdx?_cons] at h
    have hpx := hfind x
    cases hview : view x with
    | none =>
      have hp : p x = false := by simpa [hview] using hpx
      obtain ⟨j, hj, rfl⟩ : ∃ j, slots.findIdx? p = some j ∧ j + 1 = i := by simpa [hp] using h
      simp [hview, ih hj]
    | some y =>
      have hp : p x = q y := by simpa [hview] using hpx
      cases hq : q y with
      | true =>
        obtain rfl : 0 = i := by simpa [hp, hq] using h
        simp [hview, hmark, hq]
      | false =>
        obtain ⟨j, hj, rfl⟩ : ∃ j, slots.findIdx? p = some j ∧ j + 1 = i := by
          simpa [hp, hq] using h
        simp [hview, hq, ih hj]

/-- A loop that copies what a test lets through, up to a limit, into an array. -/
theorem foldl_fill {p : α → Bool} {f : α → β} {limit : Nat} (slots : List α) (written rest : List β)
    (hwritten : written.length ≤ limit) (hroom : limit ≤ written.length + rest.length) :
    slots.foldl
        (fun acc x => if acc.2 < limit ∧ p x then (acc.1.set acc.2 (f x), acc.2 + 1) else acc)
      (written ++ rest, written.length) =
    (let found := ((slots.filter p).map f).take (limit - written.length)
     (written ++ found ++ rest.drop found.length, written.length + found.length)) := by
  induction slots generalizing written rest with
  | nil => simp
  | cons x slots ih =>
    rw [List.foldl_cons]
    by_cases hx : written.length < limit ∧ p x
    · obtain ⟨y, rest, rfl⟩ : ∃ y ys, rest = y :: ys := by
        refine List.exists_cons_of_length_pos ?_
        omega
      have hlen : (written ++ [f x]).length = written.length + 1 := by simp
      have hset : (written ++ y :: rest).set written.length (f x) = (written ++ [f x]) ++ rest := by
        simp
      have hleft : limit - written.length = limit - (written.length + 1) + 1 := by omega
      rw [if_pos hx, hset, ← hlen, ih _ _ (by omega) (by simp at hroom ⊢; omega)]
      simp [hx.2, hleft]
      omega
    · rw [if_neg hx, ih _ _ hwritten hroom]
      by_cases hfull : written.length < limit
      · have hp : p x = false := by simpa [hfull] using hx
        simp [hp]
      · have hnone : limit - written.length = 0 := by omega
        simp [hnone]

end Federated.Library
