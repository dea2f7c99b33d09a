import Mathlib.Data.List.Basic

/-!
# Searching a list

A search takes the first answer of any kind. Where some answer of a kind `g` exists,
the search gives one exactly if nothing in front of the first of them answers at all.
-/

namespace Federated.Library

variable {α β : Type*} {f g : α → Option β} {l : List α}

/-- A nested search is a search of the concatenation. -/
theorem findSome?_flatMap {γ : Type*} (rows : α → List γ) (f : γ → Option β) (l : List α) :
    (l.flatMap rows).findSome? f = l.findSome? fun a => (rows a).findSome? f := by
  induction l with
  | nil => rfl
  | cons a l ih =>
    rw [List.flatMap_cons, List.findSome?_append, ih, List.findSome?_cons]
    cases (rows a).findSome? f <;> rfl

/-- A search that passes over some elements is a search of the others. -/
theorem findSome?_filter (p : α → Bool) (f : α → Option β) (l : List α) :
    (l.filter p).findSome? f = l.findSome? fun a => if p a then f a else none := by
  induction l with
  | nil => rfl
  | cons a l ih => cases hp : p a <;> simp [hp, ih, List.findSome?_cons]

/-- A list has a first element with a property that some element of it has. -/
theorem exists_first {p : α → Prop} (h : ∃ a ∈ l, p a) :
    ∃ pre a post, l = pre ++ a :: post ∧ p a ∧ ∀ b ∈ pre, ¬ p b := by
  classical
  obtain ⟨a, ha, hpa⟩ := h
  obtain ⟨first, hfirst⟩ := Option.isSome_iff_exists.mp
    ((List.find?_isSome (p := fun a => decide (p a))).mpr ⟨a, ha, decide_eq_true hpa⟩)
  obtain ⟨hp, pre, post, rfl, hpre⟩ := List.find?_eq_some_iff_append.mp hfirst
  exact ⟨pre, first, post, rfl, of_decide_eq_true hp, by simpa using hpre⟩

/-- `hkind` says that an answer tells whether it is of the kind. -/
theorem findSome?_preferred_iff (hanswer : ∀ a ∈ l, ∀ v ∈ g a, f a = some v)
    (hkind : ∀ a, ∀ b ∈ l, ∀ v ∈ g a, f b = some v → g b = some v) (hex : ∃ a ∈ l, (g a).isSome) :
    (∃ a ∈ l, ∃ v ∈ g a, l.findSome? f = some v) ↔
      ∀ pre a post, l = pre ++ a :: post → (g a).isSome → (∀ q ∈ pre, g q = none) →
        ∀ q ∈ pre, f q = none := by
  constructor
  · rintro ⟨a, -, v, hv, hfind⟩ pre b post rfl - hpre
    rw [List.findSome?_append] at hfind
    cases hfront : pre.findSome? f with
    | none => exact List.findSome?_eq_none_iff.mp hfront
    | some w =>
      -- The answer would be the preferred one, and given in front of the first of those.
      obtain rfl : w = v := by simpa [hfront] using hfind
      obtain ⟨q, hq, hfq⟩ := List.exists_of_findSome?_eq_some hfront
      have hgq := hkind a q (by simp [hq]) w hv hfq
      rw [hpre q hq] at hgq
      cases hgq
  · intro h
    obtain ⟨pre, a, post, rfl, ha, hpre⟩ := exists_first hex
    have hpre : ∀ q ∈ pre, g q = none := by simpa using hpre
    obtain ⟨v, hv⟩ := Option.isSome_iff_exists.mp ha
    refine ⟨a, by simp, v, hv, List.findSome?_eq_some_iff.mpr ?_⟩
    exact ⟨pre, a, post, rfl, hanswer a (by simp) v hv, h pre a post rfl ha hpre⟩

end Federated.Library
