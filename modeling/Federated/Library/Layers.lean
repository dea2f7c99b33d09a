import Mathlib.Algebra.Group.Nat.Even
import Mathlib.Data.List.Basic

/-!
# Layers that are put on and taken off

`wrap` puts a layer on a value and `unwrap` takes it off again. Layers put on
one after the other come off in the opposite order, all of them or only the
last ones. Where the layers commute and each undoes itself, the order is of no
account, and of each layer only whether it occurs an even number of times.
-/

namespace Federated.Library

variable {α κ : Type*} {wrap unwrap : α → κ → α}

/-- Layers come off in the opposite order. -/
theorem foldl_unwrap_foldl_wrap (cancel : ∀ a k, unwrap (wrap a k) k = a) (ks : List κ) (a : α) :
    ks.reverse.foldl unwrap (ks.foldl wrap a) = a := by
  induction ks generalizing a with
  | nil => rfl
  | cons k ks ih => simp [ih, cancel]

/-- The layers put on last come off first, and the others stay. -/
theorem foldl_unwrap_foldl_wrap_append (cancel : ∀ a k, unwrap (wrap a k) k = a)
    (inner outer : List κ) (a : α) :
    outer.reverse.foldl unwrap ((inner ++ outer).foldl wrap a) = inner.foldl wrap a := by
  rw [List.foldl_append, foldl_unwrap_foldl_wrap cancel]

/-! ## Layers in any order -/

section

variable [DecidableEq κ] {ks ls : List κ}

/-- Layers that occur an even number of times come to nothing. -/
theorem foldl_wrap_of_even (comm : ∀ a k l, wrap (wrap a k) l = wrap (wrap a l) k)
    (cancel : ∀ a k, wrap (wrap a k) k = a) (heven : ∀ k, Even (ks.count k)) (a : α) :
    ks.foldl wrap a = a := by
  induction hlen : ks.length using Nat.strong_induction_on generalizing ks a with
  | h n ih =>
    cases ks with
    | nil => rfl
    | cons k ks =>
      -- The layer occurs once more behind, so the two cancel.
      have hmem : k ∈ ks := by
        have := heven k
        rw [List.count_cons_self] at this
        exact List.count_pos_iff.mp (by grind)
      have hperm : (k :: ks).Perm (k :: k :: ks.erase k) :=
        (List.perm_cons_erase hmem).cons k
      rw [hperm.foldl_eq' (fun x _ y _ z => comm z x y) a, List.foldl_cons, List.foldl_cons, cancel]
      refine ih _ ?_ (fun l => ?_) a rfl
      · have := hperm.length_eq
        grind
      · have := heven l
        rw [hperm.count_eq] at this
        grind

/-- What counts is the parity of the number of times that each layer occurs. -/
theorem foldl_wrap_of_parity (comm : ∀ a k l, wrap (wrap a k) l = wrap (wrap a l) k)
    (cancel : ∀ a k, wrap (wrap a k) k = a) (h : ∀ k, ks.count k % 2 = ls.count k % 2) (a : α) :
    ks.foldl wrap a = ls.foldl wrap a := by
  have htwice : (ls ++ ls).foldl wrap a = a := foldl_wrap_of_even comm cancel (by grind) a
  have hboth : (ls ++ ks).foldl wrap (ls.foldl wrap a) = ls.foldl wrap a :=
    foldl_wrap_of_even comm cancel (by grind) _
  rw [List.foldl_append] at htwice hboth
  rwa [htwice] at hboth

end

end Federated.Library
