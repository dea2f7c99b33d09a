import Federated.Onion.CircuitLife

/-!
# The end of the onion router

When the router is destroyed it goes through its slots and destroys the circuits they point to.
Behind any run these are the live circuits, each of them once.
-/

namespace Federated.Onion

open Library

namespace SimpleOnionRouter

/-- Destroy the circuit that a slot points to, if there is one. -/
def clearSlot (router : SimpleOnionRouter) (i : Nat) : Except Fault SimpleOnionRouter :=
  match router.activeCircuits[i]? with
  | some (some a) => (router.destroyCircuit (some a)).map Prod.snd
  | _ => .ok router

/-- Destroy the router. -/
def destroy (router : SimpleOnionRouter) : Except Fault SimpleOnionRouter :=
  (List.range circuitCapacity).foldlM clearSlot router

variable {router : SimpleOnionRouter} {i : Nat}

/-- The slots in front of `i` are free. -/
def ClearedTo (i : Nat) (router : SimpleOnionRouter) : Prop :=
  ∀ j < i, router.activeCircuits[j]? = some none

/-- Where the slots in front are free, the circuit of a slot is destroyed and the slot is freed. -/
theorem Sound.clearSlot (h : Sound router) (hcleared : router.ClearedTo i)
    (hi : i < circuitCapacity) :
    ∃ router', router.clearSlot i = .ok router' ∧ Sound router' ∧ router'.ClearedTo (i + 1) := by
  have hslot : i < router.activeCircuits.length := by rwa [router.sized]
  cases hpointer : router.activeCircuits[i] with
  | none =>
    refine ⟨router, ?_, h, fun j hj => ?_⟩
    · rw [SimpleOnionRouter.clearSlot, List.getElem?_eq_getElem hslot, hpointer]
    · obtain hlt | rfl := Nat.lt_succ_iff_lt_or_eq.mp hj
      · exact hcleared j hlt
      · rw [List.getElem?_eq_getElem hslot, hpointer]
  | some a =>
    have hmem : some a ∈ router.activeCircuits := hpointer ▸ List.getElem_mem hslot
    have hlive : a ∈ router.live := h.pointed.mem_iff.mp (List.reduceOption_mem_iff.mpr hmem)
    have hfirst : router.activeCircuits.findIdx? (· = some a) = some i := by
      rw [List.findIdx?_eq_some_iff_getElem]
      refine ⟨hslot, by simpa using hpointer, fun j hj => ?_⟩
      have hfree := hcleared j hj
      rw [List.getElem?_eq_getElem (hj.trans hslot), Option.some_inj] at hfree
      simp [hfree]
    obtain ⟨router', hdestroy, hsound, -⟩ := destroyCircuit_live h hlive
    have hrouter' : router' = (router.release a).delete a := by
      rw [destroyCircuit, if_pos hlive] at hdestroy
      cases hdestroy
      rfl
    have hslots : router'.activeCircuits = router.activeCircuits.set i none := by
      simp [hrouter', delete, release, hfirst]
    refine ⟨router', ?_, hsound, fun j hj => ?_⟩
    · rw [SimpleOnionRouter.clearSlot, List.getElem?_eq_getElem hslot, hpointer]
      simp only [hdestroy]
      rfl
    · rw [hslots]
      obtain hlt | rfl := Nat.lt_succ_iff_lt_or_eq.mp hj
      · rw [List.getElem?_set_ne (Nat.ne_of_gt hlt)]
        exact hcleared j hlt
      · exact List.getElem?_set_self hslot

/-- The slots are cleared one after the other. -/
theorem Sound.clearSlots (h : Sound router) {k : Nat} (hk : k ≤ circuitCapacity) :
    ∃ router', (List.range k).foldlM SimpleOnionRouter.clearSlot router = .ok router' ∧
      Sound router' ∧ router'.ClearedTo k := by
  induction k with
  | zero => exact ⟨router, rfl, h, fun j hj => absurd hj (Nat.not_lt_zero j)⟩
  | succ k ih =>
    obtain ⟨mid, hmid, hsound, hcleared⟩ := ih (Nat.le_of_succ_le hk)
    obtain ⟨router', hclear, hend⟩ := hsound.clearSlot hcleared hk
    have hlast : [k].foldlM SimpleOnionRouter.clearSlot mid = .ok router' := by
      rw [List.foldlM_cons, hclear]
      rfl
    refine ⟨router', ?_, hend⟩
    rw [List.range_succ, List.foldlM_append, hmid]
    exact hlast

/-- Behind every run that destroys only live circuits, the router is destroyed without a dangling
pointer, and no circuit is left over. -/
theorem destroy_after (calls : List CircuitCall) (h : Along step Fits new calls) :
    ∃ router, (after step new calls).destroy = .ok router ∧ router.heap = [] ∧
      router.circuitCount = 0 ∧ ∀ slot ∈ router.activeCircuits, slot = none := by
  obtain ⟨router, hdestroy, hsound, hcleared⟩ := (sound_after h).clearSlots le_rfl
  have hfree : ∀ slot ∈ router.activeCircuits, slot = none := by
    intro slot hslot
    obtain ⟨j, hj, rfl⟩ := List.getElem_of_mem hslot
    have hnone := hcleared j (router.sized ▸ hj)
    rwa [List.getElem?_eq_getElem hj, Option.some_inj] at hnone
  have hlive : router.live = [] := by
    have hnil : router.activeCircuits.reduceOption = [] := by
      rw [List.eq_nil_iff_forall_not_mem]
      intro a ha
      cases hfree _ (List.reduceOption_mem_iff.mp ha)
    exact List.Perm.nil_eq (hnil ▸ hsound.pointed) |>.symm
  refine ⟨router, hdestroy, List.map_eq_nil_iff.mp hlive, ?_, hfree⟩
  rw [hsound.circuitCount_eq, hlive, List.length_nil]

/-- Two circuits that are left at the end. -/
theorem destroy_after_two :
    ∃ router, (after step new [.create (some [default]) (some none) 5,
      .create (some [default, default]) (some none) 7]).destroy = .ok router ∧ router.heap = [] ∧
      router.circuitCount = 0 ∧ ∀ slot ∈ router.activeCircuits, slot = none :=
  destroy_after [.create (some [default]) (some none) 5,
    .create (some [default, default]) (some none) 7] (by
      refine ⟨?_, ?_, trivial⟩
      · simp [Fits, live, new]
      · show 7 ∉ _
        decide)

end SimpleOnionRouter

end Federated.Onion
