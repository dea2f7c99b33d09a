import Federated.Onion.CircuitTable

/-!
# The life of a circuit

The table points to every live circuit from one slot and to nothing else, and the
count next to it is that of the live circuits. So a free slot is found whenever the
count is below the capacity.
-/

namespace Federated.Onion

open Crypto Library

namespace SimpleOnionRouter

variable {router router' : SimpleOnionRouter} {a : Address}

/-- The slots that are taken are counted, and point to the live circuits, each of which lies
elsewhere. -/
structure Sound (router : SimpleOnionRouter) : Prop where
  counted : router.circuitCount = router.activeCircuits.reduceOption.length
  pointed : router.activeCircuits.reduceOption.Perm router.live
  apart : router.live.Nodup

theorem sound_new : Sound new := by
  constructor <;> simp [new, live]

theorem Sound.circuitCount_eq (h : Sound router) : router.circuitCount = router.live.length :=
  h.counted.trans h.pointed.length_eq

theorem Sound.circuitCount_le (h : Sound router) : router.circuitCount ≤ circuitCapacity :=
  h.counted.trans_le ((List.reduceOption_length_le _).trans_eq router.sized)

/-- A live circuit has one slot. -/
theorem Sound.count_live (h : Sound router) (ha : a ∈ router.live) :
    router.activeCircuits.count (some a) = 1 := by
  rw [← count_reduceOption, h.pointed.count_eq]
  exact List.count_eq_one_of_mem h.apart ha

theorem Sound.notMem_slots (h : Sound router) (ha : a ∉ router.live) :
    some a ∉ router.activeCircuits := by
  rwa [← List.reduceOption_mem_iff, h.pointed.mem_iff]

/-! ## Creating -/

/-- Neither pointer is null, there are one to ten hops, and fewer circuits are live than there
are slots. -/
def Accepts (router : SimpleOnionRouter) (hops : Option (List Node))
    (outCircuit : Option (Option Address)) : Prop :=
  ∃ nodes out, hops = some nodes ∧ outCircuit = some out ∧
    1 ≤ nodes.length ∧ nodes.length ≤ 10 ∧ router.live.length < circuitCapacity

/-- The circuit that is created next, through the given hops. -/
def nextCircuit (router : SimpleOnionRouter) (nodes : List Node) : Circuit :=
  ⟨router.nextCircuitId, nodes, nodes.map fun _ => chacha20Crypto, true⟩

/-- The circuit goes to the first free slot. -/
theorem createCircuit_eq {nodes : List Node} {out : Option Address} (h : Sound router) (a : Address)
    (haccepts : Accepts router (some nodes) (some out)) :
    ∃ i router', router.activeCircuits.findIdx? (·.isNone) = some i ∧
      createCircuit (some nodes) (some out) a router = (.ok, some (some a), router') ∧
      router'.activeCircuits = router.activeCircuits.set i (some a) ∧
      router'.circuitCount = router.circuitCount + 1 ∧
      router'.nextCircuitId = router.nextCircuitId + 1 ∧
      router'.heap = router.heap ++ [(a, router.nextCircuit nodes)] := by
  obtain ⟨_, _, ⟨⟩, ⟨⟩, hpos, hle, hroom⟩ := haccepts
  have hcount : router.circuitCount < circuitCapacity := by rwa [h.circuitCount_eq]
  obtain ⟨i, hi⟩ : ∃ i, router.activeCircuits.findIdx? (·.isNone) = some i := by
    apply exists_free
    rwa [← h.counted, router.sized]
  simp only [createCircuit, if_neg (Nat.ne_of_gt hpos), if_neg (Nat.not_lt.mpr hle),
    if_neg (Nat.not_le.mpr hcount), hi]
  exact ⟨i, _, rfl, rfl, rfl, rfl, rfl, rfl⟩

theorem createCircuit_accepted {nodes : List Node} {out : Option Address} (h : Sound router)
    (hfresh : a ∉ router.live) (haccepts : Accepts router (some nodes) (some out)) :
    ∃ router', createCircuit (some nodes) (some out) a router = (.ok, some (some a), router') ∧
      Sound router' ∧ router'.heap = router.heap ++ [(a, router.nextCircuit nodes)] ∧
      router'.nextCircuitId = router.nextCircuitId + 1 := by
  obtain ⟨i, router', hi, hcreate, hslots, hcount, hnext, hheap⟩ := createCircuit_eq h a haccepts
  have hfill := reduceOption_fill hi a
  have hlive : router'.live = router.live ++ [a] := by simp [live, hheap]
  refine ⟨router', hcreate, ⟨?_, ?_, ?_⟩, hheap, hnext⟩
  · rw [hcount, hslots, hfill.length_eq, List.length_cons, h.counted]
  · rw [hslots, hlive]
    exact hfill.trans ((h.pointed.cons a).trans (List.perm_append_singleton a _).symm)
  · rw [hlive]
    simpa using h.apart.concat hfresh

theorem createCircuit_refused {hops : Option (List Node)} {outCircuit : Option (Option Address)}
    (h : Sound router) (hrefused : ¬ Accepts router hops outCircuit) :
    ∃ code ≠ .ok, createCircuit hops outCircuit a router = (code, outCircuit, router) := by
  unfold createCircuit
  split
  case h_2 => exact ⟨.errInvalidArg, nofun, rfl⟩
  case h_1 nodes out =>
    split_ifs with hpos hle hfull
    · exact ⟨.errInvalidArg, nofun, rfl⟩
    · exact ⟨.errInvalidArg, nofun, rfl⟩
    · exact ⟨.errOutOfMemory, nofun, rfl⟩
    · rw [h.circuitCount_eq] at hfull
      exact absurd ⟨nodes, out, rfl, rfl, by omega, by omega, by omega⟩ hrefused

/-- A circuit is created exactly if it is accepted; else nothing changes. -/
theorem createCircuit_iff {hops : Option (List Node)} {outCircuit : Option (Option Address)}
    (h : Sound router) (hfresh : a ∉ router.live) :
    ((createCircuit hops outCircuit a router).1 = .ok ↔ Accepts router hops outCircuit) ∧
      ((createCircuit hops outCircuit a router).1 ≠ .ok →
        (createCircuit hops outCircuit a router).2 = (outCircuit, router)) := by
  by_cases haccepts : Accepts router hops outCircuit
  · obtain ⟨nodes, out, rfl, rfl, -⟩ := id haccepts
    obtain ⟨router', hcreate, -⟩ := createCircuit_accepted h hfresh haccepts
    simp [hcreate, haccepts]
  · obtain ⟨code, hcode, hcreate⟩ := createCircuit_refused (a := a) h haccepts
    simp [hcreate, hcode, haccepts]

/-! ## The circuits behind the pointers -/

theorem circuitAt_fresh (ha : a ∉ router.live) : router.circuitAt a = none := by
  have hnone : router.heap.find? (fun e => e.1 = a) = none := by
    rw [List.find?_eq_none]
    intro e he heq
    exact ha (List.mem_map.mpr ⟨e, he, of_decide_eq_true heq⟩)
  rw [circuitAt, hnone, Option.map_none]

/-- An allocation puts a circuit at its address and leaves the others where they are. -/
theorem circuitAt_allocated {c : Circuit} (hfresh : a ∉ router.live)
    (hheap : router'.heap = router.heap ++ [(a, c)]) (b : Address) :
    router'.circuitAt b = if b = a then some c else router.circuitAt b := by
  have hsplit : router'.circuitAt b =
      (router.circuitAt b).or (if b = a then some c else none) := by
    rw [circuitAt, hheap, List.find?_append, Option.map_or, circuitAt]
    grind
  rw [hsplit]
  split_ifs with hb
  · rw [hb, circuitAt_fresh hfresh, Option.none_or]
  · exact Option.or_none

/-! ## Destroying -/

@[simp] theorem heap_release (a : Address) (router : SimpleOnionRouter) :
    (router.release a).heap = router.heap := by
  unfold release
  split <;> rfl

@[simp] theorem nextCircuitId_release (a : Address) (router : SimpleOnionRouter) :
    (router.release a).nextCircuitId = router.nextCircuitId := by
  unfold release
  split <;> rfl

theorem live_delete (a : Address) (router : SimpleOnionRouter) :
    (router.delete a).live = router.live.filter (· ≠ a) := by
  rw [live, live, List.filter_map]
  rfl

/-- A live circuit can be destroyed. -/
theorem destroyCircuit_live (h : Sound router) (ha : a ∈ router.live) :
    ∃ router', destroyCircuit (some a) router = .ok (.ok, router') ∧ Sound router' ∧
      router'.heap = router.heap.filter (fun e => e.1 ≠ a) ∧
      router'.nextCircuitId = router.nextCircuitId := by
  obtain ⟨i, hi⟩ := exists_slot (h.pointed.mem_iff.mpr ha)
  have hfree := reduceOption_free hi
  have hlive : ((router.release a).delete a).live = router.live.erase a := by
    rw [live_delete, h.apart.erase_eq_filter, live, live, heap_release]
    exact List.filter_congr (by grind)
  rw [destroyCircuit, if_pos ha]
  refine ⟨_, rfl, ⟨?_, ?_, ?_⟩, ?_, ?_⟩
  · simp [release, hi, delete, h.counted, hfree.length_eq]
  · rw [hlive]
    simpa [release, hi, delete] using hfree.symm.trans h.pointed |>.erase a
  · rw [hlive]
    exact h.apart.erase a
  · rw [delete, heap_release]
  · exact nextCircuitId_release a router

/-! ## Runs -/

/-- A call that fits creates a circuit, is refused, destroys one or gets a null pointer. -/
theorem Fits.cases {motive : CircuitCall → Prop}
    (created : ∀ nodes out, ∀ a ∉ router.live, Accepts router (some nodes) (some out) →
      motive (.create (some nodes) (some out) a))
    (refused : ∀ hops outCircuit a, ¬ Accepts router hops outCircuit →
      motive (.create hops outCircuit a))
    (destroyed : ∀ a ∈ router.live, motive (.destroy (some a))) (null : motive (.destroy none))
    {call : CircuitCall} (h : router.Fits call) : motive call := by
  rcases call with ⟨hops, outCircuit, a⟩ | _ | a
  · by_cases haccepts : Accepts router hops outCircuit
    · obtain ⟨nodes, out, rfl, rfl, -⟩ := id haccepts
      exact created nodes out a h haccepts
    · exact refused hops outCircuit a haccepts
  · exact null
  · exact destroyed a (h a rfl)

theorem Sound.step {call : CircuitCall} (h : Sound router) (hfits : router.Fits call) :
    Sound (router.step call).2 := by
  refine hfits.cases (motive := fun call => Sound (router.step call).2) ?_ ?_ ?_ h
  · intro nodes out a hfresh haccepts
    obtain ⟨router', hcreate, hsound, -⟩ := createCircuit_accepted h hfresh haccepts
    simpa [SimpleOnionRouter.step, hcreate] using hsound
  · intro hops outCircuit a hrefused
    obtain ⟨code, -, hcreate⟩ := createCircuit_refused (a := a) h hrefused
    simpa [SimpleOnionRouter.step, hcreate] using h
  · intro a ha
    obtain ⟨router', hdestroy, hsound, -⟩ := destroyCircuit_live h ha
    simpa [SimpleOnionRouter.step, hdestroy] using hsound

theorem sound_after {calls : List CircuitCall} (h : Along step Fits new calls) :
    Sound (after step new calls) :=
  h.after Sound (fun _ _ => Sound.step) sound_new

/-- Behind every run that destroys only live circuits, the count is that of the slots that are
taken and at most sixteen, the table points to every live circuit once and to no other, and a
circuit is created exactly if it is accepted, or else nothing changes. -/
theorem table_after (calls : List CircuitCall) (h : Along step Fits new calls) :
    let router := after step new calls
    router.circuitCount = router.activeCircuits.countP Option.isSome ∧ router.circuitCount ≤ 16 ∧
      (∀ a ∈ router.live, router.activeCircuits.count (some a) = 1) ∧
      (∀ a ∉ router.live, some a ∉ router.activeCircuits) ∧
      ∀ hops outCircuit, ∀ a ∉ router.live,
        ((createCircuit hops outCircuit a router).1 = .ok ↔ ∃ nodes out, hops = some nodes ∧
            outCircuit = some out ∧ 1 ≤ nodes.length ∧ nodes.length ≤ 10 ∧
            router.live.length < 16) ∧
          ((createCircuit hops outCircuit a router).1 ≠ .ok →
            (createCircuit hops outCircuit a router).2 = (outCircuit, router)) := by
  intro router
  have hsound : Sound router := sound_after h
  refine ⟨?_, hsound.circuitCount_le, fun a => hsound.count_live, fun a => hsound.notMem_slots,
    fun hops outCircuit a ha => createCircuit_iff hsound ha⟩
  rw [hsound.counted, List.reduceOption_length_eq, List.countP_eq_length_filter]

/-- A circuit whose memory is used again for the next one. -/
theorem table_after_reuse :
    let router := after step new [.create (some [default]) (some none) 5, .destroy (some 5),
      .create (some [default, default]) (some none) 5]
    router.activeCircuits.count (some 5) = 1 := by
  have hfits : Along step Fits new [.create (some [default]) (some none) 5, .destroy (some 5),
      .create (some [default, default]) (some none) 5] := by
    refine ⟨?_, ?_, ?_, trivial⟩
    · simp [Fits, live, new]
    · rintro a ⟨⟩
      decide
    · show 5 ∉ _
      decide
  exact (table_after _ hfits).2.2.1 5 (by decide)

end SimpleOnionRouter

end Federated.Onion
