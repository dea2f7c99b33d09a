import Federated.Onion.CircuitLife
import Federated.Onion.Peeling

/-!
# Peeling in any order

The layers of an onion are masks, so they may come off in any order, and a hop that is gone through
twice puts its layer back on. Nothing of it is authenticated: bits that are changed on the way are
changed in the plaintext, whatever the layers.
-/

namespace Federated.Onion

open Crypto Library

variable {c : OpenCircuit}

theorem layer_comm (data : Bytes) (i j : Nat) :
    layer c (layer c data i) j = layer c (layer c data j) i :=
  mask_comm _ _ data

/-- Bits that are changed under some layers are changed under none. -/
theorem foldl_layer_xorBytes (is : List Nat) (data changes : Bytes) :
    is.foldl (layer c) (xorBytes data changes) = xorBytes (is.foldl (layer c) data) changes := by
  induction is generalizing data with
  | nil => rfl
  | cons i is ih => rw [List.foldl_cons, List.foldl_cons, layer, mask_xorBytes, ← layer, ih]

/-- The hops that are gone through an even number of times. -/
def stillOn (c : Circuit) (is : List Nat) : List Nat :=
  (List.range c.hops.length).filter fun i => is.count i % 2 = 0

/-- Through whichever hops an onion goes, the layers stay on of those that it goes through an even
number of times. -/
theorem foldl_layer_onion_any {is : List Nat} (his : ∀ i ∈ is, i < c.hops.length)
    (plaintext : Bytes) :
    is.foldl (layer c) (onion c plaintext) =
      (stillOn c.toCircuit is).foldl (layer c) plaintext := by
  rw [onion, ← List.foldl_append]
  refine foldl_wrap_of_parity layer_comm (layer_layer c) (fun i => ?_) plaintext
  rw [List.count_append, List.count_reverse]
  by_cases hi : i < c.hops.length
  · have honce : (List.range c.hops.length).count i = 1 :=
      List.count_eq_one_of_mem List.nodup_range (List.mem_range.mpr hi)
    by_cases heven : is.count i % 2 = 0
    · have hstill : (stillOn c.toCircuit is).count i = 1 := by
        rw [stillOn, List.count_filter (by simpa using heven), honce]
      omega
    · have hoff : (stillOn c.toCircuit is).count i = 0 :=
        List.count_eq_zero.mpr (by simp [stillOn, heven])
      omega
  · have hnone : (List.range c.hops.length).count i = 0 :=
      List.count_eq_zero.mpr (by simpa using hi)
    have hoff : (stillOn c.toCircuit is).count i = 0 :=
      List.count_eq_zero.mpr (by simp [stillOn, hi])
    have hnot : is.count i = 0 := List.count_eq_zero.mpr (mt (his i) hi)
    omega

/-- Whatever bits of an onion are changed on its way, and through whichever hops it goes. -/
theorem throughHops_onion (c : OpenCircuit) {plaintext changes : Bytes} {outputs : Nat → Buffer}
    {is : List Nat} (hfits : ∀ i, plaintext.length ≤ (outputs i).size)
    (his : ∀ i ∈ is, i < c.hops.length) :
    throughHops chacha20Crypto.decrypt c.toCircuit outputs is
        (xorBytes (onion c plaintext) changes) =
      some (xorBytes ((stillOn c.toCircuit is).foldl (layer c) plaintext) changes) := by
  have honion : (onion c plaintext).length = plaintext.length := length_foldl_layer _ _
  have hlen : (xorBytes (onion c plaintext) changes).length ≤ plaintext.length := by
    simp [xorBytes, honion]
  rw [← foldl_layer_onion_any his, ← foldl_layer_xorBytes]
  exact throughHops_eq his fun i => hlen.trans (hfits i)

/-! ## The circuits of a router -/

namespace SimpleOnionRouter

/-- Every circuit that is allocated is open and active. -/
def AllOpen (router : SimpleOnionRouter) : Prop :=
  ∀ e ∈ router.heap, ∃ opened : OpenCircuit, opened.toCircuit = e.2 ∧ opened.isActive = true

theorem AllOpen.step {router : SimpleOnionRouter} {call : CircuitCall} (hsound : Sound router)
    (hopen : router.AllOpen) (hfits : router.Fits call) : (router.step call).2.AllOpen := by
  refine hfits.cases (motive := fun call => (router.step call).2.AllOpen) ?_ ?_ ?_ hopen
  · intro nodes out a hfresh haccepts
    obtain ⟨router', hcreate, -, hheap, -⟩ := createCircuit_accepted hsound hfresh haccepts
    obtain ⟨_, _, ⟨⟩, -, hpos, hle, -⟩ := haccepts
    simp only [SimpleOnionRouter.step, hcreate, AllOpen, hheap, List.forall_mem_append,
      List.forall_mem_singleton]
    exact ⟨hopen, ⟨router.nextCircuit nodes, hpos, hle, rfl⟩, rfl, rfl⟩
  · intro hops outCircuit a hrefused
    obtain ⟨code, -, hcreate⟩ := createCircuit_refused (a := a) hsound hrefused
    simpa [SimpleOnionRouter.step, hcreate] using hopen
  · intro a ha
    obtain ⟨router', hdestroy, -, hheap, -⟩ := destroyCircuit_live hsound ha
    simp only [SimpleOnionRouter.step, hdestroy, AllOpen, hheap]
    exact fun e he => hopen e (List.mem_of_mem_filter he)

theorem allOpen_after {calls : List CircuitCall} (h : Along step Fits new calls) :
    (after step new calls).AllOpen :=
  (h.after (fun router => Sound router ∧ router.AllOpen)
    (fun _ _ hstate hfits => ⟨hstate.1.step hfits, hstate.2.step hstate.1 hfits⟩)
    ⟨sound_new, fun e he => by cases he⟩).2

/-- Behind every run that destroys only live circuits, each live circuit sends an onion. Whatever
bits of it are changed on its way, and through whichever hops it goes in whatever order and how
often: what comes out is the plaintext under the layers of the hops that it has gone through an
even number of times, with the same bits changed. -/
theorem throughHops_sendOnion (calls : List CircuitCall) (h : Along step Fits new calls)
    {a : Address} {c : Circuit} (hc : (after step new calls).circuitAt a = some c)
    {plaintext : Bytes} (hne : plaintext ≠ []) (working output : Bytes) (packet : OnionPacket)
    {outputs outputs' : Nat → Buffer} (hfits : ∀ i, plaintext.length ≤ (outputs i).size)
    (hfits' : ∀ i, plaintext.length ≤ (outputs' i).size) :
    ∃ sent, sendOnion c plaintext working output packet = .ok (.ok, sent) ∧
      ∀ is changes, (∀ i ∈ is, i < c.hops.length) → ∃ rest,
        throughHops chacha20Crypto.encrypt c outputs' (stillOn c is) plaintext = some rest ∧
        throughHops chacha20Crypto.decrypt c outputs is (xorBytes sent.payload.bytes changes) =
          some (xorBytes rest changes) := by
  obtain ⟨e, he, rfl⟩ := Option.map_eq_some_iff.mp hc
  obtain ⟨opened, hopened, hactive⟩ := allOpen_after h e (List.mem_of_find?_eq_some he)
  rw [← hopened]
  refine ⟨_, sendOnion_eq hactive hne working output packet, fun is changes his => ?_⟩
  refine ⟨_, throughHops_eq (fun i hi => ?_) hfits', ?_⟩
  · exact List.mem_range.mp (List.mem_of_mem_filter hi)
  · rw [Buffer.bytes_ofBlock]
    exact throughHops_onion opened hfits his

/-- Through two hops from the last to the first, with a bit that is changed. -/
theorem throughHops_sendOnion_two :
    ∃ sent, sendOnion ⟨1, [default, default], [chacha20Crypto, chacha20Crypto], true⟩
        (ascii "Hello") [] [] ⟨.ofBlock [], 0⟩ = .ok (.ok, sent) ∧
      throughHops chacha20Crypto.decrypt
        ⟨1, [default, default], [chacha20Crypto, chacha20Crypto], true⟩
        (fun _ => .ofBlock (List.replicate 8 0)) [1, 0]
        (xorBytes sent.payload.bytes [0x22, 0, 0, 0, 0]) = some (ascii "jello") := by
  have hrun : Along step Fits new [.create (some [default, default]) (some none) 5] :=
    ⟨by simp [Fits, live, new], trivial⟩
  have hlive : (after step new [.create (some [default, default]) (some none) 5]).circuitAt 5 =
      some ⟨1, [default, default], [chacha20Crypto, chacha20Crypto], true⟩ := rfl
  have hsmall (i : Nat) : (ascii "Hello").length ≤ (Buffer.ofBlock (List.replicate 8 0)).size := by
    decide
  have hne : ascii "Hello" ≠ [] := by decide
  obtain ⟨sent, hsent, hany⟩ :=
    throughHops_sendOnion _ hrun hlive hne [] [] ⟨.ofBlock [], 0⟩ hsmall hsmall
  obtain ⟨rest, hrest, hout⟩ := hany [1, 0] [0x22, 0, 0, 0, 0] (by decide)
  have hplain : rest = ascii "Hello" := (Option.some_inj.mp hrest).symm
  have hchanged : xorBytes (ascii "Hello") [0x22, 0, 0, 0, 0] = ascii "jello" := by decide
  rw [hplain, hchanged] at hout
  exact ⟨sent, hsent, hout⟩

end SimpleOnionRouter

end Federated.Onion
