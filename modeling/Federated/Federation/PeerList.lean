import Federated.Federation.PeerTable
import Federated.Library.ArrayList
import Federated.Library.InsertionMap

/-!
# The list of peers

The records in use, as a list, and what every operation makes of it. The loop of
`removePeer` shifts an array; on the list it takes a record out.
-/

namespace Federated.Federation

open Library

variable {f g : SimpleFederation} {peer : Peer} {peerId : UInt32}

/-- The records in use. -/
def listed (f : SimpleFederation) : List Peer := f.peerList.toList.take f.peerCount

/-- Their identifiers. -/
def ids (f : SimpleFederation) : List UInt32 := (listed f).map Peer.peerId

/-- The list without the first record that has an identifier. -/
def without (peerId : UInt32) (peers : List Peer) : List Peer :=
  peers.eraseP fun p => p.peerId = peerId

theorem length_listed (h : f.peerCount ≤ peerCapacity) : (listed f).length = f.peerCount := by
  simpa [listed] using h

@[simp] theorem listed_new (peerList : PeerList) : listed (.new peerList) = [] := rfl

@[simp] theorem ids_new (peerList : PeerList) : ids (.new peerList) = [] := rfl

theorem findPeer_eq : findPeer f peerId = (listed f).findIdx? fun p => p.peerId = peerId := rfl

theorem findPeer_lt {i : Nat} (h : findPeer f peerId = some i) : i < f.peerCount := by
  obtain ⟨hi, -⟩ := List.findIdx?_eq_some_iff_getElem.mp h
  exact (List.length_take_le _ _).trans_lt' hi

theorem findPeer_eq_none : findPeer f peerId = none ↔ peerId ∉ ids f := by
  simp [findPeer_eq, ids, List.findIdx?_eq_none_iff]

/-! ## Adding -/

theorem writePeer_eq (peerList : PeerList) {i : Nat} (h : i < peerCapacity) (peer : Peer) :
    writePeer peerList i peer = .ok (peerList.set i peer) :=
  dif_pos h

/-- A write behind the records in use puts a record behind them. -/
theorem take_write (h : f.peerCount < peerCapacity) (peer : Peer) :
    (f.peerList.set f.peerCount peer).toList.take (f.peerCount + 1) = listed f ++ [peer] := by
  rw [Vector.toList_set, take_set_succ (by simpa using h)]
  rfl

/-- Behind fewer records than the block has, a record is put into the list. -/
theorem addPeer_of_lt (h : f.peerCount < peerCapacity) (peer : Peer) :
    ∃ g, addPeer peer f = .ok (.ok, g) ∧ g.peerCount ≤ peerCapacity ∧
      listed g = put Peer.peerId (listed f) peer ∧ g.nextPeerId = f.nextPeerId := by
  rw [addPeer, if_neg (Nat.not_le.mpr h)]
  cases hfind : findPeer f peer.peerId with
  | some i =>
    have hi := (findPeer_lt hfind).trans h
    refine ⟨{ f with peerList := f.peerList.set i peer }, ?_, h.le, ?_, rfl⟩
    · simp only [writePeer_eq _ hi, ok_bind]
      rfl
    · rw [findPeer_eq] at hfind
      simp only [put, hfind]
      rw [listed, Vector.toList_set, List.take_set]
      rfl
  | none =>
    refine ⟨{ f with
      peerList := f.peerList.set f.peerCount peer
      peerCount := f.peerCount + 1 }, ?_, h, ?_, rfl⟩
    · simp only [writePeer_eq _ h, ok_bind]
      rfl
    · rw [findPeer_eq] at hfind
      simp only [put, hfind]
      exact take_write h peer

/-- The first peer of an empty table. -/
theorem addPeer_new (peerList : PeerList) (peer : Peer) :
    ∃ g, addPeer peer (.new peerList) = .ok (.ok, g) ∧ g.peerCount = 1 ∧
      ids g = [peer.peerId] ∧ g.nextPeerId = 1 := by
  obtain ⟨g, hg, hcount, hlist, hnext⟩ :=
    addPeer_of_lt (f := .new peerList) (show 0 < peerCapacity by decide) peer
  have hids : ids g = [peer.peerId] := by simp [ids, hlist, map_put]
  have hlength : (ids g).length = g.peerCount := by rw [ids, List.length_map, length_listed hcount]
  refine ⟨g, hg, ?_, hids, hnext⟩
  rw [← hlength, hids]
  rfl

theorem addPeer_of_le (h : peerCapacity ≤ f.peerCount) (peer : Peer) :
    addPeer peer f = .ok (.errOutOfMemory, f) :=
  if_pos h

/-! ## Removing -/

theorem shiftPeer_eq (peerList : PeerList) {j : Nat} (h : j + 1 < peerCapacity) :
    ∃ shifted, shiftPeer peerList j = .ok shifted ∧ shifted.toList = shiftAt peerList.toList j := by
  refine ⟨peerList.set j peerList[j + 1] (Nat.lt_of_succ_lt h), ?_, ?_⟩
  · rw [shiftPeer, readPeer, dif_pos h, ok_bind, writePeer_eq _ (Nat.lt_of_succ_lt h)]
  · rw [shiftAt_of_lt (by simpa using h), Vector.toList_set, Vector.getElem_toList]

theorem foldlM_shiftPeer_eq (peerList : PeerList) {indices : List Nat}
    (h : ∀ j ∈ indices, j + 1 < peerCapacity) :
    ∃ shifted, indices.foldlM shiftPeer peerList = .ok shifted ∧
      shifted.toList = indices.foldl shiftAt peerList.toList := by
  induction indices generalizing peerList with
  | nil => exact ⟨peerList, rfl, rfl⟩
  | cons j indices ih =>
    obtain ⟨shifted, hshifted, hlist⟩ := shiftPeer_eq peerList (h j (by simp))
    rw [List.foldlM_cons, hshifted, ok_bind, List.foldl_cons, ← hlist]
    exact ih shifted fun j hj => h j (by simp [hj])

/-- A listed identifier goes with its first record. -/
theorem removePeer_of_mem (hcount : f.peerCount ≤ peerCapacity) (h : peerId ∈ ids f) :
    ∃ g, removePeer peerId f = .ok (.ok, g) ∧ g.peerCount ≤ peerCapacity ∧
      listed g = without peerId (listed f) ∧ g.nextPeerId = f.nextPeerId := by
  cases hfind : findPeer f peerId with
  | none => exact absurd h (findPeer_eq_none.mp hfind)
  | some i =>
    have hi := findPeer_lt hfind
    have hindices : ∀ j ∈ List.range' i (f.peerCount - 1 - i), j + 1 < peerCapacity := by
      intro j hj
      rw [List.mem_range'_1] at hj
      omega
    obtain ⟨shifted, hshift, hlist⟩ := foldlM_shiftPeer_eq f.peerList hindices
    refine ⟨{ f with peerList := shifted, peerCount := f.peerCount - 1 }, ?_,
      (Nat.sub_le _ _).trans hcount, ?_, rfl⟩
    · simp only [removePeer, hfind, hshift, ok_bind]
      rfl
    · have hbound : i + (f.peerCount - 1 - i) < f.peerList.toList.length := by
        rw [Vector.length_toList]
        omega
      have hloop := take_foldl_shiftAt hbound
      rw [show i + (f.peerCount - 1 - i) = f.peerCount - 1 by omega,
        show f.peerCount - 1 + 1 = f.peerCount by omega] at hloop
      rw [findPeer_eq] at hfind
      rw [without, List.eraseP_eq_eraseIdx, hfind, listed, hlist]
      exact hloop

/-- Another one is not found. -/
theorem removePeer_of_notMem (h : peerId ∉ ids f) :
    removePeer peerId f = .ok (.errNotFound, f) := by
  rw [removePeer, findPeer_eq_none.mpr h]

@[simp] theorem listed_clearPeers (f : SimpleFederation) : listed (clearPeers f).2 = [] := by
  simp [listed, clearPeers]

/-! ## Bootstrap nodes -/

/-- The bootstrap nodes that are stored: the ones that are not null among the first hundred. -/
def BootstrapNodes.stored : BootstrapNodes → Nat
  | null _ => 0
  | array nodes => (nodes.take peerCapacity).countP Option.isSome

theorem countP_entries (nodes : List (Option Bytes)) (around : Nat → Surroundings) :
    (nodes.mapIdx fun i node => (node, around i)).countP (fun e => e.1.isSome) =
      nodes.countP Option.isSome := by
  have hfst : (nodes.mapIdx fun i node => (node, around i)).map Prod.fst = nodes := by
    apply List.ext_getElem <;> simp
  calc
    _ = ((nodes.mapIdx fun i node => (node, around i)).map Prod.fst).countP Option.isSome := by
      rw [List.countP_map]
      rfl
    _ = nodes.countP Option.isSome := by rw [hfst]

/-- The identifiers that the next `n` nodes get. -/
def nextIds (f : SimpleFederation) (n : Nat) : List UInt32 :=
  (List.range n).map fun i => f.nextPeerId + .ofNat i

/-- A node is listed behind the other records, under the next identifier. -/
theorem addNode_of_lt (h : f.peerCount < peerCapacity) (node : Bytes) (around : Surroundings) :
    ∃ g, addNode f (some node, around) = .ok g ∧ g.peerCount = f.peerCount + 1 ∧
      g.nextPeerId = f.nextPeerId + 1 ∧ ids g = ids f ++ [f.nextPeerId] := by
  simp only [addNode, writePeer_eq _ h, ok_bind]
  refine ⟨_, rfl, rfl, rfl, ?_⟩
  simp only [ids, listed, take_write h, List.map_append, List.map_singleton]

/-- The stored nodes are listed behind the other records, with consecutive identifiers. -/
theorem foldlM_addNode (entries : List (Option Bytes × Surroundings))
    (h : f.peerCount + entries.countP (fun e => e.1.isSome) ≤ peerCapacity) :
    ∃ g, entries.foldlM addNode f = .ok g ∧
      g.peerCount = f.peerCount + entries.countP (fun e => e.1.isSome) ∧
      ids g = ids f ++ nextIds f (entries.countP fun e => e.1.isSome) := by
  induction entries generalizing f with
  | nil => exact ⟨f, rfl, rfl, by simp [nextIds]⟩
  | cons entry entries ih =>
    obtain ⟨node, around⟩ := entry
    cases node with
    | none => simpa [addNode] using ih (f := f) (by simpa using h)
    | some node =>
      simp only [List.countP_cons, Option.isSome_some, if_true] at h ⊢
      obtain ⟨g, hg, hcount, hnext, hids⟩ := addNode_of_lt (f := f) (by omega) node around
      obtain ⟨g', hg', hcount', hids'⟩ := ih (f := g) (by omega)
      have hrest : ∀ n, nextIds f (n + 1) = f.nextPeerId :: nextIds g n := by
        intro n
        simp [nextIds, List.range_succ_eq_map, hnext, UInt32.add_assoc, UInt32.add_comm 1]
      refine ⟨g', by rw [List.foldlM_cons, hg, ok_bind, hg'], by omega, ?_⟩
      rw [hids', hids, hrest, List.append_assoc, List.singleton_append]

/-- As long as there is room, the bootstrap nodes are listed behind the other records. -/
theorem initializeNodes_of_le {nodes : BootstrapNodes} (around : Nat → Surroundings)
    (h : f.peerCount + nodes.stored ≤ peerCapacity) :
    ∃ code g, initializeNodes nodes around f = .ok (code, g) ∧
      g.peerCount = f.peerCount + nodes.stored ∧ ids g = ids f ++ nextIds f nodes.stored := by
  cases nodes with
  | null nodeCount =>
    simp only [initializeNodes]
    split
    · exact ⟨_, f, rfl, rfl, by simp [BootstrapNodes.stored, nextIds]⟩
    · exact ⟨_, _, rfl, rfl, by simp [BootstrapNodes.stored, nextIds, ids, listed]⟩
  | array nodes =>
    have hentries := countP_entries (nodes.take peerCapacity) around
    obtain ⟨g, hg, hgcount, hids⟩ := foldlM_addNode (f := f)
      ((nodes.take peerCapacity).mapIdx fun i node => (node, around i)) (by rwa [hentries])
    rw [hentries] at hgcount hids
    refine ⟨.ok, { g with isInitialized := true }, ?_, hgcount, hids⟩
    simp only [initializeNodes, hg, ok_bind]
    rfl

/-! ## Copies -/

/-- The loop of `getPeers` copies the records in use to the front of the array. -/
theorem foldlM_copyPeer {peers : List Peer} {maxPeers n : Nat} (hcount : f.peerCount ≤ peerCapacity)
    (hn : n ≤ f.peerCount) (hlength : n ≤ peers.length) (hmax : n ≤ maxPeers) :
    (List.range n).foldlM (copyPeer f maxPeers) (peers, 0) =
      .ok ((listed f).take n ++ peers.drop n, n) := by
  induction n with
  | zero => simp [pure, Except.pure]
  | succ n ih =>
    rw [List.range_succ, List.foldlM_append, ih (by omega) (by omega) (by omega), ok_bind]
    have hin : n < peerCapacity := by omega
    have hlist : n < (listed f).length := by rwa [length_listed hcount]
    have hwrite : n < ((listed f).take n ++ peers.drop n).length := by
      simp
      omega
    have hget : f.peerList[n] = (listed f)[n] := by simp [listed]
    have hset : ((listed f).take n ++ peers.drop n).set n (listed f)[n] =
        (listed f).take (n + 1) ++ peers.drop (n + 1) := by
      rw [List.set_append_right _ _ (by simp), List.length_take_of_le hlist.le, Nat.sub_self,
        List.drop_eq_getElem_cons (by omega), List.set_cons_zero,
        List.take_succ_eq_append_getElem hlist, List.append_assoc, List.singleton_append]
    simp only [List.foldlM_cons, List.foldlM_nil, copyPeer, if_pos (show n < maxPeers by omega),
      readPeer, dif_pos hin, ok_bind, if_pos hwrite, hget, hset]
    rfl

/-- Into an array that is large enough `getPeers` copies all of the list. -/
theorem getPeers_eq {peers : List Peer} {maxPeers : Nat} (hcount : f.peerCount ≤ peerCapacity)
    (hlength : f.peerCount ≤ peers.length) (hmax : f.peerCount ≤ maxPeers) (peerCountOut : Nat) :
    getPeers (some peers) (some peerCountOut) maxPeers f =
      .ok (.ok, some (listed f ++ peers.drop f.peerCount), some f.peerCount) := by
  rw [getPeers, foldlM_copyPeer hcount le_rfl hlength hmax, ok_bind,
    List.take_of_length_le (length_listed hcount).le]
  rfl

end Federated.Federation
