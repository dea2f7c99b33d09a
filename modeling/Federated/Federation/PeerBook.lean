import Federated.Federation.PeerBounds
import Federated.Library.Machine

/-!
# The federation as a book of peers

Seen from outside, a node of the federation is a list of at most a hundred peers, whether it is
initialized, and the next identifier. What its block held at the start is never seen. The
process ends where the block, or the array of a caller, is too small.
-/

namespace Federated.Federation

open Library

variable {f g : SimpleFederation}

/-! ## Copies of any size -/

/-- As many records as are asked for are copied, and the array of the caller is left if it has no
room for them. -/
theorem foldlM_copyPeer_min {peers : List Peer} {maxPeers n : Nat}
    (hcount : f.peerCount ≤ peerCapacity) (hn : n ≤ f.peerCount) :
    (List.range n).foldlM (copyPeer f maxPeers) (peers, 0) =
      if min n maxPeers ≤ peers.length then
        .ok ((listed f).take (min n maxPeers) ++ peers.drop (min n maxPeers), min n maxPeers)
      else .error .write := by
  induction n with
  | zero => simp [pure, Except.pure]
  | succ n ih =>
    have hbefore := ih (by omega)
    rw [List.range_succ, List.foldlM_append, hbefore]
    rcases Nat.lt_or_ge n maxPeers with hlt | hge
    · rw [Nat.min_eq_left hlt.le, Nat.min_eq_left (Nat.succ_le_of_lt hlt)]
      by_cases hroom : n + 1 ≤ peers.length
      · have hwhole := foldlM_copyPeer hcount hn hroom hlt
        rw [List.range_succ, List.foldlM_append,
          foldlM_copyPeer hcount (by omega) (by omega) hlt.le] at hwhole
        rw [if_pos (by omega), if_pos hroom]
        exact hwhole
      · rw [if_neg hroom]
        split
        case isTrue hfits =>
          -- The array is full, and another record is to be copied.
          have hread : n < peerCapacity := by omega
          have hfull : ¬ n < ((listed f).take n ++ peers.drop n).length := by
            rw [List.length_append, List.length_take, List.length_drop, length_listed hcount]
            omega
          simp only [ok_bind, List.foldlM_cons, List.foldlM_nil, copyPeer, if_pos hlt, readPeer,
            dif_pos hread, if_neg hfull]
          rfl
        case isFalse => rfl
    · rw [Nat.min_eq_right hge, Nat.min_eq_right (Nat.le_succ_of_le hge)]
      split
      · simp [copyPeer, pure, Except.pure]
      · rfl

/-- What the two functions that copy peers out give. -/
theorem copyPeers_eq (hcount : f.peerCount ≤ peerCapacity) (peers : List Peer) (maxPeers : Nat) :
    (List.range f.peerCount).foldlM (copyPeer f maxPeers) (peers, 0) =
      if min (listed f).length maxPeers ≤ peers.length then
        .ok ((listed f).take maxPeers ++ peers.drop (min (listed f).length maxPeers),
          min (listed f).length maxPeers)
      else .error .write := by
  have htake : (listed f).take (min f.peerCount maxPeers) = (listed f).take maxPeers := by
    rw [← length_listed hcount, Nat.min_comm, ← List.take_take, List.take_length]
  rw [foldlM_copyPeer_min hcount le_rfl, length_listed hcount, htake]

/-! ## Bootstrap nodes in order -/

/-- The peer that is stored for a bootstrap node. -/
def bootstrapPeer (peerId : UInt32) (node : Bytes) (around : Surroundings) : Peer :=
  let (address, port) := parseBootstrapNode around.address (cstr node)
  ⟨peerId, address, port, around.now, 0, relayDirectory, true⟩

/-- The peers that are stored for the nodes that are not null. -/
def bootstrapPeers (nextPeerId : UInt32) : List (Option Bytes × Surroundings) → List Peer
  | [] => []
  | (none, _) :: entries => bootstrapPeers nextPeerId entries
  | (some node, around) :: entries =>
    bootstrapPeer nextPeerId node around :: bootstrapPeers (nextPeerId + 1) entries

theorem addNode_bootstrapPeer (h : f.peerCount < peerCapacity) (node : Bytes)
    (around : Surroundings) :
    ∃ g, addNode f (some node, around) = .ok g ∧ g.peerCount = f.peerCount + 1 ∧
      listed g = listed f ++ [bootstrapPeer f.nextPeerId node around] ∧
      g.nextPeerId = f.nextPeerId + 1 := by
  simp only [addNode, writePeer_eq _ h, ok_bind]
  exact ⟨_, rfl, rfl, take_write h _, rfl⟩

theorem addNode_of_le (h : peerCapacity ≤ f.peerCount) (node : Bytes) (around : Surroundings) :
    addNode f (some node, around) = .error .write := by
  simp only [addNode, writePeer_of_le _ _ h]
  rfl

/-- The nodes are stored behind the other records, if there is room for them. -/
theorem foldlM_addNode_eq (entries : List (Option Bytes × Surroundings))
    (hcount : f.peerCount ≤ peerCapacity) :
    (f.peerCount + (bootstrapPeers f.nextPeerId entries).length ≤ peerCapacity ∧
      ∃ g, entries.foldlM addNode f = .ok g ∧ g.peerCount ≤ peerCapacity ∧
        listed g = listed f ++ bootstrapPeers f.nextPeerId entries ∧
        g.nextPeerId = f.nextPeerId + .ofNat (bootstrapPeers f.nextPeerId entries).length) ∨
      peerCapacity < f.peerCount + (bootstrapPeers f.nextPeerId entries).length ∧
        entries.foldlM addNode f = .error .write := by
  induction entries generalizing f with
  | nil => exact .inl ⟨hcount, f, rfl, hcount, by simp [bootstrapPeers], by simp [bootstrapPeers]⟩
  | cons entry entries ih =>
    obtain ⟨node, around⟩ := entry
    cases node with
    | none => simpa [addNode, bootstrapPeers] using ih hcount
    | some node =>
      rcases Nat.lt_or_ge f.peerCount peerCapacity with hlt | hge
      · obtain ⟨g, hg, hgcount, hlist, hnext⟩ := addNode_bootstrapPeer hlt node around
        have hrest := ih (f := g) (by omega)
        rw [hnext, hgcount, hlist] at hrest
        simp only [List.foldlM_cons, hg, ok_bind, bootstrapPeers, List.length_cons]
        rcases hrest with ⟨hroom, g', hg', hcount', hlist', hnext'⟩ | ⟨hfull, hfault⟩
        · refine .inl ⟨by omega, g', hg', hcount', ?_, ?_⟩
          · rw [hlist', List.append_assoc, List.singleton_append]
          · rw [hnext', Nat.add_comm _ 1, UInt32.ofNat_add, UInt32.add_assoc]
            rfl
        · exact .inr ⟨by omega, hfault⟩
      · refine .inr ⟨?_, ?_⟩
        · simp only [bootstrapPeers, List.length_cons]
          omega
        · rw [List.foldlM_cons, addNode_of_le hge]
          rfl

/-! ## Calls -/

inductive FederationCall where
  | initializeNodes (nodes : BootstrapNodes) (around : Nat → Surroundings)
  | discoverPeers (peers : Option (List Peer)) (peerCountOut : Option Nat) (maxPeers : Nat)
  | registerNode (info : NodeInfo)
  | sendToPeer (peer : Peer) (message : Buffer)
  | broadcast (message : Buffer)
  | getPeers (peers : Option (List Peer)) (peerCountOut : Option Nat) (maxPeers : Nat)
  | addPeer (peer : Peer)
  | removePeer (peerId : UInt32)
  | clearPeers

inductive FederationAnswer where
  | code (code : ErrorCode)
  | copied (code : ErrorCode) (peers : Option (List Peer)) (peerCountOut : Option Nat)
  | sent (code : ErrorCode) (sent : List (Peer × ErrorCode))

/-- An operation on the table of a node. -/
def FederationNode.onTable (node : FederationNode)
    (result : Except Fault (ErrorCode × SimpleFederation)) :
    Option (FederationAnswer × FederationNode) :=
  result.toOption.map fun (code, table) => (.code code, { node with table })

def FederationNode.answer (node : FederationNode) :
    FederationCall → Option (FederationAnswer × FederationNode)
  | .initializeNodes nodes around => node.onTable (initializeNodes nodes around node.table)
  | .discoverPeers peers peerCountOut maxPeers =>
    (discoverPeers peers peerCountOut maxPeers node.table).toOption.map fun (code, peers, count) =>
      (.copied code peers count, node)
  | .registerNode info => some (.code (registerNode info node).1, (registerNode info node).2)
  | .sendToPeer peer message => some (.code (sendToPeer peer message), node)
  | .broadcast message =>
    (broadcast message node.table).toOption.map fun (code, sent) => (.sent code sent, node)
  | .getPeers peers peerCountOut maxPeers =>
    (getPeers peers peerCountOut maxPeers node.table).toOption.map fun (code, peers, count) =>
      (.copied code peers count, node)
  | .addPeer peer => node.onTable (addPeer peer node.table)
  | .removePeer peerId => node.onTable (removePeer peerId node.table)
  | .clearPeers => some (.code (clearPeers node.table).1,
      { node with table := (clearPeers node.table).2 })

/-! ## The book -/

structure Book where
  peers : List Peer
  isInitialized : Bool
  nextPeerId : UInt32

namespace Book

def empty : Book := ⟨[], false, 1⟩

/-- As many peers as are asked for are copied to the front of an array that has room for them. -/
def copied (b : Book) (array : List Peer) (maxPeers : Nat) : Option FederationAnswer :=
  let count := min b.peers.length maxPeers
  if count ≤ array.length then
    some (.copied .ok (some (b.peers.take maxPeers ++ array.drop count)) (some count))
  else none

def answer (b : Book) : FederationCall → Option (FederationAnswer × Book)
  | .initializeNodes (.null nodeCount) _ =>
    if nodeCount > 0 then some (.code .errInvalidArg, b)
    else some (.code .ok, { b with isInitialized := true })
  | .initializeNodes (.array nodes) around =>
    let stored := bootstrapPeers b.nextPeerId
      ((nodes.take peerCapacity).mapIdx fun i node => (node, around i))
    if b.peers.length + stored.length ≤ peerCapacity then
      some (.code .ok, ⟨b.peers ++ stored, true, b.nextPeerId + .ofNat stored.length⟩)
    else none
  | .discoverPeers (some array) (some count) maxPeers =>
    if b.isInitialized then (b.copied array maxPeers).map (·, b)
    else some (.copied .errNotInitialized (some array) (some count), b)
  | .getPeers (some array) (some _) maxPeers => (b.copied array maxPeers).map (·, b)
  | .discoverPeers array count _ | .getPeers array count _ =>
    some (.copied .errInvalidArg array count, b)
  | .registerNode _ => some (.code .ok, b)
  | .sendToPeer _ message => some (.code (if message.size = 0 then .errInvalidArg else .ok), b)
  | .broadcast message =>
    if message.size = 0 then some (.sent .errInvalidArg [], b)
    else some (.sent .ok (b.peers.map (·, .ok)), b)
  | .addPeer peer =>
    if b.peers.length < peerCapacity then
      some (.code .ok, { b with peers := put Peer.peerId b.peers peer })
    else some (.code .errOutOfMemory, b)
  | .removePeer peerId =>
    if peerId ∈ b.peers.map Peer.peerId then
      some (.code .ok, { b with peers := without peerId b.peers })
    else some (.code .errNotFound, b)
  | .clearPeers => some (.code .ok, { b with peers := [], isInitialized := false })

end Book

/-- What is in the book of a table. -/
structure Keeps (f : SimpleFederation) (b : Book) : Prop where
  count : f.peerCount ≤ peerCapacity
  peers : listed f = b.peers
  isInitialized : f.isInitialized = b.isInitialized
  nextPeerId : f.nextPeerId = b.nextPeerId

/-! ## The book describes the table -/

theorem isInitialized_addPeer {peer : Peer} {code : ErrorCode}
    (h : addPeer peer f = .ok (code, g)) : g.isInitialized = f.isInitialized := by
  rw [addPeer] at h
  split at h
  · cases h
    rfl
  · split at h
    · cases hwrite : writePeer f.peerList _ peer with
      | error fault =>
        rw [hwrite] at h
        cases h
      | ok peerList =>
        rw [hwrite] at h
        cases h
        rfl
    · cases hwrite : writePeer f.peerList f.peerCount peer with
      | error fault =>
        rw [hwrite] at h
        cases h
      | ok peerList =>
        rw [hwrite] at h
        cases h
        rfl

theorem isInitialized_removePeer {peerId : UInt32} {code : ErrorCode}
    (h : removePeer peerId f = .ok (code, g)) : g.isInitialized = f.isInitialized := by
  rw [removePeer] at h
  split at h
  · rename_i i hfind
    cases hshift : (List.range' i (f.peerCount - 1 - i)).foldlM shiftPeer f.peerList with
    | error fault =>
      rw [hshift] at h
      cases h
    | ok peerList =>
      rw [hshift] at h
      cases h
      rfl
  · cases h
    rfl

/-- A message is handed to the peers in use, one after the other. -/
theorem mapM_sendToPeer (hcount : f.peerCount ≤ peerCapacity) (message : Buffer) {n : Nat}
    (hn : n ≤ f.peerCount) :
    ((List.range n).mapM fun i => do
      let peer ← readPeer f.peerList i
      return (peer, sendToPeer peer message) : Except Fault (List (Peer × ErrorCode))) =
      .ok (((listed f).take n).map fun peer => (peer, sendToPeer peer message)) := by
  induction n with
  | zero => rfl
  | succ n ih =>
    have hread : n < peerCapacity := by omega
    have hlist : n < (listed f).length := by rwa [length_listed hcount]
    have hget : f.peerList[n] = (listed f)[n] := by simp [listed]
    rw [List.range_succ, List.mapM_append, ih (by omega), ok_bind,
      List.take_succ_eq_append_getElem hlist, List.map_append]
    simp only [List.mapM_cons, List.mapM_nil, readPeer, dif_pos hread, ok_bind, hget]
    rfl

/-- Peers are discovered as they are copied, once the federation is initialized. -/
theorem FederationNode.answer_discoverPeers (node : FederationNode) (peers : Option (List Peer))
    (peerCountOut : Option Nat) (maxPeers : Nat) :
    node.answer (.discoverPeers peers peerCountOut maxPeers) =
      if node.table.isInitialized ∨ peers = none ∨ peerCountOut = none then
        node.answer (.getPeers peers peerCountOut maxPeers)
      else some (.copied .errNotInitialized peers peerCountOut, node) := by
  rcases peers with _ | array
  · rw [if_pos (by simp)]
    rfl
  rcases peerCountOut with _ | count
  · rw [if_pos (by simp)]
    rfl
  simp only [answer, discoverPeers, getPeers]
  cases node.table.isInitialized <;> rfl

theorem Book.answer_discoverPeers (b : Book) (peers : Option (List Peer))
    (peerCountOut : Option Nat) (maxPeers : Nat) :
    b.answer (.discoverPeers peers peerCountOut maxPeers) =
      if b.isInitialized ∨ peers = none ∨ peerCountOut = none then
        b.answer (.getPeers peers peerCountOut maxPeers)
      else some (.copied .errNotInitialized peers peerCountOut, b) := by
  rcases peers with _ | array
  · simp [answer]
  rcases peerCountOut with _ | count
  · simp [answer]
  simp only [answer]
  cases b.isInitialized <;> rfl

namespace Keeps

variable {node : FederationNode} {b : Book}

theorem stores (h : Keeps f b) (nodes : List (Option Bytes)) (around : Nat → Surroundings) :
    (initializeNodes (.array nodes) around f = .error .write ∧
      b.answer (.initializeNodes (.array nodes) around) = none) ∨
      ∃ g b', initializeNodes (.array nodes) around f = .ok (.ok, g) ∧
        b.answer (.initializeNodes (.array nodes) around) = some (.code .ok, b') ∧ Keeps g b' := by
  have hlength : b.peers.length = f.peerCount := by rw [← h.peers, length_listed h.count]
  simp only [initializeNodes, Book.answer]
  rcases foldlM_addNode_eq ((nodes.take peerCapacity).mapIdx fun i node => (node, around i))
    h.count with ⟨hroom, g, hg, hcount, hlist, hnext⟩ | ⟨hfull, hfault⟩
  · rw [h.nextPeerId] at hroom hlist hnext
    rw [if_pos (by omega), hg, ok_bind]
    refine .inr ⟨{ g with isInitialized := true }, _, rfl, rfl, hcount, ?_, rfl, hnext⟩
    rw [← h.peers]
    exact hlist
  · rw [h.nextPeerId] at hfull
    rw [if_neg (by omega), hfault]
    exact .inl ⟨rfl, rfl⟩

/-- Copying the peers out of a table gives what the book says, or leaves the array. -/
theorem copies (h : Keeps f b) (array : List Peer) (maxPeers : Nat) :
    ((∃ fault, (List.range f.peerCount).foldlM (copyPeer f maxPeers) (array, 0) = .error fault) ∧
      b.copied array maxPeers = none) ∨
      ∃ peers count,
        (List.range f.peerCount).foldlM (copyPeer f maxPeers) (array, 0) = .ok (peers, count) ∧
          b.copied array maxPeers = some (.copied .ok (some peers) (some count)) := by
  rw [copyPeers_eq h.count, h.peers, Book.copied]
  by_cases hroom : min b.peers.length maxPeers ≤ array.length
  · rw [if_pos hroom]
    exact .inr ⟨_, _, rfl, if_pos hroom⟩
  · rw [if_neg hroom]
    exact .inl ⟨⟨_, rfl⟩, if_neg hroom⟩

theorem answer_getPeers (h : Keeps node.table b) (peers : Option (List Peer))
    (peerCountOut : Option Nat) (maxPeers : Nat) :
    (node.answer (.getPeers peers peerCountOut maxPeers) = none ∧
      b.answer (.getPeers peers peerCountOut maxPeers) = none) ∨
      ∃ a node' b', node.answer (.getPeers peers peerCountOut maxPeers) = some (a, node') ∧
        b.answer (.getPeers peers peerCountOut maxPeers) = some (a, b') ∧ Keeps node'.table b' := by
  rcases peers with _ | array
  · exact .inr ⟨_, _, _, rfl, rfl, h⟩
  rcases peerCountOut with _ | count
  · exact .inr ⟨_, _, _, rfl, rfl, h⟩
  simp only [FederationNode.answer, getPeers, Book.answer]
  rcases h.copies array maxPeers with ⟨⟨fault, hfault⟩, hnone⟩ | ⟨peers, count, hcopied, hsome⟩
  · rw [hfault, hnone]
    exact .inl ⟨rfl, rfl⟩
  · rw [hcopied, hsome]
    exact .inr ⟨_, _, _, rfl, rfl, h⟩

/-- What a call makes of a table, and the same call of its book. -/
theorem answer (h : Keeps node.table b) (call : FederationCall) :
    (node.answer call = none ∧ b.answer call = none) ∨
      ∃ a node' b', node.answer call = some (a, node') ∧ b.answer call = some (a, b') ∧
        Keeps node'.table b' := by
  have hlength : b.peers.length = node.table.peerCount := by
    rw [← h.peers, length_listed h.count]
  have hids : b.peers.map Peer.peerId = ids node.table := by rw [← h.peers, ids]
  cases call with
  | initializeNodes nodes around =>
    cases nodes with
    | null nodeCount =>
      refine .inr ?_
      simp only [FederationNode.answer, FederationNode.onTable, initializeNodes, Book.answer]
      split
      · exact ⟨_, _, _, rfl, rfl, h⟩
      · exact ⟨_, _, _, rfl, rfl, h.count, h.peers, rfl, h.nextPeerId⟩
    | array nodes =>
      rcases h.stores nodes around with ⟨hfault, hnone⟩ | ⟨g, b', hg, hb, hkeeps⟩
      · exact .inl ⟨by rw [FederationNode.answer, hfault]; rfl, hnone⟩
      · exact .inr ⟨_, _, b', by rw [FederationNode.answer, hg]; rfl, hb, hkeeps⟩
  | discoverPeers peers peerCountOut maxPeers =>
    have hnode := node.answer_discoverPeers peers peerCountOut maxPeers
    have hbook := b.answer_discoverPeers peers peerCountOut maxPeers
    rw [h.isInitialized] at hnode
    rw [hnode, hbook]
    split
    · exact h.answer_getPeers peers peerCountOut maxPeers
    · exact .inr ⟨_, _, _, rfl, rfl, h⟩
  | registerNode info => exact .inr ⟨_, _, _, rfl, rfl, h⟩
  | sendToPeer peer message => exact .inr ⟨_, _, _, rfl, rfl, h⟩
  | broadcast message =>
    refine .inr ?_
    simp only [FederationNode.answer, broadcast, Book.answer]
    by_cases hempty : message.size = 0
    · rw [if_pos hempty, if_pos hempty]
      exact ⟨_, _, _, rfl, rfl, h⟩
    · have hsent (peer : Peer) : sendToPeer peer message = .ok := if_neg hempty
      rw [if_neg hempty, if_neg hempty, mapM_sendToPeer h.count message le_rfl, ok_bind,
        ← length_listed h.count, List.take_length, h.peers]
      simp only [hsent]
      exact ⟨_, _, _, rfl, rfl, h⟩
  | getPeers peers peerCountOut maxPeers => exact h.answer_getPeers peers peerCountOut maxPeers
  | addPeer peer =>
    refine .inr ?_
    simp only [FederationNode.answer, Book.answer, hlength]
    by_cases hlt : node.table.peerCount < peerCapacity
    · obtain ⟨g, hg, hcount, hlist, hnext⟩ := addPeer_of_lt hlt peer
      rw [hg, if_pos hlt]
      refine ⟨_, _, _, rfl, rfl, hcount, ?_, ?_, ?_⟩
      · rw [← h.peers]
        exact hlist
      · exact (isInitialized_addPeer hg).trans h.isInitialized
      · exact hnext.trans h.nextPeerId
    · rw [addPeer_of_le (Nat.not_lt.mp hlt), if_neg hlt]
      exact ⟨_, _, _, rfl, rfl, h⟩
  | removePeer peerId =>
    refine .inr ?_
    simp only [FederationNode.answer, Book.answer, hids]
    by_cases hmem : peerId ∈ ids node.table
    · obtain ⟨g, hg, hcount, hlist, hnext⟩ := removePeer_of_mem h.count hmem
      rw [hg, if_pos hmem]
      refine ⟨_, _, _, rfl, rfl, hcount, ?_, ?_, ?_⟩
      · rw [← h.peers]
        exact hlist
      · exact (isInitialized_removePeer hg).trans h.isInitialized
      · exact hnext.trans h.nextPeerId
    · rw [removePeer_of_notMem hmem, if_neg hmem]
      exact ⟨_, _, _, rfl, rfl, h⟩
  | clearPeers =>
    refine .inr ⟨_, _, _, rfl, rfl, Nat.zero_le _, ?_, rfl, h.nextPeerId⟩
    exact listed_clearPeers node.table

end Keeps

/-- Every run of calls on a new node is answered as by the empty book, whatever its block and its
information held at the start. -/
theorem answers_new (peerList : PeerList) (info : NodeInfo) (calls : List FederationCall) :
    answers (mayEnd FederationNode.answer) (some ⟨.new peerList, info⟩) calls =
      answers (mayEnd Book.answer) (some .empty) calls := by
  have hsim := Simulation.mayEnd fun (node : FederationNode) b call (h : Keeps node.table b) =>
    h.answer call
  have hstart : Keeps (.new peerList) .empty := ⟨Nat.zero_le _, rfl, rfl, rfl⟩
  exact hsim.answers_eq (.some hstart) fun _ _ => trivial

end Federated.Federation
