import Federated.Federation.PeerBounds

/-!
# The peer table as a map

Without bootstrap nodes, and as long as there is room for what is added, the table is
a map from identifiers to records that remembers the order of insertion.
-/

namespace Federated.Federation

open Library

variable {f g : SimpleFederation}

abbrev PeerMap := InsertionMap Peer.peerId

/-- What an operation makes of the map; bootstrap nodes are left out. -/
def Operation.onMap (peers : PeerMap) : Operation → PeerMap
  | initializeNodes _ _ => peers
  | addPeer peer => peers.insert peer
  | removePeer peerId => peers.remove peerId
  | clearPeers => peers.clear

/-- The map after a run from an empty table. -/
def mapAfter (ops : List Operation) : PeerMap := ops.foldl Operation.onMap .empty

/-- An operation on single peers; one that adds a peer comes while there is room for it. -/
def Operation.OnPeers (f : SimpleFederation) : Operation → Prop
  | initializeNodes _ _ => False
  | addPeer _ => f.peerCount < peerCapacity
  | _ => True

/-- The table stays within its block, and its list describes the map. -/
def Describes (f : SimpleFederation) (peers : PeerMap) : Prop :=
  f.peerCount ≤ peerCapacity ∧ peers.Lists (listed f)

/-- An operation on the table is the one on the map. -/
theorem Describes.next {peers : PeerMap} {op : Operation} (h : Describes f peers)
    (hop : op.OnPeers f) :
    ∃ code g, op.apply f = .ok (code, g) ∧ Describes g (op.onMap peers) := by
  obtain ⟨hcount, hlists⟩ := h
  cases op with
  | initializeNodes nodes around => exact absurd hop not_false
  | addPeer peer =>
    obtain ⟨g, hg, hgcount, hlist, -⟩ := addPeer_of_lt hop peer
    refine ⟨.ok, g, hg, hgcount, ?_⟩
    rw [hlist]
    exact hlists.put peer
  | removePeer peerId =>
    by_cases hmem : peerId ∈ ids f
    · obtain ⟨g, hg, hgcount, hlist, -⟩ := removePeer_of_mem hcount hmem
      refine ⟨.ok, g, hg, hgcount, ?_⟩
      rw [hlist]
      exact hlists.remove peerId
    · refine ⟨_, f, removePeer_of_notMem hmem, hcount, ?_⟩
      -- Nothing goes: the map does not have the identifier either.
      have hsame : without peerId (listed f) = listed f :=
        List.eraseP_of_forall_not fun p hp heq =>
          hmem (List.mem_map.mpr ⟨p, hp, by simpa using heq⟩)
      rw [← hsame]
      exact hlists.remove peerId
  | clearPeers =>
    refine ⟨.ok, (Federation.clearPeers f).2, rfl, Nat.zero_le _, ?_⟩
    rw [listed_clearPeers]
    exact InsertionMap.lists_clear peers

/-- An identifier is removed if the map has it, and else nothing changes. -/
theorem Describes.removePeer {peers : PeerMap} (h : Describes f peers) (peerId : UInt32) :
    (peers.entry peerId = none → removePeer peerId f = .ok (.errNotFound, f)) ∧
      (peers.entry peerId ≠ none → ∃ g, removePeer peerId f = .ok (.ok, g)) := by
  have hkey : peerId ∈ ids f ↔ peers.entry peerId ≠ none := h.2.key_mem_iff
  constructor
  · intro hnone
    exact removePeer_of_notMem fun hmem => hkey.mp hmem hnone
  · intro hsome
    obtain ⟨g, hg, -⟩ := removePeer_of_mem h.1 (hkey.mpr hsome)
    exact ⟨g, hg⟩

/-- Behind every run of operations on single peers with room for those that it adds, copying
the peers out gives the list of the map, and exactly what the map has can be removed. -/
theorem getPeers_mapAfter (ops : List Operation) (peerList : PeerList)
    (h : Throughout Operation.OnPeers ops (.new peerList)) :
    ∃ f peers, run ops (.new peerList) = .ok f ∧ (mapAfter ops).Lists peers ∧
      (∀ (array : List Peer) (peerCountOut maxPeers : Nat), peers.length ≤ array.length →
        peers.length ≤ maxPeers → getPeers (some array) (some peerCountOut) maxPeers f =
          .ok (.ok, some (peers ++ array.drop peers.length), some peers.length)) ∧
      ∀ peerId,
        ((mapAfter ops).entry peerId = none → removePeer peerId f = .ok (.errNotFound, f)) ∧
          ((mapAfter ops).entry peerId ≠ none → ∃ g, removePeer peerId f = .ok (.ok, g)) := by
  obtain ⟨f, hf, hdescribes⟩ : ∃ f, run ops (.new peerList) = .ok f ∧ Describes f (mapAfter ops) :=
    h.run Operation.onMap Describes (fun _ _ _ => Describes.next)
      ⟨Nat.zero_le _, InsertionMap.lists_empty⟩
  refine ⟨f, listed f, hf, hdescribes.2, ?_, hdescribes.removePeer⟩
  intro array peerCountOut maxPeers hlength hmax
  rw [length_listed hdescribes.1] at hlength hmax ⊢
  exact getPeers_eq hdescribes.1 hlength hmax peerCountOut

/-- A peer that was added twice is removed once. -/
theorem removePeer_peerOne :
    ∃ f, run [.addPeer peerOne, .addPeer peerOne, .removePeer 1] (.new blankPeers) = .ok f ∧
      removePeer 1 f = .ok (.errNotFound, f) := by
  obtain ⟨g, hg, hcount, -⟩ := addPeer_new blankPeers peerOne
  have honPeers : Throughout Operation.OnPeers
      [.addPeer peerOne, .addPeer peerOne, .removePeer 1] (.new blankPeers) := by
    refine .cons (show 0 < peerCapacity by decide) fun code g' hg' => .cons ?_ fun _ g _ =>
      .cons trivial fun _ g _ => .nil _ g
    obtain ⟨-, rfl⟩ : ErrorCode.ok = code ∧ g = g' := by simpa using hg.symm.trans hg'
    show g.peerCount < peerCapacity
    rw [hcount]
    decide
  obtain ⟨f, peers, hf, -, -, hremove⟩ := getPeers_mapAfter _ blankPeers honPeers
  exact ⟨f, hf, (hremove 1).1 rfl⟩

end Federated.Federation
