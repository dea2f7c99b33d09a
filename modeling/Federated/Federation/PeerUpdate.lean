import Federated.Federation.PeerBounds

/-!
# Updates of a listed peer

Adding a peer whose identifier is listed is to replace its record. The count is compared
with the capacity before the identifier is searched for, so a full table is not updated.
-/

namespace Federated.Federation

open Library

variable {f g : SimpleFederation} {peer : Peer}

/-! ## What adding a peer is for -/

/-- A list with the record of a peer in it: in the place of the only one that had its
identifier, or behind all others. -/
def HoldsPeer (peer : Peer) (before behind : List Peer) : Prop :=
  ∃ pre post, behind = pre ++ peer :: post ∧ (∀ q ∈ pre ++ post, q.peerId ≠ peer.peerId) ∧
    ((∃ old, old.peerId = peer.peerId ∧ before = pre ++ old :: post) ∨
      (post = [] ∧ before = pre))

/-- A peer is added if it is listed already or there is room, and takes its place in the list;
else the list stays as it is. -/
def Adds (f : SimpleFederation) (peer : Peer) : Prop :=
  ∃ code g, addPeer peer f = .ok (code, g) ∧
    (code = .ok ↔ peer.peerId ∈ ids f ∨ f.peerCount < peerCapacity) ∧
    (code = .ok → HoldsPeer peer (listed f) (listed g)) ∧
    (code ≠ .ok → listed g = listed f)

/-- An operation on a single peer. -/
def Operation.Single : Operation → Prop
  | addPeer _ | removePeer _ => True
  | _ => False

/-- The count is in bounds and no identifier is listed twice. -/
def Sound (f : SimpleFederation) : Prop := f.peerCount ≤ peerCapacity ∧ (ids f).Nodup

/-! ## One operation -/

theorem nodup_map_put {l : List Peer} (h : (l.map Peer.peerId).Nodup) (peer : Peer) :
    ((put Peer.peerId l peer).map Peer.peerId).Nodup := by
  rw [map_put]
  split_ifs with hmem
  · exact h
  · exact List.nodup_append.mpr ⟨h, List.nodup_singleton _, by grind⟩

theorem Sound.next {op : Operation} (h : Sound f) (hop : op.Single) :
    ∃ code g, op.apply f = .ok (code, g) ∧ Sound g := by
  obtain ⟨hcount, hnodup⟩ := h
  cases op with
  | addPeer peer =>
    by_cases hlt : f.peerCount < peerCapacity
    · obtain ⟨g, hg, hgcount, hlist, -⟩ := addPeer_of_lt hlt peer
      exact ⟨.ok, g, hg, hgcount, by rw [ids, hlist]; exact nodup_map_put hnodup peer⟩
    · exact ⟨_, f, addPeer_of_le (Nat.not_lt.mp hlt) peer, hcount, hnodup⟩
  | removePeer peerId =>
    by_cases hmem : peerId ∈ ids f
    · obtain ⟨g, hg, hgcount, hlist, -⟩ := removePeer_of_mem hcount hmem
      refine ⟨.ok, g, hg, hgcount, ?_⟩
      rw [ids, hlist]
      exact hnodup.sublist (List.eraseP_sublist.map _)
    · exact ⟨_, f, removePeer_of_notMem hmem, hcount, hnodup⟩
  | initializeNodes | clearPeers => exact absurd hop not_false

/-- A list into which a peer is put holds it. -/
theorem holdsPeer_put {l : List Peer} (h : (l.map Peer.peerId).Nodup) (peer : Peer) :
    HoldsPeer peer l (put Peer.peerId l peer) := by
  by_cases hmem : peer.peerId ∈ l.map Peer.peerId
  · obtain ⟨pre, old, post, rfl, hold, hput⟩ := put_of_mem hmem
    refine ⟨pre, post, hput, fun q hq heq => ?_, .inl ⟨old, hold, rfl⟩⟩
    rw [List.map_append, List.map_cons, List.nodup_middle, List.nodup_cons, hold,
      ← List.map_append] at h
    exact h.1 (List.mem_map.mpr ⟨q, hq, heq⟩)
  · refine ⟨l, [], put_of_notMem hmem, fun q hq heq => ?_, .inr ⟨rfl, rfl⟩⟩
    rw [List.append_nil] at hq
    exact hmem (List.mem_map.mpr ⟨q, hq, heq⟩)

/-- A peer is added as it should be unless it is listed in a full table. -/
theorem Sound.adds_iff_room (h : Sound f) (peer : Peer) :
    Adds f peer ↔ f.peerCount < peerCapacity ∨ peer.peerId ∉ ids f := by
  by_cases hlt : f.peerCount < peerCapacity
  · obtain ⟨g, hg, -, hlist, -⟩ := addPeer_of_lt hlt peer
    refine iff_of_true ⟨.ok, g, hg, by simp [hlt], fun _ => ?_, fun hne => absurd rfl hne⟩
      (.inl hlt)
    rw [hlist]
    exact holdsPeer_put h.2 peer
  · have hfull := addPeer_of_le (Nat.not_lt.mp hlt) peer
    rw [or_iff_right hlt]
    constructor
    · rintro ⟨code, g, hg, hcode, -⟩ hmem
      obtain ⟨rfl, -⟩ : ErrorCode.errOutOfMemory = code ∧ f = g := by
        simpa using hfull.symm.trans hg
      have hok := hcode.mpr (.inl hmem)
      cases hok
    · intro hmem
      exact ⟨_, f, hfull, by simp [hmem, hlt], nofun, fun _ => rfl⟩

/-! ## Runs -/

/-- A run of operations on single peers reaches a sound table. -/
theorem exists_run_single {ops : List Operation} (hops : ∀ op ∈ ops, op.Single)
    (peerList : PeerList) : ∃ f, run ops (.new peerList) = .ok f ∧ Sound f := by
  have hthroughout : Throughout (fun _ op => op.Single) ops (.new peerList) := by
    intro pre op post hsplit g _
    exact hops op (by simp [hsplit])
  exact hthroughout.run (fun h _ => h) (fun g (_ : Unit) => Sound g)
    (fun _ _ _ => Sound.next) (h := ()) ⟨Nat.zero_le _, by simp⟩

/-- Behind every run of add_peer and remove_peer, any peer is added as it should be if and only
if the table is not full or the peer is not listed. -/
theorem adds_iff {ops : List Operation} (hops : ∀ op ∈ ops, op.Single) (peerList : PeerList) :
    ∃ f, run ops (.new peerList) = .ok f ∧
      ∀ peer, Adds f peer ↔ f.peerCount < peerCapacity ∨ peer.peerId ∉ ids f := by
  obtain ⟨f, hf, hsound⟩ := exists_run_single hops peerList
  exact ⟨f, hf, hsound.adds_iff_room⟩

/-- A listed peer is updated in a table with one record. -/
theorem adds_iff_one : ∃ f, run [.addPeer peerOne] (.new blankPeers) = .ok f ∧
    ∀ peer, Adds f peer ↔ f.peerCount < peerCapacity ∨ peer.peerId ∉ ids f :=
  adds_iff (by simp [Operation.Single]) blankPeers

/-- A peer with a number as its identifier. -/
def numberedPeer (i : Nat) : Peer := { peerOne with peerId := .ofNat i }

/-- Peers with different identifiers are listed in the order they are added. -/
theorem run_addPeers {peers : List Peer} (hlength : peers.length ≤ peerCapacity)
    (hnodup : (peers.map Peer.peerId).Nodup) (peerList : PeerList) :
    ∃ f, run (peers.map .addPeer) (.new peerList) = .ok f ∧ f.peerCount ≤ peerCapacity ∧
      listed f = peers := by
  induction peers using List.reverseRecOn with
  | nil => exact ⟨.new peerList, rfl, Nat.zero_le _, rfl⟩
  | append_singleton peers peer ih =>
    rw [List.length_append, List.length_singleton] at hlength
    rw [List.map_append, List.map_singleton, List.nodup_append] at hnodup
    obtain ⟨f, hf, hcount, hlist⟩ := ih (by omega) hnodup.1
    have hlt : f.peerCount < peerCapacity := by
      rw [← length_listed hcount, hlist]
      omega
    obtain ⟨g, hg, hgcount, hglist, -⟩ := addPeer_of_lt hlt peer
    have hnew : peer.peerId ∉ (listed f).map Peer.peerId := by
      rw [hlist]
      grind
    rw [List.map_append]
    exact ⟨g, run_concat hf hg, hgcount, by rw [hglist, put_of_notMem hnew, hlist]⟩

/-- A listed peer cannot be updated in a full table. -/
theorem not_adds_full : ∃ f,
    run (((List.range peerCapacity).map numberedPeer).map .addPeer) (.new blankPeers) = .ok f ∧
      ¬ Adds f (numberedPeer 7) := by
  have hlength : ((List.range peerCapacity).map numberedPeer).length = peerCapacity := by simp
  have hnodup : (((List.range peerCapacity).map numberedPeer).map Peer.peerId).Nodup := by
    rw [List.map_map]
    refine List.nodup_range.map_on fun i hi j hj heq => ?_
    rw [List.mem_range, peerCapacity] at hi hj
    have hmod : i % 2 ^ 32 = j % 2 ^ 32 := by
      simpa [numberedPeer] using congrArg UInt32.toNat heq
    omega
  obtain ⟨f, hf, hcount, hlist⟩ := run_addPeers hlength.le hnodup blankPeers
  refine ⟨f, hf, ?_⟩
  have hfull : f.peerCount = peerCapacity := by rw [← length_listed hcount, hlist, hlength]
  have hsound : Sound f := ⟨hcount, by rwa [ids, hlist]⟩
  rw [hsound.adds_iff_room, hfull, ids, hlist]
  decide

end Federated.Federation
