import Federated.Federation.PeerBounds

/-!
# Identifiers of peers

`initializeNodes` takes the identifiers of its nodes from a counter and does not look
for them in the table; `addPeer` takes whatever its caller chose and does. In which
runs the identifiers of the listed peers stay distinct.
-/

namespace Federated.Federation

open Library

variable {f g : SimpleFederation}

/-- In every state that a run reaches the identifiers of the listed peers are distinct, and
after the removal of one no listed peer has it. -/
def UniqueIds (ops : List Operation) (f : SimpleFederation) : Prop :=
  ∀ pre post, ops = pre ++ post → ∀ g, run pre f = .ok g → (ids g).Nodup ∧
    ∀ peerId g', removePeer peerId g = .ok (.ok, g') → peerId ∉ ids g'

/-- No listed peer has an identifier that the bootstrap nodes are going to get. -/
def Operation.Fresh (f : SimpleFederation) : Operation → Prop
  | initializeNodes nodes _ => ∀ i < nodes.stored, f.nextPeerId + .ofNat i ∉ ids f
  | _ => True

theorem mem_nextIds {n : Nat} {peerId : UInt32} :
    peerId ∈ nextIds f n ↔ ∃ i < n, f.nextPeerId + .ofNat i = peerId := by
  simp [nextIds]

/-- The counter does not come back to a value among as many nodes as the table holds. -/
theorem nodup_nextIds (f : SimpleFederation) {n : Nat} (h : n ≤ peerCapacity) :
    (nextIds f n).Nodup := by
  refine List.nodup_range.map_on fun i hi j hj heq => ?_
  have hsmall : peerCapacity < 2 ^ 32 := by decide
  rw [List.mem_range] at hi hj
  rw [UInt32.add_right_inj, UInt32.ofNat_eq_iff_mod_eq_toNat, UInt32.toNat_ofNat'] at heq
  rwa [Nat.mod_eq_of_lt (by omega), Nat.mod_eq_of_lt (by omega)] at heq

/-- Distinct identifiers stay distinct exactly if those that are given out are fresh. -/
theorem Operation.apply_nodup {op : Operation} (hcount : f.peerCount ≤ peerCapacity)
    (hroom : op.HasRoom f) (hnodup : (ids f).Nodup) :
    ∃ code g, op.apply f = .ok (code, g) ∧ g.peerCount ≤ peerCapacity ∧
      ((ids g).Nodup ↔ op.Fresh f) := by
  cases op with
  | initializeNodes nodes around =>
    obtain ⟨code, g, hg, hgcount, hids⟩ := initializeNodes_of_le around hroom
    refine ⟨code, g, hg, hgcount.trans_le hroom, ?_⟩
    have hstored : nodes.stored ≤ peerCapacity := (Nat.le_add_left _ _).trans hroom
    have hnew := nodup_nextIds f hstored
    rw [hids, List.nodup_append', and_iff_right hnodup, and_iff_right hnew, List.disjoint_comm]
    simp [Fresh, List.Disjoint, mem_nextIds]
  | addPeer peer =>
    by_cases hlt : f.peerCount < peerCapacity
    · obtain ⟨g, hg, hgcount, hlist, -⟩ := addPeer_of_lt hlt peer
      refine ⟨.ok, g, hg, hgcount, iff_of_true ?_ trivial⟩
      rw [ids, hlist, map_put]
      split
      case isTrue => exact hnodup
      case isFalse hmem => simpa using hnodup.concat hmem
    · exact ⟨_, f, addPeer_of_le (Nat.not_lt.mp hlt) peer, hcount, iff_of_true hnodup trivial⟩
  | removePeer peerId =>
    by_cases hmem : peerId ∈ ids f
    · obtain ⟨g, hg, hgcount, hlist, -⟩ := removePeer_of_mem hcount hmem
      refine ⟨.ok, g, hg, hgcount, iff_of_true ?_ trivial⟩
      rw [ids, hlist]
      exact hnodup.sublist (List.eraseP_sublist.map _)
    · exact ⟨_, f, removePeer_of_notMem hmem, hcount, iff_of_true hnodup trivial⟩
  | clearPeers =>
    refine ⟨.ok, (Federation.clearPeers f).2, rfl, Nat.zero_le _, iff_of_true ?_ trivial⟩
    simp [ids]

/-- Among distinct identifiers a removed one is gone. -/
theorem removed_notMem {peerId : UInt32} (hcount : f.peerCount ≤ peerCapacity)
    (hnodup : (ids f).Nodup) (h : removePeer peerId f = .ok (.ok, g)) : peerId ∉ ids g := by
  by_cases hmem : peerId ∈ ids f
  · obtain ⟨g', hg', -, hlist, -⟩ := removePeer_of_mem hcount hmem
    obtain rfl : g' = g := by simpa using hg'.symm.trans h
    rw [ids, hlist]
    exact notMem_map_eraseP hnodup peerId
  · rw [removePeer_of_notMem hmem] at h
    cases h

/-- In a run with room and fresh identifiers, the identifiers are distinct behind it. -/
theorem nodup_ids_run {ops : List Operation} {peerList : PeerList}
    (hroom : RoomThroughout ops (.new peerList))
    (hfresh : Throughout Operation.Fresh ops (.new peerList)) :
    ∃ g, run ops (.new peerList) = .ok g ∧ g.peerCount ≤ peerCapacity ∧ (ids g).Nodup := by
  have hboth : Throughout (fun f op => op.HasRoom f ∧ op.Fresh f) ops (.new peerList) :=
    fun pre op post hsplit g hg => ⟨hroom pre op post hsplit g hg, hfresh pre op post hsplit g hg⟩
  refine Throughout.run (fun h _ => h)
    (fun g (_ : Unit) => g.peerCount ≤ peerCapacity ∧ (ids g).Nodup) ?_ (h := ())
    ⟨Nat.zero_le _, by simp⟩ hboth
  rintro f - op ⟨hcount, hnodup⟩ ⟨hroom, hfresh⟩
  obtain ⟨code, g, hg, hgcount, hids⟩ := op.apply_nodup hcount hroom hnodup
  exact ⟨code, g, hg, hgcount, hids.mpr hfresh⟩

/-- In a run that stays inside the table the identifiers of the listed peers stay distinct
exactly if no bootstrap node gets the identifier of a listed peer. -/
theorem uniqueIds_iff (ops : List Operation) (peerList : PeerList)
    (h : InBounds ops (.new peerList)) :
    UniqueIds ops (.new peerList) ↔ Throughout Operation.Fresh ops (.new peerList) := by
  constructor
  · intro hunique pre op post hsplit g hg
    obtain ⟨g', hg', hcount⟩ := h pre (op :: post) hsplit
    obtain rfl : g = g' := Except.ok.inj (hg.symm.trans hg')
    have hroom := h.room pre op post hsplit g hg
    have hbefore := (hunique pre (op :: post) hsplit g hg).1
    obtain ⟨code, g'', hstep, -, hids⟩ := op.apply_nodup hcount hroom hbefore
    exact hids.mp (hunique (pre ++ [op]) post (by simp [hsplit]) g'' (run_concat hg hstep)).1
  · intro hfresh pre post hsplit g hg
    subst hsplit
    obtain ⟨g', hg', hcount, hnodup⟩ := nodup_ids_run (Throughout.of_append h.room) hfresh.of_append
    obtain rfl : g = g' := Except.ok.inj (hg.symm.trans hg')
    exact ⟨hnodup, fun peerId g' hremove => removed_notMem hcount hnodup hremove⟩

/-- Storing one bootstrap node. -/
def initializeOne : Operation :=
  .initializeNodes (.array [some (ascii "127.0.0.1:9050")]) fun _ => ⟨0, Vector.replicate 256 0⟩

/-- Bootstrap nodes that come first get identifiers that nobody has. -/
theorem uniqueIds_initializeOne :
    UniqueIds [initializeOne, .addPeer peerOne, .removePeer 1] (.new blankPeers) := by
  have hrest : ∀ (p : SimpleFederation → Operation → Prop) (f : SimpleFederation),
      (∀ f, p f (.addPeer peerOne)) → (∀ f, p f (.removePeer 1)) →
        Throughout p [.addPeer peerOne, .removePeer 1] f := by
    intro p f hadd hremove
    exact .cons (hadd f) fun _ g _ => .cons (hremove g) fun _ g' _ => .nil p g'
  have hfirst : initializeOne.HasRoom (.new blankPeers) := by
    simp only [initializeOne, Operation.HasRoom]
    decide
  have hroom : RoomThroughout [initializeOne, .addPeer peerOne, .removePeer 1] (.new blankPeers) :=
    Throughout.cons hfirst fun _ g _ =>
      hrest Operation.HasRoom g (fun _ => trivial) fun _ => trivial
  have hfresh : Throughout Operation.Fresh [initializeOne, .addPeer peerOne, .removePeer 1]
      (.new blankPeers) :=
    .cons (fun i _ => by simp) fun _ g _ =>
      hrest Operation.Fresh g (fun _ => trivial) fun _ => trivial
  exact (uniqueIds_iff _ _ (inBounds_of_room (Nat.zero_le _) hroom)).mpr hfresh

/-- The first bootstrap node gets the identifier of the peer that was added before. -/
theorem not_uniqueIds_peerOne :
    InBounds [.addPeer peerOne, initializeOne] (.new blankPeers) ∧
      ¬ UniqueIds [.addPeer peerOne, initializeOne] (.new blankPeers) := by
  obtain ⟨g, hg, hone, hids, hnext⟩ := addPeer_new blankPeers peerOne
  have hcount : g.peerCount ≤ peerCapacity := by
    rw [hone]
    decide
  have hroom : initializeOne.HasRoom g := by
    simp only [initializeOne, Operation.HasRoom, hone]
    decide
  have hrun : RoomThroughout [.addPeer peerOne, initializeOne] (.new blankPeers) := by
    refine Throughout.cons trivial fun code g' hg' => .cons ?_ fun _ g _ => .nil _ g
    obtain ⟨-, rfl⟩ : ErrorCode.ok = code ∧ g = g' := by simpa using hg.symm.trans hg'
    exact hroom
  have hbounds := inBounds_of_room (Nat.zero_le _) hrun
  refine ⟨hbounds, fun hunique => ?_⟩
  obtain ⟨code, g', hg', -, hiff⟩ := Operation.apply_nodup hcount hroom (by simp [hids])
  have hbefore : run [.addPeer peerOne] (.new blankPeers) = .ok g := run_concat (run_nil _) hg
  have hfresh := hiff.mp (hunique _ [] rfl g' (run_concat hbefore hg')).1
  have hclash : (1 : UInt32) ∉ ids g := by
    simpa [hnext] using hfresh 0 (by decide)
  exact hclash (by simp [hids, peerOne])

end Federated.Federation
