import Federated.Federation.PeerList

/-!
# Writes inside the peer table

In which runs of the operations every write hits the block. Bootstrap nodes are
counted against the capacity from zero, whatever the table already holds.
-/

namespace Federated.Federation

variable {f g : SimpleFederation}

theorem writePeer_of_le (peerList : PeerList) {i : Nat} (peer : Peer) (h : peerCapacity ≤ i) :
    writePeer peerList i peer = .error .write :=
  dif_neg (Nat.not_lt.mpr h)

/-! ## Operations -/

/-- An operation with its arguments. -/
inductive Operation where
  | initializeNodes (nodes : BootstrapNodes) (around : Nat → Surroundings)
  | addPeer (peer : Peer)
  | removePeer (peerId : UInt32)
  | clearPeers

def Operation.apply : Operation → SimpleFederation → Except Fault (ErrorCode × SimpleFederation)
  | initializeNodes nodes around, f => Federation.initializeNodes nodes around f
  | addPeer peer, f => Federation.addPeer peer f
  | removePeer peerId, f => Federation.removePeer peerId f
  | clearPeers, f => .ok (Federation.clearPeers f)

/-- The table has room for the bootstrap nodes. -/
def Operation.HasRoom (f : SimpleFederation) : Operation → Prop
  | initializeNodes nodes _ => f.peerCount + nodes.stored ≤ peerCapacity
  | _ => True

/-- The loop over the bootstrap nodes leaves the block if there is not room for all. -/
theorem foldlM_addNode_of_lt (entries : List (Option Bytes × Surroundings))
    (hcount : f.peerCount ≤ peerCapacity)
    (h : peerCapacity < f.peerCount + entries.countP fun e => e.1.isSome) :
    entries.foldlM addNode f = .error .write := by
  induction entries generalizing f with
  | nil => exact absurd hcount (Nat.not_le.mpr h)
  | cons entry entries ih =>
    obtain ⟨node, around⟩ := entry
    cases node with
    | none => simpa [addNode] using ih hcount (by simpa using h)
    | some node =>
      simp only [List.countP_cons, Option.isSome_some, if_true] at h
      by_cases hlt : f.peerCount < peerCapacity
      · obtain ⟨g, hg, hgcount, -⟩ := addNode_of_lt hlt node around
        rw [List.foldlM_cons, hg, ok_bind]
        exact ih (by omega) (by omega)
      · have hfull : addNode f (some node, around) = .error .write := by
          simp only [addNode, writePeer_of_le _ _ (Nat.not_lt.mp hlt)]
          rfl
        rw [List.foldlM_cons, hfull]
        rfl

/-- With room for its bootstrap nodes an operation writes inside the block and the count
stays in bounds. -/
theorem Operation.apply_of_room {op : Operation} (hcount : f.peerCount ≤ peerCapacity)
    (hroom : op.HasRoom f) : ∃ code g, op.apply f = .ok (code, g) ∧ g.peerCount ≤ peerCapacity := by
  cases op with
  | initializeNodes nodes around =>
    obtain ⟨code, g, hg, hgcount, -⟩ := initializeNodes_of_le around hroom
    exact ⟨code, g, hg, hgcount.trans_le hroom⟩
  | addPeer peer =>
    by_cases hlt : f.peerCount < peerCapacity
    · obtain ⟨g, hg, hgcount, -⟩ := addPeer_of_lt hlt peer
      exact ⟨.ok, g, hg, hgcount⟩
    · exact ⟨_, f, addPeer_of_le (Nat.not_lt.mp hlt) peer, hcount⟩
  | removePeer peerId =>
    by_cases hmem : peerId ∈ ids f
    · obtain ⟨g, hg, hgcount, -⟩ := removePeer_of_mem hcount hmem
      exact ⟨.ok, g, hg, hgcount⟩
    · exact ⟨_, f, removePeer_of_notMem hmem, hcount⟩
  | clearPeers => exact ⟨_, _, rfl, Nat.zero_le _⟩

/-- Without, it writes behind the block. -/
theorem Operation.apply_of_not_room {op : Operation} (hcount : f.peerCount ≤ peerCapacity)
    (hroom : ¬ op.HasRoom f) : op.apply f = .error .write := by
  cases op with
  | initializeNodes nodes around =>
    cases nodes with
    | null nodeCount => exact absurd hcount hroom
    | array nodes =>
      have hfull := foldlM_addNode_of_lt
        ((nodes.take peerCapacity).mapIdx fun i node => (node, around i)) hcount
        (by rw [countP_entries]; exact Nat.lt_of_not_le hroom)
      simp only [apply, Federation.initializeNodes, hfull]
      rfl
  | addPeer peer => exact absurd trivial hroom
  | removePeer peerId => exact absurd trivial hroom
  | clearPeers => exact absurd trivial hroom

/-! ## Runs -/

/-- Apply operations one after the other. -/
def run (ops : List Operation) (f : SimpleFederation) : Except Fault SimpleFederation :=
  ops.foldlM (fun f op => (op.apply f).map Prod.snd) f

theorem run_append (pre post : List Operation) (f : SimpleFederation) :
    run (pre ++ post) f = run pre f >>= run post := List.foldlM_append

@[simp] theorem run_nil (f : SimpleFederation) : run [] f = .ok f := rfl

/-- In every state a run reaches, the count is in bounds, and no write leaves the block. -/
def InBounds (ops : List Operation) (f : SimpleFederation) : Prop :=
  ∀ pre post, ops = pre ++ post → ∃ g, run pre f = .ok g ∧ g.peerCount ≤ peerCapacity

/-- Whenever bootstrap nodes are to be stored, the table has room for them. -/
def RoomThroughout (ops : List Operation) (f : SimpleFederation) : Prop :=
  ∀ pre op post, ops = pre ++ op :: post → ∀ g, run pre f = .ok g → op.HasRoom g

/-- A condition holds of every operation of a run in the state it is applied to. -/
def Throughout (p : SimpleFederation → Operation → Prop) (ops : List Operation)
    (f : SimpleFederation) : Prop :=
  ∀ pre op post, ops = pre ++ op :: post → ∀ g, run pre f = .ok g → p g op

theorem run_concat {ops : List Operation} {op : Operation} {code : ErrorCode}
    {g' : SimpleFederation}
    (hg : run ops f = .ok g) (h : op.apply g = .ok (code, g')) : run (ops ++ [op]) f = .ok g' := by
  rw [run_append, hg, ok_bind, run, List.foldlM_cons, h]
  rfl

theorem Throughout.nil (p : SimpleFederation → Operation → Prop) (f : SimpleFederation) :
    Throughout p [] f := by
  intro pre op post hsplit
  simp at hsplit

theorem Throughout.cons {p : SimpleFederation → Operation → Prop} {op : Operation}
    {ops : List Operation} (hop : p f op)
    (hops : ∀ code g, op.apply f = .ok (code, g) → Throughout p ops g) :
    Throughout p (op :: ops) f := by
  intro pre op' post hsplit g hg
  cases pre with
  | nil =>
    obtain ⟨rfl, rfl⟩ := List.cons.inj hsplit
    obtain rfl : f = g := Except.ok.inj hg
    exact hop
  | cons first pre =>
    obtain ⟨rfl, rfl⟩ := List.cons.inj hsplit
    rw [Federation.run, List.foldlM_cons] at hg
    cases hstep : op.apply f with
    | error fault =>
      rw [hstep] at hg
      cases hg
    | ok result =>
      rw [hstep] at hg
      exact hops result.1 result.2 hstep pre op' post rfl g hg

theorem Throughout.of_append {p : SimpleFederation → Operation → Prop} {pre post : List Operation}
    (h : Throughout p (pre ++ post) f) : Throughout p pre f := by
  intro pre' op post' hsplit
  exact h pre' op (post' ++ post) (by simp [hsplit])

/-- What the operations keep of a state and of what is recorded beside it holds behind a run. -/
theorem Throughout.run {η : Type*} {p : SimpleFederation → Operation → Prop}
    (add : η → Operation → η) (inv : SimpleFederation → η → Prop)
    (next : ∀ f h op, inv f h → p f op → ∃ code g, op.apply f = .ok (code, g) ∧ inv g (add h op))
    {h : η} (start : inv f h) {ops : List Operation} (hp : Throughout p ops f) :
    ∃ g, Federation.run ops f = .ok g ∧ inv g (ops.foldl add h) := by
  induction ops using List.reverseRecOn with
  | nil => exact ⟨f, rfl, start⟩
  | append_singleton ops op ih =>
    obtain ⟨g, hg, hinv⟩ := ih hp.of_append
    obtain ⟨code, g', hstep, hinv'⟩ := next g _ op hinv (hp ops op [] rfl g hg)
    rw [List.foldl_concat]
    exact ⟨g', run_concat hg hstep, hinv'⟩

theorem run_of_room {ops : List Operation} (hcount : f.peerCount ≤ peerCapacity)
    (hroom : RoomThroughout ops f) : ∃ g, run ops f = .ok g ∧ g.peerCount ≤ peerCapacity :=
  Throughout.run (fun h _ => h) (fun g (_ : Unit) => g.peerCount ≤ peerCapacity)
    (fun _ _ _ => Operation.apply_of_room) (h := ()) hcount hroom

/-- A run that stays inside the table has room. -/
theorem InBounds.room {ops : List Operation} (h : InBounds ops f) : RoomThroughout ops f := by
  intro pre op post hsplit g hg
  obtain ⟨g', hg', hcount⟩ := h pre (op :: post) hsplit
  obtain rfl : g = g' := Except.ok.inj (hg.symm.trans hg')
  by_contra hroom
  obtain ⟨g'', hg'', -⟩ := h (pre ++ [op]) post (by simp [hsplit])
  rw [run_append, hg, ok_bind, run, List.foldlM_cons,
    Operation.apply_of_not_room hcount hroom] at hg''
  cases hg''

theorem inBounds_of_room {ops : List Operation} (hcount : f.peerCount ≤ peerCapacity)
    (h : RoomThroughout ops f) : InBounds ops f := by
  intro pre post hsplit
  subst hsplit
  exact run_of_room hcount (Throughout.of_append h)

/-- A run stays inside the table exactly if there is room whenever bootstrap nodes come. -/
theorem inBounds_iff (ops : List Operation) (peerList : PeerList) :
    InBounds ops (.new peerList) ↔ RoomThroughout ops (.new peerList) :=
  ⟨InBounds.room, inBounds_of_room (Nat.zero_le _)⟩

def sixtyNodes : List (Option Bytes) := List.replicate 60 (some (ascii "127.0.0.1:9050"))

/-- Storing sixty bootstrap nodes. -/
def initializeSixty : Operation :=
  .initializeNodes (.array sixtyNodes) fun _ => ⟨0, Vector.replicate 256 0⟩

def blankPeers : PeerList := Vector.replicate _ ⟨0, Vector.replicate 256 0, 0, 0, 0, 0, false⟩

/-- A peer whose identifier its caller chose. -/
def peerOne : Peer := ⟨1, Vector.replicate 256 0, 9050, 0, 0, 1, false⟩

/-- Sixty nodes fit the table once, not twice. -/
theorem not_inBounds_twice : ¬ InBounds [initializeSixty, initializeSixty] (.new blankPeers) := by
  intro h
  have hstored : (BootstrapNodes.array sixtyNodes).stored = 60 := by decide
  have hfits : 0 + (BootstrapNodes.array sixtyNodes).stored ≤ peerCapacity := by
    rw [hstored]
    decide
  obtain ⟨code, g, hfirst, hgcount, -⟩ := initializeNodes_of_le (f := .new blankPeers)
    (fun _ => ⟨0, Vector.replicate 256 0⟩) hfits
  have hcount : g.peerCount = 60 := hgcount.trans (by rw [hstored]; rfl)
  have hsecond : initializeSixty.apply g = .error .write := by
    apply Operation.apply_of_not_room
    · rw [hcount]
      decide
    · intro hroom
      have hroom : g.peerCount + (BootstrapNodes.array sixtyNodes).stored ≤ 100 := hroom
      omega
  obtain ⟨g', hg', -⟩ := h [initializeSixty, initializeSixty] [] rfl
  have hfirst : initializeSixty.apply (.new blankPeers) = .ok (code, g) := hfirst
  simp [run, hfirst, hsecond, Except.map, bind, Except.bind] at hg'

end Federated.Federation
