import Federated.Transport.Loopback
import Federated.Library.Machine

/-!
# Order and loss on the loopback

The messages accepted since the last open are those returned and those queued, in
order, as long as every receive finds room for the message at the front. One that
does not takes the message off the queue before it looks at the room.
-/

namespace Federated.Transport

open Library

/-! ## Runs -/

inductive LoopbackCall where
  | open
  | close
  | send (data : Bytes)
  | recv (data : Buffer)

/-- What a call gives back. -/
inductive LoopbackAnswer where
  | code (code : ErrorCode)
  | received (code : ErrorCode) (data : Buffer)

namespace Loopback

/-- The transport as the program starts. -/
def start : Loopback := ⟨false, []⟩

def step (t : Loopback) : LoopbackCall → LoopbackAnswer × Loopback
  | .open => (loopbackOpen t).map .code id
  | .close => (loopbackClose t).map .code id
  | .send data => (loopbackSend data t).map .code id
  | .recv data =>
    let (code, data, t) := loopbackRecv data t
    (.received code data, t)

/-- The messages accepted and those returned since the last open. -/
structure Traffic where
  accepted : List Bytes
  returned : List Bytes

def Traffic.add (traffic : Traffic) (t : Loopback) (call : LoopbackCall) : Traffic :=
  match call, (t.step call).1 with
  | .open, _ => ⟨[], []⟩
  | .send data, .code .ok => { traffic with accepted := traffic.accepted ++ [data] }
  | .recv _, .received .ok data => { traffic with returned := traffic.returned ++ [data.bytes] }
  | _, _ => traffic

/-- The traffic of a run from the start of the program. -/
def traffic (calls : List LoopbackCall) : Traffic := record step Traffic.add ⟨[], []⟩ start calls

/-- What was returned is the front of what was accepted, and the rest of it is queued as
long as the transport is open. -/
structure Ordered (t : Loopback) (traffic : Traffic) : Prop where
  returned : traffic.returned <+: traffic.accepted
  pending : t.isOpen = true → traffic.accepted = traffic.returned ++ t.queue.map Message.bytes

/-- If the call is a receive that returns an error, it leaves the queue as it is. -/
def KeepsOnError (t : Loopback) (call : LoopbackCall) : Prop :=
  ∀ code data, (t.step call).1 = .received code data → code ≠ .ok →
    (t.step call).2.queue = t.queue

/-- If the call is a receive, it has room for the message at the front of the queue. -/
def HasRoom (t : Loopback) (call : LoopbackCall) : Prop :=
  ∀ data, call = .recv data → t.isOpen = true → ∀ msg ∈ t.queue.head?, msg.bytes.length ≤ data.size

/-! ## What one call does -/

variable {t : Loopback} {traffic : Traffic} {call : LoopbackCall}

/-- The ways a receive can go. -/
theorem recv_cases (data : Buffer) (t : Loopback) :
    (t.isOpen = false ∧ loopbackRecv data t = (.errIo, data, t)) ∨
    (t.isOpen = true ∧ t.queue = [] ∧ loopbackRecv data t = (.errTimeout, data, t)) ∨
    (∃ msg queue, t.isOpen = true ∧ t.queue = msg :: queue ∧ data.size < msg.bytes.length ∧
      loopbackRecv data t = (.errFormat, data, { t with queue })) ∨
    (∃ msg queue, t.isOpen = true ∧ t.queue = msg :: queue ∧ msg.bytes.length ≤ data.size ∧
      loopbackRecv data t = (.ok, filled data msg.bytes, { t with queue })) := by
  unfold loopbackRecv
  cases hopen : t.isOpen with
  | false => simp
  | true =>
    cases hqueue : t.queue with
    | nil => simp
    | cons msg queue =>
      by_cases hsize : msg.bytes.length > data.size
      · simp [hsize]
      · simp [hsize, Nat.le_of_not_lt hsize]

/-- A receive that fails leaves the queue alone exactly if it has room for the front of it. -/
theorem keepsOnError_iff : KeepsOnError t call ↔ HasRoom t call := by
  cases call with
  | «open» | close | send data => simp [KeepsOnError, HasRoom, step]
  | recv data =>
    rcases recv_cases data t with ⟨hopen, hrecv⟩ | ⟨hopen, hqueue, hrecv⟩ |
      ⟨msg, queue, hopen, hqueue, hsize, hrecv⟩ | ⟨msg, queue, hopen, hqueue, hsize, hrecv⟩
    · simp [KeepsOnError, HasRoom, step, hrecv, hopen]
    · simp [KeepsOnError, HasRoom, step, hrecv, hqueue]
    · simp [KeepsOnError, HasRoom, step, hrecv, hopen, hqueue, hsize]
    · simp [KeepsOnError, HasRoom, step, hrecv, hopen, hqueue, hsize]

theorem Ordered.send (h : Ordered t traffic) (data : Bytes) :
    Ordered (t.step (.send data)).2 (traffic.add t (.send data)) := by
  cases hopen : t.isOpen with
  | false => simpa [step, Traffic.add, loopbackSend, hopen] using h
  | true =>
    by_cases hsize : data.length > maxMessageSize
    · simpa [step, Traffic.add, loopbackSend, hopen, hsize] using h
    · have hpending := h.pending hopen
      simp only [step, Traffic.add, loopbackSend, hopen, hsize, Bool.true_eq_false, if_false,
        dite_false, Prod.map_snd, Prod.map_fst, id]
      exact ⟨h.returned.trans (List.prefix_append _ _), fun _ => by simp [hpending]⟩

theorem Ordered.recv {data : Buffer} (h : Ordered t traffic) (hroom : HasRoom t (.recv data)) :
    Ordered (t.step (.recv data)).2 (traffic.add t (.recv data)) := by
  rcases recv_cases data t with ⟨-, hrecv⟩ | ⟨-, -, hrecv⟩ |
    ⟨msg, queue, hopen, hqueue, hsize, hrecv⟩ | ⟨msg, queue, hopen, hqueue, -, hrecv⟩
  · simpa [step, Traffic.add, hrecv] using h
  · simpa [step, Traffic.add, hrecv] using h
  · have hfits := hroom data rfl hopen msg (by simp [hqueue])
    omega
  · have hpending := h.pending hopen
    rw [hqueue, List.map_cons] at hpending
    simp only [step, Traffic.add, hrecv, bytes_filled]
    refine ⟨⟨queue.map Message.bytes, ?_⟩, fun _ => ?_⟩ <;> simp [hpending]

/-- A call with room keeps what is returned and queued in order. -/
theorem Ordered.step (h : Ordered t traffic) (hroom : HasRoom t call) :
    Ordered (t.step call).2 (traffic.add t call) := by
  cases call with
  | «open» => exact ⟨List.prefix_rfl, fun _ => rfl⟩
  | close => exact ⟨h.returned, fun hopen => nomatch hopen⟩
  | send data => exact h.send data
  | recv data => exact h.recv hroom

/-! ## Runs -/

/-- After every call of a run the messages accepted since the last open are returned in order,
each once, and no receive that fails changes the queue. -/
structure InOrder (calls : List LoopbackCall) : Prop where
  ordered : ∀ pre, pre <+: calls → Ordered (after Loopback.step start pre) (Loopback.traffic pre)
  errors : Along Loopback.step KeepsOnError start calls

/-- A run keeps the messages in order if and only if every receive has room for the message
at the front of the queue. -/
theorem inOrder_iff (calls : List LoopbackCall) :
    InOrder calls ↔ Along Loopback.step HasRoom start calls := by
  have hiff : Along Loopback.step KeepsOnError start calls ↔
      Along Loopback.step HasRoom start calls :=
    ⟨Along.mono fun _ _ => keepsOnError_iff.mp, Along.mono fun _ _ => keepsOnError_iff.mpr⟩
  refine ⟨fun h => hiff.mp h.errors, fun h => ⟨?_, hiff.mpr h⟩⟩
  rintro pre ⟨post, rfl⟩
  exact (along_append.mp h).1.invariant Ordered (fun _ _ _ => Ordered.step)
    ⟨List.prefix_rfl, fun _ => rfl⟩

/-- A message of five bytes is received into four. -/
theorem not_inOrder_short :
    ¬ InOrder [.open, .send (ascii "Hello"), .recv (.ofBlock (List.replicate 4 0))] := by
  intro h
  have hkept := h.errors.2.2.1 .errFormat (.ofBlock (List.replicate 4 0)) rfl (by decide)
  cases hkept

end Loopback

end Federated.Transport
