import Federated.Transport.Tcp
import Federated.Library.Machine

/-!
# The sockets of the TCP transport

Every attempt to connect makes a client socket, and a connection is named by the
client socket it comes from. The kernel queues the connections to the listening socket
as they arrive, which may be after the attempt was given up, and hands them out in this
order. What is accepted is the other end of the client socket if no older connection
is in the queue.
-/

namespace Federated.Transport.Tcp

open Library

/-- The listening socket: the attempts that have not arrived, and the connections that wait to
be accepted. -/
structure Listener where
  pending : List Nat
  acceptQueue : List Nat
  deriving DecidableEq, Repr

/-- The handles of the transport, where `none` is an invalid one, with the number of client
sockets made so far. The server socket is the accepted end of a connection. -/
structure TcpSockets where
  listenSocket : Option Listener
  clientSocket : Option Nat
  serverSocket : Option Nat
  isOpen : Bool
  connectionEstablished : Bool
  sockets : Nat
  deriving DecidableEq, Repr

/-- The state as the program starts. -/
def TcpSockets.new : TcpSockets := ⟨none, none, none, false, false, 0⟩

/-- What an `accept` gives back: the connection in front, or nothing, with or without taking it
off the queue. -/
inductive AcceptAnswer where
  | accepted
  | failed
  | aborted
  deriving DecidableEq, Repr

/-- What the kernel does during an attempt: whether it makes a socket and does not refuse to
connect it, which connections arrive, whether the listening socket becomes ready, and what
`accept` answers. -/
structure Attempt where
  socket : Bool
  connect : Bool
  arrivals : List Nat
  select : Bool
  accept : AcceptAnswer
  deriving DecidableEq, Repr

/-- The kernel lets an attempt get as far as accepting a connection. -/
structure Attempt.Completes (attempt : Attempt) : Prop where
  socket : attempt.socket = true
  connect : attempt.connect = true
  select : attempt.select = true
  accept : attempt.accept = .accepted

/-- A connection arrives. -/
def Listener.arrive (l : Listener) (conn : Nat) : Listener :=
  if conn ∈ l.pending then ⟨l.pending.erase conn, l.acceptQueue ++ [conn]⟩ else l

/-- The listening socket behind a new attempt and what arrives during it. -/
def Listener.await (l : Listener) (client : Nat) (arrivals : List Nat) : Listener :=
  arrivals.foldl arrive { l with pending := l.pending ++ [client] }

def Listener.accept (l : Listener) : AcceptAnswer → Option Nat × Listener
  | .accepted => (l.acceptQueue.head?, { l with acceptQueue := l.acceptQueue.tail })
  | .aborted => (none, { l with acceptQueue := l.acceptQueue.tail })
  | .failed => (none, l)

namespace TcpSockets

/-- Open the transport, if the listening socket can be set up. -/
def tcpOpen (listens : Bool) (t : TcpSockets) : ErrorCode × TcpSockets :=
  if t.isOpen then (.ok, t)
  else if listens then (.ok, { t with listenSocket := some ⟨[], []⟩, isOpen := true })
  else (.errIo, { t with listenSocket := none })

def tcpClose (t : TcpSockets) : ErrorCode × TcpSockets :=
  if t.isOpen then
    (.ok, { t with
      clientSocket := none
      serverSocket := none
      listenSocket := none
      isOpen := false
      connectionEstablished := false })
  else (.ok, t)

/-- Connect a new client socket to the listening socket, and accept a connection. -/
def connectAndAccept (attempt : Attempt) (listener : Listener) (t : TcpSockets) :
    ErrorCode × TcpSockets :=
  if attempt.socket = false then (.errIo, { t with clientSocket := none })
  else
    let client := t.sockets
    let listener := listener.await client attempt.arrivals
    let t := { t with listenSocket := some listener, sockets := client + 1 }
    if attempt.connect = false ∨ attempt.select = false then
      (.errIo, { t with clientSocket := none })
    else
      match listener.accept attempt.accept with
      | (none, listener) =>
        (.errIo, { t with
          listenSocket := some listener
          serverSocket := none
          clientSocket := none })
      | (some conn, listener) =>
        (.ok, { t with
          listenSocket := some listener
          serverSocket := some conn
          clientSocket := some client
          connectionEstablished := true })

/-- Connect, unless that was done before. -/
def ensureConnection (attempt : Attempt) (t : TcpSockets) : ErrorCode × TcpSockets :=
  if t.connectionEstablished then (.ok, t)
  else if t.isOpen = false then (.errIo, t)
  else
    match t.listenSocket with
    | none => (.errIo, t)
    | some listener => t.connectAndAccept attempt listener

/-- Send data. Behind the connection the sockets stay as they are. -/
def tcpSend (data : Bytes) (attempt : Attempt) (t : TcpSockets) : ErrorCode × TcpSockets :=
  if t.isOpen = false then (.errIo, t)
  else if data.length > maxMessageSize then (.errFormat, t)
  else t.ensureConnection attempt

def tcpRecv (attempt : Attempt) (t : TcpSockets) : ErrorCode × TcpSockets :=
  if t.isOpen = false then (.errIo, t) else t.ensureConnection attempt

/-! ## Runs -/

/-- A call, with what the kernel does during it. -/
inductive SocketCall where
  | tcpOpen (listens : Bool)
  | tcpClose
  | tcpSend (data : Bytes) (attempt : Attempt)
  | tcpRecv (attempt : Attempt)

def step (t : TcpSockets) : SocketCall → ErrorCode × TcpSockets
  | .tcpOpen listens => t.tcpOpen listens
  | .tcpClose => t.tcpClose
  | .tcpSend data attempt => t.tcpSend data attempt
  | .tcpRecv attempt => t.tcpRecv attempt

/-- The attempt that a call makes, if it gets as far as that. -/
def SocketCall.attempt : SocketCall → Option Attempt
  | .tcpSend data attempt => if data.length > maxMessageSize then none else some attempt
  | .tcpRecv attempt => some attempt
  | .tcpOpen _ | .tcpClose => none

/-- The server socket of an established connection is the accepted end of that of the client
socket. -/
def Coupled (t : TcpSockets) : Prop :=
  t.connectionEstablished = true → t.clientSocket.isSome ∧ t.serverSocket = t.clientSocket

/-- Before an attempt at the end of which a connection is accepted, the queue is empty, and
the first connection to arrive is its own. -/
def OwnArrivesFirst (t : TcpSockets) (attempt : Attempt) : Prop :=
  ∀ listener ∈ t.listenSocket, t.connectionEstablished = false →
    attempt.Completes → (listener.await t.sockets attempt.arrivals).acceptQueue ≠ [] →
    listener.acceptQueue = [] ∧
      attempt.arrivals.find? (· ∈ listener.pending ++ [t.sockets]) = some t.sockets

/-- The connection is coupled throughout a run. -/
def CoupledThroughout (calls : List SocketCall) : Prop :=
  ∀ pre, pre <+: calls → (after step new pre).Coupled

end TcpSockets

/-! ## The accept queue -/

variable {l : Listener} {n : Nat}

/-- All connections to a listening socket come from one of the first `n` sockets. -/
def Listener.Below (l : Listener) (n : Nat) : Prop := ∀ conn ∈ l.pending ++ l.acceptQueue, conn < n

theorem Listener.Below.arrive (h : l.Below n) (conn : Nat) : (l.arrive conn).Below n := by
  rw [Listener.arrive]
  split_ifs with hconn
  · intro other hother
    refine h other ?_
    simp only [List.mem_append, List.mem_singleton] at hother ⊢
    rcases hother with hother | hother | rfl
    · exact .inl (List.mem_of_mem_erase hother)
    · exact .inr hother
    · exact .inl hconn
  · exact h

theorem Listener.Below.foldl_arrive (h : l.Below n) (arrivals : List Nat) :
    (arrivals.foldl Listener.arrive l).Below n := by
  induction arrivals generalizing l with
  | nil => exact h
  | cons conn arrivals ih => exact ih (h.arrive conn)

theorem Listener.Below.await (h : l.Below n) (arrivals : List Nat) :
    (l.await n arrivals).Below (n + 1) := by
  refine Listener.Below.foldl_arrive (fun conn hconn => ?_) arrivals
  have hcases : conn ∈ l.pending ++ l.acceptQueue ∨ conn = n := by
    simp only [List.mem_append, List.mem_singleton] at hconn ⊢
    tauto
  rcases hcases with hconn | rfl
  · exact Nat.lt_succ_of_lt (h conn hconn)
  · exact Nat.lt_succ_self conn

theorem Listener.Below.accept (h : l.Below n) (answer : AcceptAnswer) :
    (l.accept answer).2.Below n := by
  have htail : Listener.Below { l with acceptQueue := l.acceptQueue.tail } n := fun conn hconn =>
    h conn (by
      rcases List.mem_append.mp hconn with hconn | hconn
      · exact List.mem_append_left _ hconn
      · exact List.mem_append_right _ (List.mem_of_mem_tail hconn))
  cases answer with
  | accepted => exact htail
  | failed => exact h
  | aborted => exact htail

/-- In front of the queue stays what was there, else stands the first that arrived. -/
theorem Listener.head?_foldl_arrive (l : Listener) (arrivals : List Nat) :
    (arrivals.foldl Listener.arrive l).acceptQueue.head? =
      l.acceptQueue.head?.or (arrivals.find? (· ∈ l.pending)) := by
  induction arrivals generalizing l with
  | nil => simp
  | cons conn arrivals ih =>
    rw [List.foldl_cons, ih, Listener.arrive]
    by_cases hconn : conn ∈ l.pending
    · cases l.acceptQueue <;> simp [hconn]
    · simp [hconn]

/-- The connection of the newest client socket is in front exactly if the queue was empty and it
arrives first. -/
theorem Listener.Below.head?_await_iff (h : l.Below n) (arrivals : List Nat) :
    (l.await n arrivals).acceptQueue.head? = some n ↔
      l.acceptQueue = [] ∧ arrivals.find? (· ∈ l.pending ++ [n]) = some n := by
  rw [Listener.await, Listener.head?_foldl_arrive]
  cases hqueue : l.acceptQueue with
  | nil => simp
  | cons conn queue =>
    have hlt := h conn (by simp [hqueue])
    simp [Nat.ne_of_lt hlt]

/-! ## One call -/

namespace TcpSockets

variable {t t' : TcpSockets}

/-- The connections that the kernel knows come from sockets that were made, and there is no
listening socket on a closed transport. -/
structure Sound (t : TcpSockets) : Prop where
  below : ∀ listener ∈ t.listenSocket, listener.Below t.sockets
  closed : t.isOpen = false → t.listenSocket = none

theorem sound_new : new.Sound := ⟨nofun, fun _ => rfl⟩

/-- The ways an attempt can go: nothing is accepted, or the connection in front. -/
inductive Outcome (t : TcpSockets) (attempt : Attempt) (listener : Listener) (t' : TcpSockets) :
    Prop
  | unconnected (hunconn : t'.connectionEstablished = false)
      (hnone : attempt.Completes → (listener.await t.sockets attempt.arrivals).acceptQueue = [])
  | accepted (conn : Nat) (hcompletes : attempt.Completes)
      (hfront : (listener.await t.sockets attempt.arrivals).acceptQueue.head? = some conn)
      (hclient : t'.clientSocket = some t.sockets) (hserver : t'.serverSocket = some conn)
      (hconn : t'.connectionEstablished = true)

theorem Sound.connectAndAccept {listener : Listener} (h : t.Sound)
    (hlisten : t.listenSocket = some listener) (hopen : t.isOpen = true)
    (hunconn : t.connectionEstablished = false) (attempt : Attempt) :
    (t.connectAndAccept attempt listener).2.Sound ∧
      t.Outcome attempt listener (t.connectAndAccept attempt listener).2 := by
  have hbelow := (h.below listener hlisten).await attempt.arrivals
  have hsound {l : Listener} (hl : l.Below (t.sockets + 1)) (client server : Option Nat)
      (connected : Bool) : Sound ⟨some l, client, server, t.isOpen, connected, t.sockets + 1⟩ :=
    ⟨by rintro _ ⟨⟩; exact hl, fun hclosed => by simp [hopen] at hclosed⟩
  rw [TcpSockets.connectAndAccept]
  split_ifs with hsocket hgiven
  · exact ⟨⟨h.below, h.closed⟩, .unconnected hunconn fun hall => by simp [hall.socket] at hsocket⟩
  · refine ⟨hsound hbelow _ _ _, .unconnected hunconn fun hall => ?_⟩
    simp [hall.connect, hall.select] at hgiven
  · have haccept := hbelow.accept attempt.accept
    cases hanswer : attempt.accept with
    | failed =>
      exact ⟨hsound hbelow _ _ _, .unconnected hunconn fun hall => by simp [hall.accept] at hanswer⟩
    | aborted =>
      rw [hanswer] at haccept
      exact ⟨hsound haccept _ _ _,
        .unconnected hunconn fun hall => by simp [hall.accept] at hanswer⟩
    | accepted =>
      rw [hanswer] at haccept
      simp only [Bool.not_eq_false, not_or] at hsocket hgiven
      have hcompletes : attempt.Completes := ⟨hsocket, hgiven.1, hgiven.2, hanswer⟩
      cases hqueue : (listener.await t.sockets attempt.arrivals).acceptQueue with
      | nil =>
        simp only [Listener.accept, hqueue, List.head?_nil, List.tail_nil] at haccept ⊢
        exact ⟨hsound haccept _ _ _, .unconnected hunconn fun _ => hqueue⟩
      | cons conn queue =>
        simp only [Listener.accept, hqueue, List.head?_cons, List.tail_cons] at haccept ⊢
        exact ⟨hsound haccept _ _ _, .accepted conn hcompletes (by rw [hqueue]; rfl) rfl rfl rfl⟩

/-- Behind an attempt the sockets are coupled exactly if its own connection arrives first. -/
theorem Sound.ensureConnection (h : t.Sound) (attempt : Attempt) :
    (t.ensureConnection attempt).2.Sound ∧ (t.Coupled →
      ((t.ensureConnection attempt).2.Coupled ↔ t.OwnArrivesFirst attempt)) := by
  rw [TcpSockets.ensureConnection]
  by_cases hconn : t.connectionEstablished
  · rw [if_pos hconn]
    refine ⟨h, fun hcoupled => iff_of_true hcoupled fun listener _ hunconn => ?_⟩
    simp [hunconn] at hconn
  · rw [if_neg hconn]
    by_cases hopen : t.isOpen = false
    · rw [if_pos hopen]
      refine ⟨h, fun hcoupled => iff_of_true hcoupled fun listener hlisten => ?_⟩
      simp [h.closed hopen] at hlisten
    · rw [if_neg hopen]
      cases hlisten : t.listenSocket with
      | none => exact ⟨h, fun hcoupled => iff_of_true hcoupled (by simp [OwnArrivesFirst, hlisten])⟩
      | some listener =>
        obtain ⟨hsound, houtcome⟩ := h.connectAndAccept hlisten (by simpa using hopen)
          (by simpa using hconn) attempt
        refine ⟨hsound, fun _ => ?_⟩
        have hown : t.OwnArrivesFirst attempt ↔ (attempt.Completes →
            (listener.await t.sockets attempt.arrivals).acceptQueue ≠ [] →
              (listener.await t.sockets attempt.arrivals).acceptQueue.head? = some t.sockets) := by
          rw [(h.below listener hlisten).head?_await_iff]
          simp [OwnArrivesFirst, hlisten, hconn]
        rw [hown]
        cases houtcome with
        | unconnected hunconn hnone =>
          refine iff_of_true (fun hyes => ?_) fun hcompletes hne => absurd (hnone hcompletes) hne
          simp [hunconn] at hyes
        | accepted conn hcompletes hfront hclient hserver hconnected =>
          have hne : (listener.await t.sockets attempt.arrivals).acceptQueue ≠ [] := by
            rintro hnil
            simp [hnil] at hfront
          rw [hfront, Coupled, hclient, hserver]
          simp [hconnected, hcompletes, hne]

/-- A call keeps the kernel's side in order, and keeps the sockets coupled exactly if no attempt
in it accepts another connection. -/
theorem Sound.step (h : t.Sound) (call : SocketCall) :
    (t.step call).2.Sound ∧ (t.Coupled →
      ((t.step call).2.Coupled ↔ ∀ attempt ∈ call.attempt, t.OwnArrivesFirst attempt)) := by
  cases call with
  | tcpOpen listens =>
    rw [TcpSockets.step, TcpSockets.tcpOpen]
    split_ifs with hopen hlistens
    · exact ⟨h, fun hcoupled => iff_of_true hcoupled nofun⟩
    · refine ⟨⟨?_, nofun⟩, fun hcoupled => iff_of_true hcoupled nofun⟩
      rintro _ ⟨⟩
      exact nofun
    · exact ⟨⟨nofun, fun _ => rfl⟩, fun hcoupled => iff_of_true hcoupled nofun⟩
  | tcpClose =>
    rw [TcpSockets.step, TcpSockets.tcpClose]
    split_ifs with hopen
    · exact ⟨⟨nofun, fun _ => rfl⟩, fun _ => iff_of_true nofun nofun⟩
    · exact ⟨h, fun hcoupled => iff_of_true hcoupled nofun⟩
  | tcpSend data attempt =>
    rw [TcpSockets.step, TcpSockets.tcpSend]
    split_ifs with hopen hsize
    · refine ⟨h, fun hcoupled => iff_of_true hcoupled fun _ _ listener hlisten => ?_⟩
      simp [h.closed hopen] at hlisten
    · exact ⟨h, fun hcoupled => iff_of_true hcoupled (by simp [SocketCall.attempt, hsize])⟩
    · simpa [SocketCall.attempt, hsize] using h.ensureConnection attempt
  | tcpRecv attempt =>
    rw [TcpSockets.step, TcpSockets.tcpRecv]
    split_ifs with hopen
    · refine ⟨h, fun hcoupled => iff_of_true hcoupled fun _ _ listener hlisten => ?_⟩
      simp [h.closed hopen] at hlisten
    · simpa [SocketCall.attempt] using h.ensureConnection attempt

/-! ## Runs of calls -/

theorem sound_after (calls : List SocketCall) : (after step new calls).Sound :=
  invariant_after Sound (fun _ call h => (Sound.step h call).1) sound_new calls

/-- The sockets are coupled in every state that is reached exactly if at every attempt its own
connection is the first in the queue. -/
theorem coupledThroughout_iff (calls : List SocketCall) :
    CoupledThroughout calls ↔ ∀ pre call, pre ++ [call] <+: calls →
      ∀ attempt ∈ call.attempt, (after step new pre).OwnArrivesFirst attempt := by
  refine forall_isPrefix_iff nofun fun pre call _ hcoupled => ?_
  rw [after_append]
  exact ((sound_after pre).step call).2 hcoupled

/-- A call whose attempt arrives only when it has been given up, and one that connects. -/
def lateArrival : List SocketCall :=
  [.tcpOpen true, .tcpRecv ⟨true, true, [], false, .failed⟩,
    .tcpRecv ⟨true, true, [0, 1], true, .accepted⟩]

/-- The connection of the attempt that was given up is accepted in place of the next one. -/
theorem not_coupledThroughout_lateArrival : ¬ CoupledThroughout lateArrival := by
  intro h
  have hlast := h lateArrival (List.prefix_refl _)
  have hstate : after step new lateArrival =
      ⟨some ⟨[], [1]⟩, some 1, some 0, true, true, 2⟩ := by decide
  rw [hstate] at hlast
  exact absurd (hlast rfl).2 (by decide)

/-! ## The stream between the sockets -/

/-- The sockets belong to a transport whose connection is modelled as a stream. -/
structure Matches (t : TcpSockets) (stream : TcpState) : Prop where
  isOpen : t.isOpen = stream.isOpen
  connected : t.connectionEstablished = stream.connectionEstablished

variable {stream : TcpState}

/-- An attempt connects the stream if it succeeds. -/
def connects (t : TcpSockets) (attempt : Attempt) : Bool := (t.ensureConnection attempt).1 = .ok

theorem connectAndAccept_flags (t : TcpSockets) (attempt : Attempt) (listener : Listener) :
    (t.connectAndAccept attempt listener).2.isOpen = t.isOpen ∧
      (((t.connectAndAccept attempt listener).1 = .ok ∧
          (t.connectAndAccept attempt listener).2.connectionEstablished = true) ∨
        (t.connectAndAccept attempt listener).1 = .errIo ∧
          (t.connectAndAccept attempt listener).2.connectionEstablished =
            t.connectionEstablished) := by
  rw [connectAndAccept]
  grind

/-- Connecting the sockets is connecting the stream. -/
theorem Matches.ensureConnection (h : t.Matches stream) (attempt : Attempt) :
    (t.ensureConnection attempt).1 = (Tcp.ensureConnection (t.connects attempt) stream).1 ∧
      (t.ensureConnection attempt).2.Matches
        (Tcp.ensureConnection (t.connects attempt) stream).2 := by
  rw [connects, TcpSockets.ensureConnection, Tcp.ensureConnection, ← h.isOpen, ← h.connected]
  by_cases hconn : t.connectionEstablished
  · rw [if_pos hconn, if_pos hconn]
    exact ⟨rfl, h⟩
  · rw [if_neg hconn, if_neg hconn]
    by_cases hopen : t.isOpen = false
    · rw [if_pos hopen, if_pos hopen]
      exact ⟨rfl, h⟩
    · rw [if_neg hopen, if_neg hopen]
      cases hlisten : t.listenSocket with
      | none => exact ⟨rfl, h⟩
      | some listener =>
        obtain ⟨hisOpen, ⟨hcode, hconnected⟩ | ⟨hcode, hconnected⟩⟩ :=
          t.connectAndAccept_flags attempt listener
        · simp only [hcode, decide_true, if_true]
          exact ⟨trivial, hisOpen, hconnected⟩
        · simp only [hcode, reduceCtorEq, decide_false, Bool.false_eq_true, if_false]
          exact ⟨trivial, hisOpen.trans h.isOpen, hconnected.trans h.connected⟩

/-- A send leaves the stream open and connected as the attempt in it does. -/
theorem tcpSend_flags {data : Bytes} (hopen : stream.isOpen = true)
    (hsize : data.length ≤ maxMessageSize) (kernel : SendAnswers) :
    (Tcp.tcpSend data kernel stream).2.2.isOpen =
        (Tcp.ensureConnection kernel.connects stream).2.isOpen ∧
      (Tcp.tcpSend data kernel stream).2.2.connectionEstablished =
        (Tcp.ensureConnection kernel.connects stream).2.connectionEstablished := by
  rw [Tcp.tcpSend, if_neg (by simp [hopen]), dif_neg (Nat.not_lt.mpr hsize)]
  split
  · rename_i t hconnect
    rw [hconnect]
    dsimp only
    split
    · exact ⟨rfl, rfl⟩
    · split
      · exact ⟨rfl, rfl⟩
      · split
        · exact ⟨rfl, rfl⟩
        · split <;> exact ⟨rfl, rfl⟩
  · rename_i code t hcode hconnect
    rw [hconnect]
    exact ⟨rfl, rfl⟩

/-- The transport of sockets goes through the same states of its flags as the stream, whose
attempts are answered as they are on the sockets. -/
theorem Matches.tcpSend (h : t.Matches stream) (data : Bytes) (attempt : Attempt)
    {kernel : SendAnswers} (hkernel : kernel.connects = t.connects attempt) :
    (t.tcpSend data attempt).2.Matches (Tcp.tcpSend data kernel stream).2.2 := by
  rw [TcpSockets.tcpSend]
  split_ifs with hopen hsize
  · rwa [Tcp.tcpSend, if_pos (h.isOpen ▸ hopen)]
  · have hstream : ¬ stream.isOpen = false := h.isOpen ▸ hopen
    rwa [Tcp.tcpSend, if_neg hstream, dif_pos hsize]
  · have hstream : stream.isOpen = true := by simpa [h.isOpen] using hopen
    obtain ⟨hisOpen, hconnected⟩ := tcpSend_flags hstream (Nat.not_lt.mp hsize) kernel
    obtain ⟨-, hflags⟩ := h.ensureConnection attempt
    rw [hkernel] at hisOpen hconnected
    exact ⟨hflags.isOpen.trans hisOpen.symm, hflags.connected.trans hconnected.symm⟩

end TcpSockets

end Federated.Transport.Tcp
