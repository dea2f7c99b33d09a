import Federated.Transport.Tcp
import Federated.Library.Descriptors

/-!
# The descriptors of the TCP transport

The transport as it talks to the kernel, with a number in each of its handles. What it does
with a number is a step of `Syscalls`. It never has more open than its handles name, and
behind its descriptors it does what the transport on a stream of bytes does.
-/

namespace Federated.Transport.Tcp

open Library Syscalls

/-- The handles of the transport, where `none` is an invalid one, and the rest of its state. -/
structure TcpHandles where
  listenSocket : Option Nat
  clientSocket : Option Nat
  serverSocket : Option Nat
  rest : TcpState

/-- What the kernel answers a `tcp_open`. -/
structure OpenAnswers where
  socket : Option Nat
  bind : Bool
  getsockname : Bool
  listen : Bool
  deriving DecidableEq, Repr

/-- What the kernel answers an attempt to connect: whether `connect` is under way, whether a
connection waits in time, and the sockets. -/
structure ConnectAnswers where
  socket : Option Nat
  connect : Bool
  select : Bool
  accept : Option Nat
  deriving DecidableEq, Repr

/-- The part of a message that fits its array. -/
def Message.ofBytes (bytes : Bytes) : Message :=
  ⟨bytes.take maxMessageSize, List.length_take_le _ _⟩

/-- The loop that sends what is left of the data. -/
def sendAll (client : Option Nat) (data : Bytes) (totalSent : Nat) :
    List WriteAnswer → Syscalls (ErrorCode × Nat)
  | [] =>
    if totalSent ≥ data.length then pure (.ok, totalSent)
    else do
      touch client
      await client
      pure (.errTimeout, totalSent)
  | answer :: answers =>
    if totalSent ≥ data.length then pure (.ok, totalSent)
    else do
      touch client
      match answer with
      | .took n => sendAll client data (totalSent + min n (data.length - totalSent)) answers
      | .blocked writable => do
        await client
        if writable then sendAll client data totalSent answers
        else pure (.errTimeout, totalSent)
      | .failed => pure (.errIo, totalSent)

/-- Wait for more, once something was received. -/
def waitForMore (server : Option Nat) (received : Bytes) : Syscalls Unit :=
  if received = [] then pure () else await server

/-- The loop that receives up to `size` bytes. -/
def receiveAll (server : Option Nat) (size : Nat) (received inFlight : Bytes) :
    List ReadPass → Syscalls (Except ErrorCode Bytes × Bytes)
  | [] => pure (.ok received, inFlight)
  | pass :: passes =>
    if received.length ≥ size then pure (.ok received, inFlight)
    else do
      waitForMore server received
      if received ≠ [] ∧ ¬ (pass.ready ∧ inFlight ≠ []) then pure (.ok received, inFlight)
      else do
        touch server
        match pass.read with
        | .got n =>
          let chunk := inFlight.take (min n (size - received.length))
          if chunk = [] then pure (.ok received, inFlight)
          else receiveAll server size (received ++ chunk) (inFlight.drop chunk.length) passes
        | .blocked => pure (.ok received, inFlight)
        | .failed => pure (.error .errIo, inFlight)

namespace TcpHandles

/-- The state as the program starts. -/
def new : TcpHandles := ⟨none, none, none, .closed⟩

/-- Close the listening socket and report the error. -/
def dropListener (t : TcpHandles) : Syscalls (ErrorCode × TcpHandles) := do
  release t.listenSocket
  pure (.errIo, { t with listenSocket := none })

def tcpOpen (kernel : OpenAnswers) (t : TcpHandles) : Syscalls (ErrorCode × TcpHandles) :=
  if t.rest.isOpen then pure (.ok, t)
  else do
    let listenSocket ← grant kernel.socket
    let t := { t with listenSocket }
    if listenSocket = none then pure (.errIo, t)
    else do
      -- `setsockopt`, and `bind`.
      touch listenSocket
      touch listenSocket
      if kernel.bind = false then t.dropListener
      else do
        touch listenSocket
        if kernel.getsockname = false then t.dropListener
        else do
          touch listenSocket
          if kernel.listen = false then t.dropListener
          else pure (.ok, { t with rest := { t.rest with isOpen := true } })

def tcpClose (t : TcpHandles) : Syscalls (ErrorCode × TcpHandles) :=
  if t.rest.isOpen = false then pure (.ok, t)
  else do
    release t.clientSocket
    release t.serverSocket
    release t.listenSocket
    pure (.ok, new)

/-- Close the client socket and report the error. -/
def dropClient (t : TcpHandles) : Syscalls (ErrorCode × TcpHandles) := do
  release t.clientSocket
  pure (.errIo, { t with clientSocket := none })

def ensureConnection (kernel : ConnectAnswers) (t : TcpHandles) :
    Syscalls (ErrorCode × TcpHandles) :=
  if t.rest.connectionEstablished then pure (.ok, t)
  else if t.rest.isOpen = false ∨ t.listenSocket = none then pure (.errIo, t)
  else do
    let clientSocket ← grant kernel.socket
    let t := { t with clientSocket }
    if clientSocket = none then pure (.errIo, t)
    else do
      -- `set_nonblocking`, and `connect`.
      touch clientSocket
      touch clientSocket
      if kernel.connect = false then t.dropClient
      else do
        -- `set_nonblocking`, and `select`.
        touch t.listenSocket
        await t.listenSocket
        if kernel.select = false then t.dropClient
        else do
          touch t.listenSocket
          let serverSocket ← grant kernel.accept
          let t := { t with serverSocket }
          if serverSocket = none then t.dropClient
          else do
            -- The timeouts of both ends are set.
            touch clientSocket
            touch serverSocket
            pure (.ok, { t with
              rest := { t.rest with connectionEstablished := true, inFlight := [] } })

/-- Send data and queue what comes out at the other end. Besides the code, the number of
bytes that the kernel took of the data. -/
def tcpSend (data : Bytes) (connect : ConnectAnswers) (writes : List WriteAnswer) (arrives : Bool)
    (reads : List ReadPass) (t : TcpHandles) : Syscalls ((ErrorCode × Nat) × TcpHandles) :=
  if t.rest.isOpen = false then pure ((.errIo, 0), t)
  else if data.length > maxMessageSize then pure ((.errFormat, 0), t)
  else do
    let (code, t) ← t.ensureConnection connect
    if code ≠ .ok then pure ((code, 0), t)
    else do
      let (code, totalSent) ← sendAll t.clientSocket data 0 writes
      let rest := { t.rest with inFlight := t.rest.inFlight ++ data.take totalSent }
      if code ≠ .ok then pure ((code, totalSent), { t with rest })
      else do
        await t.serverSocket
        if ¬ (arrives ∧ rest.inFlight ≠ []) then pure ((.errTimeout, totalSent), { t with rest })
        else do
          let (received, inFlight) ←
            receiveAll t.serverSocket data.length [] rest.inFlight reads
          let rest := { rest with inFlight }
          match received with
          | .error code => pure ((code, totalSent), { t with rest })
          | .ok [] => pure ((.ok, totalSent), { t with rest })
          | .ok received =>
            let recvQueue := rest.recvQueue ++ [Message.ofBytes received]
            pure ((.ok, totalSent), { t with rest := { rest with recvQueue } })

def tcpRecv (data : Buffer) (connect : ConnectAnswers) (t : TcpHandles) :
    Syscalls ((ErrorCode × Buffer) × TcpHandles) :=
  if t.rest.isOpen = false then pure ((.errIo, data), t)
  else do
    let (code, t) ← t.ensureConnection connect
    if code ≠ .ok then pure ((code, data), t)
    else
      match t.rest.recvQueue with
      | [] => pure ((.errTimeout, data), t)
      | msg :: recvQueue =>
        let t := { t with rest := { t.rest with recvQueue } }
        if msg.bytes.length > data.size then pure ((.errFormat, data), t)
        else pure ((.ok, filled data msg.bytes), t)

end TcpHandles

/-! ## The loops -/

variable {fds : Finset Nat} {data : Bytes}

/-- Sending uses the client socket, and comes to what it does without descriptors. -/
theorem sendAll_ensures {client : Nat} (hclient : client ∈ fds) (totalSent : Nat)
    (answers : List WriteAnswer) :
    (sendAll (some client) data totalSent answers).Ensures fds fun r fds' =>
      fds' = fds ∧ r = sendLoop data totalSent answers := by
  induction answers generalizing totalSent with
  | nil =>
    rw [sendAll, sendLoop]
    split_ifs
    · exact ⟨rfl, rfl⟩
    · exact .touch hclient (.await hclient ⟨rfl, rfl⟩)
  | cons answer answers ih =>
    by_cases hsent : totalSent ≥ data.length
    · simp [sendAll, sendLoop, hsent]
    · cases answer with
      | took n =>
        simp only [sendAll, sendLoop, if_neg hsent]
        exact .touch hclient (ih _)
      | blocked writable =>
        cases writable with
        | true =>
          simp only [sendAll, sendLoop, if_neg hsent, if_true]
          exact .touch hclient (.await hclient (ih totalSent))
        | false =>
          simp only [sendAll, sendLoop, if_neg hsent, Bool.false_eq_true, if_false]
          exact .touch hclient (.await hclient ⟨rfl, rfl⟩)
      | failed =>
        simp only [sendAll, sendLoop, if_neg hsent]
        exact .touch hclient ⟨rfl, rfl⟩

theorem waitForMore_ensures {server : Nat} (hserver : server ∈ fds) (received : Bytes) :
    (waitForMore (some server) received).Ensures fds fun _ fds' => fds' = fds :=
  .ite (fun _ => rfl) fun _ => ⟨⟨server, rfl, hserver⟩, rfl⟩

/-- Receiving uses the server socket, and comes to what it does without descriptors. -/
theorem receiveAll_ensures {server : Nat} (hserver : server ∈ fds) (size : Nat)
    (received inFlight : Bytes) (passes : List ReadPass) :
    (receiveAll (some server) size received inFlight passes).Ensures fds fun r fds' =>
      fds' = fds ∧ r = receiveLoop size received inFlight passes := by
  induction passes generalizing received inFlight with
  | nil => simp [receiveAll, receiveLoop]
  | cons pass passes ih =>
    rw [receiveAll, receiveLoop]
    by_cases hfull : received.length ≥ size
    · simp [hfull]
    · rw [if_neg hfull, if_neg hfull]
      refine (waitForMore_ensures hserver received).bind fun _ fds' hfds => ?_
      subst hfds
      by_cases hlate : received ≠ [] ∧ ¬ (pass.ready ∧ inFlight ≠ [])
      · rw [if_pos hlate, if_pos hlate]
        simp
      · rw [if_neg hlate, if_neg hlate]
        refine .touch hserver ?_
        cases pass.read with
        | blocked => simp
        | failed => simp
        | got n =>
          dsimp only
          split_ifs
          · simp
          · exact ih _ _

/-! ## The transport -/

/-- What a send that got as far as receiving comes to. -/
theorem tcpSend_of_connected (kernel : SendAnswers) {t t' : TcpState} {totalSent : Nat}
    (hopen : ¬ t.isOpen = false) (hsize : ¬ data.length > maxMessageSize)
    (hconnect : ensureConnection kernel.connects t = (.ok, t'))
    (hsent : sendLoop data 0 kernel.writes = (.ok, totalSent))
    (harrives : kernel.arrives ∧ t'.inFlight ++ data.take totalSent ≠ []) :
    (∀ {received inFlight},
        receiveLoop data.length [] (t'.inFlight ++ data.take totalSent) kernel.reads =
          (.ok received, inFlight) →
      tcpSend data kernel t = (.ok, totalSent, { t' with
        inFlight
        recvQueue := t'.recvQueue ++
          if received = [] then [] else [Message.ofBytes received] })) ∧
    ∀ {code inFlight},
        receiveLoop data.length [] (t'.inFlight ++ data.take totalSent) kernel.reads =
          (.error code, inFlight) →
      tcpSend data kernel t = (code, totalSent, { t' with inFlight }) := by
  have hcode : (sendLoop data 0 kernel.writes).1 = .ok := by rw [hsent]
  obtain rfl : totalSent = (sendLoop data 0 kernel.writes).2 := by rw [hsent]
  unfold tcpSend
  rw [if_neg hopen, dif_neg hsize, hconnect]
  simp only [hcode, harrives, ne_eq, not_true_eq_false, if_false, not_false_eq_true, and_self]
  constructor
  · intro received inFlight hreceived
    split
    · rename_i hloop
      rw [hreceived] at hloop
      cases hloop
    · rename_i hloop
      obtain ⟨⟨⟩, rfl⟩ := Prod.mk.inj (hreceived.symm.trans hloop)
      have hfits : received.length ≤ maxMessageSize :=
        ((receiveLoop_ok hloop).2 (Nat.zero_le _)).trans (Nat.le_of_not_lt hsize)
      split_ifs
      · simp
      · simp [Message.ofBytes, List.take_of_length_le hfits]
  · intro code inFlight hreceived
    split
    · rename_i hloop
      rw [hreceived] at hloop
      cases hloop
      rfl
    · rename_i hloop
      rw [hreceived] at hloop
      cases hloop

namespace TcpHandles

/-- The states that the transport can be in, each with the numbers that its handles name. -/
inductive Sound : TcpHandles → Finset Nat → Prop
  | closed : Sound new ∅
  | listening {rest : TcpState} (listener : Nat) (hopen : rest.isOpen = true)
      (hunconn : rest.connectionEstablished = false) :
      Sound ⟨some listener, none, none, rest⟩ {listener}
  | connected {rest : TcpState} {listener client server : Nat} (hopen : rest.isOpen = true)
      (hconn : rest.connectionEstablished = true) (hclient : client ≠ listener)
      (hserver : server ∉ ({client, listener} : Finset Nat)) :
      Sound ⟨some listener, some client, some server, rest⟩ {server, client, listener}

variable {t : TcpHandles}

theorem Sound.eq_empty (h : t.Sound fds) (hclosed : t.rest.isOpen = false) : fds = ∅ := by
  cases h with
  | closed => rfl
  | listening _ hopen => simp [hopen] at hclosed
  | connected hopen => simp [hopen] at hclosed

theorem Sound.tcpOpen (h : t.Sound fds) (kernel : OpenAnswers) :
    (t.tcpOpen kernel).Ensures fds fun r fds' =>
      r.2.Sound fds' ∧ ∃ listens, (r.1, r.2.rest) = Tcp.tcpOpen listens t.rest := by
  have hidle (hopen : t.rest.isOpen = true) : (t.tcpOpen kernel).Ensures fds fun r fds' =>
      r.2.Sound fds' ∧ ∃ listens, (r.1, r.2.rest) = Tcp.tcpOpen listens t.rest := by
    rw [TcpHandles.tcpOpen, if_pos hopen]
    exact ⟨h, true, by simp [Tcp.tcpOpen, hopen]⟩
  cases h with
  | listening listener hopen => exact hidle hopen
  | connected hopen => exact hidle hopen
  | closed =>
    have hdrop (listener : Nat) : (dropListener { new with listenSocket := some listener }).Ensures
        {listener} fun r fds' =>
          r.2.Sound fds' ∧ ∃ listens, (r.1, r.2.rest) = Tcp.tcpOpen listens new.rest := by
      refine .release (Finset.mem_singleton_self listener) ?_
      rw [Finset.erase_singleton]
      exact ⟨.closed, false, rfl⟩
    rw [TcpHandles.tcpOpen, if_neg (by simp [new, TcpState.closed])]
    refine .grant ⟨.closed, false, rfl⟩ fun listener _ => ?_
    have hheld : listener ∈ insert listener (∅ : Finset Nat) := Finset.mem_insert_self _ _
    rw [if_neg (Option.some_ne_none listener)]
    refine .touch hheld (.touch hheld (.ite (fun _ => hdrop listener) fun _ => ?_))
    refine .touch hheld (.ite (fun _ => hdrop listener) fun _ => ?_)
    refine .touch hheld (.ite (fun _ => hdrop listener) fun _ => ?_)
    exact ⟨.listening listener rfl rfl, true, rfl⟩

theorem Sound.tcpClose (h : t.Sound fds) :
    t.tcpClose.Ensures fds fun r fds' =>
      r.2.Sound fds' ∧ (r.1, r.2.rest) = Tcp.tcpClose t.rest := by
  cases h with
  | closed => exact ⟨.closed, rfl⟩
  | listening listener hopen =>
    rw [TcpHandles.tcpClose, if_neg (by simp [hopen]), Tcp.tcpClose, if_pos hopen]
    refine .release (Finset.mem_singleton_self listener) ?_
    rw [Finset.erase_singleton]
    exact ⟨.closed, rfl⟩
  | @connected _ listener client server hopen _ hclient hserver =>
    rw [TcpHandles.tcpClose, if_neg (by simp [hopen]), Tcp.tcpClose, if_pos hopen]
    refine .release (by simp) (.release (by grind) (.release (by grind) ?_))
    have hnone : ((({server, client, listener} : Finset Nat).erase client).erase server).erase
        listener = ∅ := by
      ext fd
      simp only [Finset.mem_erase, Finset.mem_insert, Finset.mem_singleton, Finset.notMem_empty]
      tauto
    rw [hnone]
    exact ⟨.closed, rfl⟩

/-- Behind an attempt that succeeds there is a connection. -/
theorem Sound.ensureConnection (h : t.Sound fds) (kernel : ConnectAnswers) :
    (t.ensureConnection kernel).Ensures fds fun r fds' =>
      r.2.Sound fds' ∧ (∃ connects, (r.1, r.2.rest) = Tcp.ensureConnection connects t.rest) ∧
        (r.1 = .ok → r.2.rest.connectionEstablished = true) := by
  cases h with
  | closed => exact ⟨.closed, ⟨false, rfl⟩, nofun⟩
  | connected hopen hconn hclient hserver =>
    rw [TcpHandles.ensureConnection, if_pos hconn]
    exact ⟨.connected hopen hconn hclient hserver, ⟨true, by simp [Tcp.ensureConnection, hconn]⟩,
      fun _ => hconn⟩
  | @listening rest listener hopen hunconn =>
    have hgiven : (ErrorCode.errIo, rest) = Tcp.ensureConnection false rest := by
      simp [Tcp.ensureConnection, hopen, hunconn]
    have hdrop (client : Nat) (hfree : client ∉ ({listener} : Finset Nat)) :
        (dropClient ⟨some listener, some client, none, rest⟩).Ensures {client, listener}
          fun r fds' => r.2.Sound fds' ∧
            (∃ connects, (r.1, r.2.rest) = Tcp.ensureConnection connects rest) ∧
              (r.1 = .ok → r.2.rest.connectionEstablished = true) := by
      refine .release (Finset.mem_insert_self client _) ?_
      rw [Finset.erase_insert hfree]
      exact ⟨.listening listener hopen hunconn, ⟨false, hgiven⟩, nofun⟩
    rw [TcpHandles.ensureConnection, if_neg (by simp [hunconn]), if_neg (by simp [hopen])]
    refine .grant ⟨.listening listener hopen hunconn, ⟨false, hgiven⟩, nofun⟩ fun client hfree => ?_
    have hclient : client ∈ insert client ({listener} : Finset Nat) := Finset.mem_insert_self _ _
    have hlistener : listener ∈ insert client ({listener} : Finset Nat) := by simp
    rw [if_neg (Option.some_ne_none client)]
    refine .touch hclient (.touch hclient (.ite (fun _ => hdrop client hfree) fun _ => ?_))
    refine .touch hlistener (.await hlistener (.ite (fun _ => hdrop client hfree) fun _ => ?_))
    refine .touch hlistener (.grant (hdrop client hfree) fun server hserver => ?_)
    rw [if_neg (Option.some_ne_none server)]
    refine .touch (by simp) (.touch (by simp) ?_)
    refine ⟨.connected hopen rfl (by simpa using hfree) hserver, ⟨true, ?_⟩, fun _ => rfl⟩
    simp [Tcp.ensureConnection, hopen, hunconn]

/-- What a send does behind its descriptors, on a transport that is connected. -/
theorem Sound.tcpSend (h : t.Sound fds) (data : Bytes) (connect : ConnectAnswers)
    (writes : List WriteAnswer) (arrives : Bool) (reads : List ReadPass) :
    (t.tcpSend data connect writes arrives reads).Ensures fds fun r fds' =>
      r.2.Sound fds' ∧ ∃ connects,
        (r.1.1, r.1.2, r.2.rest) = Tcp.tcpSend data ⟨connects, writes, arrives, reads⟩ t.rest := by
  rw [TcpHandles.tcpSend]
  refine .ite (fun hclosed => ⟨h, true, by simp [Tcp.tcpSend, hclosed]⟩) fun hopen => ?_
  refine .ite (fun hsize => ⟨h, true, by simp [Tcp.tcpSend, hopen, hsize]⟩) fun hsize => ?_
  refine (h.ensureConnection connect).bind ?_
  rintro ⟨code, t'⟩ fds' ⟨h', ⟨connects, hconnects⟩, hconn⟩
  dsimp only at h' hconnects hconn ⊢
  refine .ite (fun hcode => ⟨h', connects, ?_⟩) fun hcode => ?_
  · rw [Tcp.tcpSend, if_neg hopen, dif_neg hsize, ← hconnects]
    cases code <;> first | rfl | exact absurd rfl hcode
  obtain rfl : code = .ok := by simpa using hcode
  cases h' with
  | closed => simp [new, TcpState.closed] at hconn
  | listening _ _ hunconn => simp [hunconn] at hconn
  | @connected rest listener client server hopen' hconn' hclient hserver =>
    refine (sendAll_ensures (by simp) 0 writes).bind ?_
    rintro ⟨code, totalSent⟩ _ ⟨rfl, hsent⟩
    dsimp only
    refine .ite (fun hcode => ⟨.connected hopen' hconn' hclient hserver, connects, ?_⟩)
      fun hcode => ?_
    · rw [Tcp.tcpSend, if_neg hopen, dif_neg hsize, ← hconnects]
      simp only [← hsent, if_pos hcode]
    refine .await (by simp) (.ite (fun hlate =>
      ⟨.connected hopen' hconn' hclient hserver, connects, ?_⟩) fun hlate => ?_)
    · rw [Tcp.tcpSend, if_neg hopen, dif_neg hsize, ← hconnects]
      simp only [← hsent, if_neg hcode, if_pos hlate]
    refine (receiveAll_ensures (by simp) _ _ _ _).bind ?_
    rintro ⟨received, inFlight⟩ _ ⟨rfl, hreceived⟩
    have hok : sendLoop data 0 writes = (.ok, totalSent) := by
      rw [← hsent, not_ne_iff.mp hcode]
    have hkernel := tcpSend_of_connected ⟨connects, writes, arrives, reads⟩ hopen hsize
      hconnects.symm hok (not_not.mp hlate)
    cases received with
    | error code =>
      exact ⟨.connected hopen' hconn' hclient hserver, connects, (hkernel.2 hreceived.symm).symm⟩
    | ok received =>
      have hvalue := hkernel.1 hreceived.symm
      cases received with
      | nil =>
        exact ⟨.connected hopen' hconn' hclient hserver, connects, by simpa using hvalue.symm⟩
      | cons b received =>
        exact ⟨.connected hopen' hconn' hclient hserver, connects, by simpa using hvalue.symm⟩

theorem Sound.tcpRecv (h : t.Sound fds) (data : Buffer) (connect : ConnectAnswers) :
    (t.tcpRecv data connect).Ensures fds fun r fds' =>
      r.2.Sound fds' ∧ ∃ connects,
        (r.1.1, r.1.2, r.2.rest) = Tcp.tcpRecv data connects t.rest := by
  rw [TcpHandles.tcpRecv]
  refine .ite (fun hclosed => ⟨h, true, by simp [Tcp.tcpRecv, hclosed]⟩) fun hopen => ?_
  refine (h.ensureConnection connect).bind ?_
  rintro ⟨code, t'⟩ fds' ⟨h', ⟨connects, hconnects⟩, hconn⟩
  dsimp only at h' hconnects hconn ⊢
  refine .ite (fun hcode => ⟨h', connects, ?_⟩) fun hcode => ?_
  · rw [Tcp.tcpRecv, if_neg hopen, ← hconnects]
    cases code <;> first | rfl | exact absurd rfl hcode
  obtain rfl : code = .ok := by simpa using hcode
  have hkeep (recvQueue : List Message) :
      Sound { t' with rest := { t'.rest with recvQueue } } fds' := by
    cases h' with
    | closed => simp [new, TcpState.closed] at hconn
    | listening _ _ hunconn => simp [hunconn] at hconn
    | connected hopen' hconn' hclient hserver => exact .connected hopen' hconn' hclient hserver
  cases hqueue : t'.rest.recvQueue with
  | nil => exact ⟨h', connects, by rw [Tcp.tcpRecv, if_neg hopen, ← hconnects]; simp [hqueue]⟩
  | cons msg queue =>
    refine .ite (fun hlarge => ⟨hkeep queue, connects, ?_⟩) fun hfits => ⟨hkeep queue, connects, ?_⟩
    · rw [Tcp.tcpRecv, if_neg hopen, ← hconnects]
      simp [hqueue, hlarge]
    · rw [Tcp.tcpRecv, if_neg hopen, ← hconnects]
      simp [hqueue, hfits]

/-! ## Calls -/

/-- A call, with what the kernel answers it. -/
inductive Call where
  | tcpOpen (kernel : OpenAnswers)
  | tcpClose
  | tcpSend (data : Bytes) (connect : ConnectAnswers) (writes : List WriteAnswer) (arrives : Bool)
      (reads : List ReadPass)
  | tcpRecv (data : Buffer) (connect : ConnectAnswers)

/-- What a call gives back: a code, the number of bytes that the kernel took of a message, and
what a receive leaves in its buffer. -/
inductive Reply where
  | code (code : ErrorCode)
  | sent (code : ErrorCode) (totalSent : Nat)
  | received (code : ErrorCode) (data : Buffer)
  deriving DecidableEq, Repr

def step (t : TcpHandles) : Call → Syscalls (Reply × TcpHandles)
  | .tcpOpen kernel => do
    let (code, t) ← t.tcpOpen kernel
    pure (.code code, t)
  | .tcpClose => do
    let (code, t) ← t.tcpClose
    pure (.code code, t)
  | .tcpSend data connect writes arrives reads => do
    let ((code, totalSent), t) ← t.tcpSend data connect writes arrives reads
    pure (.sent code totalSent, t)
  | .tcpRecv data connect => do
    let ((code, data), t) ← t.tcpRecv data connect
    pure (.received code data, t)

/-- A call of the transport without descriptors: opening, closing, or one of a run. -/
inductive StreamCall where
  | tcpOpen (listens : Bool)
  | tcpClose
  | call (call : TcpCall)

def streamStep (t : TcpState) : StreamCall → Reply × TcpState
  | .tcpOpen listens => (Tcp.tcpOpen listens t).map .code id
  | .tcpClose => (Tcp.tcpClose t).map .code id
  | .call (.send data kernel) =>
    let (code, totalSent, t) := Tcp.tcpSend data kernel t
    (.sent code totalSent, t)
  | .call (.recv data connects) =>
    let (code, data, t) := Tcp.tcpRecv data connects t
    (.received code data, t)

/-- The calls ask for the same, and the kernel treats their bytes alike. -/
inductive Asks : Call → StreamCall → Prop
  | tcpOpen (kernel : OpenAnswers) (listens : Bool) : Asks (.tcpOpen kernel) (.tcpOpen listens)
  | tcpClose : Asks .tcpClose .tcpClose
  | tcpSend (data : Bytes) (connect : ConnectAnswers) (writes : List WriteAnswer) (arrives : Bool)
      (reads : List ReadPass) (connects : Bool) :
      Asks (.tcpSend data connect writes arrives reads)
        (.call (.send data ⟨connects, writes, arrives, reads⟩))
  | tcpRecv (data : Buffer) (connect : ConnectAnswers) (connects : Bool) :
      Asks (.tcpRecv data connect) (.call (.recv data connects))

/-- The transport answers as the one without descriptors does to a call that asks for the same. -/
def Simulates (call : Call) (t : TcpHandles) (r : Reply × TcpHandles) : Prop :=
  ∃ call', Asks call call' ∧ streamStep t.rest call' = (r.1, r.2.rest)

theorem Sound.step (h : t.Sound fds) (call : Call) :
    (t.step call).Ensures fds fun r fds' => r.2.Sound fds' ∧ Simulates call t r := by
  cases call with
  | tcpOpen kernel =>
    refine (h.tcpOpen kernel).bind ?_
    rintro r fds' ⟨h', listens, heq⟩
    exact ⟨h', .tcpOpen listens, .tcpOpen kernel listens, by rw [streamStep, ← heq]; rfl⟩
  | tcpClose =>
    refine h.tcpClose.bind ?_
    rintro r fds' ⟨h', heq⟩
    exact ⟨h', .tcpClose, .tcpClose, by rw [streamStep, ← heq]; rfl⟩
  | tcpSend data connect writes arrives reads =>
    refine (h.tcpSend data connect writes arrives reads).bind ?_
    rintro r fds' ⟨h', connects, heq⟩
    exact ⟨h', _, .tcpSend data connect writes arrives reads connects,
      by rw [streamStep, ← heq]⟩
  | tcpRecv data connect =>
    refine (h.tcpRecv data connect).bind ?_
    rintro r fds' ⟨h', connects, heq⟩
    exact ⟨h', _, .tcpRecv data connect connects, by rw [streamStep, ← heq]⟩

end TcpHandles

end Federated.Transport.Tcp
