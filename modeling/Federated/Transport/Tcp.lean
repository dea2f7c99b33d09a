import Federated.Core
import Federated.Library.Flow

/-!
# The TCP transport

A connection of the process with itself. The kernel carries a stream of bytes from
one end to the other; how many it takes or hands out at a time, and when, is handed
to each call. A send waits for its bytes at the other end and queues what came.
-/

namespace Federated.Transport.Tcp

def maxMessageSize : Nat := 4096

/-- The bytes of a queued message, which fit its array. -/
structure Message where
  bytes : Bytes
  fits : bytes.length ≤ maxMessageSize

/-- The state of the transport, and the bytes that the kernel took and has not handed out. -/
structure TcpState where
  isOpen : Bool
  connectionEstablished : Bool
  recvQueue : List Message
  inFlight : Bytes

/-- The state as the program starts, and after a close. -/
def TcpState.closed : TcpState := ⟨false, false, [], []⟩

/-- Open the transport, if the listening socket can be set up. -/
def tcpOpen (listens : Bool) (t : TcpState) : ErrorCode × TcpState :=
  if t.isOpen then (.ok, t)
  else if listens then (.ok, { t with isOpen := true })
  else (.errIo, t)

def tcpClose (t : TcpState) : ErrorCode × TcpState := if t.isOpen then (.ok, .closed) else (.ok, t)

/-- Connect the two ends, on a stream without bytes, if the kernel lets them. -/
def ensureConnection (connects : Bool) (t : TcpState) : ErrorCode × TcpState :=
  if t.connectionEstablished then (.ok, t)
  else if t.isOpen = false then (.errIo, t)
  else if connects then (.ok, { t with connectionEstablished := true, inFlight := [] })
  else (.errIo, t)

/-! ## Sending -/

/-- What the kernel answers a `send`: it takes some bytes, or it would block and becomes
writable in time or not, or it fails. -/
inductive WriteAnswer where
  | took (n : Nat)
  | blocked (writable : Bool)
  | failed
  deriving DecidableEq, Repr

/-- The loop that sends what is left of the data, with the number of bytes sent so far.
Behind the answers that are given, the kernel blocks for good. -/
def sendLoop (data : Bytes) (totalSent : Nat) : List WriteAnswer → ErrorCode × Nat
  | [] => if totalSent ≥ data.length then (.ok, totalSent) else (.errTimeout, totalSent)
  | answer :: answers =>
    if totalSent ≥ data.length then (.ok, totalSent)
    else
      match answer with
      | .took n => sendLoop data (totalSent + min n (data.length - totalSent)) answers
      | .blocked true => sendLoop data totalSent answers
      | .blocked false => (.errTimeout, totalSent)
      | .failed => (.errIo, totalSent)

/-! ## Receiving what was sent -/

/-- What the kernel answers a `recv`: it hands out some bytes, or it would block, or it
fails. -/
inductive ReadAnswer where
  | got (n : Nat)
  | blocked
  | failed
  deriving DecidableEq, Repr

/-- The answers in one pass of the loop that receives: whether bytes came in time, which is
not asked in the first pass, and what is read. -/
structure ReadPass where
  ready : Bool
  read : ReadAnswer
  deriving DecidableEq, Repr

/-- The loop that receives up to `size` bytes: those received, unless it fails, and those
that stay behind. -/
def receiveLoop (size : Nat) (received inFlight : Bytes) :
    List ReadPass → Except ErrorCode Bytes × Bytes
  | [] => (.ok received, inFlight)
  | pass :: passes =>
    if received.length ≥ size then (.ok received, inFlight)
    else if received ≠ [] ∧ ¬ (pass.ready ∧ inFlight ≠ []) then (.ok received, inFlight)
    else
      match pass.read with
      | .got n =>
        let chunk := inFlight.take (min n (size - received.length))
        -- Nothing to read is the end of the stream or a timeout, which stops the loop.
        if chunk = [] then (.ok received, inFlight)
        else receiveLoop size (received ++ chunk) (inFlight.drop chunk.length) passes
      | .blocked => (.ok received, inFlight)
      | .failed => (.error .errIo, inFlight)

/-- What is received and what stays behind are the bytes in flight, and the limit is kept. -/
theorem receiveLoop_ok {size : Nat} {received inFlight : Bytes} {passes : List ReadPass}
    {bytes rest : Bytes} (hloop : receiveLoop size received inFlight passes = (.ok bytes, rest)) :
    bytes ++ rest = received ++ inFlight ∧ (received.length ≤ size → bytes.length ≤ size) := by
  have stop {received inFlight : Bytes}
      (h : ((.ok received : Except ErrorCode Bytes), inFlight) = (.ok bytes, rest)) :
      bytes ++ rest = received ++ inFlight ∧ (received.length ≤ size → bytes.length ≤ size) := by
    obtain ⟨rfl, rfl⟩ : received = bytes ∧ inFlight = rest := by simpa using h
    exact ⟨rfl, id⟩
  induction passes generalizing received inFlight with
  | nil => exact stop hloop
  | cons pass passes ih =>
    simp only [receiveLoop] at hloop
    split at hloop
    · exact stop hloop
    · split at hloop
      · exact stop hloop
      · cases hread : pass.read with
        | blocked => exact stop (by simpa only [hread] using hloop)
        | failed => simp [hread] at hloop
        | got n =>
          simp only [hread] at hloop
          split at hloop
          · exact stop hloop
          · obtain ⟨hbytes, hlength⟩ := ih hloop
            refine ⟨hbytes.trans ?_, fun _ => hlength ?_⟩
            · rw [List.append_assoc, List.prefix_iff_eq_append.mp (List.take_prefix _ _)]
            · rw [List.length_append, List.length_take]
              omega

/-- What the kernel answers a `tcp_send`: whether the ends are connected, the answers to its
writes, whether bytes come in time at the other end, and the answers to its reads. -/
structure SendAnswers where
  connects : Bool
  writes : List WriteAnswer
  arrives : Bool
  reads : List ReadPass

/-- Send data and queue what comes out at the other end. Besides the code, the number of
bytes that the kernel took of the data, which the caller is not told. -/
def tcpSend (data : Bytes) (kernel : SendAnswers) (t : TcpState) : ErrorCode × Nat × TcpState :=
  if t.isOpen = false then (.errIo, 0, t)
  else if hsize : data.length > maxMessageSize then (.errFormat, 0, t)
  else
    match ensureConnection kernel.connects t with
    | (.ok, t) =>
      let (code, totalSent) := sendLoop data 0 kernel.writes
      let t := { t with inFlight := t.inFlight ++ data.take totalSent }
      if code ≠ .ok then (code, totalSent, t)
      else if ¬ (kernel.arrives ∧ t.inFlight ≠ []) then (.errTimeout, totalSent, t)
      else
        match hloop : receiveLoop data.length [] t.inFlight kernel.reads with
        | (.error code, inFlight) => (code, totalSent, { t with inFlight := inFlight })
        | (.ok received, inFlight) =>
          have hfits := (receiveLoop_ok hloop).2 (Nat.zero_le _)
          let t := { t with inFlight := inFlight }
          if received = [] then (.ok, totalSent, t)
          else
            let msg := ⟨received, hfits.trans (Nat.le_of_not_lt hsize)⟩
            (.ok, totalSent, { t with recvQueue := t.recvQueue ++ [msg] })
    | (code, t) => (code, 0, t)

/-- Receive the message in front of the queue. -/
def tcpRecv (data : Buffer) (connects : Bool) (t : TcpState) : ErrorCode × Buffer × TcpState :=
  if t.isOpen = false then (.errIo, data, t)
  else
    match ensureConnection connects t with
    | (.ok, t) =>
      match t.recvQueue with
      | [] => (.errTimeout, data, t)
      | msg :: queue =>
        if msg.bytes.length > data.size then (.errFormat, data, { t with recvQueue := queue })
        else (.ok, filled data msg.bytes, { t with recvQueue := queue })
    | (code, t) => (code, data, t)

/-! ## Runs -/

/-- A call, with what it is handed over and what the kernel answers it. -/
inductive TcpCall where
  | send (data : Bytes) (kernel : SendAnswers)
  | recv (data : Buffer) (connects : Bool)

/-- What a call gives back, and the number of bytes that the kernel took. -/
inductive TcpAnswer where
  | sent (code : ErrorCode) (totalSent : Nat)
  | received (code : ErrorCode) (data : Buffer)

def step (t : TcpState) : TcpCall → TcpAnswer × TcpState
  | .send data kernel =>
    let (code, totalSent, t) := tcpSend data kernel t
    (.sent code totalSent, t)
  | .recv data connects =>
    let (code, data, t) := tcpRecv data connects t
    (.received code data, t)

end Federated.Transport.Tcp
