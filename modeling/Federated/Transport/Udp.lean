import Federated.Core
import Federated.Library.Flow

/-!
# The UDP transport

A socket bound to a port of this host, whose datagrams come back to it. What the
kernel answers is handed to each call: whether it takes a datagram, and what a
`recvfrom` finds. It gives out the datagrams for the port in order.
-/

namespace Federated.Transport

def maxDatagramSize : Nat := 65535 - 20 - 8

structure Datagram where
  bytes : Bytes
  fits : bytes.length ≤ maxDatagramSize

/-- The state of the transport, and the datagrams for its port that the kernel still holds. -/
structure Udp where
  isOpen : Bool
  localPort : UInt16
  peer : Option UInt16
  recvQueue : List Datagram
  kernel : List Datagram

/-- The state as the program starts, and after a close. -/
def Udp.closed : Udp := ⟨false, 0, none, [], []⟩

/-- What the kernel lets a `recvfrom` do. -/
inductive Arrival where
  | arrived
  | late
  | failed
  deriving DecidableEq, Repr

/-- What `recvfrom` gives back: a datagram, or the error that it is too early, or another one. -/
inductive Received where
  | datagram (dgram : Datagram)
  | wouldBlock
  | error

def recvfrom (arrival : Arrival) (kernel : List Datagram) : Received × List Datagram :=
  match arrival, kernel with
  | .arrived, dgram :: kernel => (.datagram dgram, kernel)
  | .arrived, [] | .late, _ => (.wouldBlock, kernel)
  | .failed, _ => (.error, kernel)

/-- Open the transport on the port the kernel binds, if it does. -/
def Udp.udpOpen (bound : Option UInt16) (t : Udp) : ErrorCode × Udp :=
  if t.isOpen then (.ok, t)
  else
    match bound with
    | none => (.errIo, t)
    | some port => (.ok, { t with isOpen := true, localPort := port, kernel := [] })

def Udp.udpClose (t : Udp) : ErrorCode × Udp := if t.isOpen then (.ok, .closed) else (.ok, t)

/-- Send a datagram, and queue the one that can be received at once. -/
def Udp.udpSend (data : Bytes) (taken : Bool) (arrival : Arrival) (t : Udp) : ErrorCode × Udp :=
  if t.isOpen = false then (.errIo, t)
  else if h : data.length > maxDatagramSize then (.errFormat, t)
  else
    let port := t.peer.getD t.localPort
    let t := { t with peer := some port }
    if taken = false then (.errIo, t)
    else
      let dgram := ⟨data, Nat.le_of_not_lt h⟩
      let kernel := if port = t.localPort then t.kernel ++ [dgram] else t.kernel
      match recvfrom arrival kernel with
      | (.datagram dgram, kernel) =>
        if dgram.bytes.length > 0 then
          (.ok, { t with recvQueue := t.recvQueue ++ [dgram], kernel := kernel })
        else (.ok, { t with kernel := kernel })
      | (_, kernel) => (.ok, { t with kernel := kernel })

/-- Hand over a datagram that was taken off the front of the queue. -/
def handOver (dgram : Datagram) (data : Buffer) (t : Udp) : ErrorCode × Buffer × Udp :=
  if dgram.bytes.length > data.size then (.errFormat, data, t)
  else (.ok, filled data dgram.bytes, t)

/-- Receive a datagram, from the kernel if none is queued. -/
def Udp.udpRecv (data : Buffer) (arrival : Arrival) (t : Udp) : ErrorCode × Buffer × Udp :=
  if t.isOpen = false then (.errIo, data, t)
  else
    match t.recvQueue with
    | [] =>
      match recvfrom arrival t.kernel with
      | (.datagram dgram, kernel) =>
        if dgram.bytes.length = 0 then (.errTimeout, data, { t with kernel := kernel })
        -- It goes through the queue, which is empty again behind it.
        else handOver dgram data { t with kernel := kernel }
      | (.wouldBlock, _) => (.errTimeout, data, t)
      | (.error, _) => (.errIo, data, t)
    | dgram :: queue => handOver dgram data { t with recvQueue := queue }

/-! ## Runs -/

/-- A call, with what it is handed over and what the kernel answers it. -/
inductive UdpCall where
  | send (data : Bytes) (taken : Bool) (arrival : Arrival)
  | recv (data : Buffer) (arrival : Arrival)

/-- What a call gives back. -/
inductive UdpAnswer where
  | sent (code : ErrorCode)
  | received (code : ErrorCode) (data : Buffer)

def Udp.step (t : Udp) : UdpCall → UdpAnswer × Udp
  | .send data taken arrival => (t.udpSend data taken arrival).map .sent id
  | .recv data arrival =>
    let (code, data, t) := t.udpRecv data arrival
    (.received code data, t)

end Federated.Transport
