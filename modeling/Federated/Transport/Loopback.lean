import Federated.Core

/-!
# The loopback transport

A queue of messages of at most 4096 bytes. A message that does not fit the
receiver's buffer is taken off the queue and lost.
-/

namespace Federated.Transport

def maxMessageSize : Nat := 4096

/-- The bytes of a queued message, which fit its array. -/
structure Message where
  bytes : Bytes
  fits : bytes.length ≤ maxMessageSize

structure Loopback where
  isOpen : Bool
  queue : List Message

def loopbackOpen (_t : Loopback) : ErrorCode × Loopback := (.ok, ⟨true, []⟩)

def loopbackClose (_t : Loopback) : ErrorCode × Loopback := (.ok, ⟨false, []⟩)

def loopbackSend (data : Bytes) (t : Loopback) : ErrorCode × Loopback :=
  if t.isOpen = false then (.errIo, t)
  else if h : data.length > maxMessageSize then (.errFormat, t)
  else (.ok, { t with queue := t.queue ++ [⟨data, Nat.le_of_not_lt h⟩] })

def loopbackRecv (data : Buffer) (t : Loopback) : ErrorCode × Buffer × Loopback :=
  if t.isOpen = false then (.errIo, data, t)
  else
    match t.queue with
    | [] => (.errTimeout, data, t)
    | msg :: queue =>
      if msg.bytes.length > data.size then (.errFormat, data, { t with queue })
      else (.ok, filled data msg.bytes, { t with queue })

end Federated.Transport
