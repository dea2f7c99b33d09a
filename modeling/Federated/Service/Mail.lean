import Federated.Core

/-!
# The mail store

The messages in memory, in the order of their arrival, with the mark of those
that were removed.
-/

namespace Federated.Service

structure MailMessage where
  id : CharArray 64
  sender : CharArray 256
  recipient : CharArray 256
  subject : CharArray 256
  timestamp : UInt64
  headers : Buffer
  body : Buffer

/-- A message as its constructor makes it. -/
def MailMessage.new : MailMessage :=
  ⟨.empty 64, .empty 256, .empty 256, .empty 256, 0, ⟨[], 0⟩, ⟨[], 0⟩⟩

def maxMessages : Nat := 1000

structure StoredMessage where
  msg : MailMessage
  mailbox : CharArray 64
  deleted : Bool

structure MailStore where
  initialized : Bool
  messages : List StoredMessage
  fits : messages.length ≤ maxMessages

/-- The messages of a mailbox that were not removed. -/
def MailStore.live (store : MailStore) (mailbox : Bytes) : List MailMessage :=
  (store.messages.filter fun m => ¬ m.deleted ∧ m.mailbox.str = mailbox).map StoredMessage.msg

/-- List a mailbox into `msgs`, at most `count` messages. -/
def mailStoreList (store : MailStore) (mailbox : Bytes) (msgs : List MailMessage) (count : Nat) :
    ErrorCode × List MailMessage × Nat :=
  if store.initialized = false then (.errInternal, msgs, count)
  else
    let found := (store.live mailbox).take count
    (.ok, found ++ msgs.drop found.length, found.length)

end Federated.Service
