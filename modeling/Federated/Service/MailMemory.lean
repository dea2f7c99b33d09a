import Federated.Service.Mail
import Federated.Library.Machine

/-!
# The memory of the mail store

The static array of the store with its counters, and the six operations on it. A
message that is removed is marked and keeps its slot. Text is compared as C strings.

Of the headers and the body of a message the source copies the pointers. Here the bytes are
copied, which comes to the same for callers that leave the buffers of a message as they are once
they have handed it over.
-/

namespace Federated.Service

/-- The static variables of the store. -/
structure MailMemory where
  messages : List StoredMessage
  sized : messages.length = maxMessages
  messageCount : Nat
  counted : messageCount ≤ maxMessages
  initialized : Bool
  counter : UInt64

/-- The variables as the program starts. -/
def MailMemory.start : MailMemory :=
  ⟨List.replicate maxMessages ⟨.new, .empty 64, false⟩, List.length_replicate, 0, Nat.zero_le _,
    false, 0⟩

/-- An array handed over to be filled, with a limit it has room for. -/
structure Listing where
  msgs : List MailMessage
  count : Nat
  room : count ≤ msgs.length

/-- A message identifier of a time and a counter. -/
def generateMessageId (timestamp counter : UInt64) : CharArray 64 :=
  .fill 64 (ascii (toString timestamp.toNat ++ "-" ++ toString counter.toNat))

/-- A message that has an identifier, and the counter for the next one. -/
def identify (now counter : UInt64) (msg : MailMessage) : MailMessage × UInt64 :=
  if msg.id.str = [] then ({ msg with id := generateMessageId now counter }, counter + 1)
  else (msg, counter)

/-- A message of a mailbox that was not removed. -/
def StoredMessage.isIn (mailbox : Bytes) (m : StoredMessage) : Bool :=
  ¬ m.deleted ∧ m.mailbox.str = cstr mailbox

/-- A message of a mailbox that was not removed and has an identifier. -/
def StoredMessage.isAt (mailbox msgId : Bytes) (m : StoredMessage) : Bool :=
  m.isIn mailbox ∧ m.msg.id.str = cstr msgId

namespace MailMemory

/-- The slots the loops visit. -/
def slots (mem : MailMemory) : List StoredMessage := mem.messages.take mem.messageCount

theorem length_slots (mem : MailMemory) : mem.slots.length = mem.messageCount :=
  List.length_take_of_le (mem.sized ▸ mem.counted)

def mailStoreInit (mem : MailMemory) : ErrorCode × MailMemory :=
  if mem.initialized then (.ok, mem)
  else
    (.ok, { mem with
      messages := mem.messages.map fun m =>
        { m with deleted := false, mailbox := .empty 64, msg := { m.msg with id := .empty 64 } }
      sized := (List.length_map _).trans mem.sized
      messageCount := 0
      counted := Nat.zero_le _
      initialized := true })

def mailStoreCleanup (mem : MailMemory) : ErrorCode × MailMemory :=
  (.ok, { mem with initialized := false, messageCount := 0, counted := Nat.zero_le _ })

def mailStoreAppend (mailbox : Bytes) (msg : MailMessage) (now : UInt64) (mem : MailMemory) :
    ErrorCode × MailMemory :=
  if mem.initialized = false then (.errInternal, mem)
  else if h : mem.messageCount ≥ maxMessages then (.errInternal, mem)
  else
    let (msg, counter) := identify now mem.counter msg
    (.ok, { mem with
      messages := mem.messages.set mem.messageCount ⟨msg, .copy 64 mailbox, false⟩
      sized := List.length_set.trans mem.sized
      messageCount := mem.messageCount + 1
      counted := Nat.lt_of_not_ge h
      counter := counter })

/-- One pass of the loop that lists a mailbox. -/
def listSlot (mailbox : Bytes) (count : Nat) (acc : List MailMessage × Nat) (m : StoredMessage) :
    List MailMessage × Nat :=
  if acc.2 < count ∧ m.isIn mailbox then (acc.1.set acc.2 m.msg, acc.2 + 1) else acc

def mailStoreList (mailbox : Bytes) (into : Listing) (mem : MailMemory) :
    ErrorCode × List MailMessage × Nat :=
  if mem.initialized = false then (.errInternal, into.msgs, into.count)
  else (.ok, mem.slots.foldl (listSlot mailbox into.count) (into.msgs, 0))

def mailStoreFetch (mailbox msgId : Bytes) (msg : MailMessage) (mem : MailMemory) :
    ErrorCode × MailMessage :=
  if mem.initialized = false then (.errInternal, msg)
  else
    match mem.slots.find? (·.isAt mailbox msgId) with
    | some m => (.ok, m.msg)
    | none => (.errIo, msg)

def mailStoreRemove (mailbox msgId : Bytes) (mem : MailMemory) : ErrorCode × MailMemory :=
  if mem.initialized = false then (.errInternal, mem)
  else
    match mem.slots.findIdx? (·.isAt mailbox msgId) with
    | some i =>
      (.ok, { mem with
        messages := mem.messages.modify i fun m => { m with deleted := true }
        sized := (List.length_modify ..).trans mem.sized })
    | none => (.errIo, mem)

end MailMemory

/-! ## Runs -/

/-- A call, with what it is handed over and the time it is made. -/
inductive MailCall where
  | init
  | cleanup
  | append (mailbox : Bytes) (msg : MailMessage) (now : UInt64)
  | list (mailbox : Bytes) (into : Listing)
  | fetch (mailbox msgId : Bytes) (msg : MailMessage)
  | remove (mailbox msgId : Bytes)

/-- What a call gives back. -/
inductive MailAnswer where
  | code (code : ErrorCode)
  | listing (code : ErrorCode) (msgs : List MailMessage) (count : Nat)
  | message (code : ErrorCode) (msg : MailMessage)

def MailMemory.step (mem : MailMemory) : MailCall → MailAnswer × MailMemory
  | .init => mem.mailStoreInit.map .code id
  | .cleanup => mem.mailStoreCleanup.map .code id
  | .append mailbox msg now => (mem.mailStoreAppend mailbox msg now).map .code id
  | .list mailbox into =>
    let (code, msgs, count) := mem.mailStoreList mailbox into
    (.listing code msgs count, mem)
  | .fetch mailbox msgId msg =>
    let (code, msg) := mem.mailStoreFetch mailbox msgId msg
    (.message code msg, mem)
  | .remove mailbox msgId => (mem.mailStoreRemove mailbox msgId).map .code id

end Federated.Service
