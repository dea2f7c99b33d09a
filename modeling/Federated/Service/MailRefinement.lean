import Federated.Service.MailMemory
import Federated.Library.ArrayList
import Federated.Library.Tombstones

/-!
# What the mail store is for

A list of live messages, each with its mailbox, in the order they were appended.
The memory of the store answers every run of calls as this list does.
-/

namespace Federated.Service

open Library

/-- The live messages, how many were appended since the store was opened, and the counter
of the identifiers given out. -/
structure LiveMail where
  isOpen : Bool
  appended : Nat
  counter : UInt64
  live : List (Bytes × MailMessage)

namespace LiveMail

def start : LiveMail := ⟨false, 0, 0, []⟩

/-- The live messages of a mailbox. -/
def mailbox (s : LiveMail) (name : Bytes) : List MailMessage :=
  (s.live.filter fun entry => entry.1 = name).map Prod.snd

/-- The entry is a message of a mailbox with an identifier. -/
def isAt (name msgId : Bytes) (entry : Bytes × MailMessage) : Bool :=
  entry.1 = name ∧ entry.2.id.str = msgId

def append (name : Bytes) (msg : MailMessage) (now : UInt64) (s : LiveMail) :
    ErrorCode × LiveMail :=
  if s.isOpen ∧ s.appended < maxMessages then
    let (msg, counter) := identify now s.counter msg
    (.ok, { s with appended := s.appended + 1, counter, live := s.live ++ [(name, msg)] })
  else (.errInternal, s)

def list (name : Bytes) (into : Listing) (s : LiveMail) : ErrorCode × List MailMessage × Nat :=
  if s.isOpen then
    let found := (s.mailbox name).take into.count
    (.ok, found ++ into.msgs.drop found.length, found.length)
  else (.errInternal, into.msgs, into.count)

def fetch (name msgId : Bytes) (msg : MailMessage) (s : LiveMail) : ErrorCode × MailMessage :=
  if s.isOpen then
    match s.live.find? (isAt name msgId) with
    | some entry => (.ok, entry.2)
    | none => (.errIo, msg)
  else (.errInternal, msg)

def remove (name msgId : Bytes) (s : LiveMail) : ErrorCode × LiveMail :=
  if s.isOpen then
    if s.live.any (isAt name msgId) then (.ok, { s with live := s.live.eraseP (isAt name msgId) })
    else (.errIo, s)
  else (.errInternal, s)

def step (s : LiveMail) : MailCall → MailAnswer × LiveMail
  | .init =>
    (.code .ok, if s.isOpen then s else { s with isOpen := true, appended := 0, live := [] })
  | .cleanup => (.code .ok, { s with isOpen := false, appended := 0, live := [] })
  | .append mailbox msg now => (s.append (cstr mailbox) msg now).map .code id
  | .list mailbox into =>
    let (code, msgs, count) := s.list (cstr mailbox) into
    (.listing code msgs count, s)
  | .fetch mailbox msgId msg =>
    let (code, msg) := s.fetch (cstr mailbox) (cstr msgId) msg
    (.message code msg, s)
  | .remove mailbox msgId => (s.remove (cstr mailbox) (cstr msgId)).map .code id

end LiveMail

/-! ## The live messages of a memory -/

/-- What a slot stands for, if it was not removed. -/
def StoredMessage.entry (m : StoredMessage) : Option (Bytes × MailMessage) :=
  if m.deleted then none else some (m.mailbox.str, m.msg)

theorem StoredMessage.isAt_eq (mailbox msgId : Bytes) (m : StoredMessage) :
    m.isAt mailbox msgId = m.entry.any (LiveMail.isAt (cstr mailbox) (cstr msgId)) := by
  cases h : m.deleted <;> simp [isAt, isIn, entry, LiveMail.isAt, h]

namespace MailMemory

variable {mem : MailMemory} {mailbox msgId : Bytes}

/-- The live messages a memory stands for. -/
def liveMail (mem : MailMemory) : LiveMail :=
  ⟨mem.initialized, mem.messageCount, mem.counter, mem.slots.filterMap StoredMessage.entry⟩

theorem mailbox_liveMail (mem : MailMemory) (mailbox : Bytes) :
    mem.liveMail.mailbox (cstr mailbox) =
      (mem.slots.filter (·.isIn mailbox)).map StoredMessage.msg := by
  simp only [LiveMail.mailbox, liveMail]
  induction mem.slots with
  | nil => rfl
  | cons m slots ih =>
    cases hdel : m.deleted <;> by_cases hname : m.mailbox.str = cstr mailbox <;>
      simp [StoredMessage.entry, StoredMessage.isIn, hdel, hname, ih]

/-! ## What each call does to them -/

theorem mailStoreInit_liveMail (mem : MailMemory) :
    LiveMail.step mem.liveMail .init = (mem.step .init).map id liveMail := by
  cases h : mem.initialized <;> simp [step, LiveMail.step, mailStoreInit, liveMail, slots, h]

theorem mailStoreCleanup_liveMail (mem : MailMemory) :
    LiveMail.step mem.liveMail .cleanup = (mem.step .cleanup).map id liveMail := by
  simp [step, LiveMail.step, mailStoreCleanup, liveMail, slots]

theorem take_set_slots (h : mem.messageCount < maxMessages) (m : StoredMessage) :
    (mem.messages.set mem.messageCount m).take (mem.messageCount + 1) = mem.slots ++ [m] :=
  take_set_succ (mem.sized ▸ h) m

/-- A new message comes behind those that are there. -/
theorem mailStoreAppend_liveMail {msg : MailMessage} {now : UInt64}
    (hfits : (cstr mailbox).length ≤ 63) :
    mem.liveMail.append (cstr mailbox) msg now =
      (mem.mailStoreAppend mailbox msg now).map id liveMail := by
  have hname : (CharArray.copy 64 mailbox).str = cstr mailbox := by
    rw [CharArray.copy, CharArray.str_fill 64 (zero_notMem_cstr mailbox)]
    exact List.take_of_length_le hfits
  cases hinit : mem.initialized with
  | false => simp [LiveMail.append, mailStoreAppend, liveMail, hinit]
  | true =>
    obtain hroom | hfull := Nat.lt_or_ge mem.messageCount maxMessages
    · have hnot : ¬ maxMessages ≤ mem.messageCount := Nat.not_le_of_lt hroom
      simp [LiveMail.append, mailStoreAppend, liveMail, hinit, hroom, hnot, slots,
        take_set_slots hroom, StoredMessage.entry, hname]
    · simp [LiveMail.append, mailStoreAppend, liveMail, hinit, hfull, Nat.not_lt_of_ge hfull]

theorem mailStoreList_liveMail {into : Listing} :
    mem.liveMail.list (cstr mailbox) into = mem.mailStoreList mailbox into := by
  cases hinit : mem.initialized with
  | false => simp [LiveMail.list, mailStoreList, liveMail, hinit]
  | true =>
    have hopen : mem.liveMail.isOpen = true := hinit
    have hloop := foldl_fill (p := (·.isIn mailbox)) (f := StoredMessage.msg) mem.slots []
      into.msgs (Nat.zero_le into.count) (by simpa using into.room)
    simp only [List.nil_append, List.length_nil, Nat.zero_add, Nat.sub_zero] at hloop
    rw [LiveMail.list, if_pos hopen, mailStoreList, if_neg (by simp [hinit]), mailbox_liveMail]
    exact congrArg _ hloop.symm

/-- The part of a memory that listing looks at. -/
def store (mem : MailMemory) : MailStore :=
  ⟨mem.initialized, mem.slots, mem.length_slots ▸ mem.counted⟩

theorem mailStoreList_store {into : Listing} : mem.mailStoreList mailbox into =
    Service.mailStoreList mem.store (cstr mailbox) into.msgs into.count := by
  rw [← mailStoreList_liveMail, LiveMail.list, mailbox_liveMail]
  cases hinit : mem.initialized <;>
    simp [Service.mailStoreList, MailStore.live, StoredMessage.isIn, store, liveMail, hinit]

theorem mailStoreFetch_liveMail {msg : MailMessage} :
    mem.liveMail.fetch (cstr mailbox) (cstr msgId) msg = mem.mailStoreFetch mailbox msgId msg := by
  cases hinit : mem.initialized with
  | false => simp [LiveMail.fetch, mailStoreFetch, liveMail, hinit]
  | true =>
    simp only [LiveMail.fetch, mailStoreFetch, liveMail, hinit, List.find?_filterMap,
      ← StoredMessage.isAt_eq]
    cases hfind : mem.slots.find? (·.isAt mailbox msgId) with
    | none => simp
    | some m =>
      have hat := List.find?_some hfind
      have hdel : m.deleted = false := by
        simp only [StoredMessage.isAt, StoredMessage.isIn] at hat
        grind
      simp [StoredMessage.entry, hdel]

theorem mailStoreRemove_liveMail :
    mem.liveMail.remove (cstr mailbox) (cstr msgId) =
      (mem.mailStoreRemove mailbox msgId).map id liveMail := by
  let q := LiveMail.isAt (cstr mailbox) (cstr msgId)
  have hany : mem.liveMail.live.any q = (mem.slots.findIdx? (·.isAt mailbox msgId)).isSome := by
    rw [List.findIdx?_isSome, liveMail, List.any_filterMap]
    exact congrArg _ (funext fun m => (StoredMessage.isAt_eq mailbox msgId m).symm)
  cases hinit : mem.initialized with
  | false => simp [LiveMail.remove, mailStoreRemove, liveMail, hinit]
  | true =>
    have hopen : mem.liveMail.isOpen = true := hinit
    have hnot : ¬ mem.initialized = false := by simp [hinit]
    rw [LiveMail.remove, if_pos hopen, hany, mailStoreRemove, if_neg hnot]
    cases hfind : mem.slots.findIdx? (·.isAt mailbox msgId) with
    | none => simp
    | some i =>
      have herase := filterMap_modify_findIdx? (fun m : StoredMessage =>
        { m with deleted := true }) (fun _ => rfl) (StoredMessage.isAt_eq mailbox msgId) hfind
      simpa [liveMail, slots, List.take_modify] using herase.symm

end MailMemory

/-! ## Runs -/

/-- The mailbox a call is about. -/
def MailCall.mailbox : MailCall → Option Bytes
  | .init | .cleanup => none
  | .append mailbox _ _ | .list mailbox _ | .fetch mailbox _ _ | .remove mailbox _ => some mailbox

/-- The mailbox of a call fits its array. -/
def MailCall.Fits (call : MailCall) : Prop := ∀ name ∈ call.mailbox, (cstr name).length ≤ 63

/-- A memory answers a call as its live messages do, and goes on standing for them. -/
theorem MailMemory.step_liveMail (mem : MailMemory) {call : MailCall} (h : call.Fits) :
    LiveMail.step mem.liveMail call = (mem.step call).map id liveMail := by
  cases call with
  | init => exact mem.mailStoreInit_liveMail
  | cleanup => exact mem.mailStoreCleanup_liveMail
  | append mailbox msg now =>
    rw [LiveMail.step, mailStoreAppend_liveMail (h mailbox rfl)]
    rfl
  | list mailbox into =>
    rw [LiveMail.step, mailStoreList_liveMail]
    rfl
  | fetch mailbox msgId msg =>
    rw [LiveMail.step, mailStoreFetch_liveMail]
    rfl
  | remove mailbox msgId =>
    rw [LiveMail.step, mailStoreRemove_liveMail]
    rfl

theorem MailMemory.simulation :
    Simulation MailMemory.step LiveMail.step MailCall.Fits fun mem s => mem.liveMail = s where
  answer {mem s call} h hcall := by
    rw [← h, mem.step_liveMail hcall]
    rfl
  next {mem s call} h hcall := by
    rw [← h, mem.step_liveMail hcall]
    rfl

namespace LiveMail

variable {s : LiveMail} {name other : Bytes}

/-- Erasing a message of one mailbox leaves those of another one. -/
theorem filter_eraseP_isAt (hother : other ≠ name) (msgId : Bytes)
    (live : List (Bytes × MailMessage)) :
    (live.eraseP (isAt name msgId)).filter (fun entry => entry.1 = other) =
      live.filter fun entry => entry.1 = other := by
  induction live with
  | nil => rfl
  | cons entry live ih =>
    by_cases hat : isAt name msgId entry
    · have hname : entry.1 = name := by
        simp only [isAt, decide_eq_true_eq] at hat
        exact hat.1
      simp [hat, hname, hother.symm]
    · rw [List.eraseP_cons_of_neg hat, List.filter_cons, List.filter_cons, ih]

/-- A call on one mailbox leaves the messages of another one. -/
theorem mailbox_step {call : MailCall} (hcall : call.mailbox = some name)
    (hother : cstr other ≠ cstr name) :
    (s.step call).2.mailbox (cstr other) = s.mailbox (cstr other) ∧
      (s.step call).2.isOpen = s.isOpen := by
  cases call with
  | init => cases hcall
  | cleanup => cases hcall
  | append mailbox msg now =>
    obtain rfl : mailbox = name := Option.some.inj hcall
    simp only [step, append]
    split <;> simp [LiveMail.mailbox, hother.symm]
  | list mailbox into => exact ⟨rfl, rfl⟩
  | fetch mailbox msgId msg => exact ⟨rfl, rfl⟩
  | remove mailbox msgId =>
    obtain rfl : mailbox = name := Option.some.inj hcall
    simp only [step, remove]
    split
    · split <;> simp [LiveMail.mailbox, filter_eraseP_isAt hother]
    · exact ⟨rfl, rfl⟩

end LiveMail

/-- What a list finds depends on the messages of its mailbox alone. -/
theorem MailMemory.mailStoreList_congr {mem mem' : MailMemory} {mailbox : Bytes}
    (hmailbox : mem'.liveMail.mailbox (cstr mailbox) = mem.liveMail.mailbox (cstr mailbox))
    (hopen : mem'.liveMail.isOpen = mem.liveMail.isOpen) (into : Listing) :
    mem'.mailStoreList mailbox into = mem.mailStoreList mailbox into := by
  rw [← mailStoreList_liveMail, ← mailStoreList_liveMail, LiveMail.list, LiveMail.list, hmailbox,
    hopen]

/-- The store answers every run of calls as a list of live messages does; a call on one mailbox
does not change what another one lists; and a store that is closed and opened again has nothing
in it. -/
theorem mailStore_answers {calls : List MailCall} (hfits : ∀ call ∈ calls, call.Fits) :
    answers MailMemory.step .start calls = answers LiveMail.step .start calls ∧
    (∀ call name other into, call.Fits → call.mailbox = some name → cstr other ≠ cstr name →
      (after MailMemory.step .start (calls ++ [call])).mailStoreList other into =
        (after MailMemory.step .start calls).mailStoreList other into) ∧
    ∀ name msgId into msg,
      (after MailMemory.step .start (calls ++ [.cleanup, .init])).mailStoreList name into =
        (.ok, into.msgs, 0) ∧
      (after MailMemory.step .start (calls ++ [.cleanup, .init])).mailStoreFetch name msgId msg =
        (.errIo, msg) := by
  refine ⟨MailMemory.simulation.answers_eq rfl hfits, ?_, ?_⟩
  · intro call name other into hcall hname hother
    rw [after_append]
    have hstep := (after MailMemory.step .start calls).step_liveMail hcall
    obtain ⟨hmailbox, hopen⟩ :=
      LiveMail.mailbox_step (s := (after MailMemory.step .start calls).liveMail) hname hother
    rw [hstep] at hmailbox hopen
    exact MailMemory.mailStoreList_congr hmailbox hopen into
  · intro name msgId into msg
    rw [after_append]
    generalize after MailMemory.step .start calls = mem
    simp [MailMemory.step, MailMemory.mailStoreCleanup, MailMemory.mailStoreInit,
      MailMemory.mailStoreList, MailMemory.mailStoreFetch, MailMemory.slots]

/-- A message that is appended, fetched and removed. -/
theorem mailStore_answers_removed :
    let msg : MailMessage := { MailMessage.new with id := .fill 64 (ascii "1") }
    answers MailMemory.step .start [.init, .append (ascii "INBOX") msg 0,
      .fetch (ascii "INBOX") (ascii "1") .new, .remove (ascii "INBOX") (ascii "1"),
      .remove (ascii "INBOX") (ascii "1")] =
    [.code .ok, .code .ok, .message .ok msg, .code .ok, .code .errIo] := by
  intro msg
  refine (mailStore_answers ?_).1.trans rfl
  simp [MailCall.Fits, MailCall.mailbox]
  decide

end Federated.Service
