import Federated.Service.Imap
import Federated.Service.MailRefinement

/-!
# What SELECT counts

The number of messages that SELECT reports against those a following FETCH finds. The
messages are counted in an array of a hundred entries under the name as it was given, the
session keeps as much of the name as its array holds, and a store that is closed leaves
the array and the number alone.
-/

namespace Federated.Service

open Library

/-- The number in front of EXISTS, as a client reads it. -/
def Reply.existsNumber (r : Reply) : Nat := leadingNumber (r.untagged.drop 2)

/-- SELECT reports as many messages as are live under the name that the session keeps. -/
def SelectCounts (store : MailStore) (session : ImapSession) (mailbox tag : Bytes) : Prop :=
  (imapHandleSelect store session mailbox tag).2.existsNumber =
    (store.live (imapHandleSelect store session mailbox tag).1.selectedMailbox.str).length

variable {store : MailStore} {session : ImapSession} {mailbox tag : Bytes}

theorem existsNumber_imapHandleSelect :
    (imapHandleSelect store session mailbox tag).2.existsNumber =
      (listMailbox store mailbox).2 := by
  have hstar : ascii "* " = [42, 32] := by decide
  have hexists : ascii " EXISTS\r\n" = 32 :: ascii "EXISTS\r\n" := by decide
  simp only [imapHandleSelect, Reply.existsNumber, ascii_append, hstar, hexists, List.append_assoc,
    List.cons_append, List.nil_append, List.drop_succ_cons, List.drop_zero]
  exact leadingNumber_toString _ (by decide) _

/-- A hundred messages are counted, and a closed store leaves that number. -/
theorem listMailbox_count : (listMailbox store mailbox).2 =
    if store.initialized then min 100 (store.live mailbox).length else 100 := by
  cases h : store.initialized <;> simp [listMailbox, mailStoreList, h]

/-- The session keeps the first 63 characters. -/
theorem str_selectedMailbox : (imapHandleSelect store session mailbox tag).1.selectedMailbox.str =
    (cstr mailbox).take 63 :=
  CharArray.str_fill 64 (zero_notMem_cstr mailbox)

/-- There is no message under a name that is longer than the array of a message. -/
theorem live_eq_nil_of_length (h : 63 < mailbox.length) : store.live mailbox = [] := by
  rw [MailStore.live, List.map_eq_nil_iff, List.filter_eq_nil_iff]
  intro m _ hm
  obtain ⟨-, rfl⟩ : ¬ m.deleted ∧ m.mailbox.str = mailbox := of_decide_eq_true hm
  exact absurd m.mailbox.length_str_le (Nat.not_le_of_lt h)

/-- In which stores a SELECT counts what the session selects. -/
theorem selectCounts_iff_of_closed (hclosed : store.initialized = false → store.messages = [])
    (hmailbox : 0 ∉ mailbox) :
    SelectCounts store session mailbox tag ↔
      store.initialized = true ∧ (store.live mailbox).length ≤ 100 ∧
        (mailbox.length ≤ 63 ∨ store.live (mailbox.take 63) = []) := by
  rw [SelectCounts, existsNumber_imapHandleSelect, listMailbox_count, str_selectedMailbox,
    cstr_eq_self hmailbox]
  cases hinit : store.initialized with
  | false =>
    have hlive : store.live (mailbox.take 63) = [] := by simp [MailStore.live, hclosed hinit]
    simp [hlive]
  | true =>
    obtain hlong | hfits := Nat.lt_or_ge 63 mailbox.length
    · rw [eq_comm]
      simp [live_eq_nil_of_length hlong, Nat.not_le_of_gt hlong]
    · simp [List.take_of_length_le hfits, hfits]

/-! ## The store behind a run -/

namespace MailMemory

/-- A closed store has no slot in use. -/
def ClosedEmpty (mem : MailMemory) : Prop := mem.initialized = false → mem.messageCount = 0

theorem ClosedEmpty.step {mem : MailMemory} (h : mem.ClosedEmpty) (call : MailCall) :
    (mem.step call).2.ClosedEmpty := by
  cases call with
  | init =>
    intro hclosed
    revert hclosed
    simp only [MailMemory.step, mailStoreInit]
    split <;> grind
  | cleanup => exact fun _ => rfl
  | append mailbox msg now =>
    simp only [MailMemory.step, mailStoreAppend, ClosedEmpty]
    split
    · exact h
    · split <;> grind
  | list mailbox into => exact h
  | fetch mailbox msgId msg => exact h
  | remove mailbox msgId =>
    simp only [MailMemory.step, mailStoreRemove, ClosedEmpty]
    split
    · exact h
    · split <;> grind

theorem closedEmpty_after (calls : List MailCall) :
    (after MailMemory.step .start calls).ClosedEmpty :=
  invariant_after ClosedEmpty (fun _ call h => h.step call) (fun _ => rfl) calls

/-- The list that SELECT and FETCH ask for is the one the memory gives. -/
theorem listMailbox_store (mem : MailMemory) (mailbox : Bytes) :
    listMailbox mem.store (cstr mailbox) =
      (mem.mailStoreList mailbox ⟨List.replicate 100 .new, 100, by simp⟩).2 := by
  rw [listMailbox, mailStoreList_store]

end MailMemory

/-- After any run of the store, SELECT reports the number of messages that a following FETCH
finds if and only if the store is open, no more than a hundred messages are live under the name,
and the name fits the array of the session or no message is live under what fits. -/
theorem selectCounts_iff (calls : List MailCall) (session : ImapSession) (mailbox tag : Bytes) :
    SelectCounts (after MailMemory.step .start calls).store session (cstr mailbox) tag ↔
      (after MailMemory.step .start calls).store.initialized = true ∧
        ((after MailMemory.step .start calls).store.live (cstr mailbox)).length ≤ 100 ∧
        ((cstr mailbox).length ≤ 63 ∨
          (after MailMemory.step .start calls).store.live ((cstr mailbox).take 63) = []) := by
  refine selectCounts_iff_of_closed (fun hclosed => ?_) (zero_notMem_cstr mailbox)
  have hempty := MailMemory.closedEmpty_after calls hclosed
  simp [MailMemory.store, MailMemory.slots, hempty]

/-- SELECT before the store is opened reports a hundred messages. -/
theorem not_selectCounts_closed :
    ¬ SelectCounts MailMemory.start.store .new (ascii "INBOX") (ascii "a1") := by
  rw [SelectCounts, existsNumber_imapHandleSelect, listMailbox_count]
  simp [MailMemory.store, MailMemory.start, MailMemory.slots, MailStore.live]

end Federated.Service
