import Federated.Service.MailRefinement

/-!
# Identifiers of live messages

An append takes the identifier of a message as it was handed over, and makes one only for a
message that has none. The live messages of a mailbox are told apart by their identifiers as
long as no append stores one that is in use there.
-/

namespace Federated.Service

open Library

namespace MailMemory

variable {mem : MailMemory}

/-- The mailbox and the identifier of each live message. -/
def liveIds (mem : MailMemory) : List (Bytes × Bytes) :=
  mem.liveMail.live.map fun entry => (entry.1, entry.2.id.str)

/-- No two live messages of one mailbox have the same identifier. -/
def UniqueIds (mem : MailMemory) : Prop := mem.liveIds.Nodup

/-- A message that was removed is not found any more. -/
def RemovesAll (mem : MailMemory) : Prop :=
  ∀ mailbox msgId msg, (mem.mailStoreRemove mailbox msgId).1 = .ok →
    (mem.mailStoreRemove mailbox msgId).2.mailStoreFetch mailbox msgId msg = (.errIo, msg)

/-- A message that the call stores has an identifier, its own or the one made for it, that no
live message of the mailbox has. -/
def Fresh (mem : MailMemory) (call : MailCall) : Prop :=
  ∀ mailbox msg now, call = .append mailbox msg now → mem.initialized = true →
    mem.messageCount < maxMessages →
      ((CharArray.copy 64 mailbox).str, (identify now mem.counter msg).1.id.str) ∉ mem.liveIds

/-! ## What each call does to the identifiers -/

theorem liveIds_init :
    (mem.step .init).2.liveIds = if mem.initialized then mem.liveIds else [] := by
  cases hinit : mem.initialized <;>
    simp [step, mailStoreInit, liveIds, liveMail, slots, hinit]

theorem liveIds_cleanup : (mem.step .cleanup).2.liveIds = [] := by
  simp [step, mailStoreCleanup, liveIds, liveMail, slots]

/-- A message that is stored comes behind the others, with its mailbox cut off as stored. -/
theorem liveIds_append (mailbox : Bytes) (msg : MailMessage) (now : UInt64) :
    (mem.mailStoreAppend mailbox msg now).2.liveIds =
      mem.liveIds ++ if mem.initialized = true ∧ mem.messageCount < maxMessages then
        [((CharArray.copy 64 mailbox).str, (identify now mem.counter msg).1.id.str)] else [] := by
  cases hinit : mem.initialized with
  | false => simp [mailStoreAppend, hinit]
  | true =>
    obtain hroom | hfull := Nat.lt_or_ge mem.messageCount maxMessages
    · have hnot : ¬ maxMessages ≤ mem.messageCount := Nat.not_le_of_lt hroom
      simp [mailStoreAppend, liveIds, liveMail, slots, hinit, hroom, hnot, take_set_slots hroom,
        StoredMessage.entry]
    · simp [mailStoreAppend, hinit, hfull, Nat.not_lt_of_ge hfull]

/-- A remove takes out the first message with the identifier, if there is one. -/
theorem liveIds_remove (mailbox msgId : Bytes) :
    (mem.mailStoreRemove mailbox msgId).2.liveIds =
      if mem.initialized then mem.liveIds.erase (cstr mailbox, cstr msgId) else mem.liveIds := by
  have hlive : (mem.mailStoreRemove mailbox msgId).2.liveMail =
      (mem.liveMail.remove (cstr mailbox) (cstr msgId)).2 := by
    rw [mem.mailStoreRemove_liveMail]
    rfl
  have hopen : mem.liveMail.isOpen = mem.initialized := rfl
  have herase : ∀ live : List (Bytes × MailMessage),
      (live.eraseP (LiveMail.isAt (cstr mailbox) (cstr msgId))).map
          (fun entry => (entry.1, entry.2.id.str)) =
        (live.map fun entry => (entry.1, entry.2.id.str)).erase (cstr mailbox, cstr msgId) := by
    intro live
    rw [List.erase_eq_eraseP', List.eraseP_map]
    congr 2
    funext entry
    rw [Bool.eq_iff_iff]
    simp [LiveMail.isAt]
  rw [liveIds, hlive, LiveMail.remove, hopen]
  split_ifs with hinit hany
  · exact herase _
  · rw [liveIds, ← herase, List.eraseP_of_forall_not]
    simpa using hany
  · rfl

/-- An identifier that no live message of the mailbox has is not found. -/
theorem mailStoreFetch_of_notMem {mailbox msgId : Bytes} (hopen : mem.initialized = true)
    (h : (cstr mailbox, cstr msgId) ∉ mem.liveIds) (msg : MailMessage) :
    mem.mailStoreFetch mailbox msgId msg = (.errIo, msg) := by
  have hnone : mem.liveMail.live.find? (LiveMail.isAt (cstr mailbox) (cstr msgId)) = none := by
    rw [List.find?_eq_none]
    intro entry hmem hat
    simp only [LiveMail.isAt, decide_eq_true_eq] at hat
    exact h (List.mem_map.mpr ⟨entry, hmem, Prod.ext hat.1 hat.2⟩)
  have hlive : mem.liveMail.isOpen = true := hopen
  rw [← mailStoreFetch_liveMail, LiveMail.fetch, if_pos hlive, hnone]

theorem UniqueIds.removesAll (h : mem.UniqueIds) : mem.RemovesAll := by
  intro mailbox msgId msg hok
  have hopen : mem.initialized = true := by
    rw [mailStoreRemove] at hok
    grind
  have hstill : (mem.mailStoreRemove mailbox msgId).2.initialized = true := by
    rw [mailStoreRemove, if_neg (by simp [hopen])]
    split <;> exact hopen
  refine mailStoreFetch_of_notMem hstill ?_ msg
  rw [liveIds_remove, if_pos hopen]
  exact List.Nodup.not_mem_erase h

/-- A call keeps the identifiers apart if and only if it stores no message under one in use. -/
theorem UniqueIds.step_iff (h : mem.UniqueIds) (call : MailCall) :
    (mem.step call).2.UniqueIds ↔ mem.Fresh call := by
  cases call with
  | append mailbox msg now =>
    have hnext : (mem.step (.append mailbox msg now)).2 =
      (mem.mailStoreAppend mailbox msg now).2 := rfl
    rw [UniqueIds, hnext, liveIds_append, List.nodup_append,
      and_iff_right (show mem.liveIds.Nodup from h)]
    constructor
    · rintro ⟨-, hapart⟩ _ _ _ ⟨⟩ hopen hroom hmem
      rw [if_pos ⟨hopen, hroom⟩] at hapart
      exact hapart _ hmem _ List.mem_cons_self rfl
    · intro hfresh
      split_ifs with hstores
      · have hnew := hfresh mailbox msg now rfl hstores.1 hstores.2
        grind
      · simp
  | remove mailbox msgId =>
    refine iff_of_true ?_ (by rintro _ _ _ ⟨⟩)
    have hnext : (mem.step (.remove mailbox msgId)).2 =
      (mem.mailStoreRemove mailbox msgId).2 := rfl
    rw [UniqueIds, hnext, liveIds_remove]
    split_ifs
    · exact List.Nodup.erase _ h
    · exact h
  | init =>
    refine iff_of_true ?_ (by rintro _ _ _ ⟨⟩)
    rw [UniqueIds, liveIds_init]
    split_ifs
    · exact h
    · exact List.nodup_nil
  | cleanup =>
    refine iff_of_true ?_ (by rintro _ _ _ ⟨⟩)
    rw [UniqueIds, liveIds_cleanup]
    exact List.nodup_nil
  | list | fetch => exact iff_of_true h (by rintro _ _ _ ⟨⟩)

end MailMemory

/-! ## Runs -/

/-- The identifiers are unique in every state on the way, so that removing a message is final. -/
def KeepsIdsUnique (calls : List MailCall) : Prop :=
  ∀ pre, pre <+: calls → (after MailMemory.step .start pre).UniqueIds ∧
    (after MailMemory.step .start pre).RemovesAll

/-- Every message that the run stores has an identifier that no live message of its mailbox
has at that time. -/
def FreshIds (calls : List MailCall) : Prop :=
  ∀ pre call, pre ++ [call] <+: calls → (after MailMemory.step .start pre).Fresh call

/-- The identifiers are unique throughout a run if and only if each append stores its message
under one that is not in use. -/
theorem keepsIdsUnique_iff (calls : List MailCall) : KeepsIdsUnique calls ↔ FreshIds calls := by
  have hunique : KeepsIdsUnique calls ↔
      ∀ pre, pre <+: calls → (after MailMemory.step .start pre).UniqueIds :=
    forall₂_congr fun _ _ => and_iff_left_of_imp MailMemory.UniqueIds.removesAll
  rw [hunique]
  refine forall_isPrefix_iff List.nodup_nil fun pre call _ hbefore => ?_
  rw [after_append, after_cons, after_nil]
  exact hbefore.step_iff call

/-- Two messages are handed over with one identifier. -/
def sameIds : List MailCall :=
  let msg : MailMessage := { MailMessage.new with id := .fill 64 (ascii "1") }
  [.init, .append (ascii "INBOX") msg 0, .append (ascii "INBOX") msg 0]

/-- Both are stored, and the second one is found when one was removed. -/
theorem not_keepsIdsUnique_same : ¬ KeepsIdsUnique sameIds := by
  intro h
  have hgone := (h sameIds List.prefix_rfl).2 (ascii "INBOX") (ascii "1") .new rfl
  have hfound : ((after MailMemory.step .start sameIds).mailStoreRemove (ascii "INBOX")
      (ascii "1")).2.mailStoreFetch (ascii "INBOX") (ascii "1") .new =
    (.ok, { MailMessage.new with id := .fill 64 (ascii "1") }) := rfl
  rw [hfound] at hgone
  cases hgone

end Federated.Service
