import Federated.Service.MailRefinement

/-!
# Room in the mail store

A slot is never used twice while the store is open, so a message that was removed
still takes one. The store makes room again only as long as it was not filled.
-/

namespace Federated.Service

open Library

/-! ## Slots and live messages -/

namespace MailMemory

variable {mem : MailMemory} {calls : List MailCall}

/-- An append that fails finds as many live messages as the store holds. -/
def FailsOnlyFull (mem : MailMemory) : Prop :=
  ∀ mailbox msg now, (mem.mailStoreAppend mailbox msg now).1 ≠ .ok →
    mem.liveMail.live.length = maxMessages

/-- No slot in use is marked. -/
def Unmarked (mem : MailMemory) : Prop := ∀ m ∈ mem.slots, m.deleted = false

theorem mailStoreAppend_ok_iff {mailbox : Bytes} {msg : MailMessage} {now : UInt64}
    (hopen : mem.initialized = true) :
    (mem.mailStoreAppend mailbox msg now).1 = .ok ↔ mem.messageCount < maxMessages := by
  unfold mailStoreAppend
  split
  · simp_all
  · split
    · simp
      omega
    · simp
      omega

theorem length_live_eq_iff : mem.liveMail.live.length = mem.messageCount ↔ mem.Unmarked := by
  rw [liveMail, ← mem.length_slots, List.filterMap_length_eq_length]
  refine forall₂_congr fun m _ => ?_
  cases h : m.deleted <;> simp [StoredMessage.entry, h]

theorem failsOnlyFull_iff (hopen : mem.initialized = true) :
    mem.FailsOnlyFull ↔ mem.messageCount < maxMessages ∨ mem.Unmarked := by
  rw [← length_live_eq_iff]
  have hcount := mem.counted
  constructor
  · intro h
    by_contra! hfull
    have hlive := h [] .new 0 ((mailStoreAppend_ok_iff hopen).not.mpr (Nat.not_lt_of_ge hfull.1))
    exact hfull.2 (hlive.trans (Nat.le_antisymm hfull.1 hcount))
  · intro h mailbox msg now hfail
    rw [Ne, mailStoreAppend_ok_iff hopen] at hfail
    omega

end MailMemory

/-! ## Runs -/

/-- An append. -/
def MailCall.appends : MailCall → Bool
  | .append .. => true
  | _ => false

/-- An append or a remove. -/
def MailCall.changes : MailCall → Bool
  | .append .. | .remove .. => true
  | _ => false

namespace MailMemory

variable {mem : MailMemory} {call : MailCall} {calls : List MailCall}

/-- The call is no remove that names a live message. -/
def RemovesNothing (mem : MailMemory) (call : MailCall) : Prop :=
  ∀ mailbox msgId, call = .remove mailbox msgId → mem.slots.all fun m => ¬ m.isAt mailbox msgId

/-- What an append does: nothing, or it uses one more slot, which is not marked. -/
theorem mailStoreAppend_slots (mailbox : Bytes) (msg : MailMessage) (now : UInt64)
    (hopen : mem.initialized = true) :
    let next := (mem.mailStoreAppend mailbox msg now).2
    next.initialized = true ∧ next.messageCount = min maxMessages (mem.messageCount + 1) ∧
      (next.Unmarked ↔ mem.Unmarked) := by
  intro next
  have hnot : ¬ mem.initialized = false := by simp [hopen]
  obtain hroom | hfull := Nat.lt_or_ge mem.messageCount maxMessages
  · obtain ⟨hinit, hcount, hslots⟩ : next.initialized = true ∧
        next.messageCount = mem.messageCount + 1 ∧ next.slots = mem.slots ++
          [⟨(identify now mem.counter msg).1, .copy 64 mailbox, false⟩] := by
      simp only [next, mailStoreAppend, if_neg hnot, dif_neg (Nat.not_le_of_lt hroom)]
      exact ⟨hopen, trivial, take_set_slots hroom _⟩
    refine ⟨hinit, hcount.trans (Nat.min_eq_right hroom).symm, ?_⟩
    rw [Unmarked, hslots, List.forall_mem_append]
    simp [Unmarked]
  · have hnext : next = mem := by
      simp only [next, mailStoreAppend, if_neg hnot, dif_pos hfull]
    have hcount := mem.counted
    refine ⟨hnext ▸ hopen, ?_, by rw [hnext]⟩
    rw [hnext]
    omega

/-- What a remove does: nothing, or it marks a slot. -/
theorem mailStoreRemove_slots (mailbox msgId : Bytes) (hopen : mem.initialized = true) :
    let next := (mem.mailStoreRemove mailbox msgId).2
    next.initialized = true ∧ next.messageCount = mem.messageCount ∧
      (next.Unmarked ↔ mem.Unmarked ∧ mem.slots.all fun m => ¬ m.isAt mailbox msgId) := by
  intro next
  have hnot : ¬ mem.initialized = false := by simp [hopen]
  cases hfind : mem.slots.findIdx? (·.isAt mailbox msgId) with
  | none =>
    have hnext : next = mem := by simp only [next, mailStoreRemove, if_neg hnot, hfind]
    rw [hnext]
    refine ⟨hopen, rfl, ?_⟩
    simpa using fun _ => List.findIdx?_eq_none_iff.mp hfind
  | some i =>
    obtain ⟨hinit, hcount, hslots⟩ : next.initialized = true ∧
        next.messageCount = mem.messageCount ∧
          next.slots = mem.slots.modify i fun m => { m with deleted := true } := by
      simp only [next, mailStoreRemove, if_neg hnot, hfind]
      exact ⟨hopen, trivial, List.take_modify ..⟩
    obtain ⟨hi, hat, -⟩ := List.findIdx?_eq_some_iff_getElem.mp hfind
    refine ⟨hinit, hcount, iff_of_false ?_ ?_⟩
    · intro h
      rw [Unmarked, hslots] at h
      have hmark := h _ (List.getElem_mem ((List.length_modify ..).symm ▸ hi))
      simp at hmark
    · rintro ⟨-, hnone⟩
      have hnone := List.all_eq_true.mp hnone _ (List.getElem_mem hi)
      simp [hat] at hnone

/-- What an append or a remove does to the counter and to the marks. -/
theorem step_changes (hopen : mem.initialized = true) (hcall : call.changes = true) :
    (mem.step call).2.initialized = true ∧
    (mem.step call).2.messageCount =
      min maxMessages (mem.messageCount + if call.appends then 1 else 0) ∧
    ((mem.step call).2.Unmarked ↔ mem.Unmarked ∧ mem.RemovesNothing call) := by
  cases call with
  | append mailbox msg now =>
    obtain ⟨hinit, hcount, hmarks⟩ := mem.mailStoreAppend_slots mailbox msg now hopen
    refine ⟨hinit, hcount, hmarks.trans (and_iff_left ?_).symm⟩
    intro _ _ h
    cases h
  | remove mailbox msgId =>
    obtain ⟨hinit, hcount, hmarks⟩ := mem.mailStoreRemove_slots mailbox msgId hopen
    refine ⟨hinit, hcount.trans (Nat.min_eq_right mem.counted).symm, hmarks.trans ?_⟩
    refine and_congr_right fun _ => ⟨?_, fun h => h mailbox msgId rfl⟩
    rintro h _ _ ⟨⟩
    exact h
  | init | cleanup | list | fetch => cases hcall

/-- What a run does to them. -/
theorem after_changes (hopen : mem.initialized = true)
    (hcalls : ∀ call ∈ calls, call.changes = true) :
    (after step mem calls).initialized = true ∧
    (after step mem calls).messageCount =
      min maxMessages (mem.messageCount + calls.countP MailCall.appends) ∧
    ((after step mem calls).Unmarked ↔ mem.Unmarked ∧ Along step RemovesNothing mem calls) := by
  induction calls generalizing mem with
  | nil => exact ⟨hopen, (Nat.min_eq_right mem.counted).symm, (and_iff_left trivial).symm⟩
  | cons call calls ih =>
    obtain ⟨hcall, hcalls⟩ := List.forall_mem_cons.mp hcalls
    obtain ⟨hinit, hcount, hmarks⟩ := step_changes hopen hcall
    obtain ⟨hinit', hcount', hmarks'⟩ := ih hinit hcalls
    refine ⟨hinit', ?_, ?_⟩
    · rw [after_cons, hcount', hcount, List.countP_cons]
      omega
    · rw [after_cons, hmarks', hmarks, Along, and_assoc]

/-- The store just after it was opened. -/
theorem mailStoreInit_slots (hclosed : mem.initialized = false) :
    mem.mailStoreInit.2.initialized = true ∧ mem.mailStoreInit.2.messageCount = 0 ∧
      mem.mailStoreInit.2.Unmarked := by
  simp [mailStoreInit, hclosed, Unmarked, slots]

end MailMemory

/-- Behind a run of appends and removes on a store just opened, an append fails only on a store
that is full of live messages if and only if the run did not reach the last slot or no remove
of it named a live message. -/
theorem mailStoreAppend_room_iff {mem : MailMemory} {calls : List MailCall}
    (hclosed : mem.initialized = false) (hcalls : ∀ call ∈ calls, call.changes = true) :
    (after MailMemory.step mem.mailStoreInit.2 calls).FailsOnlyFull ↔
      calls.countP MailCall.appends < maxMessages ∨
        Along MailMemory.step MailMemory.RemovesNothing mem.mailStoreInit.2 calls := by
  obtain ⟨hopen, hzero, hunmarked⟩ := MailMemory.mailStoreInit_slots hclosed
  obtain ⟨hinit, hcount, hmarks⟩ := MailMemory.after_changes hopen hcalls
  have hroom : min maxMessages (calls.countP MailCall.appends) < maxMessages ↔
      calls.countP MailCall.appends < maxMessages := by omega
  rw [MailMemory.failsOnlyFull_iff hinit, hcount, hzero, Nat.zero_add, hroom, hmarks,
    and_iff_right hunmarked]

/-- A message that is appended and removed leaves room as long as the store was not filled. -/
theorem mailStoreAppend_room_two :
    (after MailMemory.step MailMemory.start.mailStoreInit.2
      [.append (ascii "INBOX") { MailMessage.new with id := .fill 64 (ascii "1") } 0,
        .remove (ascii "INBOX") (ascii "1")]).FailsOnlyFull :=
  (mailStoreAppend_room_iff rfl (by simp [MailCall.changes])).mpr (.inl (by decide))

/-- A message is appended and removed, and then `n` others are appended. -/
def refill (n : Nat) : List MailCall :=
  .append (ascii "INBOX") { MailMessage.new with id := .fill 64 (ascii "1") } 0 ::
    .remove (ascii "INBOX") (ascii "1") :: List.replicate n (.append (ascii "INBOX") .new 0)

theorem refill_changes (n : Nat) : ∀ call ∈ refill n, call.changes = true := by
  simp [refill, MailCall.changes]

theorem countP_refill (n : Nat) : (refill n).countP MailCall.appends = n + 1 := by
  rw [refill, List.countP_cons_of_pos rfl, List.countP_cons_of_neg (by decide),
    List.countP_replicate]
  rfl

theorem mailStoreAppend_room_refill : ¬ (after MailMemory.step MailMemory.start.mailStoreInit.2
    (refill 999)).FailsOnlyFull := by
  have hclosed : MailMemory.start.initialized = false := rfl
  obtain ⟨hopen, hzero, -⟩ := MailMemory.mailStoreInit_slots hclosed
  obtain ⟨hinit, hcount, hmarks⟩ := MailMemory.after_changes hopen (refill_changes 999)
  rw [MailMemory.failsOnlyFull_iff hinit, hcount, hmarks, hzero, countP_refill]
  rintro (hroom | ⟨-, -, hremove, -⟩)
  · revert hroom
    decide
  · have hnone := hremove _ _ rfl
    revert hnone
    decide

end Federated.Service
