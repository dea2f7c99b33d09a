import Federated.Service.ImapSelect

/-!
# Literals

The reply to FETCH announces the size of a body and prints the body as text. The number and
the text come from two conversions of one format, and the buffer may end within either. No
length is handed back with the response, so it is read as the C string in the buffer.
-/

namespace Federated.Service

open Library

/-! ## The frame of a literal -/

/-- The announcement of a literal of `n` bytes. -/
def literalHeader (n : Nat) : Bytes :=
  ascii ("* 1 FETCH (BODY[] \x7b" ++ toString n ++ "\x7d\r\n")

/-- What follows a literal: the end of its line, and the completion line. -/
def literalEnd (tag : Bytes) : Bytes := ascii ")\r\n" ++ tag ++ ascii " OK FETCH completed\r\n"

/-- The reply that carries a body as a literal. -/
def literalReply (body tag : Bytes) : Bytes :=
  literalHeader body.length ++ body ++ literalEnd tag

/-- The response carries the body as a literal if that fits `room` bytes with a NUL, else it
announces none. -/
def FramesLiteral (response : Bytes) (room : Nat) (body tag : Bytes) : Prop :=
  if (literalReply body tag).length < room then cstr response = literalReply body tag
  else ∀ n, ¬ literalHeader n <+: cstr response

/-- An announcement is one line. -/
theorem literalHeader_eq (n : Nat) :
    ∃ line, literalHeader n = line ++ [10] ∧ 10 ∉ line ∧ 0 ∉ line := by
  refine ⟨ascii "* 1 FETCH (BODY[] \x7b" ++ ascii (toString n) ++ [125, 13], ?_, ?_, ?_⟩
  · simp only [literalHeader, ascii_append, List.append_assoc]
    rfl
  all_goals
    have hdigit (c : UInt8) (hc : ¬ 48 ≤ c.toNat) : c ∉ ascii (toString n) :=
      fun hmem => hc (digit_of_mem_ascii_toString hmem).1
    rw [List.mem_append, List.mem_append, not_or, not_or]
    exact ⟨⟨by decide, hdigit _ (by decide)⟩, by decide⟩

/-- An announcement that is cut off is none. -/
theorem literalHeader_not_prefix_take {n k : Nat} (h : k < (literalHeader n).length) (m : Nat) :
    ¬ literalHeader m <+: (literalHeader n).take k := by
  intro hfront
  obtain ⟨line, hline, hend, -⟩ := literalHeader_eq n
  obtain ⟨other, hother, -, -⟩ := literalHeader_eq m
  rw [hline, List.length_append, List.length_singleton] at h
  rw [hline, hother, List.take_append_of_le_length (Nat.le_of_lt_succ h)] at hfront
  exact hend (List.mem_of_mem_take (hfront.subset (by simp)))

theorem zero_notMem_literalHeader (n : Nat) : 0 ∉ literalHeader n := by
  obtain ⟨line, hline, -, hzero⟩ := literalHeader_eq n
  simpa [hline] using hzero

theorem zero_notMem_literalEnd {tag : Bytes} (h : 0 ∉ tag) : 0 ∉ literalEnd tag := by
  have hfront : 0 ∉ ascii ")\r\n" := by decide
  have hback : 0 ∉ ascii " OK FETCH completed\r\n" := by decide
  simp [literalEnd, h, hfront, hback]

/-! ## What is printed -/

/-- What a size cast to a precision and a block print. -/
def printed (size : Nat) (block : Bytes) : Bytes :=
  match precisionOf size with
  | some p => (cstr block).take p
  | none => cstr block

theorem formatString_eq {size : Nat} {block text : Bytes}
    (h : formatString (precisionOf size) block = .ok text) : text = printed size block := by
  unfold formatString at h
  unfold printed
  cases hp : precisionOf size <;> simp only [hp] at h <;> split at h <;> grind

/-- A mailbox with messages is listed with the first one in front. -/
theorem listMailbox_of_head? {store : MailStore} {mailbox : Bytes} {msg : MailMessage}
    (hopen : store.initialized = true) (h : (store.live mailbox).head? = some msg) :
    ∃ msgs count, listMailbox store mailbox = (msg :: msgs, count + 1) := by
  obtain ⟨rest, hlive⟩ := List.head?_eq_some_iff.mp h
  simp [listMailbox, mailStoreList, hopen, hlive]

variable {store : MailStore} {session session' : ImapSession} {reply : Reply} {msg : MailMessage}
  {sequence items : String} {tag : Bytes}

/-- The reply to FETCH: the announcement, what is printed of the body, and the completion. -/
theorem format_imapHandleFetch (hopen : store.initialized = true)
    (hmsg : (store.live session.selectedMailbox.str).head? = some msg)
    (hfetch : imapHandleFetch store session sequence items tag = .ok (session', reply)) :
    reply.format =
      literalHeader msg.body.size ++ printed msg.body.size msg.body.data ++ literalEnd tag := by
  obtain ⟨msgs, count, hlist⟩ := listMailbox_of_head? hopen hmsg
  have hstatus : " " ++ Status.ok.text ++ " " ++ "FETCH completed" ++ "\r\n" =
      " OK FETCH completed\r\n" := by decide
  have hnull : msg.body.data = [] → printed msg.body.size msg.body.data = [] := by
    intro hdata
    rw [printed, hdata]
    cases precisionOf msg.body.size <;> simp [cstr]
  unfold imapHandleFetch at hfetch
  rw [hlist] at hfetch
  simp only [List.headD_cons] at hfetch
  by_cases hdata : msg.body.data = []
  · obtain ⟨-, rfl⟩ : session = session' ∧ _ = reply := by
      simpa [hdata, pure, Except.pure] using hfetch
    simp [Reply.format, hstatus, literalHeader, literalEnd, hnull hdata]
  · cases htext : formatString (precisionOf msg.body.size) msg.body.data with
    | error fault => simp [hdata, htext, bind, Except.bind] at hfetch
    | ok text =>
      obtain ⟨-, rfl⟩ : session = session' ∧ _ = reply := by
        simpa [hdata, htext, pure, Except.pure] using hfetch
      simp [Reply.format, hstatus, literalHeader, literalEnd, formatString_eq htext]

/-! ## Which bodies are carried -/

theorem zero_notMem_printed (size : Nat) (block : Bytes) : 0 ∉ printed size block := by
  unfold printed
  split
  · exact fun hmem => zero_notMem_cstr block (List.mem_of_mem_take hmem)
  · exact zero_notMem_cstr block

/-- The text that the reply is formatted to. -/
def printedReply (body rest tag : Bytes) : Bytes :=
  literalHeader body.length ++ printed body.length (body ++ rest) ++ literalEnd tag

section Reply

variable {body rest tag : Bytes}

theorem zero_notMem_printedReply (htag : 0 ∉ tag) : 0 ∉ printedReply body rest tag := by
  simp [printedReply, zero_notMem_literalHeader, zero_notMem_printed, zero_notMem_literalEnd htag]

/-- A body that is text is printed whole if an `int` can count the reply. -/
theorem printedReply_eq (hzero : 0 ∉ body) (hint : (literalReply body tag).length < 2 ^ 31) :
    printedReply body rest tag = literalReply body tag := by
  have hlength : body.length < 2 ^ 31 := by
    simp only [literalReply, List.length_append] at hint
    omega
  have hmod : body.length % 2 ^ 32 = body.length := by omega
  have hprinted : printed body.length (body ++ rest) = body := by
    rw [printed, precisionOf, hmod, if_pos hlength, cstr_append hzero]
    exact List.take_left
  rw [printedReply, hprinted, literalReply]

/-- A text that begins with an announcement announces a body unless it is cut within that. -/
theorem announces_take_iff (n k : Nat) (behind : Bytes) :
    (∀ m, ¬ literalHeader m <+: (literalHeader n ++ behind).take k) ↔
      k < (literalHeader n).length := by
  obtain hcut | hwhole := Nat.lt_or_ge k (literalHeader n).length
  · refine iff_of_true (fun m => ?_) hcut
    rw [List.take_append_of_le_length (Nat.le_of_lt hcut)]
    exact literalHeader_not_prefix_take hcut m
  · refine iff_of_false (fun h => h n ?_) (Nat.not_lt_of_ge hwhole)
    rw [List.take_append, List.take_of_length_le hwhole]
    exact List.prefix_append _ _

theorem length_literalHeader_pos (n : Nat) : 0 < (literalHeader n).length := by
  obtain ⟨line, hline, -⟩ := literalHeader_eq n
  simp [hline]

/-- A block of any size, and the front of an announcement as the C string in it. -/
theorem exists_cstr_take (n : Nat) (block : Bytes) : ∃ block' : Bytes,
    block'.length = block.length ∧ cstr block' = (literalHeader n).take (block.length - 1) := by
  have hzero : 0 ∉ (literalHeader n).take (block.length - 1) := fun hmem =>
    zero_notMem_literalHeader n (List.mem_of_mem_take hmem)
  obtain ⟨nuls, hnuls⟩ : ∃ nuls, ((literalHeader n).take (block.length - 1)).length + nuls =
      block.length := ⟨_, Nat.add_sub_cancel' (by rw [List.length_take]; omega)⟩
  refine ⟨(literalHeader n).take (block.length - 1) ++ List.replicate nuls 0, ?_, ?_⟩
  · rw [List.length_append, List.length_replicate, hnuls]
  · rw [cstr_append hzero]
    cases nuls <;> simp [cstr, List.replicate_succ]

/-- What may be in a block that `text` was formatted into: as much as fits. If that fails, the
text came piece by piece all the same, so the C string in the block begins with as much of the
first piece as fits; nothing else is promised of it. -/
def Leaves (block front text block' : Bytes) : Prop :=
  match snprintf block text with
  | some formatted => block' = formatted
  | none => block'.length = block.length ∧ (cstr block').length ≤ block.length - 1 ∧
      front.take (block.length - 1) <+: cstr block'

/-- What a response frames if an `int` can count the reply. -/
theorem framesLiteral_of_lt (response : Bytes) (htag : 0 ∉ tag)
    (hint : (printedReply body rest tag).length < 2 ^ 31) :
    (∀ response', Leaves response (literalHeader body.length) (printedReply body rest tag)
        response' → FramesLiteral response' response.length body tag) ↔
      if (literalReply body tag).length < response.length then
        0 ∉ body ∧ (literalReply body tag).length < 2 ^ 31
      else response.length ≤ (literalHeader body.length).length := by
  have hzero : 0 ∉ printedReply body rest tag := zero_notMem_printedReply htag
  obtain ⟨block, hblock, hcstr⟩ := snprintf_of_lt response hzero hint
  simp only [Leaves, hblock, forall_eq, FramesLiteral, hcstr]
  split_ifs with hfits
  · constructor
    · refine fun h => ⟨fun hmem => hzero ?_, ?_⟩
      · have hreply : 0 ∈ literalReply body tag := by simp [literalReply, hmem]
        rw [← h] at hreply
        exact List.mem_of_mem_take hreply
      · rw [← h]
        exact (List.length_take_le' _ _).trans_lt hint
    · rintro ⟨htext, hreply⟩
      rw [printedReply_eq htext hreply]
      exact List.take_of_length_le (Nat.le_pred_of_lt hfits)
  · have hpos := length_literalHeader_pos body.length
    rw [printedReply, List.append_assoc, announces_take_iff]
    omega

/-- What a response frames if the formatting fails. -/
theorem framesLiteral_of_le (response : Bytes)
    (hlong : 2 ^ 31 ≤ (printedReply body rest tag).length) :
    (∀ response', Leaves response (literalHeader body.length) (printedReply body rest tag)
        response' → FramesLiteral response' response.length body tag) ↔
      if (literalReply body tag).length < response.length then
        0 ∉ body ∧ (literalReply body tag).length < 2 ^ 31
      else response.length ≤ (literalHeader body.length).length := by
  have hpos := length_literalHeader_pos body.length
  obtain ⟨block, hsize, hblock⟩ := exists_cstr_take body.length response
  have hleaves : block.length = response.length ∧
      (cstr block).length ≤ response.length - 1 ∧
      (literalHeader body.length).take (response.length - 1) <+: cstr block := by
    rw [hblock]
    exact ⟨hsize, List.length_take_le _ _, List.prefix_rfl⟩
  simp only [Leaves, snprintf_of_le response hlong, FramesLiteral]
  split_ifs with hfits
  · -- the announcement alone is not the reply
    refine iff_of_false (fun h => ?_) ?_
    · have hreply := congrArg List.length (h block hleaves)
      have hend : 0 < (literalEnd tag).length := by simp [literalEnd, ascii]
      rw [hblock, literalReply, List.length_append, List.length_append, List.length_take] at hreply
      omega
    · rintro ⟨hzero, hint⟩
      rw [printedReply_eq hzero hint] at hlong
      exact absurd hint (Nat.not_lt_of_ge hlong)
  · constructor
    · intro h
      have hnone := h block hleaves
      rw [hblock, ← List.append_nil (literalHeader body.length), announces_take_iff] at hnone
      omega
    · rintro hcut response' ⟨-, hlength, hfront⟩
      have hshort : response.length - 1 < (literalHeader body.length).length := by omega
      have hcstr : (literalHeader body.length).take (response.length - 1) = cstr response' := by
        refine hfront.eq_of_length_le ?_
        rw [List.length_take]
        omega
      rw [← hcstr, ← List.append_nil (literalHeader body.length), announces_take_iff]
      exact hshort

end Reply

/-- A store with a live message is open. -/
theorem MailMemory.initialized_of_live {calls : List MailCall} {mailbox : Bytes}
    (h : ((after MailMemory.step .start calls).store.live mailbox).head? = some msg) :
    (after MailMemory.step .start calls).store.initialized = true := by
  cases hinit : (after MailMemory.step .start calls).store.initialized with
  | true => rfl
  | false =>
    have hempty := MailMemory.closedEmpty_after calls hinit
    simp [MailMemory.store, MailMemory.slots, hempty, MailStore.live] at h

/-- Whatever the formatting leaves, the response to FETCH carries the body of the first message as
a literal, or announces none if that does not fit, exactly if the body is text and an `int` can
count the reply, or if the buffer ends within the announcement. -/
theorem framesLiteral_iff {calls : List MailCall} {body rest : Bytes} (response : Bytes)
    (hmsg : ((after MailMemory.step .start calls).store.live session.selectedMailbox.str).head? =
      some msg)
    (hbody : msg.body = ⟨body ++ rest, body.length⟩)
    (hfetch : imapHandleFetch (after MailMemory.step .start calls).store session sequence items
      (cstr tag) = .ok (session', reply)) :
    (∀ response', Leaves response (literalHeader body.length) reply.format response' →
        FramesLiteral response' response.length body (cstr tag)) ↔
      if (literalReply body (cstr tag)).length < response.length then
        0 ∉ body ∧ (literalReply body (cstr tag)).length < 2 ^ 31
      else response.length ≤ (literalHeader body.length).length := by
  have hformat : reply.format = printedReply body rest (cstr tag) := by
    rw [format_imapHandleFetch (MailMemory.initialized_of_live hmsg) hmsg hfetch, hbody]
    rfl
  rw [hformat]
  obtain hint | hlong := Nat.lt_or_ge (printedReply body rest (cstr tag)).length (2 ^ 31)
  · exact framesLiteral_of_lt response (zero_notMem_cstr tag) hint
  · exact framesLiteral_of_le response hlong

/-- A message with a body, and what is in memory behind that. -/
def messageOf (body rest : Bytes) : MailMessage :=
  { MailMessage.new with id := .fill 64 (ascii "1"), body := ⟨body ++ rest, body.length⟩ }

/-- The store is opened and the message put into INBOX. -/
def deliver (body rest : Bytes) : List MailCall :=
  [.init, .append (ascii "INBOX") (messageOf body rest) 0]

def inboxSession : ImapSession := ⟨.selected, .empty 64, .fill 64 (ascii "INBOX")⟩

theorem live_deliver (body rest : Bytes) :
    (after MailMemory.step .start (deliver body rest)).store.live inboxSession.selectedMailbox.str =
      [messageOf body rest] :=
  rfl

/-- A short body in a buffer that has room for the reply. -/
theorem framesLiteral_iff_hello : ∃ reply,
    imapHandleFetch (after MailMemory.step .start (deliver (ascii "Hello") [0])).store inboxSession
      "1" "BODY[]" (cstr (ascii "a1")) = .ok (inboxSession, reply) ∧
    ∀ response', Leaves (List.replicate 64 0) (literalHeader 5) reply.format response' →
      FramesLiteral response' 64 (ascii "Hello") (cstr (ascii "a1")) := by
  have hfetch : imapHandleFetch (after MailMemory.step .start (deliver (ascii "Hello") [0])).store
    inboxSession "1" "BODY[]" (cstr (ascii "a1")) = .ok (inboxSession, _) := rfl
  refine ⟨_, hfetch, (framesLiteral_iff (List.replicate 64 0)
    (congrArg List.head? (live_deliver _ _)) rfl hfetch).mpr ?_⟩
  rw [if_pos (by decide)]
  exact ⟨by decide, by decide⟩

/-- Behind a NUL the rest of a body is not printed. -/
theorem not_framesLiteral_nul : ¬ ∀ calls session session' reply msg body rest tag response
    response',
    ((after MailMemory.step .start calls).store.live session.selectedMailbox.str).head? =
      some msg →
    msg.body = ⟨body ++ rest, body.length⟩ →
    imapHandleFetch (after MailMemory.step .start calls).store session "1" "BODY[]" (cstr tag) =
      .ok (session', reply) →
    Leaves response (literalHeader body.length) reply.format response' →
    FramesLiteral response' response.length body (cstr tag) := by
  intro h
  have hfetch : imapHandleFetch (after MailMemory.step .start (deliver [72, 0, 105] [])).store
    inboxSession "1" "BODY[]" (cstr (ascii "a1")) = .ok (inboxSession, _) := rfl
  have hframes := h _ _ _ _ _ [72, 0, 105] [] _ (List.replicate 64 0) _
    (congrArg List.head? (live_deliver _ _)) rfl hfetch rfl
  rw [FramesLiteral, if_pos (by decide)] at hframes
  revert hframes
  decide

end Federated.Service
