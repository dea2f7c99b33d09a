import Federated.Library.Readers
import Federated.Service.ImapSelect
import Federated.Service.Smtp

/-!
# The mail system

Any number of sessions of the IMAP and of the SMTP server, clients that hand mail over, and other
users of the store, in any order of their calls. The sessions are readers of the store: what a
session is answered depends on its own commands and on what the store was called for. Behind the
store there is a list of live messages and behind an IMAP session the name of the mailbox it has
selected, and these alone decide every answer.

Whoever hands a message over leaves the buffers of its headers and body as they are, as the store
keeps pointers to them, through which the sessions read later on. The answer to a command is the
response buffer as far as `snprintf` promises it.
-/

namespace Federated.Service

open Library

/-! ## The store and the clients that hand mail over -/

/-- Queue a message for delivery. -/
def smtpClientQueue (msg : MailMessage) (now : UInt64) (mem : MailMemory) :
    ErrorCode × MailMemory :=
  mem.mailStoreAppend (ascii "OUTBOX") msg now

/-- Send a message, which is only queued. The caller may ask to be told whether it was sent. -/
def smtpClientSend (_server : Bytes) (_port : Int) (msg : MailMessage) (sent : Option Bool)
    (now : UInt64) (mem : MailMemory) : ErrorCode × Option Bool × MailMemory :=
  let (code, mem) := smtpClientQueue msg now mem
  (code, sent.map fun _ => false, mem)

/-- A call that concerns the store. -/
inductive PostCall where
  | store (call : MailCall)
  | send (server : Bytes) (port : Int) (msg : MailMessage) (sent : Option Bool) (now : UInt64)
  | queue (msg : MailMessage) (now : UInt64)

/-- What such a call gives back. -/
inductive PostAnswer where
  | store (answer : MailAnswer)
  | sent (code : ErrorCode) (sent : Option Bool)
  | queued (code : ErrorCode)

def MailMemory.post (mem : MailMemory) : PostCall → PostAnswer × MailMemory
  | .store call => (mem.step call).map .store id
  | .send server port msg sent now =>
    let (code, sent, mem) := smtpClientSend server port msg sent now mem
    (.sent code sent, mem)
  | .queue msg now => (smtpClientQueue msg now mem).map .queued id

/-! ## The sessions -/

/-- A command of an IMAP session, with the response buffer handed over. -/
structure ImapCall where
  command : ImapCommand
  response : Bytes

/-- The answer to a command: the code and the response buffer. A formatter that leaves its block
leaves the session as it was. -/
def ImapSession.step (store : MailStore) (session : ImapSession) (call : ImapCall) :
    Except Fault (ErrorCode × Option Bytes) × ImapSession :=
  match imapServerProcessCommand store session call.command call.response with
  | .ok (code, session, _, response) => (.ok (code, response), session)
  | .error fault => (.error fault, session)

/-- The answer to a command: the code and the response buffer. -/
def SmtpSession.answer (session : SmtpSession) (call : SmtpCall) :
    (ErrorCode × Option Bytes) × SmtpSession :=
  let (code, session, _, response) :=
    smtpServerProcessCommand session call.command call.response
  ((code, response), session)

variable {ι κ : Type*}

/-- The commands of the sessions of both servers. -/
abbrev SessionCall : ι ⊕ κ → Type := Sum.elim (fun _ => ImapCall) fun _ => SmtpCall

/-- What is answered to them. -/
abbrev SessionAnswer : ι ⊕ κ → Type :=
  Sum.elim (fun _ => Except Fault (ErrorCode × Option Bytes)) fun _ => ErrorCode × Option Bytes

/-- The sessions of both servers. -/
abbrev Session : ι ⊕ κ → Type := Sum.elim (fun _ => ImapSession) fun _ => SmtpSession

/-- A session processes a command, over the store as it is. -/
def readMail : ∀ i : ι ⊕ κ, MailMemory → Session i → SessionCall i → SessionAnswer i × Session i
  | .inl _, mem, session, call => ImapSession.step mem.store session call
  | .inr _, _, session, call => SmtpSession.answer session call

/-- The store with the sessions of both servers. -/
abbrev MailSystem (ι κ : Type*) := Readers (ι := ι ⊕ κ) MailMemory Session

namespace MailSystem

variable [DecidableEq ι] [DecidableEq κ]

/-- The variables of the store as the program starts, and no session that has done anything. -/
def start : MailSystem ι κ :=
  ⟨.start, fun | .inl _ => ImapSession.new | .inr _ => SmtpSession.new⟩

abbrev Call (ι κ : Type*) := ReaderCall (ι := ι ⊕ κ) PostCall SessionCall

/-- The system makes a call. -/
def step (s : MailSystem ι κ) (call : Call ι κ) :
    ReaderAnswer (ι := ι ⊕ κ) PostAnswer SessionAnswer × MailSystem ι κ :=
  Readers.step MailMemory.post readMail s call

end MailSystem

/-! ## What the clients see of it -/

/-- The call as the store understands it, with as much of the mailbox of a new message as its
array holds. -/
def MailCall.clipped : MailCall → MailCall
  | .append mailbox msg now => .append ((cstr mailbox).take 63) msg now
  | call => call

namespace LiveMail

/-- The live messages after a call. -/
def post (s : LiveMail) : PostCall → PostAnswer × LiveMail
  | .store call => (s.step call.clipped).map .store id
  | .send _ _ msg sent now =>
    let (code, s) := s.append (ascii "OUTBOX") msg now
    (.sent code (sent.map fun _ => false), s)
  | .queue msg now => (s.append (ascii "OUTBOX") msg now).map .queued id

/-- How many messages of a mailbox are counted: a hundred at most, and that many before the store
is opened. -/
def counted (s : LiveMail) (name : Bytes) : Nat :=
  if s.isOpen then min 100 (s.mailbox name).length else 100

/-- The message that is fetched from a mailbox, an empty one before the store is opened. -/
def fetched (s : LiveMail) (name : Bytes) : Option MailMessage :=
  if s.isOpen then (s.mailbox name).head? else some .new

end LiveMail

/-- A body as it is printed. -/
def printBody (body : Buffer) : Except Fault Bytes :=
  if body.data = [] then .ok [] else formatString (precisionOf body.size) body.data

/-- The reply to a SELECT. -/
def selectReply (tag : Bytes) (count : Nat) : Reply :=
  ⟨ascii ("* " ++ toString count ++ " EXISTS\r\n" ++ "* 0 RECENT\r\n" ++
    "* FLAGS (\\Answered \\Flagged \\Deleted \\Seen \\Draft)\r\n"), tag, .ok,
    "[READ-WRITE] SELECT completed"⟩

/-- The reply to a FETCH. -/
def fetchReply (tag : Bytes) : Option MailMessage → Except Fault Reply
  | none => .ok ⟨[], tag, .ok, "FETCH completed"⟩
  | some msg => do
    let text ← printBody msg.body
    return ⟨ascii ("* 1 FETCH (BODY[] \x7b" ++ toString msg.body.size ++ "\x7d\r\n") ++ text ++
      ascii ")\r\n", tag, .ok, "FETCH completed"⟩

/-- How far an IMAP session has got, and what it has selected. -/
inductive Phase where
  | notAuth
  | auth
  | selected (name : Bytes)
  | logout
  deriving DecidableEq, Repr

/-- The phase a session is in. -/
def ImapSession.phase (session : ImapSession) : Phase :=
  match session.state with
  | .notAuth => .notAuth
  | .auth => .auth
  | .selected => .selected session.selectedMailbox.str
  | .logout => .logout

namespace Phase

/-- The phase after a command. -/
def next (phase : Phase) (cmd : ImapCommand) : Phase :=
  match imapVerb cmd.name.str with
  | .login => if (scanLogin cmd.args.str).isSome then .auth else phase
  | .select => if phase = .notAuth then .notAuth else .selected (cmd.args.str.take 63)
  | .logout => .logout
  | _ => phase

/-- The reply to a command, over the live messages. -/
def reply (mail : LiveMail) (phase : Phase) (cmd : ImapCommand) : Except Fault Reply :=
  let done (untagged : Bytes) (text : String) : Reply := ⟨untagged, cmd.tag.str, .ok, text⟩
  let refused (text : String) : Reply := ⟨[], cmd.tag.str, .bad, text⟩
  match imapVerb cmd.name.str with
  | .capability => .ok (done (ascii "* CAPABILITY IMAP4rev1\r\n") "CAPABILITY completed")
  | .login =>
    .ok (if (scanLogin cmd.args.str).isSome then done [] "LOGIN completed"
      else refused "Invalid LOGIN syntax")
  | .list =>
    .ok (if phase = .notAuth then refused "Not authenticated"
      else (imapHandleList .new cmd.tag.str).2)
  | .select =>
    .ok (if phase = .notAuth then refused "Not authenticated"
      else selectReply cmd.tag.str (mail.counted cmd.args.str))
  | .fetch =>
    match phase with
    | .selected name => fetchReply cmd.tag.str (mail.fetched name)
    | _ => .ok (refused "No mailbox selected")
  | .logout =>
    .ok (done (ascii "* BYE IMAP4rev1 Server logging out\r\n") "LOGOUT completed")
  | .unknown => .ok (refused "Command not recognized")

/-- The answer to a command: the code and the response buffer. -/
def step (mail : LiveMail) (phase : Phase) (call : ImapCall) :
    Except Fault (ErrorCode × Option Bytes) × Phase :=
  ((phase.reply mail call.command).map fun reply => (.ok, snprintf call.response reply.format),
    phase.next call.command)

end Phase

/-- What is behind the sessions of both servers. -/
abbrev SessionView : ι ⊕ κ → Type := Sum.elim (fun _ => Phase) fun _ => SmtpSession

/-- A session processes a command, over the live messages. -/
def readLive : ∀ i : ι ⊕ κ, LiveMail → SessionView i → SessionCall i →
    SessionAnswer i × SessionView i
  | .inl _, mail, phase, call => Phase.step mail phase call
  | .inr _, _, session, call => SmtpSession.answer session call

/-- The live messages with what is behind the sessions. -/
abbrev MailView (ι κ : Type*) := Readers (ι := ι ⊕ κ) LiveMail SessionView

namespace MailView

variable [DecidableEq ι] [DecidableEq κ]

/-- No messages, and no session that has done anything. -/
def start : MailView ι κ := ⟨.start, fun | .inl _ => Phase.notAuth | .inr _ => SmtpSession.new⟩

def step (s : MailView ι κ) (call : MailSystem.Call ι κ) :
    ReaderAnswer (ι := ι ⊕ κ) PostAnswer SessionAnswer × MailView ι κ :=
  Readers.step LiveMail.post readLive s call

end MailView

/-! ## The store does what the live messages do -/

namespace MailMemory

/-- The array of a mailbox holds the first 63 characters of its name. -/
theorem mailStoreAppend_take (mem : MailMemory) (mailbox : Bytes) (msg : MailMessage)
    (now : UInt64) :
    mem.mailStoreAppend ((cstr mailbox).take 63) msg now = mem.mailStoreAppend mailbox msg now := by
  have hclean : 0 ∉ (cstr mailbox).take 63 := fun hmem =>
    zero_notMem_cstr mailbox (List.mem_of_mem_take hmem)
  have hcopy : CharArray.copy 64 ((cstr mailbox).take 63) = CharArray.copy 64 mailbox := by
    simp [CharArray.copy, CharArray.fill, cstr_eq_self hclean, List.take_take]
  simp only [mailStoreAppend, hcopy]

/-- A call on the store does to the live messages what the call does as the store understands it. -/
theorem step_clipped (mem : MailMemory) (call : MailCall) :
    LiveMail.step mem.liveMail call.clipped = (mem.step call).map id liveMail := by
  cases call with
  | init => exact mem.mailStoreInit_liveMail
  | cleanup => exact mem.mailStoreCleanup_liveMail
  | append mailbox msg now =>
    have hclipped : ((cstr mailbox).take 63).length ≤ 63 := List.length_take_le _ _
    have hfits : MailCall.Fits (.append ((cstr mailbox).take 63) msg now) := by
      rintro _ ⟨⟩
      exact (List.takeWhile_sublist _).length_le.trans hclipped
    exact (mem.step_liveMail hfits).trans
      (by rw [MailMemory.step, mailStoreAppend_take, MailMemory.step])
  | list mailbox into =>
    simp only [MailCall.clipped, LiveMail.step, mailStoreList_liveMail]
    rfl
  | fetch mailbox msgId msg =>
    simp only [MailCall.clipped, LiveMail.step, mailStoreFetch_liveMail]
    rfl
  | remove mailbox msgId =>
    simp only [MailCall.clipped, LiveMail.step, mailStoreRemove_liveMail]
    rfl

/-- A message that is queued comes behind those of the outbox. -/
theorem smtpClientQueue_liveMail (mem : MailMemory) (msg : MailMessage) (now : UInt64) :
    mem.liveMail.append (ascii "OUTBOX") msg now =
      (smtpClientQueue msg now mem).map id liveMail := by
  have hname : cstr (ascii "OUTBOX") = ascii "OUTBOX" := by decide
  have hfits : (cstr (ascii "OUTBOX")).length ≤ 63 := by decide
  rw [smtpClientQueue, ← mailStoreAppend_liveMail hfits, hname]

theorem post_simulation :
    Simulation MailMemory.post LiveMail.post (fun _ => True) fun mem s => mem.liveMail = s := by
  have hstep (mem : MailMemory) (call : PostCall) :
      mem.liveMail.post call = (mem.post call).map id liveMail := by
    cases call with
    | store call =>
      rw [LiveMail.post, step_clipped]
      rfl
    | send server port msg sent now =>
      rw [LiveMail.post, smtpClientQueue_liveMail]
      rfl
    | queue msg now =>
      rw [LiveMail.post, smtpClientQueue_liveMail]
      rfl
  refine ⟨fun {mem s call} h _ => ?_, fun {mem s call} h _ => ?_⟩
  · rw [← h, hstep]
    rfl
  · rw [← h, hstep]
    rfl

/-! ## What a session finds in the store -/

variable {mem : MailMemory} {name : Bytes}

/-- The list that a session asks for. -/
theorem listMailbox_liveMail (hname : 0 ∉ name) : listMailbox mem.store name =
    (mem.liveMail.list name ⟨List.replicate 100 .new, 100, by simp⟩).2 := by
  have hlist := mem.listMailbox_store name
  rwa [← mailStoreList_liveMail, cstr_eq_self hname] at hlist

theorem counted_liveMail (hname : 0 ∉ name) :
    (listMailbox mem.store name).2 = mem.liveMail.counted name := by
  rw [listMailbox_liveMail hname, LiveMail.list, LiveMail.counted]
  split <;> simp

end MailMemory

/-! ## A session does what its phase says -/

variable {mem : MailMemory} {session : ImapSession} {tag : Bytes}

theorem imapHandleSelect_live {name : Bytes} (hname : 0 ∉ name) :
    (imapHandleSelect mem.store session name tag).2 =
        selectReply tag (mem.liveMail.counted name) ∧
      (imapHandleSelect mem.store session name tag).1.phase = .selected (name.take 63) := by
  constructor
  · rw [← MailMemory.counted_liveMail hname]
    rfl
  · have hstr : (CharArray.copy 64 name).str = name.take 63 := CharArray.str_copy 64 hname
    simp only [imapHandleSelect, ImapSession.phase, hstr]

/-- A fetch finds the first of the live messages. -/
theorem imapHandleFetch_live {sequence items : String} :
    imapHandleFetch mem.store session sequence items tag =
      (fetchReply tag (mem.liveMail.fetched session.selectedMailbox.str)).map (session, ·) := by
  have hprint (msg : MailMessage) : fetchReply tag (some msg) = (printBody msg.body).map fun text =>
      ⟨ascii ("* 1 FETCH (BODY[] \x7b" ++ toString msg.body.size ++ "\x7d\r\n") ++ text ++
        ascii ")\r\n", tag, .ok, "FETCH completed"⟩ := by
    rw [fetchReply]
    cases printBody msg.body <;> rfl
  rw [imapHandleFetch, MailMemory.listMailbox_liveMail session.selectedMailbox.zero_notMem_str,
    LiveMail.list, LiveMail.fetched]
  cases mem.liveMail.isOpen with
  | false => rfl
  | true =>
    cases mem.liveMail.mailbox session.selectedMailbox.str with
    | nil => rfl
    | cons msg msgs =>
      simp only [if_true, List.head?_cons, hprint, printBody, List.take_succ_cons,
        List.length_cons, List.cons_append, List.headD_cons]
      by_cases hdata : msg.body.data = []
      · simp only [hdata, if_true]
        rfl
      · simp only [hdata, if_false]
        cases formatString (precisionOf msg.body.size) msg.body.data <;> rfl

namespace ImapSession

variable {store : MailStore} {call : ImapCall}

theorem step_of_ok {next : ImapSession × Reply}
    (h : imapReply store session call.command = .ok next) :
    session.step store call = (.ok (.ok, snprintf call.response next.2.format), next.1) := by
  rw [step, imapServerProcessCommand, h]
  rfl

theorem step_of_map {reply : Except Fault Reply}
    (h : imapReply store session call.command = reply.map (session, ·)) :
    session.step store call =
      (reply.map fun reply => (.ok, snprintf call.response reply.format), session) := by
  rw [step, imapServerProcessCommand, h]
  cases reply <;> rfl

theorem phase_eq_notAuth : session.phase = .notAuth ↔ session.state = .notAuth := by
  cases h : session.state <;> simp [phase, h]

theorem phase_of_selected (h : session.state = .selected) :
    session.phase = .selected session.selectedMailbox.str := by
  rw [phase, h]

/-- A command of the server does what it does over the live messages. -/
theorem step_phase (mem : MailMemory) (session : ImapSession) (call : ImapCall) :
    (session.step mem.store call).1 = (session.phase.step mem.liveMail call).1 ∧
      (session.step mem.store call).2.phase = (session.phase.step mem.liveMail call).2 := by
  simp only [Phase.step, Phase.reply, Phase.next]
  cases hverb : imapVerb call.command.name.str with
  | capability =>
    rw [step_of_ok (by rw [imapReply, hverb])]
    exact ⟨rfl, rfl⟩
  | login =>
    cases hscan : scanLogin call.command.args.str with
    | none =>
      rw [step_of_ok (by rw [imapReply, hverb]; dsimp only; rw [hscan])]
      exact ⟨rfl, rfl⟩
    | some words =>
      rw [step_of_ok (by rw [imapReply, hverb]; dsimp only; rw [hscan])]
      exact ⟨rfl, rfl⟩
  | list =>
    by_cases hstate : session.state = .notAuth
    · rw [step_of_ok (by rw [imapReply, hverb]; exact if_pos hstate),
        if_pos (phase_eq_notAuth.mpr hstate)]
      exact ⟨rfl, rfl⟩
    · rw [step_of_ok (by rw [imapReply, hverb]; exact if_neg hstate),
        if_neg (mt phase_eq_notAuth.mp hstate)]
      exact ⟨rfl, rfl⟩
  | select =>
    by_cases hstate : session.state = .notAuth
    · have hphase := phase_eq_notAuth.mpr hstate
      rw [step_of_ok (by rw [imapReply, hverb]; exact if_pos hstate)]
      simp only [hphase, if_true]
      exact ⟨rfl, trivial⟩
    · have hphase := mt phase_eq_notAuth.mp hstate
      obtain ⟨hreply, hnext⟩ := @imapHandleSelect_live mem session call.command.tag.str _
        call.command.args.zero_notMem_str
      rw [step_of_ok (by rw [imapReply, hverb]; exact if_neg hstate)]
      simp only [hphase, if_false, hreply, hnext]
      exact ⟨rfl, trivial⟩
  | fetch =>
    by_cases hstate : session.state = .selected
    · have hfetch : imapReply mem.store session call.command =
          (fetchReply call.command.tag.str (mem.liveMail.fetched session.selectedMailbox.str)).map
            (session, ·) := by
        rw [imapReply, hverb]
        exact (if_neg (not_not.mpr hstate)).trans imapHandleFetch_live
      rw [step_of_map hfetch]
      simp only [phase_of_selected hstate]
      trivial
    · rw [step_of_ok (by rw [imapReply, hverb]; exact if_pos hstate)]
      cases h : session.state <;> simp_all [phase, Except.map]
  | logout =>
    rw [step_of_ok (by rw [imapReply, hverb])]
    exact ⟨rfl, rfl⟩
  | unknown =>
    rw [step_of_ok (by rw [imapReply, hverb])]
    exact ⟨rfl, rfl⟩

end ImapSession

/-! ## Runs -/

/-- What a session stands for. -/
def StandsFor : ∀ i : ι ⊕ κ, Session i → SessionView i → Prop
  | .inl _, session, phase => ImapSession.phase session = phase
  | .inr _, session, view => session = view

theorem readMail_live (i : ι ⊕ κ) {mail : LiveMail} {session : Session i} {view : SessionView i}
    (hmail : mem.liveMail = mail) (hview : StandsFor i session view) (call : SessionCall i) :
    (readMail i mem session call).1 = (readLive i mail view call).1 ∧
      StandsFor i (readMail i mem session call).2 (readLive i mail view call).2 := by
  subst hmail
  cases i with
  | inl i =>
    obtain rfl : ImapSession.phase session = view := hview
    exact ImapSession.step_phase mem session call
  | inr i =>
    obtain rfl : session = view := hview
    exact ⟨rfl, rfl⟩

namespace MailSystem

variable [DecidableEq ι] [DecidableEq κ]

theorem simulation : Simulation (step (ι := ι) (κ := κ)) MailView.step
    (ReaderCall.Fits (fun _ => True) fun _ _ => True)
    fun s t => s.shared.liveMail = t.shared ∧ ∀ i, StandsFor i (s.reader i) (t.reader i) :=
  Readers.simulation MailMemory.post_simulation fun i {_ _ _ _ call} hmail hview _ =>
    readMail_live i hmail hview call

/-- Whatever is called in whatever order, as long as the buffers of messages that were handed over
stay as they are: what some of the sessions are answered, and what the users of the store and the
clients are, is what the list of live messages and the phases of these sessions answer to the calls
that are left without the commands of the other sessions. A mailbox is counted up to a hundred, and
as a hundred before the store is initialised. -/
theorem filter_transcript (calls : List (Call ι κ)) (p : ι ⊕ κ → Bool) :
    (transcript step start calls).filter (·.1.isSeenBy p) =
      transcript MailView.step .start (calls.filter (·.isSeenBy p)) := by
  have hseen : (transcript step start calls).filter (·.1.isSeenBy p) =
      transcript step start (calls.filter (·.isSeenBy p)) :=
    Readers.Agree.transcript_seen ⟨rfl, fun _ _ => rfl⟩ calls
  refine hseen.trans (simulation.transcript_eq ⟨rfl, ?_⟩ fun call _ => ?_)
  · rintro (i | i) <;> rfl
  · cases call <;> trivial

end MailSystem

end Federated.Service
