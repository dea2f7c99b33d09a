import Federated.Service.ImapAuth

/-!
# The end of a session

In which runs a session that was logged out stays so. LOGIN looks at no state, and LIST
and SELECT rule out the first one only; FETCH is the one command that a logged-out
session refuses.
-/

namespace Federated.Service

/-! ## What a session processes -/

/-- A command that was processed, the session behind it and the reply to it. -/
structure Processed where
  command : ImapCommand
  session : ImapSession
  reply : Reply

def Processed.exchange (p : Processed) : Exchange := ⟨p.command, p.reply⟩

/-- The commands that a session processes one after the other, each with the mail store of
that moment and a response buffer. -/
inductive Processes : ImapSession → List Processed → Prop
  | nil {session : ImapSession} : Processes session []
  | cons {session session' : ImapSession} {store : MailStore} {command : ImapCommand}
      {reply : Reply} {code : ErrorCode} {response : Bytes} {response' : Option Bytes}
      {run : List Processed}
      (hstep : imapServerProcessCommand store session command response =
        .ok (code, session', reply, response'))
      (hrun : Processes session' run) :
      Processes session (⟨command, session', reply⟩ :: run)

/-- The session behind the commands it processed. -/
def lastSession (session : ImapSession) (run : List Processed) : ImapSession :=
  run.foldl (fun _ p => p.session) session

variable {store : MailStore} {session session' : ImapSession} {cmd : ImapCommand} {reply : Reply}
  {code : ErrorCode} {response : Bytes} {response' : Option Bytes} {run : List Processed}

/-- A run of a new session goes on with what its session processes. -/
theorem ImapRun.append {exchanges : List Exchange} (h : ImapRun exchanges session)
    (hrun : Processes session run) :
    ImapRun (exchanges ++ run.map Processed.exchange) (lastSession session run) := by
  induction hrun generalizing exchanges with
  | nil => simpa [lastSession] using h
  | cons hstep hrun ih => simpa [Processed.exchange, lastSession] using ih (h.step hstep)

theorem Processes.snoc (h : Processes session run)
    (hstep : imapServerProcessCommand store (lastSession session run) cmd response =
      .ok (code, session', reply, response')) :
    Processes session (run ++ [⟨cmd, session', reply⟩]) := by
  induction h with
  | nil => exact .cons hstep .nil
  | cons hstep' hrun ih => exact .cons hstep' (ih hstep)

/-- The runs of a new session are what it processes. -/
theorem imapRun_iff {exchanges : List Exchange} :
    ImapRun exchanges session ↔ ∃ run, Processes .new run ∧
      run.map Processed.exchange = exchanges ∧ lastSession .new run = session := by
  constructor
  · intro h
    induction h with
    | start => exact ⟨[], .nil, rfl, rfl⟩
    | @step _ _ session' _ command reply _ _ _ _ hstep ih =>
      obtain ⟨run, hrun, rfl, rfl⟩ := ih
      refine ⟨run ++ [⟨command, session', reply⟩], hrun.snoc hstep, ?_, ?_⟩
      · simp [Processed.exchange]
      · simp [lastSession]
  · rintro ⟨run, hrun, rfl, rfl⟩
    simpa using ImapRun.start.append hrun

/-! ## Commands that lead back -/

/-- The commands that ask for a session in use. -/
def ImapVerb.serves : ImapVerb → Bool
  | .login | .list | .select | .fetch => true
  | .capability | .logout | .unknown => false

/-- The session is logged out, and refused the command if that asked for a session in use. -/
structure Processed.LoggedOut (p : Processed) : Prop where
  state : p.session.state = .logout
  refused : (imapVerb p.command.name.str).serves = true → p.reply.status ≠ .ok

/-- A command that a logged-out session answers OK as if it was not. -/
def ImapCommand.Reopens (c : ImapCommand) : Prop := c.LogsIn ∨ c.Opens

theorem Outcome.state_of_logsOut {after : ImapState} {status : Status}
    (h : Outcome session cmd after status) (hout : cmd.LogsOut) : after = .logout := by
  cases h <;> grind [ImapCommand.LogsOut, ImapCommand.LogsIn, ImapCommand.Opens]

/-- A logged-out session stays so, and refuses the command, unless the command leads back. -/
theorem Outcome.stays_iff {after : ImapState} {status : Status}
    (h : Outcome session cmd after status) (hstate : session.state = .logout) :
    (after = .logout ∧ ((imapVerb cmd.name.str).serves = true → status ≠ .ok)) ↔
      ¬ cmd.Reopens := by
  constructor
  · rintro ⟨-, hrefused⟩ (hlogs | hopens)
    · obtain ⟨hverb, hok⟩ := h.loginOk_iff.mpr hlogs
      exact hrefused (by simp [hverb, ImapVerb.serves]) hok
    · refine hrefused ?_ (h.ok_of_opens hopens (by simp [hstate]))
      rcases hopens with hverb | hverb <;> simp [hverb, ImapVerb.serves]
  · intro hreopens
    cases h <;> grind [ImapCommand.Reopens, ImapCommand.Opens, ImapCommand.LogsOut,
      ImapVerb.serves]

/-- Behind a LOGOUT a session stays logged out, and answers no LOGIN, LIST, SELECT or FETCH with
OK, if and only if no LOGIN that can be scanned, no LIST and no SELECT comes. -/
theorem loggedOut_iff (hout : cmd.LogsOut)
    (hlogout : imapServerProcessCommand store session cmd response =
      .ok (code, session', reply, response'))
    (hrun : Processes session' run) :
    (∀ p ∈ run, p.LoggedOut) ↔ ∀ p ∈ run, ¬ p.command.Reopens := by
  have hstate := (imapServerProcessCommand_outcome hlogout).state_of_logsOut hout
  clear hlogout
  induction hrun with
  | nil => simp
  | cons hstep hrun ih =>
    have hone := (imapServerProcessCommand_outcome hstep).stays_iff hstate
    rw [List.forall_mem_cons, List.forall_mem_cons, ← hone]
    constructor
    · rintro ⟨⟨hnext, hrefused⟩, hrest⟩
      exact ⟨⟨hnext, hrefused⟩, (ih hnext).mp hrest⟩
    · rintro ⟨⟨hnext, hrefused⟩, hrest⟩
      exact ⟨⟨hnext, hrefused⟩, (ih hnext).mpr hrest⟩

def fetchCommand : ImapCommand :=
  ⟨.fill _ (ascii "a3"), .fill _ (ascii "FETCH"), .fill _ (ascii "1 BODY[]")⟩

/-- FETCH and another LOGOUT behind a LOGOUT. -/
theorem loggedOut_iff_fetch : ∃ run, Processes ⟨.logout, .empty 64, .empty 64⟩ run ∧
    run.map Processed.command = [fetchCommand, logoutCommand] ∧ ∀ p ∈ run, p.LoggedOut := by
  let session : ImapSession := ⟨.logout, .empty 64, .empty 64⟩
  have hlogout : imapServerProcessCommand noMail .new logoutCommand [] = .ok (_, session, _, _) :=
    rfl
  have hfetch : imapServerProcessCommand noMail session fetchCommand [] = .ok (_, session, _, _) :=
    rfl
  have hagain : imapServerProcessCommand noMail session logoutCommand [] =
    .ok (_, session, _, _) := rfl
  have hnot : ∀ c ∈ [fetchCommand, logoutCommand], ¬ c.Reopens := by
    have hverbs : ∀ c ∈ [fetchCommand, logoutCommand],
        imapVerb c.name.str ∉ [.login, .list, .select] := by decide
    rintro c hc (⟨hverb, -⟩ | hverb | hverb) <;> exact hverbs c hc (by simp [hverb])
  have hout : logoutCommand.LogsOut := rfl
  have hrun := Processes.cons hfetch (.cons hagain .nil)
  exact ⟨_, hrun, rfl, (loggedOut_iff hout hlogout hrun).mpr (by simpa using hnot)⟩

/-- LOGIN behind a LOGOUT is answered OK, and the session is in use again. -/
theorem not_loggedOut_login : ¬ ∀ store session code session' reply response response' run,
    imapServerProcessCommand store session logoutCommand response =
      .ok (code, session', reply, response') →
    Processes session' run → ∀ p ∈ run, p.LoggedOut := by
  intro h
  have hlogout : imapServerProcessCommand noMail .new logoutCommand [] = .ok (_, _, _, _) := rfl
  have hlogin : imapServerProcessCommand noMail ⟨.logout, .empty 64, .empty 64⟩ loginCommand [] =
    .ok (_, _, _, _) := rfl
  have hstays := h _ _ _ _ _ _ _ _ hlogout (.cons hlogin .nil) _ List.mem_cons_self
  exact absurd hstays.state (by decide)

end Federated.Service
