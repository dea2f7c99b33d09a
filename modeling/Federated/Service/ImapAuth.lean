import Federated.Service.Imap

/-!
# Mailbox data only after a login

In which runs of a session the commands on mailboxes are answered only behind a
LOGIN that was answered OK. LOGOUT leads out of the unauthenticated state as well,
and LIST and SELECT ask for no more than that.
-/

namespace Federated.Service

/-! ## What one command does -/

/-- A command that LOGIN accepts. -/
def ImapCommand.LogsIn (c : ImapCommand) : Prop :=
  imapVerb c.name.str = .login ∧ (scanLogin c.args.str).isSome

/-- A command on mailboxes that is open to every state but the first. -/
def ImapCommand.Opens (c : ImapCommand) : Prop :=
  imapVerb c.name.str = .list ∨ imapVerb c.name.str = .select

def ImapCommand.LogsOut (c : ImapCommand) : Prop := imapVerb c.name.str = .logout

variable {store : MailStore} {session session' : ImapSession} {cmd : ImapCommand} {reply : Reply}

/-- The session got past its first state and is not logged out. -/
def ImapState.LoggedIn (s : ImapState) : Prop := s = .auth ∨ s = .selected

/-- The ways a command can go, by the state it leaves and the status of the reply. -/
inductive Outcome (session : ImapSession) (cmd : ImapCommand) : ImapState → Status → Prop
  | login (h : cmd.LogsIn) : Outcome session cmd .auth .ok
  | loginSyntax (hverb : imapVerb cmd.name.str = .login) (h : ¬ cmd.LogsIn) :
      Outcome session cmd session.state .bad
  | list (hverb : imapVerb cmd.name.str = .list) (h : session.state ≠ .notAuth) :
      Outcome session cmd session.state .ok
  | select (hverb : imapVerb cmd.name.str = .select) (h : session.state ≠ .notAuth) :
      Outcome session cmd .selected .ok
  | notAuthenticated (hverb : cmd.Opens) (h : session.state = .notAuth) :
      Outcome session cmd session.state .bad
  | fetch (hverb : imapVerb cmd.name.str = .fetch) (h : session.state = .selected) :
      Outcome session cmd session.state .ok
  | notSelected (hverb : imapVerb cmd.name.str = .fetch) (h : session.state ≠ .selected) :
      Outcome session cmd session.state .bad
  | logout (h : cmd.LogsOut) : Outcome session cmd .logout .ok
  | capability (hverb : imapVerb cmd.name.str = .capability) :
      Outcome session cmd session.state .ok
  | unknown (hverb : imapVerb cmd.name.str = .unknown) : Outcome session cmd session.state .bad

theorem imapHandleFetch_outcome {items sequence : String} {tag : Bytes}
    (h : imapHandleFetch store session sequence items tag = .ok (session', reply)) :
    session' = session ∧ reply.status = .ok := by
  unfold imapHandleFetch at h
  split at h
  · grind
  · simp only [bind, Except.bind, pure, Except.pure] at h
    grind

theorem imapReply_outcome (h : imapReply store session cmd = .ok (session', reply)) :
    Outcome session cmd session'.state reply.status := by
  unfold imapReply at h
  cases hverb : imapVerb cmd.name.str with
  | capability =>
    obtain ⟨rfl, rfl⟩ : session = session' ∧ _ = reply := by simpa [hverb] using h
    exact .capability hverb
  | login =>
    rw [hverb] at h
    cases hscan : scanLogin cmd.args.str with
    | none =>
      obtain ⟨rfl, rfl⟩ : session = session' ∧ _ = reply := by simpa [hscan] using h
      exact .loginSyntax hverb (by simp [ImapCommand.LogsIn, hscan])
    | some names =>
      obtain ⟨rfl, rfl⟩ : _ = session' ∧ _ = reply := by
        simpa [hscan, imapHandleLogin] using h
      exact .login ⟨hverb, by simp [hscan]⟩
  | list =>
    by_cases hstate : session.state = .notAuth
    · obtain ⟨rfl, rfl⟩ : session = session' ∧ _ = reply := by simpa [hverb, hstate] using h
      exact .notAuthenticated (.inl hverb) hstate
    · obtain ⟨rfl, rfl⟩ : session = session' ∧ _ = reply := by
        simpa [hverb, hstate, imapHandleList] using h
      exact .list hverb hstate
  | select =>
    by_cases hstate : session.state = .notAuth
    · obtain ⟨rfl, rfl⟩ : session = session' ∧ _ = reply := by simpa [hverb, hstate] using h
      exact .notAuthenticated (.inr hverb) hstate
    · obtain ⟨rfl, rfl⟩ : _ = session' ∧ _ = reply := by
        simpa [hverb, hstate, imapHandleSelect] using h
      exact .select hverb hstate
  | fetch =>
    by_cases hstate : session.state = .selected
    · obtain ⟨rfl, hok⟩ := imapHandleFetch_outcome (by simpa [hverb, hstate] using h)
      rw [hok]
      exact .fetch hverb hstate
    · obtain ⟨rfl, rfl⟩ : session = session' ∧ _ = reply := by simpa [hverb, hstate] using h
      exact .notSelected hverb hstate
  | logout =>
    obtain ⟨rfl, rfl⟩ : _ = session' ∧ _ = reply := by simpa [hverb] using h
    exact .logout hverb
  | unknown =>
    obtain ⟨rfl, rfl⟩ : session = session' ∧ _ = reply := by simpa [hverb] using h
    exact .unknown hverb

/-! ## Runs of a session -/

/-- A command that was processed, and the reply to it. -/
structure Exchange where
  command : ImapCommand
  reply : Reply

/-- A new session and the commands it has processed, each with the mail store of that
moment and a response buffer. -/
inductive ImapRun : List Exchange → ImapSession → Prop
  | start : ImapRun [] .new
  | step {exchanges : List Exchange} {session session' : ImapSession} {store : MailStore}
      {command : ImapCommand} {reply : Reply} {code : ErrorCode} {response : Bytes}
      {response' : Option Bytes}
      (hrun : ImapRun exchanges session)
      (hstep : imapServerProcessCommand store session command response =
        .ok (code, session', reply, response')) :
      ImapRun (exchanges ++ [⟨command, reply⟩]) session'

/-- A LOGIN that was answered OK. -/
def Exchange.LoginOk (e : Exchange) : Prop :=
  imapVerb e.command.name.str = .login ∧ e.reply.status = .ok

/-- A LIST, SELECT or FETCH that was answered OK. -/
def Exchange.MailboxOk (e : Exchange) : Prop :=
  (e.command.Opens ∨ imapVerb e.command.name.str = .fetch) ∧ e.reply.status = .ok

/-- The session is authenticated, and mailbox commands are answered OK, only behind a LOGIN
that was answered OK. -/
structure OnlyAfterLogin (exchanges : List Exchange) (session : ImapSession) : Prop where
  state : session.state.LoggedIn → ∃ e ∈ exchanges, e.LoginOk
  mailbox : ∀ pre e post, exchanges = pre ++ e :: post → e.MailboxOk → ∃ e' ∈ pre, e'.LoginOk

/-- No LIST or SELECT comes behind a LOGOUT without an accepted LOGIN before it. -/
def NoReturn (commands : List ImapCommand) : Prop :=
  ∀ pre c post, commands = pre ++ c :: post → c.Opens → (∃ l ∈ pre, l.LogsOut) →
    ∃ l ∈ pre, l.LogsIn

theorem NoReturn.of_append {pre post : List ImapCommand} (h : NoReturn (pre ++ post)) :
    NoReturn pre := by
  intro pre' c post' hsplit
  exact h pre' c (post' ++ post) (by simp [hsplit])

theorem imapServerProcessCommand_outcome {code : ErrorCode} {response : Bytes}
    {response' : Option Bytes}
    (h : imapServerProcessCommand store session cmd response =
      .ok (code, session', reply, response')) :
    Outcome session cmd session'.state reply.status := by
  unfold imapServerProcessCommand at h
  cases hreply : imapReply store session cmd with
  | error fault => simp [hreply, bind, Except.bind] at h
  | ok r =>
    obtain ⟨-, rfl, rfl, -⟩ : _ = code ∧ r.1 = session' ∧ r.2 = reply ∧ _ = response' := by
      simpa [hreply, pure, Except.pure] using h
    exact imapReply_outcome hreply

variable {exchanges : List Exchange}

/-- Every exchange of a run is the outcome of a command after the exchanges before it. -/
theorem ImapRun.outcome (h : ImapRun exchanges session) {pre post : List Exchange} {e : Exchange}
    (hsplit : exchanges = pre ++ e :: post) :
    ∃ before after, ImapRun pre before ∧ Outcome before e.command after e.reply.status := by
  induction h generalizing post with
  | start => simp at hsplit
  | step hrun hstep ih =>
    rcases List.eq_nil_or_concat' post with rfl | ⟨post, last, rfl⟩
    · obtain ⟨rfl, hlast⟩ := List.append_inj' hsplit rfl
      obtain rfl := List.singleton_inj.mp hlast
      exact ⟨_, _, hrun, imapServerProcessCommand_outcome hstep⟩
    · rw [← List.cons_append, ← List.append_assoc] at hsplit
      exact ih (List.append_inj' hsplit rfl).1

theorem Outcome.loginOk_iff {after : ImapState} {status : Status}
    (h : Outcome session cmd after status) :
    imapVerb cmd.name.str = .login ∧ status = .ok ↔ cmd.LogsIn := by
  constructor
  · rintro ⟨hlogin, rfl⟩
    cases h <;> simp_all [ImapCommand.LogsOut]
  · intro hlogs
    cases h <;> simp_all [ImapCommand.LogsIn, ImapCommand.Opens, ImapCommand.LogsOut]

/-- LIST and SELECT ask for no more than a state other than the first. -/
theorem Outcome.ok_of_opens {after : ImapState} {status : Status}
    (h : Outcome session cmd after status) (hopens : cmd.Opens)
    (hstate : session.state ≠ .notAuth) : status = .ok := by
  cases h <;> grind [ImapCommand.Opens]

/-- A LOGIN is answered OK exactly when its arguments can be scanned. -/
theorem ImapRun.loginOk_iff (h : ImapRun exchanges session) {e : Exchange} (he : e ∈ exchanges) :
    e.LoginOk ↔ e.command.LogsIn := by
  obtain ⟨pre, post, hsplit⟩ := List.append_of_mem he
  obtain ⟨before, after, -, houtcome⟩ := h.outcome hsplit
  exact houtcome.loginOk_iff

/-- Only LOGOUT leads to the logout state. -/
theorem ImapRun.logsOut_of_state (h : ImapRun exchanges session)
    (hstate : session.state = .logout) :
    ∃ e ∈ exchanges, e.command.LogsOut := by
  induction h with
  | start => cases hstate
  | @step exchanges before after _ command reply _ _ _ hrun hstep ih =>
    by_cases hlogout : command.LogsOut
    · exact ⟨⟨command, reply⟩, by simp, hlogout⟩
    · have hbefore : before.state = .logout := by
        have houtcome := imapServerProcessCommand_outcome hstep
        rw [hstate] at houtcome
        grind [Outcome]
      obtain ⟨e, he, hlogs⟩ := ih hbefore
      exact ⟨e, by simp [he], hlogs⟩

/-- No command leads back to the first state. -/
theorem ImapRun.state_of_logsOut (h : ImapRun exchanges session)
    (hlogs : ∃ e ∈ exchanges, e.command.LogsOut) : session.state ≠ .notAuth := by
  induction h with
  | start => simp at hlogs
  | @step exchanges before after _ command reply _ _ _ hrun hstep ih =>
    have houtcome := imapServerProcessCommand_outcome hstep
    intro hstate
    rw [hstate] at houtcome
    obtain ⟨e, he, hlogout⟩ := hlogs
    rcases List.mem_append.mp he with he | he
    · have hbefore := ih ⟨e, he, hlogout⟩
      grind [Outcome]
    · obtain rfl : e = ⟨command, reply⟩ := by simpa using he
      grind [Outcome, ImapCommand.LogsOut, ImapCommand.Opens]

/-! ## Which runs keep the rule -/

/-- Out of a logged-out session a command other than LOGIN leads on only by LIST or SELECT. -/
theorem Outcome.opens {after : ImapState} {status : Status} (h : Outcome session cmd after status)
    (hlogin : ¬ cmd.LogsIn) (hbefore : ¬ session.state.LoggedIn)
    (hgets : after.LoggedIn ∨
      (cmd.Opens ∨ imapVerb cmd.name.str = .fetch) ∧ status = .ok) :
    cmd.Opens ∧ session.state = .logout := by
  have hstate : session.state = .notAuth ∨ session.state = .logout := by
    cases hs : session.state <;> simp_all [ImapState.LoggedIn]
  cases h <;> grind [ImapState.LoggedIn, ImapCommand.Opens, ImapCommand.LogsOut]

/-- A LIST or SELECT in the logout state has a LOGIN before it. -/
theorem ImapRun.loginOk_of_return (h : ImapRun exchanges session) {post : List ImapCommand}
    (hno : NoReturn (exchanges.map Exchange.command ++ cmd :: post)) (hopens : cmd.Opens)
    (hstate : session.state = .logout) : ∃ e ∈ exchanges, e.LoginOk := by
  obtain ⟨out, hout, hlogs⟩ := h.logsOut_of_state hstate
  obtain ⟨c, hc, hlogs⟩ := hno (exchanges.map Exchange.command) cmd post rfl hopens
    ⟨out.command, List.mem_map_of_mem hout, hlogs⟩
  obtain ⟨e, he, rfl⟩ := List.mem_map.mp hc
  exact ⟨e, he, (h.loginOk_iff he).mpr hlogs⟩

theorem ImapRun.loginOk_of_loggedIn (h : ImapRun exchanges session)
    (hno : NoReturn (exchanges.map Exchange.command)) (hstate : session.state.LoggedIn) :
    ∃ e ∈ exchanges, e.LoginOk := by
  induction h with
  | start => simp [ImapSession.new, ImapState.LoggedIn] at hstate
  | @step exchanges before after _ command reply _ _ _ hrun hstep ih =>
    rw [List.map_append] at hno
    have houtcome := imapServerProcessCommand_outcome hstep
    by_cases hlogin : command.LogsIn
    · exact ⟨⟨command, reply⟩, by simp, houtcome.loginOk_iff.mpr hlogin⟩
    · suffices ∃ e ∈ exchanges, e.LoginOk by
        obtain ⟨e, he, hok⟩ := this
        exact ⟨e, by simp [he], hok⟩
      by_cases hbefore : before.state.LoggedIn
      · exact ih hno.of_append hbefore
      · obtain ⟨hopens, hout⟩ := houtcome.opens hlogin hbefore (.inl hstate)
        exact hrun.loginOk_of_return hno hopens hout

/-- A session hands out mailbox data only after a LOGIN answered OK exactly if no LIST or
SELECT follows a LOGOUT that no LOGIN came before. -/
theorem onlyAfterLogin_iff (h : ImapRun exchanges session) :
    OnlyAfterLogin exchanges session ↔ NoReturn (exchanges.map Exchange.command) := by
  constructor
  · intro honly pre c post hsplit hopens hout
    obtain ⟨pre', rest, rfl, rfl, hrest⟩ := List.map_eq_append_iff.mp hsplit
    obtain ⟨e, post', rfl, rfl, rfl⟩ := List.map_eq_cons_iff.mp hrest
    obtain ⟨before, after, hrun, houtcome⟩ := h.outcome rfl
    obtain ⟨l, hl, hlogs⟩ := hout
    obtain ⟨out, hmem, rfl⟩ := List.mem_map.mp hl
    have hstate := hrun.state_of_logsOut ⟨out, hmem, hlogs⟩
    have hok := houtcome.ok_of_opens hopens hstate
    obtain ⟨e', he', hlogin⟩ := honly.mailbox pre' e post' rfl ⟨.inl hopens, hok⟩
    exact ⟨e'.command, List.mem_map_of_mem he', (hrun.loginOk_iff he').mp hlogin⟩
  · intro hno
    refine ⟨h.loginOk_of_loggedIn hno, ?_⟩
    rintro pre e post rfl ⟨hmailbox, hok⟩
    obtain ⟨before, after, hrun, houtcome⟩ := h.outcome rfl
    rw [List.map_append, List.map_cons] at hno
    by_cases hbefore : before.state.LoggedIn
    · exact hrun.loginOk_of_loggedIn hno.of_append hbefore
    · have hlogin : ¬ e.command.LogsIn := by
        intro hlogs
        grind [ImapCommand.LogsIn, ImapCommand.Opens]
      obtain ⟨hopens, hout⟩ := houtcome.opens hlogin hbefore (.inr ⟨hmailbox, hok⟩)
      exact hrun.loginOk_of_return hno hopens hout

/-! ## A session that logs in, and one that logs out first -/

def loginCommand : ImapCommand :=
  ⟨.fill _ (ascii "a1"), .fill _ (ascii "LOGIN"), .fill _ (ascii "user secret")⟩

def logoutCommand : ImapCommand :=
  ⟨.fill _ (ascii "a1"), .fill _ (ascii "LOGOUT"), .empty 512⟩

def listCommand : ImapCommand :=
  ⟨.fill _ (ascii "a2"), .fill _ (ascii "LIST"), .empty 512⟩

def noMail : MailStore := ⟨true, [], by decide⟩

theorem onlyAfterLogin_iff_loginList : ∃ exchanges session,
    exchanges.map Exchange.command = [loginCommand, listCommand] ∧
      OnlyAfterLogin exchanges session := by
  have hlogin : imapServerProcessCommand noMail .new loginCommand [] = .ok (_, _, _, _) := rfl
  have hlist : imapServerProcessCommand noMail ⟨.auth, .copy 64 (ascii "user"), .empty 64⟩
    listCommand [] = .ok (_, _, _, _) := rfl
  have hno : NoReturn [loginCommand, listCommand] := by
    intro pre c post hsplit _ hout
    obtain ⟨l, hl, hlogs⟩ := hout
    have hmem : l ∈ [loginCommand, listCommand] := hsplit ▸ List.mem_append_left _ hl
    have hnone : ∀ l ∈ [loginCommand, listCommand], imapVerb l.name.str ≠ .logout := by decide
    exact absurd hlogs (hnone l hmem)
  exact ⟨_, _, rfl, (onlyAfterLogin_iff (.step (.step .start hlogin) hlist)).mpr hno⟩

/-- LOGOUT and LIST without any LOGIN: the mailboxes are listed. -/
theorem not_onlyAfterLogin_logoutList :
    ¬ ∀ exchanges session, ImapRun exchanges session → OnlyAfterLogin exchanges session := by
  intro h
  have hlogout : imapServerProcessCommand noMail .new logoutCommand [] = .ok (_, _, _, _) := rfl
  have hlist : imapServerProcessCommand noMail ⟨.logout, .empty 64, .empty 64⟩ listCommand [] =
    .ok (_, _, _, _) := rfl
  obtain ⟨-, hmailbox⟩ := h _ _ (.step (.step .start hlogout) hlist)
  obtain ⟨e, he, hlogin, -⟩ := hmailbox [_] _ [] rfl ⟨.inl (.inl (by decide)), rfl⟩
  obtain rfl := List.mem_singleton.mp he
  exact absurd hlogin (by decide)

end Federated.Service
