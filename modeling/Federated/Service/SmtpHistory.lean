import Federated.Service.SmtpGreeting

/-!
# What a session knows of its history

The commands that a session accepted determine what it does with DATA, and the addresses it
has by then: the sender of the last MAIL, and the last recipient named behind it.
-/

namespace Federated.Service

open Library

/-! ## The history of a session -/

/-- The reply of a command that is refused. -/
def SmtpReply.Refuses (r : SmtpReply) : Prop := r.code = 500 ∨ r.code = 503

/-- The reply of a command that is accepted: 2xx or 354. -/
def SmtpReply.Accepts (r : SmtpReply) : Prop := (200 ≤ r.code ∧ r.code < 300) ∨ r.code = 354

instance : DecidablePred SmtpReply.Accepts := fun _ => inferInstanceAs (Decidable (_ ∨ _))

/-- A command goes into the history if it is accepted. -/
def recordAccepted (history : List SmtpCall) (session : SmtpSession) (call : SmtpCall) :
    List SmtpCall :=
  if (session.step call).1.Accepts then history ++ [call] else history

/-- The commands of a run that were accepted, in their order. -/
def accepted (calls : List SmtpCall) : List SmtpCall :=
  record SmtpSession.step recordAccepted [] .new calls

/-- A history ends with a MAIL and the RCPTs behind it. -/
def EndsWith (history : List SmtpCall) (mail : SmtpCall) (rcpts : List SmtpCall) : Prop :=
  mail :: rcpts <:+ history ∧ mail.verb = .mail ∧ ∀ rcpt ∈ rcpts, rcpt.verb = .rcpt

/-- The address of a command, as the session keeps it. -/
def SmtpCall.kept (c : SmtpCall) : CharArray 256 := extractEmail c.command.arg.str 256

/-! ## One command -/

variable {session : SmtpSession} {call mail last : SmtpCall} {history rcpts : List SmtpCall}

/-- A command is accepted where the automaton goes on, and refused elsewhere. -/
theorem SmtpSession.accepts_step (session : SmtpSession) (call : SmtpCall) :
    ((session.step call).1.Accepts ↔ call.verb.next session.state ≠ none) ∧
    ((session.step call).1.Refuses ↔ call.verb.next session.state = none) := by
  simp only [SmtpSession.step, smtpServerProcessCommand, smtpReply, SmtpCall.verb]
  cases hverb : call.command.verb <;> cases hstate : session.state <;>
    simp [SmtpVerb.next, SmtpReply.Accepts, SmtpReply.Refuses, badSequence]

/-- MAIL starts a transaction from its sender. -/
theorem SmtpSession.step_mail (hverb : call.verb = .mail)
    (hnext : call.verb.next session.state ≠ none) :
    (session.step call).2 = { session with mailFrom := call.kept, state := .mail } := by
  have hcmd : call.command.verb = .mail := hverb
  simp only [SmtpSession.step, smtpServerProcessCommand, smtpReply, hcmd]
  cases hstate : session.state <;> simp_all [SmtpVerb.next, SmtpCall.kept]

/-- RCPT names the recipient. -/
theorem SmtpSession.step_rcpt (hverb : call.verb = .rcpt)
    (hnext : call.verb.next session.state ≠ none) :
    (session.step call).2 = { session with rcptTo := call.kept, state := .rcpt } := by
  have hcmd : call.command.verb = .rcpt := hverb
  simp only [SmtpSession.step, smtpServerProcessCommand, smtpReply, hcmd]
  cases hstate : session.state <;> simp_all [SmtpVerb.next, SmtpCall.kept]

/-- A history ends with a MAIL alone if that is its last command. -/
theorem endsWith_nil :
    EndsWith (history ++ [call]) mail [] ↔ mail = call ∧ call.verb = .mail := by
  rw [EndsWith, List.singleton_suffix_append_singleton_iff]
  grind

/-- A history ends with the RCPTs behind a MAIL if its last command is the last of them. -/
theorem endsWith_append :
    EndsWith (history ++ [call]) mail (rcpts ++ [last]) ↔
      last = call ∧ call.verb = .rcpt ∧ EndsWith history mail rcpts := by
  have hsuffix : mail :: (rcpts ++ [last]) <:+ history ++ [call] ↔
      last = call ∧ mail :: rcpts <:+ history := by
    rw [← List.cons_append, List.suffix_concat_iff]
    constructor
    · rintro (h | ⟨before, heq, hbefore⟩)
      · simp at h
      · obtain ⟨rfl, hlast⟩ := List.append_inj' heq rfl
        exact ⟨List.singleton_inj.mp hlast, hbefore⟩
    · rintro ⟨rfl, hbefore⟩
      exact .inr ⟨_, rfl, hbefore⟩
  rw [EndsWith, hsuffix, EndsWith]
  grind

/-! ## Runs -/

/-- What a session knows of its history: it is in the states of a transaction exactly behind a
MAIL and its RCPTs, and has the sender and the last recipient. -/
structure Knows (session : SmtpSession) (history : List SmtpCall) : Prop where
  opened : ∀ {mail}, EndsWith history mail [] →
    session.state = .mail ∧ session.mailFrom = mail.kept
  addressed : ∀ {mail rcpts last}, EndsWith history mail (rcpts ++ [last]) →
    session.state = .rcpt ∧ session.mailFrom = mail.kept ∧ session.rcptTo = last.kept
  of_mail : session.state = .mail → ∃ mail, EndsWith history mail []
  of_rcpt : session.state = .rcpt → ∃ mail rcpts last, EndsWith history mail (rcpts ++ [last])

theorem Knows.sender (h : Knows session history) (hends : EndsWith history mail rcpts) :
    session.mailFrom = mail.kept := by
  rcases List.eq_nil_or_concat' rcpts with rfl | ⟨front, last, rfl⟩
  · exact (h.opened hends).2
  · exact (h.addressed hends).2.1

theorem Knows.step (h : Knows session history) :
    Knows (session.step call).2 (recordAccepted history session call) := by
  obtain ⟨haccepts, -⟩ := session.accepts_step call
  unfold recordAccepted
  by_cases hnext : call.verb.next session.state = none
  · rw [if_neg (by simp [haccepts, hnext]), SmtpSession.step_of_refused hnext]
    exact h
  rw [if_pos (haccepts.mpr hnext)]
  -- The history ends with this command now, and only a MAIL or an RCPT may stand there.
  by_cases hmail : call.verb = .mail
  · rw [SmtpSession.step_mail hmail hnext]
    constructor
    · grind [endsWith_nil]
    · grind [endsWith_append]
    · exact fun _ => ⟨call, endsWith_nil.mpr ⟨rfl, hmail⟩⟩
    · grind
  by_cases hrcpt : call.verb = .rcpt
  · have hstate : session.state = .mail ∨ session.state = .rcpt := by
      cases hs : session.state <;> simp_all [SmtpVerb.next]
    have hbefore : ∃ mail rcpts, EndsWith history mail rcpts := by
      rcases hstate with hs | hs
      · obtain ⟨mail, hends⟩ := h.of_mail hs
        exact ⟨mail, [], hends⟩
      · obtain ⟨mail, rcpts, last, hends⟩ := h.of_rcpt hs
        exact ⟨mail, rcpts ++ [last], hends⟩
    obtain ⟨mail, rcpts, hbefore⟩ := hbefore
    rw [SmtpSession.step_rcpt hrcpt hnext]
    constructor
    · grind [endsWith_nil]
    · grind [endsWith_append, h.sender]
    · grind
    · exact fun _ => ⟨mail, rcpts, call, endsWith_append.mpr ⟨rfl, hrcpt, hbefore⟩⟩
  · have hstate : (session.step call).2.state ≠ .mail ∧ (session.step call).2.state ≠ .rcpt := by
      rw [(session.step_state call).1]
      cases hverb : call.verb <;> cases hs : session.state <;> simp_all [SmtpVerb.next]
    constructor <;> grind [endsWith_nil, endsWith_append]

theorem knows (calls : List SmtpCall) :
    Knows (after SmtpSession.step .new calls) (accepted calls) := by
  refine (along_of_forall (fun _ _ => trivial)).invariant Knows
    (fun _ _ _ h (_ : True) => h.step) ?_
  constructor <;> simp [EndsWith, SmtpSession.new]

/-- A refused command leaves the session as it is. DATA is answered 354 exactly where the
accepted commands end with MAIL and one or more RCPTs, and then the session has the addresses
of that MAIL and of the last RCPT. -/
theorem session_of_history (calls : List SmtpCall) (call : SmtpCall) :
    ((SmtpSession.step (after SmtpSession.step .new calls) call).1.Refuses →
      (SmtpSession.step (after SmtpSession.step .new calls) call).2 =
        after SmtpSession.step .new calls) ∧
    (call.verb = .data →
      ((SmtpSession.step (after SmtpSession.step .new calls) call).1.code = 354 ↔
        ∃ mail rcpts last, EndsWith (accepted calls) mail (rcpts ++ [last])) ∧
      ∀ mail rcpts last, EndsWith (accepted calls) mail (rcpts ++ [last]) →
        (SmtpSession.step (after SmtpSession.step .new calls) call).2.mailFrom = mail.kept ∧
        (SmtpSession.step (after SmtpSession.step .new calls) call).2.rcptTo = last.kept) := by
  have hknows := knows calls
  set session := after SmtpSession.step .new calls
  refine ⟨fun hrefuses => ?_, fun hverb => ?_⟩
  · exact SmtpSession.step_of_refused ((session.accepts_step call).2.mp hrefuses)
  obtain ⟨hcode, hfrom, hto⟩ := session.step_data hverb
  rw [hcode, hfrom, hto]
  refine ⟨⟨hknows.of_rcpt, ?_⟩, fun mail rcpts last hends => (hknows.addressed hends).2⟩
  rintro ⟨mail, rcpts, last, hends⟩
  exact (hknows.addressed hends).1

end Federated.Service
