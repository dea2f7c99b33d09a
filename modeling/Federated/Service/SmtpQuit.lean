import Federated.Service.SmtpGreeting

/-!
# The end of a session

In which runs QUIT is the end of a session. The state it leads to is also the one of a
message that was received, from where MAIL starts the next transaction; RSET leads out of
every state.
-/

namespace Federated.Service

open Library

/-- The reply says that the command was carried out, or asks for the message. -/
def SmtpReply.Positive (r : SmtpReply) : Prop := (200 ≤ r.code ∧ r.code < 300) ∨ r.code = 354

/-- The session stays in its final state, and no command with a positive reply changes it. -/
structure StaysDone (session : SmtpSession) (call : SmtpCall) : Prop where
  state : (session.step call).2.state = .done
  unchanged : (session.step call).1.Positive → (session.step call).2 = session

variable {session : SmtpSession} {call quit : SmtpCall}

/-- The verbs that are accepted in the final state and lead out of it. -/
def SmtpVerb.Reopens (v : SmtpVerb) : Prop := v = .mail ∨ v = .rset

/-- A second QUIT is answered and changes nothing. -/
theorem SmtpSession.step_quit (hverb : call.verb = .quit) (hstate : session.state = .done) :
    (session.step call).2 = session := by
  unfold SmtpCall.verb at hverb
  cases session
  simp_all [SmtpSession.step, smtpServerProcessCommand, smtpReply]

/-- A command leaves a session in its final state as it is unless it is MAIL or RSET. -/
theorem staysDone_iff (hstate : session.state = .done) :
    StaysDone session call ↔ ¬ call.verb.Reopens := by
  constructor
  · rintro ⟨hdone, -⟩ hreopens
    rw [(session.step_state call).1, hstate] at hdone
    rcases hreopens with hverb | hverb <;> simp [hverb, SmtpVerb.next] at hdone
  · intro hreopens
    have hsame : (session.step call).2 = session := by
      by_cases hquit : call.verb = .quit
      · exact SmtpSession.step_quit hquit hstate
      · refine SmtpSession.step_of_refused ?_
        cases hverb : call.verb <;> grind [SmtpVerb.next, SmtpVerb.Reopens]
    exact ⟨by rw [hsame, hstate], fun _ => hsame⟩

theorem SmtpSession.state_of_bye (h : (session.step quit).1.code = 221) :
    (session.step quit).2.state = .done := by
  simp only [SmtpSession.step, smtpServerProcessCommand, smtpReply] at h ⊢
  cases hverb : quit.command.verb <;> grind [badSequence]

/-- Behind a QUIT that was answered 221 a session stays in its final state, and no command with a
positive reply changes it, if and only if neither MAIL nor RSET comes. -/
theorem along_staysDone_iff (hquit : (session.step quit).1.code = 221) (calls : List SmtpCall) :
    Along SmtpSession.step StaysDone (session.step quit).2 calls ↔
      ∀ call ∈ calls, ¬ call.verb.Reopens := by
  refine along_iff_forall (fun s : SmtpSession => s.state = .done) (fun s call _ h => ?_)
    (fun s call hstate => ?_) (SmtpSession.state_of_bye hquit)
  · exact h.state
  · exact staysDone_iff hstate

/-- HELO, RCPT, DATA and another QUIT behind a QUIT. -/
theorem along_staysDone_refused : Along SmtpSession.step StaysDone
    (SmtpSession.step .new (smtpCall "QUIT" "")).2
    [smtpCall "HELO" "host", smtpCall "RCPT" "TO:<a@b>", smtpCall "DATA" "",
      smtpCall "QUIT" ""] := by
  refine (along_staysDone_iff (by decide) _).mpr fun call hcall => ?_
  have hverbs : ∀ call ∈ [smtpCall "HELO" "host", smtpCall "RCPT" "TO:<a@b>", smtpCall "DATA" "",
      smtpCall "QUIT" ""], call.verb ≠ .mail ∧ call.verb ≠ .rset := by decide
  obtain ⟨hmail, hrset⟩ := hverbs call hcall
  rintro (hverb | hverb)
  · exact hmail hverb
  · exact hrset hverb

/-- MAIL starts a transaction in a session that was closed. -/
theorem not_along_staysDone_mail : ¬ ∀ (session : SmtpSession) quit calls,
    (session.step quit).1.code = 221 →
    Along SmtpSession.step StaysDone (session.step quit).2 calls := by
  intro h
  obtain ⟨⟨hdone, -⟩, -⟩ := h .new (smtpCall "QUIT" "") [smtpCall "MAIL" "FROM:<a@b>"] (by decide)
  revert hdone
  decide

end Federated.Service
