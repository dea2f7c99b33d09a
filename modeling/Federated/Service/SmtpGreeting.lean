import Federated.Service.Smtp
import Federated.Library.Machine
import Federated.Library.Search

/-!
# Transactions only after a greeting

The states of a session as an automaton over the verbs, and in which runs no mail
transaction starts before a greeting. RSET and QUIT lead out of the first state as
HELO does, and MAIL asks for no more than that.
-/

namespace Federated.Service

open Library

/-! ## The automaton -/

/-- The state a verb leads to, if it is accepted. -/
def SmtpVerb.next : SmtpVerb → SmtpState → Option SmtpState
  | .helo, .init => some .greeted
  | .mail, .greeted | .mail, .done => some .mail
  | .rcpt, .mail | .rcpt, .rcpt => some .rcpt
  | .data, .rcpt => some .data
  | .quit, _ => some .done
  | .rset, _ => some .greeted
  | _, _ => none

/-- The code of the reply to a verb that is accepted. -/
def SmtpVerb.code : SmtpVerb → Nat
  | .helo | .mail | .rcpt | .rset => 250
  | .data => 354
  | .quit => 221
  | .unknown => 500

variable {session : SmtpSession} {call : SmtpCall} {calls : List SmtpCall}

/-- A session follows the automaton, and only a verb that is not accepted has a reply
with another code. -/
theorem SmtpSession.step_state (session : SmtpSession) (call : SmtpCall) :
    (session.step call).2.state = (call.verb.next session.state).getD session.state ∧
    (call.verb ≠ .unknown →
      ((session.step call).1.code = call.verb.code ↔ (call.verb.next session.state).isSome)) := by
  simp only [SmtpSession.step, smtpServerProcessCommand, smtpReply, SmtpCall.verb]
  cases hverb : call.command.verb <;> cases hstate : session.state <;>
    simp [SmtpVerb.next, SmtpVerb.code, hstate, badSequence]

/-- A verb that is not accepted leaves the session as it is. -/
theorem SmtpSession.step_of_refused (h : call.verb.next session.state = none) :
    (session.step call).2 = session := by
  unfold SmtpCall.verb at h
  simp only [SmtpSession.step, smtpServerProcessCommand, smtpReply]
  cases hverb : call.command.verb <;> cases hstate : session.state <;>
    simp_all [SmtpVerb.next]

/-- HELO is answered 250 in the first state only. -/
theorem SmtpSession.step_helo (hverb : call.verb = .helo) :
    (session.step call).1.code = 250 ↔ session.state = .init := by
  have hcode := (session.step_state call).2 (by simp [hverb])
  rw [hverb] at hcode
  rw [show 250 = SmtpVerb.code .helo from rfl, hcode]
  cases session.state <;> simp [SmtpVerb.next]

/-- DATA is answered 354 with a recipient, and leaves the addresses as they are. -/
theorem SmtpSession.step_data (session : SmtpSession) (hverb : call.verb = .data) :
    ((session.step call).1.code = 354 ↔ session.state = .rcpt) ∧
      (session.step call).2.mailFrom = session.mailFrom ∧
      (session.step call).2.rcptTo = session.rcptTo := by
  have hcmd : call.command.verb = .data := hverb
  simp only [SmtpSession.step, smtpServerProcessCommand, smtpReply, hcmd]
  split <;> simp_all [badSequence]

/-! ## Greetings -/

/-- A mail transaction is under way. -/
def SmtpState.InTransaction (s : SmtpState) : Prop := s = .mail ∨ s = .rcpt ∨ s = .data

/-- A HELO or EHLO that was answered 250. -/
def Greets (e : SmtpCall × SmtpReply) : Prop := e.1.verb = .helo ∧ e.2.code = 250

/-- After every command of a run, a mail transaction is under way only behind a greeting. -/
def OnlyAfterGreeting (calls : List SmtpCall) : Prop :=
  ∀ pre, pre <+: calls → (after SmtpSession.step .new pre).state.InTransaction →
    ∃ e ∈ transcript SmtpSession.step .new pre, Greets e

/-- The verbs that lead out of the first state. -/
def SmtpVerb.leaves : SmtpVerb → Bool
  | .helo | .quit | .rset => true
  | _ => false

/-- The first command that leads out of the first state is HELO, or no MAIL comes behind it. -/
def GreetsFirst (calls : List SmtpCall) : Prop :=
  ∀ idle c rest, calls = idle ++ c :: rest → (∀ d ∈ idle, d.verb.leaves = false) →
    c.verb.leaves = true → c.verb = .helo ∨ ∀ d ∈ rest, d.verb ≠ .mail

/-- Until a command leads out of it, the session stays in the first state. -/
theorem state_of_idle (hstate : session.state = .init)
    (hidle : ∀ c ∈ calls, c.verb.leaves = false) :
    (after SmtpSession.step session calls).state = .init := by
  refine (along_of_forall hidle).after (fun s : SmtpSession => s.state = .init)
    (fun s c hs hc => ?_) hstate
  rw [(s.step_state c).1, hs]
  cases hverb : c.verb <;> simp_all [SmtpVerb.leaves, SmtpVerb.next]

/-- No command leads back to the first state, so HELO is never answered 250 behind it. -/
theorem not_greets_of_state (hstate : session.state ≠ .init) :
    ∀ e ∈ transcript SmtpSession.step session calls, ¬ Greets e := by
  refine forall_mem_transcript (fun s c (hs : SmtpSession.state s ≠ .init) (_ : True) => ?_)
    (fun s c hs _ => ?_) hstate (fun _ _ => trivial)
  · rw [(s.step_state c).1]
    cases hverb : c.verb <;> cases hs' : s.state <;> simp_all [SmtpVerb.next]
  · rintro ⟨hverb, hcode⟩
    exact hs ((SmtpSession.step_helo hverb).mp hcode)

/-- Without a MAIL no transaction starts. -/
theorem state_of_no_mail (hstate : session.state = .greeted ∨ session.state = .done)
    (hmail : ∀ c ∈ calls, c.verb ≠ .mail) :
    (after SmtpSession.step session calls).state = .greeted ∨
      (after SmtpSession.step session calls).state = .done := by
  refine (along_of_forall hmail).after
    (fun s : SmtpSession => s.state = .greeted ∨ s.state = .done) (fun s c hs hc => ?_) hstate
  rw [(s.step_state c).1]
  rcases hs with hs | hs <;> cases hverb : c.verb <;> simp_all [SmtpVerb.next]

/-- In a run whose first way out is RSET or QUIT there is no greeting. -/
theorem not_greets_of_left {idle : List SmtpCall} {c : SmtpCall} (rest : List SmtpCall)
    (hidle : ∀ d ∈ idle, d.verb.leaves = false) (hleaves : c.verb.leaves = true)
    (hhelo : c.verb ≠ .helo) :
    ((SmtpSession.step (after SmtpSession.step .new idle) c).2.state = .greeted ∨
      (SmtpSession.step (after SmtpSession.step .new idle) c).2.state = .done) ∧
    ∀ e ∈ transcript SmtpSession.step .new (idle ++ c :: rest), ¬ Greets e := by
  have hinit : (after SmtpSession.step .new idle).state = .init := state_of_idle rfl hidle
  have hleft : (SmtpSession.step (after SmtpSession.step .new idle) c).2.state = .greeted ∨
      (SmtpSession.step (after SmtpSession.step .new idle) c).2.state = .done := by
    rw [(SmtpSession.step_state _ c).1, hinit]
    cases hverb : c.verb <;> simp_all [SmtpVerb.leaves, SmtpVerb.next]
  refine ⟨hleft, fun e he => ?_⟩
  rw [transcript_append, transcript, List.mem_append, List.mem_cons] at he
  rcases he with he | rfl | he
  · rintro ⟨hverb, -⟩
    have hfalse := hidle e.1 (mem_of_mem_transcript he)
    rw [hverb] at hfalse
    cases hfalse
  · exact fun hgreets => hhelo hgreets.1
  · refine not_greets_of_state ?_ e he
    rcases hleft with h | h <;> simp [h]

/-- No mail transaction starts before a greeting if and only if HELO is the first command that
leads out of the first state, or no MAIL comes behind that one. -/
theorem onlyAfterGreeting_iff (calls : List SmtpCall) :
    OnlyAfterGreeting calls ↔ GreetsFirst calls := by
  constructor
  · rintro honly idle c rest rfl hidle hleaves
    by_contra! ⟨hhelo, d, hd, hmail⟩
    -- The first MAIL behind RSET or QUIT starts a transaction.
    obtain ⟨mid, first, post, rfl, hverb, hmid⟩ :=
      exists_first (p := fun d : SmtpCall => d.verb = .mail) ⟨d, hd, hmail⟩
    obtain ⟨hleft, hnone⟩ := not_greets_of_left (mid ++ [first]) hidle hleaves hhelo
    have hrest := state_of_no_mail hleft hmid
    obtain ⟨e, he, hgreets⟩ := honly (idle ++ c :: (mid ++ [first])) ⟨post, by simp⟩ (by
      simp only [after_append, after_cons, after_nil]
      rw [(SmtpSession.step_state _ first).1, hverb]
      rcases hrest with h | h <;> simp [h, SmtpVerb.next, SmtpState.InTransaction])
    exact hnone e he hgreets
  · rintro hfirst pre ⟨post, rfl⟩ hstate
    by_cases hleave : ∃ c ∈ pre, c.verb.leaves = true
    · obtain ⟨idle, c, rest, rfl, hleaves, hidle⟩ := exists_first hleave
      have hidle : ∀ d ∈ idle, d.verb.leaves = false := by simpa using hidle
      by_cases hhelo : c.verb = .helo
      · have hinit : (after SmtpSession.step .new idle).state = .init := state_of_idle rfl hidle
        refine ⟨(c, (SmtpSession.step (after SmtpSession.step .new idle) c).1), ?_, hhelo, ?_⟩
        · simp [transcript]
        · exact (SmtpSession.step_helo hhelo).mpr hinit
      · have hmail := (hfirst idle c (rest ++ post) (by simp) hidle hleaves).resolve_left hhelo
        obtain ⟨hleft, -⟩ := not_greets_of_left rest hidle hleaves hhelo
        have hrest := state_of_no_mail hleft fun d hd => hmail d (List.mem_append_left _ hd)
        rw [after_append, after_cons] at hstate
        rcases hrest with h | h <;> simp [h, SmtpState.InTransaction] at hstate
    · have hidle : ∀ c ∈ pre, c.verb.leaves = false := by simpa using hleave
      have hinit : (after SmtpSession.step .new pre).state = .init := state_of_idle rfl hidle
      simp [hinit, SmtpState.InTransaction] at hstate

def smtpCall (name arg : String) : SmtpCall :=
  ⟨⟨.fill _ (ascii name), .fill _ (ascii arg)⟩, List.replicate 64 0⟩

/-- RSET and MAIL in a fresh session. -/
theorem not_onlyAfterGreeting_rset :
    ¬ OnlyAfterGreeting [smtpCall "RSET" "", smtpCall "MAIL" "FROM:<a@b>"] := by
  intro h
  obtain ⟨e, he, hverb, -⟩ := h _ List.prefix_rfl (.inl (by decide))
  have hnone : ∀ e ∈ transcript SmtpSession.step .new
      [smtpCall "RSET" "", smtpCall "MAIL" "FROM:<a@b>"], e.1.verb ≠ .helo := by decide
  exact hnone e he hverb

end Federated.Service
