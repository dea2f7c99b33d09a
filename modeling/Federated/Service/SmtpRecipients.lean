import Federated.Service.SmtpGreeting

/-!
# Acknowledged recipients

Every RCPT of a transaction is acknowledged, and each one overwrites the only
recipient that the session keeps. A session that goes on to DATA still knows all of
them as long as they are one and the same, and fit.
-/

namespace Federated.Service

open Library

/-! ## Recipients of a transaction -/

/-- The recipients whose RCPT was answered 250 since the last MAIL that was. -/
def acknowledge (recipients : List Bytes) (session : SmtpSession) (call : SmtpCall) : List Bytes :=
  if call.verb = .mail ∧ (session.step call).1.code = 250 then []
  else if call.verb = .rcpt ∧ (session.step call).1.code = 250 then recipients ++ [call.address]
  else recipients

def acknowledged (calls : List SmtpCall) : List Bytes :=
  record SmtpSession.step acknowledge [] .new calls

/-- The recipients named by RCPT since the last MAIL, each given in a state that allows it. -/
def nameRecipient (recipients : List Bytes) (session : SmtpSession) (call : SmtpCall) :
    List Bytes :=
  if call.verb = .mail ∧ (session.state = .greeted ∨ session.state = .done) then []
  else if call.verb = .rcpt ∧ (session.state = .mail ∨ session.state = .rcpt) then
    recipients ++ [call.address]
  else recipients

def named (calls : List SmtpCall) : List Bytes :=
  record SmtpSession.step nameRecipient [] .new calls

/-- Whenever DATA is answered 354, the session records every recipient of the transaction that
was acknowledged. -/
def KeepsRecipients (calls : List SmtpCall) : Prop :=
  ∀ pre call, pre ++ [call] <+: calls → call.verb = .data →
    let (reply, session) := SmtpSession.step (after SmtpSession.step .new pre) call
    reply.code = 354 → ∀ recipient ∈ acknowledged pre, session.rcptTo.str = recipient

/-- Whenever DATA is given with a recipient, the transaction has named only one address, which
fits the array. -/
def OneRecipient (calls : List SmtpCall) : Prop :=
  ∀ pre call, pre ++ [call] <+: calls → call.verb = .data →
    (after SmtpSession.step .new pre).state = .rcpt →
    ∃ address : Bytes, address.length ≤ 255 ∧ ∀ recipient ∈ named pre, recipient = address

/-! ## What one command does -/

variable {session : SmtpSession} {call : SmtpCall} {recipients : List Bytes}

/-- MAIL and RCPT are answered 250 in the states that allow them. -/
theorem acknowledge_eq_nameRecipient : acknowledge = nameRecipient := by
  funext recipients session call
  have hcode := (session.step_state call).2
  unfold acknowledge nameRecipient
  cases hverb : call.verb <;> cases hstate : session.state <;>
    simp_all [SmtpVerb.code, SmtpVerb.next]

theorem acknowledged_eq_named : acknowledged = named := by
  funext calls
  rw [acknowledged, named, acknowledge_eq_nameRecipient]

theorem emailOf_sublist (input : Bytes) : (emailOf input).Sublist input := by
  unfold emailOf
  split
  · split
    · exact (List.take_sublist _ _).trans (List.drop_sublist _ _)
    · exact List.Sublist.refl _
  · exact List.Sublist.refl _

theorem zero_notMem_address (call : SmtpCall) : 0 ∉ call.address := fun h =>
  call.command.arg.zero_notMem_str ((emailOf_sublist _).subset h)

/-- In the state of a recipient the array holds the last one named, as much of it as fits. -/
def HoldsLast (session : SmtpSession) (recipients : List Bytes) : Prop :=
  session.state = .rcpt → ∃ last ∈ recipients, session.rcptTo.str = last.take 255

theorem HoldsLast.step (h : HoldsLast session recipients) :
    HoldsLast (session.step call).2 (nameRecipient recipients session call) := by
  intro hrcpt
  by_cases hnames : call.verb = .rcpt ∧ (session.state = .mail ∨ session.state = .rcpt)
  · obtain ⟨hverb, hstate⟩ := hnames
    have hcmd : call.command.verb = .rcpt := hverb
    refine ⟨call.address, by simp [nameRecipient, hverb, hstate], ?_⟩
    have hrcptTo : (session.step call).2.rcptTo = extractEmail call.command.arg.str 256 := by
      rcases hstate with hstate | hstate <;>
        simp [SmtpSession.step, smtpServerProcessCommand, smtpReply, hcmd, hstate]
    rw [hrcptTo]
    exact CharArray.str_fill 256 (zero_notMem_address call)
  · -- Any other command that leaves the session in this state was not accepted.
    have hrefused : call.verb.next session.state = none ∧
        nameRecipient recipients session call = recipients := by
      rw [(session.step_state call).1] at hrcpt
      unfold nameRecipient
      cases hverb : call.verb <;> cases hstate : session.state <;> simp_all [SmtpVerb.next]
    rw [SmtpSession.step_of_refused hrefused.1] at hrcpt ⊢
    rw [hrefused.2]
    exact h hrcpt

/-! ## Runs -/

theorem holdsLast (calls : List SmtpCall) :
    HoldsLast (after SmtpSession.step .new calls) (named calls) :=
  (along_of_forall (fun _ _ => trivial)).invariant HoldsLast
    (fun _ _ _ h (_ : True) => h.step) fun h => absurd h (by decide)

/-- No acknowledged recipient is lost if and only if every transaction that gets to DATA has
named a single address, of at most 255 bytes. -/
theorem keepsRecipients_iff (calls : List SmtpCall) :
    KeepsRecipients calls ↔ OneRecipient calls := by
  refine forall₄_congr fun pre call _ hverb => ?_
  obtain ⟨hcode, -, hkept⟩ := (after SmtpSession.step .new pre).step_data hverb
  simp only [hcode, hkept, acknowledged_eq_named]
  refine forall_congr' fun hstate => ⟨fun h => ?_, ?_⟩
  · exact ⟨_, CharArray.length_str_le _, fun recipient hmem => (h recipient hmem).symm⟩
  · rintro ⟨address, hlength, hall⟩ recipient hmem
    obtain ⟨last, hlast, hstr⟩ := holdsLast pre hstate
    rw [hstr, hall last hlast, hall recipient hmem, List.take_of_length_le hlength]

/-- A transaction with two recipients. -/
def twoRecipients : List SmtpCall :=
  [smtpCall "HELO" "client", smtpCall "MAIL" "FROM:<a@b>", smtpCall "RCPT" "TO:<c@d>",
    smtpCall "RCPT" "TO:<e@f>", smtpCall "DATA" ""]

/-- The first of the two is lost. -/
theorem not_keepsRecipients_two : ¬ KeepsRecipients twoRecipients := by
  intro h
  have hlost := h (twoRecipients.take 4) (smtpCall "DATA" "") (by simp [twoRecipients]) (by decide)
    (by decide) (ascii "c@d") (by decide)
  revert hlost
  decide

end Federated.Service
