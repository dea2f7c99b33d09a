import Federated.Library.Machine
import Mathlib.Logic.Function.Basic

/-!
# Readers of one system

A system is shared by readers, each with a state of its own. The calls of a reader look at what is
shared and change the reader alone. So what some of the readers are answered depends on the shared
calls and on their own ones: the calls of the others can be left out of a run.
-/

namespace Federated.Library

/-- The state of a system and those of its readers. -/
structure Readers {ι : Type*} (σ : Type*) (τ : ι → Type*) where
  shared : σ
  reader : ∀ i, τ i

/-- A call on the shared system, or one of a reader. -/
inductive ReaderCall {ι : Type*} (κ : Type*) (μ : ι → Type*) where
  | shared (call : κ)
  | own (i : ι) (call : μ i)

/-- What is answered to a call of either kind. -/
inductive ReaderAnswer {ι : Type*} (α : Type*) (β : ι → Type*) where
  | shared (answer : α)
  | own (i : ι) (answer : β i)

variable {ι σ σ' κ α : Type*} {τ τ' μ β : ι → Type*}

/-- The call is a shared one, or one of the readers that `p` tells. -/
def ReaderCall.isSeenBy (p : ι → Bool) : ReaderCall κ μ → Bool
  | shared _ => true
  | own i _ => p i

/-- What holds of the calls on the system and of those of the readers. -/
def ReaderCall.Fits (fits : κ → Prop) (fitsOwn : ∀ i, μ i → Prop) : ReaderCall κ μ → Prop
  | shared call => fits call
  | own i call => fitsOwn i call

namespace Readers

variable [DecidableEq ι]

/-- The system with its readers makes a call. -/
def step (step : σ → κ → α × σ) (read : ∀ i, σ → τ i → μ i → β i × τ i) (s : Readers σ τ) :
    ReaderCall κ μ → ReaderAnswer α β × Readers σ τ
  | .shared call => (.shared (step s.shared call).1, ⟨(step s.shared call).2, s.reader⟩)
  | .own i call =>
    (.own i (read i s.shared (s.reader i) call).1,
      ⟨s.shared, Function.update s.reader i (read i s.shared (s.reader i) call).2⟩)

variable {shared : σ → κ → α × σ} {read : ∀ i, σ → τ i → μ i → β i × τ i} {s t : Readers σ τ}

/-- What is shared, and the readers that `p` tells, are the same. -/
def Agree (p : ι → Bool) (s t : Readers σ τ) : Prop :=
  s.shared = t.shared ∧ ∀ i, p i = true → s.reader i = t.reader i

theorem Agree.seen {p : ι → Bool} (h : Agree p s t) {call : ReaderCall κ μ}
    (hseen : call.isSeenBy p = true) :
    (s.step shared read call).1 = (t.step shared read call).1 ∧
      Agree p (s.step shared read call).2 (t.step shared read call).2 := by
  obtain ⟨hshared, hreader⟩ := h
  cases call with
  | shared call =>
    simp only [Readers.step, hshared]
    exact ⟨trivial, rfl, hreader⟩
  | own i call =>
    simp only [Readers.step, hshared, hreader i hseen]
    refine ⟨trivial, rfl, fun j hj => ?_⟩
    obtain rfl | hne := eq_or_ne j i
    · simp only [Function.update_self]
    · simp only [Function.update_of_ne hne, hreader j hj]

/-- The call of another reader is not noticed. -/
theorem Agree.unseen {p : ι → Bool} (h : Agree p s t) {call : ReaderCall κ μ}
    (hunseen : call.isSeenBy p = false) : Agree p (s.step shared read call).2 t := by
  cases call with
  | shared call => cases hunseen
  | own i call =>
    refine ⟨h.1, fun j hj => ?_⟩
    have hne : j ≠ i := by
      rintro rfl
      exact absurd hj (by simpa [ReaderCall.isSeenBy] using hunseen)
    simp only [Readers.step, Function.update_of_ne hne, h.2 j hj]

/-- What the readers that `p` tells are answered, and what the shared calls are, does not depend
on the calls of the others. -/
theorem Agree.transcript_seen {p : ι → Bool} (h : Agree p s t) (calls : List (ReaderCall κ μ)) :
    (transcript (Readers.step shared read) s calls).filter (·.1.isSeenBy p) =
      transcript (Readers.step shared read) t (calls.filter (·.isSeenBy p)) := by
  induction calls generalizing s t with
  | nil => rfl
  | cons call calls ih =>
    cases hseen : call.isSeenBy p with
    | true =>
      obtain ⟨hanswer, hnext⟩ :
          (s.step shared read call).1 = (t.step shared read call).1 ∧ Agree p _ _ := h.seen hseen
      simp only [transcript, List.filter_cons, hseen, if_true, hanswer, ih hnext]
    | false =>
      simp only [transcript, List.filter_cons, hseen, Bool.false_eq_true, if_false]
      exact ih (h.unseen hseen)

/-- A system whose shared part and whose readers are simulated is simulated. -/
theorem simulation {shared' : σ' → κ → α × σ'} {read' : ∀ i, σ' → τ' i → μ i → β i × τ' i}
    {fits : κ → Prop} {fitsOwn : ∀ i, μ i → Prop} {rel : σ → σ' → Prop}
    {relOwn : ∀ i, τ i → τ' i → Prop} (sim : Simulation shared shared' fits rel)
    (own : ∀ i {a b x y call}, rel a b → relOwn i x y → fitsOwn i call →
      (read i a x call).1 = (read' i b y call).1 ∧
        relOwn i (read i a x call).2 (read' i b y call).2) :
    Simulation (step shared read) (step shared' read') (ReaderCall.Fits fits fitsOwn)
      fun s t => rel s.shared t.shared ∧ ∀ i, relOwn i (s.reader i) (t.reader i) where
  answer {s t call} h hcall := by
    cases call with
    | shared call => exact congrArg _ (sim.answer h.1 hcall)
    | own i call => exact congrArg _ (own i h.1 (h.2 i) hcall).1
  next {s t call} h hcall := by
    cases call with
    | shared call => exact ⟨sim.next h.1 hcall, h.2⟩
    | own i call =>
      refine ⟨h.1, fun j => ?_⟩
      obtain rfl | hne := eq_or_ne j i
      · simpa only [step, Function.update_self] using (own j h.1 (h.2 j) hcall).2
      · simpa only [step, Function.update_of_ne hne] using h.2 j

end Readers

end Federated.Library
