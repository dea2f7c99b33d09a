import Mathlib.Data.List.Induction

/-!
# Systems that answer calls

A step function takes a state and a call to an answer and the next state. What a
system answers over a run of calls is compared with another one by a relation
between their states that every step keeps. A record collects what is of interest
about a run; an invariant ties it to the state behind the run.
-/

namespace Federated.Library

variable {σ τ κ α η : Type*} {step : σ → κ → α × σ} {other : τ → κ → α × τ}

/-- The state after a run of calls. -/
def after (step : σ → κ → α × σ) (s : σ) (calls : List κ) : σ :=
  calls.foldl (fun s call => (step s call).2) s

/-- The answers to a run of calls. -/
def answers (step : σ → κ → α × σ) : σ → List κ → List α
  | _, [] => []
  | s, call :: calls => (step s call).1 :: answers step (step s call).2 calls

/-- The calls of a run with their answers. -/
def transcript (step : σ → κ → α × σ) : σ → List κ → List (κ × α)
  | _, [] => []
  | s, call :: calls => (call, (step s call).1) :: transcript step (step s call).2 calls

/-- What a run makes of a record that every call adds to, in the state it is made in. -/
def record (step : σ → κ → α × σ) (add : η → σ → κ → η) : η → σ → List κ → η
  | h, _, [] => h
  | h, s, call :: calls => record step add (add h s call) (step s call).2 calls

/-- A condition holds of every call of a run in the state it is made in. -/
def Along (step : σ → κ → α × σ) (p : σ → κ → Prop) : σ → List κ → Prop
  | _, [] => True
  | s, call :: calls => p s call ∧ Along step p (step s call).2 calls

@[simp] theorem after_nil (s : σ) : after step s [] = s := rfl

@[simp] theorem after_cons (s : σ) (call : κ) (calls : List κ) :
    after step s (call :: calls) = after step (step s call).2 calls := rfl

@[simp] theorem after_append (s : σ) (first rest : List κ) :
    after step s (first ++ rest) = after step (after step s first) rest :=
  List.foldl_append

theorem mem_of_mem_transcript {s : σ} {calls : List κ} {e : κ × α}
    (h : e ∈ transcript step s calls) : e.1 ∈ calls := by
  induction calls generalizing s with
  | nil => cases h
  | cons call calls ih =>
    rcases List.mem_cons.mp h with rfl | h
    · exact List.mem_cons_self
    · exact List.mem_cons_of_mem _ (ih h)

@[simp] theorem transcript_append (s : σ) (first rest : List κ) :
    transcript step s (first ++ rest) =
      transcript step s first ++ transcript step (after step s first) rest := by
  induction first generalizing s with
  | nil => rfl
  | cons call first ih => rw [List.cons_append, transcript, ih, transcript, after_cons,
      List.cons_append]

theorem getElem?_transcript (s : σ) (calls : List κ) (i : Nat) :
    (transcript step s calls)[i]? =
      calls[i]?.map fun call => (call, (step (after step s (calls.take i)) call).1) := by
  induction calls generalizing s i with
  | nil => rfl
  | cons call calls ih =>
    cases i with
    | zero => rfl
    | succ i => exact ih (step s call).2 i

@[simp] theorem record_append {add : η → σ → κ → η} (h : η) (s : σ) (first rest : List κ) :
    record step add h s (first ++ rest) =
      record step add (record step add h s first) (after step s first) rest := by
  induction first generalizing h s with
  | nil => rfl
  | cons call first ih => rw [List.cons_append, record, ih, record, after_cons]

@[simp] theorem record_singleton {add : η → σ → κ → η} (h : η) (s : σ) (call : κ) :
    record step add h s [call] = add h s call := rfl

theorem along_append {p : σ → κ → Prop} {s : σ} {first rest : List κ} :
    Along step p s (first ++ rest) ↔
      Along step p s first ∧ Along step p (after step s first) rest := by
  induction first generalizing s with
  | nil => simp [Along]
  | cons call first ih => rw [List.cons_append, Along, ih, Along, after_cons, and_assoc]

theorem Along.mono {p q : σ → κ → Prop} (hpq : ∀ s call, p s call → q s call) {s : σ}
    {calls : List κ} (h : Along step p s calls) : Along step q s calls := by
  induction calls generalizing s with
  | nil => trivial
  | cons call calls ih => exact ⟨hpq s call h.1, ih h.2⟩

theorem along_of_forall {fits : κ → Prop} {s : σ} {calls : List κ}
    (h : ∀ call ∈ calls, fits call) : Along step (fun _ call => fits call) s calls := by
  induction calls generalizing s with
  | nil => trivial
  | cons call calls ih =>
    obtain ⟨hcall, hrest⟩ := List.forall_mem_cons.mp h
    exact ⟨hcall, ih hrest⟩

/-- Where a condition keeps an invariant, and is one on the call alone in the states that have
it, it holds along a run exactly if every call is of that kind. -/
theorem along_iff_forall {keeps : σ → κ → Prop} {fits : κ → Prop} (inv : σ → Prop)
    (next : ∀ s call, inv s → keeps s call → inv (step s call).2)
    (hiff : ∀ s call, inv s → (keeps s call ↔ fits call)) {s : σ} (start : inv s)
    {calls : List κ} : Along step keeps s calls ↔ ∀ call ∈ calls, fits call := by
  induction calls generalizing s with
  | nil => simp [Along]
  | cons call calls ih =>
    rw [Along, List.forall_mem_cons, ← hiff s call start]
    exact and_congr_right fun hkeeps => ih (next s call start hkeeps)

theorem Along.and {p q : σ → κ → Prop} {s : σ} {calls : List κ} (hp : Along step p s calls)
    (hq : Along step q s calls) : Along step (fun s call => p s call ∧ q s call) s calls := by
  induction calls generalizing s with
  | nil => trivial
  | cons call calls ih => exact ⟨⟨hp.1, hq.1⟩, ih hp.2 hq.2⟩

/-- What every call keeps of a state holds behind a run. -/
theorem Along.after {keeps : σ → κ → Prop} (inv : σ → Prop)
    (next : ∀ s call, inv s → keeps s call → inv (step s call).2) {s : σ} (start : inv s)
    {calls : List κ} (hkeeps : Along step keeps s calls) : inv (Library.after step s calls) := by
  induction calls generalizing s with
  | nil => exact start
  | cons call calls ih => exact ih (next s call start hkeeps.1) hkeeps.2

/-- What every call keeps of a state and a record holds behind a run. -/
theorem Along.invariant {add : η → σ → κ → η} {keeps : σ → κ → Prop} (inv : σ → η → Prop)
    (next : ∀ s h call, inv s h → keeps s call → inv (step s call).2 (add h s call)) {s : σ} {h : η}
    (start : inv s h) {calls : List κ} (hkeeps : Along step keeps s calls) :
    inv (Library.after step s calls) (record step add h s calls) := by
  induction calls generalizing s h with
  | nil => exact start
  | cons call calls ih => exact ih (next s h call start hkeeps.1) hkeeps.2

/-- An invariant of the steps holds behind every run. -/
theorem invariant_after (inv : σ → Prop) (next : ∀ s call, inv s → inv (step s call).2) {s : σ}
    (start : inv s) (calls : List κ) : inv (after step s calls) :=
  List.foldlRecOn calls _ start fun s hs call _ => next s call hs

/-- A property of every run on the way is decided call by call. -/
theorem forall_isPrefix_iff {calls : List κ} {p : List κ → Prop} {q : List κ → κ → Prop}
    (start : p [])
    (next : ∀ pre call, pre ++ [call] <+: calls → p pre → (p (pre ++ [call]) ↔ q pre call)) :
    (∀ pre, pre <+: calls → p pre) ↔ ∀ pre call, pre ++ [call] <+: calls → q pre call := by
  constructor
  · intro h pre call hpre
    exact (next pre call hpre (h pre ((List.prefix_append pre [call]).trans hpre))).mp (h _ hpre)
  · intro h pre
    induction pre using List.reverseRecOn with
    | nil => exact fun _ => start
    | append_singleton pre call ih =>
      intro hpre
      have hbefore := ih ((List.prefix_append pre [call]).trans hpre)
      exact (next pre call hpre hbefore).mpr (h pre call hpre)

/-- What every answer satisfies in the states that are reached holds along a run. -/
theorem forall_mem_transcript {inv : σ → Prop} {fits : κ → Prop} {p : κ × α → Prop}
    (next : ∀ s call, inv s → fits call → inv (step s call).2)
    (hp : ∀ s call, inv s → fits call → p (call, (step s call).1)) {s : σ} (start : inv s)
    {calls : List κ} (h : ∀ call ∈ calls, fits call) : ∀ e ∈ transcript step s calls, p e := by
  induction calls generalizing s with
  | nil => exact fun e he => nomatch he
  | cons call calls ih =>
    obtain ⟨hcall, hrest⟩ := List.forall_mem_cons.mp h
    exact List.forall_mem_cons.mpr ⟨hp s call start hcall, ih (next s call start hcall) hrest⟩

/-- Related states give the same answers, and stay related. -/
structure Simulation (step : σ → κ → α × σ) (other : τ → κ → α × τ) (fits : κ → Prop)
    (rel : σ → τ → Prop) : Prop where
  answer : ∀ {s t call}, rel s t → fits call → (step s call).1 = (other t call).1
  next : ∀ {s t call}, rel s t → fits call → rel (step s call).2 (other t call).2

namespace Simulation

variable {fits : κ → Prop} {rel : σ → τ → Prop} {s : σ} {t : τ} {calls : List κ}

theorem after (sim : Simulation step other fits rel) (start : rel s t)
    (h : ∀ call ∈ calls, fits call) :
    rel (Library.after step s calls) (Library.after other t calls) := by
  induction calls generalizing s t with
  | nil => exact start
  | cons call calls ih =>
    obtain ⟨hcall, hrest⟩ := List.forall_mem_cons.mp h
    exact ih (sim.next start hcall) hrest

theorem answers_eq (sim : Simulation step other fits rel) (start : rel s t)
    (h : ∀ call ∈ calls, fits call) : answers step s calls = answers other t calls := by
  induction calls generalizing s t with
  | nil => rfl
  | cons call calls ih =>
    obtain ⟨hcall, hrest⟩ := List.forall_mem_cons.mp h
    rw [answers, answers, sim.answer start hcall, ih (sim.next start hcall) hrest]

theorem transcript_eq (sim : Simulation step other fits rel) (start : rel s t)
    (h : ∀ call ∈ calls, fits call) : transcript step s calls = transcript other t calls := by
  induction calls generalizing s t with
  | nil => rfl
  | cons call calls ih =>
    obtain ⟨hcall, hrest⟩ := List.forall_mem_cons.mp h
    rw [transcript, transcript, sim.answer start hcall, ih (sim.next start hcall) hrest]

end Simulation

/-! ## Systems that may end -/

/-- A system that does not answer any more once a call has ended it. -/
def mayEnd (answer : σ → κ → Option (α × σ)) (s : Option σ) (call : κ) : Option α × Option σ :=
  ((s.bind (answer · call)).map Prod.fst, (s.bind (answer · call)).map Prod.snd)

theorem mayEnd_of_none {answer : σ → κ → Option (α × σ)} {s : σ} {call : κ}
    (h : answer s call = none) : mayEnd answer (some s) call = (none, none) := by
  simp [mayEnd, h]

theorem mayEnd_of_some {answer : σ → κ → Option (α × σ)} {s s' : σ} {call : κ} {a : α}
    (h : answer s call = some (a, s')) : mayEnd answer (some s) call = (some a, some s') := by
  simp [mayEnd, h]

/-- Two systems that end with the same calls, and else give the same answers and stay related. -/
theorem Simulation.mayEnd {answer : σ → κ → Option (α × σ)} {other : τ → κ → Option (α × τ)}
    {rel : σ → τ → Prop} (h : ∀ s t call, rel s t → (answer s call = none ∧ other t call = none) ∨
      ∃ a s' t', answer s call = some (a, s') ∧ other t call = some (a, t') ∧ rel s' t') :
    Simulation (mayEnd answer) (mayEnd other) (fun _ => True) (Option.Rel rel) where
  answer {s t call} hrel _ := by
    cases hrel with
    | none => rfl
    | some hrel =>
      rcases h _ _ call hrel with ⟨hs, ht⟩ | ⟨a, s', t', hs, ht, -⟩
      · rw [mayEnd_of_none hs, mayEnd_of_none ht]
      · rw [mayEnd_of_some hs, mayEnd_of_some ht]
  next {s t call} hrel _ := by
    cases hrel with
    | none => exact .none
    | some hrel =>
      rcases h _ _ call hrel with ⟨hs, ht⟩ | ⟨a, s', t', hs, ht, hnext⟩
      · rw [mayEnd_of_none hs, mayEnd_of_none ht]
        exact .none
      · rw [mayEnd_of_some hs, mayEnd_of_some ht]
        exact .some hnext

end Federated.Library
