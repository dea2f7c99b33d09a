import Mathlib.Tactic.Common

/-!
# Programs that report what they do

A program acts on a state and reports events on the way. It returns, is stopped by a fault, or
waits for ever. What it has reported by then stays reported.
-/

namespace Federated.Library

variable {σ β ε α γ : Type}

/-- How a program ends. -/
inductive Ending (ε α : Type) where
  | returned (a : α)
  | faulted (e : ε)
  | waiting

/-- What a program has reported, and how it ended. -/
structure Report (β ε α : Type) where
  events : List β
  ending : Ending ε α

/-- A program that acts on a state. -/
def Act (σ β ε α : Type) : Type := σ → Report β ε (α × σ)

namespace Act

/-- Go on behind a report. -/
def resume (next : α → Act σ β ε γ) (r : Report β ε (α × σ)) : Report β ε (γ × σ) :=
  match r.ending with
  | .returned (a, s) => ⟨r.events ++ (next a s).events, (next a s).ending⟩
  | .faulted e => ⟨r.events, .faulted e⟩
  | .waiting => ⟨r.events, .waiting⟩

instance : Monad (Act σ β ε) where
  pure a := fun s => ⟨[], .returned (a, s)⟩
  bind act next := fun s => resume next (act s)

/-- Report an event. -/
def emit (event : β) : Act σ β ε Unit := fun s => ⟨[event], .returned ((), s)⟩

/-- Read off the state. -/
def get (f : σ → α) : Act σ β ε α := fun s => ⟨[], .returned (f s, s)⟩

/-- Change the state. -/
def update (f : σ → α × σ) : Act σ β ε α := fun s => ⟨[], .returned (f s)⟩

/-- Go on with a value, if it is there. -/
def check (value : Except ε α) : Act σ β ε α := fun s =>
  match value with
  | .ok a => ⟨[], .returned (a, s)⟩
  | .error e => ⟨[], .faulted e⟩

/-- Never return. -/
def wait : Act σ β ε α := fun _ => ⟨[], .waiting⟩

/-! ## Runs -/

variable {s : σ} {act : Act σ β ε α} {next : α → Act σ β ε γ}

@[simp] theorem check_error (e : ε) : (check (.error e) : Act σ β ε α) s = ⟨[], .faulted e⟩ := rfl

@[simp] theorem wait_run : (wait : Act σ β ε α) s = ⟨[], .waiting⟩ := rfl

@[simp] theorem resume_faulted (events : List β) (e : ε) :
    resume next ⟨events, .faulted e⟩ = (⟨events, .faulted e⟩ : Report β ε (γ × σ)) := rfl

/-- Every event that is reported has a property. -/
def Emits (p : β → Prop) (act : Act σ β ε α) : Prop := ∀ s, ∀ e ∈ (act s).events, p e

variable {p : β → Prop}

theorem Emits.bind (hact : act.Emits p) (hnext : ∀ a, (next a).Emits p) :
    (act >>= next).Emits p := by
  intro s e he
  have hmem : e ∈ (resume next (act s)).events := he
  unfold resume at hmem
  split at hmem
  · rcases List.mem_append.mp hmem with h | h
    · exact hact s e h
    · exact hnext _ _ e h
  · exact hact s e hmem
  · exact hact s e hmem

theorem Emits.ite {c : Prop} [Decidable c] {act' : Act σ β ε α} (h : c → act.Emits p)
    (h' : ¬ c → act'.Emits p) : (if c then act else act').Emits p := by
  split_ifs with hc
  · exact h hc
  · exact h' hc

end Act

end Federated.Library
