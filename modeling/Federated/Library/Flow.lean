import Federated.Library.Machine

/-!
# What goes in comes out or is still there

A system holds a stock of items in order. Each call puts some in behind and takes
some out in front, and a run is conserving if its input is its output followed by
the stock. Where a call can also lose items, a run is conserving if and only if
none of its calls does.
-/

namespace Federated.Library

variable {σ κ α β : Type*} {step : σ → κ → α × σ} {stock : σ → List β}
  {put take : κ × α → List β} {inv : σ → Prop} {keeps : σ → κ → Prop}

/-- One call puts items in behind the stock and takes items out in front of it. -/
def Conserves (step : σ → κ → α × σ) (stock : σ → List β) (put take : κ × α → List β) (s : σ)
    (call : κ) : Prop :=
  stock s ++ put (call, (step s call).1) = take (call, (step s call).1) ++ stock (step s call).2

/-- A run does the same with all its input and output. -/
def RunConserves (step : σ → κ → α × σ) (stock : σ → List β) (put take : κ × α → List β) (s : σ)
    (calls : List κ) : Prop :=
  stock s ++ (transcript step s calls).flatMap put =
    (transcript step s calls).flatMap take ++ stock (after step s calls)

theorem RunConserves.cons {s : σ} {call : κ} {calls : List κ}
    (h : Conserves step stock put take s call)
    (hrest : RunConserves step stock put take (step s call).2 calls) :
    RunConserves step stock put take s (call :: calls) := by
  unfold RunConserves at *
  rw [transcript, List.flatMap_cons, List.flatMap_cons, ← List.append_assoc, h, List.append_assoc,
    hrest, after_cons, List.append_assoc]

/-- A run of conserving calls is conserving. -/
theorem runConserves_of_along (inv : σ → Prop) (keeps : σ → κ → Prop)
    (next : ∀ s call, inv s → keeps s call → inv (step s call).2)
    (kept : ∀ s call, inv s → keeps s call → Conserves step stock put take s call) {s : σ}
    (start : inv s) {calls : List κ} (h : Along step keeps s calls) :
    RunConserves step stock put take s calls := by
  induction calls generalizing s with
  | nil => simp [RunConserves, transcript]
  | cons call calls ih =>
    obtain ⟨hcall, hrest⟩ := h
    exact .cons (kept s call start hcall) (ih (next s call start hcall) hrest)

/-- The items a run takes out or leaves in stock. -/
def outflow (step : σ → κ → α × σ) (stock : σ → List β) (take : κ × α → List β) (s : σ)
    (calls : List κ) : Nat :=
  ((transcript step s calls).flatMap take).length + (stock (after step s calls)).length

/-- The items a run finds in stock or puts in. -/
def inflow (step : σ → κ → α × σ) (stock : σ → List β) (put : κ × α → List β) (s : σ)
    (calls : List κ) : Nat :=
  (stock s).length + ((transcript step s calls).flatMap put).length

theorem RunConserves.outflow_eq {s : σ} {calls : List κ}
    (h : RunConserves step stock put take s calls) :
    outflow step stock take s calls = inflow step stock put s calls := by
  simpa [RunConserves, outflow, inflow] using (congrArg List.length h).symm

section

variable {fits : κ → Prop} (next : ∀ s call, inv s → fits call → inv (step s call).2)
  (kept : ∀ s call, inv s → fits call → keeps s call → Conserves step stock put take s call)
  (lost : ∀ s call, inv s → fits call → ¬ keeps s call →
    (take (call, (step s call).1)).length + (stock (step s call).2).length <
      (stock s).length + (put (call, (step s call).1)).length)

include next kept lost

/-- Nothing comes out that was not put in, and all of it only if no call loses something. -/
theorem outflow_le {s : σ} (start : inv s) {calls : List κ} (h : ∀ call ∈ calls, fits call) :
    outflow step stock take s calls ≤ inflow step stock put s calls ∧
      (outflow step stock take s calls = inflow step stock put s calls →
        Along step keeps s calls) := by
  induction calls generalizing s with
  | nil => exact ⟨by simp [outflow, inflow, transcript], fun _ => trivial⟩
  | cons call calls ih =>
    obtain ⟨hcall, hcalls⟩ := List.forall_mem_cons.mp h
    obtain ⟨hle, halong⟩ := ih (next s call start hcall) hcalls
    simp only [outflow, inflow, transcript, List.flatMap_cons, List.length_append,
      after_cons] at hle halong ⊢
    by_cases hkeeps : keeps s call
    · have hlen := congrArg List.length (kept s call start hcall hkeeps)
      simp only [List.length_append] at hlen
      exact ⟨by omega, fun heq => ⟨hkeeps, halong (by omega)⟩⟩
    · have hlost := lost s call start hcall hkeeps
      exact ⟨by omega, fun heq => by omega⟩

/-- Where every other call loses something, there are no other conserving runs. -/
theorem runConserves_iff {s : σ} (start : inv s) {calls : List κ}
    (h : ∀ call ∈ calls, fits call) :
    RunConserves step stock put take s calls ↔ Along step keeps s calls := by
  constructor
  · intro hrun
    exact (outflow_le next kept lost start h).2 hrun.outflow_eq
  · intro hkeeps
    exact runConserves_of_along inv (fun s call => keeps s call ∧ fits call)
      (fun s call hs hcall => next s call hs hcall.2)
      (fun s call hs hcall => kept s call hs hcall.2 hcall.1) start
      (hkeeps.and (along_of_forall h))

end

end Federated.Library
