import Mathlib.Logic.Relation
import Mathlib.Order.WellFounded
import Mathlib.Data.Fintype.Basic
import Mathlib.Data.Finite.Prod

/-!
# Computations that may not end

`Comp α` is a computation indexed by fuel whose result, once there, stays the
same with more fuel. `Comp.loop` iterates a body that either goes round again
or leaves; the body may itself contain loops. `Returns` forgets the fuel. It is
the only notion the rules below speak about: unfolding, induction over the
passes of a loop, invariants, and two criteria for a loop to end. The second
one is exact for loops whose control state ranges over a finite type.
-/

namespace Federated.Library

variable {α β σ ρ κ : Type*}

/-- What one pass of a loop does: go round again from a state, or leave. -/
inductive Pass (σ ρ : Type*) where
  | next (s : σ)
  | exit (r : ρ)
  deriving DecidableEq, Repr

/-- A computation indexed by fuel. The field `mono` rules out results that
depend on how much fuel is left. -/
structure Comp (α : Type*) where
  run : Nat → Option α
  mono : ∀ {m n : Nat} {a : α}, m ≤ n → run m = some a → run n = some a

namespace Comp

/-- The computation ends with the result `a`. -/
def Returns (c : Comp α) (a : α) : Prop := ∃ n, c.run n = some a

theorem Returns.unique {c : Comp α} {a b : α} (ha : c.Returns a) (hb : c.Returns b) :
    a = b := by
  obtain ⟨m, hm⟩ := ha
  obtain ⟨n, hn⟩ := hb
  have hm' := c.mono (Nat.le_max_left m n) hm
  have hn' := c.mono (Nat.le_max_right m n) hn
  exact Option.some.inj (hm'.symm.trans hn')

protected def pure (a : α) : Comp α where
  run _ := some a
  mono _ h := h

@[simp] theorem returns_pure {a b : α} : (Comp.pure a).Returns b ↔ b = a := by
  simp [Returns, Comp.pure, eq_comm]

protected def bind (c : Comp α) (f : α → Comp β) : Comp β where
  run n := (c.run n).bind fun a => (f a).run n
  mono {m n b} hmn h := by
    obtain ⟨a, ha, hb⟩ := Option.bind_eq_some_iff.mp h
    exact Option.bind_eq_some_iff.mpr ⟨a, c.mono hmn ha, (f a).mono hmn hb⟩

@[simp] theorem returns_bind {c : Comp α} {f : α → Comp β} {b : β} :
    (c.bind f).Returns b ↔ ∃ a, c.Returns a ∧ (f a).Returns b := by
  constructor
  · rintro ⟨n, h⟩
    obtain ⟨a, ha, hb⟩ := Option.bind_eq_some_iff.mp h
    exact ⟨a, ⟨n, ha⟩, ⟨n, hb⟩⟩
  · rintro ⟨a, ⟨m, hm⟩, ⟨n, hn⟩⟩
    refine ⟨max m n, Option.bind_eq_some_iff.mpr ⟨a, ?_, ?_⟩⟩
    · exact c.mono (Nat.le_max_left m n) hm
    · exact (f a).mono (Nat.le_max_right m n) hn

/-! ## Loops -/

/-- Every pass costs one unit of fuel and may spend what is left. -/
def loopRun (body : σ → Comp (Pass σ ρ)) : Nat → σ → Option ρ
  | 0, _ => none
  | n + 1, s =>
    match (body s).run n with
    | none => none
    | some (.exit r) => some r
    | some (.next t) => loopRun body n t

theorem loopRun_mono (body : σ → Comp (Pass σ ρ)) {m n : Nat} {s : σ} {r : ρ}
    (hmn : m ≤ n) (h : loopRun body m s = some r) : loopRun body n s = some r := by
  induction m generalizing n s with
  | zero => simp [loopRun] at h
  | succ m ih =>
    obtain ⟨n, rfl⟩ : ∃ k, n = k + 1 := ⟨n - 1, by omega⟩
    have hmn' : m ≤ n := by omega
    rw [loopRun] at h ⊢
    cases hb : (body s).run m with
    | none => simp [hb] at h
    | some p =>
      rw [(body s).mono hmn' hb]
      rw [hb] at h
      cases p with
      | exit r' => exact h
      | next t => exact ih hmn' h

/-- Iterate `body` from `s` until a pass leaves. -/
def loop (body : σ → Comp (Pass σ ρ)) (s : σ) : Comp ρ where
  run n := loopRun body n s
  mono := loopRun_mono body

variable {body : σ → Comp (Pass σ ρ)} {s : σ} {r : ρ}

theorem returns_loop_of_exit (h : (body s).Returns (.exit r)) : (loop body s).Returns r := by
  obtain ⟨n, hn⟩ := h
  exact ⟨n + 1, by simp [loop, loopRun, hn]⟩

theorem returns_loop_of_next {t : σ} (h : (body s).Returns (.next t))
    (ht : (loop body t).Returns r) : (loop body s).Returns r := by
  obtain ⟨m, hm⟩ := h
  obtain ⟨n, hn⟩ := ht
  refine ⟨max m n + 1, ?_⟩
  have hbody := (body s).mono (Nat.le_max_left m n) hm
  have hrest := loopRun_mono body (Nat.le_max_right m n) hn
  simp [loop, loopRun, hbody, hrest]

/-- One unit of fuel peels one pass off a finished loop. -/
theorem loopRun_cases {n : Nat} (h : loopRun body n s = some r) :
    (body s).Returns (.exit r) ∨
      ∃ t m, m < n ∧ (body s).Returns (.next t) ∧ loopRun body m t = some r := by
  cases n with
  | zero => simp [loopRun] at h
  | succ n =>
    rw [loopRun] at h
    cases hb : (body s).run n with
    | none => simp [hb] at h
    | some p =>
      rw [hb] at h
      cases p with
      | exit r' => exact .inl ⟨n, by rw [hb, Option.some.inj h]⟩
      | next t => exact .inr ⟨t, n, n.lt_succ_self, ⟨n, hb⟩, h⟩

theorem returns_loop_iff : (loop body s).Returns r ↔
    (body s).Returns (.exit r) ∨
      ∃ t, (body s).Returns (.next t) ∧ (loop body t).Returns r := by
  constructor
  · rintro ⟨n, h⟩
    obtain hexit | ⟨t, m, -, hnext, hrest⟩ := loopRun_cases h
    · exact .inl hexit
    · exact .inr ⟨t, hnext, m, hrest⟩
  · rintro (hexit | ⟨t, hnext, hrest⟩)
    · exact returns_loop_of_exit hexit
    · exact returns_loop_of_next hnext hrest

theorem returns_loop_iff_of_exit {r' : ρ} (h : body s = .pure (.exit r')) :
    (loop body s).Returns r ↔ r = r' := by
  rw [returns_loop_iff, h]
  simp

theorem returns_loop_iff_of_next {t : σ} (h : body s = .pure (.next t)) :
    (loop body s).Returns r ↔ (loop body t).Returns r := by
  rw [returns_loop_iff, h]
  simp

/-- Induction over the passes of a loop that leaves with `r`. -/
theorem Returns.loop_induction {motive : σ → Prop} (h : (loop body s).Returns r)
    (exit : ∀ s, (body s).Returns (.exit r) → motive s)
    (next : ∀ s t, (body s).Returns (.next t) → (loop body t).Returns r → motive t → motive s) :
    motive s := by
  obtain ⟨n, h⟩ := h
  induction n using Nat.strong_induction_on generalizing s with
  | _ n ih =>
    obtain hexit | ⟨t, m, hm, hnext, hrest⟩ := loopRun_cases h
    · exact exit s hexit
    · exact next s t hnext ⟨m, hrest⟩ (ih m hm hrest)

/-- An invariant of the passes holds where the loop leaves. -/
theorem Returns.loop_invariant (inv : σ → Prop) (h : (loop body s).Returns r) (start : inv s)
    (step : ∀ s t, inv s → (body s).Returns (.next t) → inv t) :
    ∃ t, inv t ∧ (body t).Returns (.exit r) := by
  revert start
  refine h.loop_induction (motive := fun s => inv s → ∃ t, inv t ∧ (body t).Returns (.exit r))
    (fun s hexit hs => ⟨s, hs, hexit⟩) ?_
  intro s t hnext _ ih hs
  exact ih (step s t hs hnext)

/-- A loop whose passes all end and lower a measure ends. -/
theorem exists_returns_of_measure (inv : σ → Prop) (measure : σ → Nat) (start : inv s)
    (total : ∀ s, inv s → ∃ p, (body s).Returns p)
    (step : ∀ s t, inv s → (body s).Returns (.next t) → inv t ∧ measure t < measure s) :
    ∃ r, (loop body s).Returns r := by
  generalize hn : measure s = n
  induction n using Nat.strong_induction_on generalizing s with
  | _ n ih =>
    obtain ⟨p, hp⟩ := total s start
    cases p with
    | exit r => exact ⟨r, returns_loop_of_exit hp⟩
    | next t =>
      obtain ⟨ht, hlt⟩ := step s t start hp
      obtain ⟨r, hr⟩ := ih (measure t) (hn ▸ hlt) ht rfl
      exact ⟨r, returns_loop_of_next hp hr⟩

/-! ## Control graphs

`view` is the part of the state that decides where the loop goes, and `edge`
says which control state follows which. -/

open Relation

variable {view : σ → κ} {edge : κ → κ → Prop}

/-- On a finite control graph without a reachable cycle, a loop ends. -/
theorem exists_returns_of_acyclic [Finite κ] (inv : σ → Prop) (start : inv s)
    (total : ∀ s, inv s → ∃ p, (body s).Returns p)
    (step : ∀ s t, inv s → (body s).Returns (.next t) → inv t ∧ edge (view s) (view t))
    (acyclic : ∀ k, ReflTransGen edge (view s) k → ¬ TransGen edge k k) :
    ∃ r, (loop body s).Returns r := by
  let Reached := {k : κ // ReflTransGen edge (view s) k}
  let after : Reached → Reached → Prop := fun a b => TransGen edge b.1 a.1
  have : IsTrans Reached after := ⟨fun _ _ _ hab hbc => hbc.trans hab⟩
  have : Std.Irrefl after := ⟨fun a h => acyclic a.1 a.2 h⟩
  have wf : WellFounded after := Finite.wellFounded_of_trans_of_irrefl after
  suffices ∀ a : Reached, ∀ s, inv s → view s = a.1 → ∃ r, (loop body s).Returns r from
    this ⟨view s, .refl⟩ s start rfl
  intro a
  induction a using wf.induction with
  | _ a ih =>
    intro s hs hview
    obtain ⟨p, hp⟩ := total s hs
    cases p with
    | exit r => exact ⟨r, returns_loop_of_exit hp⟩
    | next t =>
      obtain ⟨ht, hedge⟩ := step s t hs hp
      rw [hview] at hedge
      obtain ⟨r, hr⟩ := ih ⟨view t, a.2.tail hedge⟩ (.single hedge) t ht rfl
      exact ⟨r, returns_loop_of_next hp hr⟩

/-- A result survives along the edges the passes really take. -/
theorem Returns.follow (drive : ∀ s k, edge (view s) k →
      ∃ t, (body s).Returns (.next t) ∧ view t = k)
    {k : κ} (path : ReflTransGen edge (view s) k) (h : (loop body s).Returns r) :
    ∃ t, view t = k ∧ (loop body t).Returns r := by
  induction path with
  | refl => exact ⟨s, rfl, h⟩
  | tail _ hedge ih =>
    obtain ⟨t, rfl, ht⟩ := ih
    obtain ⟨u, hnext, hu⟩ := drive t _ hedge
    obtain hexit | ⟨v, hv, hrest⟩ := returns_loop_iff.mp ht
    · cases hexit.unique hnext
    · cases hv.unique hnext
      exact ⟨u, hu, hrest⟩

/-- Following at least one edge uses up fuel. -/
theorem loopRun_follow (drive : ∀ s k, edge (view s) k →
      ∃ t, (body s).Returns (.next t) ∧ view t = k)
    {n : Nat} {k : κ} (path : TransGen edge (view s) k) (h : loopRun body n s = some r) :
    ∃ t m, m < n ∧ view t = k ∧ loopRun body m t = some r := by
  have advance : ∀ {s : σ} {n : Nat} {k : κ}, edge (view s) k → loopRun body n s = some r →
      ∃ t m, m < n ∧ view t = k ∧ loopRun body m t = some r := by
    intro s n k hedge h
    obtain ⟨u, hnext, hu⟩ := drive s k hedge
    obtain hexit | ⟨t, m, hm, ht, hrest⟩ := loopRun_cases h
    · cases hexit.unique hnext
    · cases ht.unique hnext
      exact ⟨u, m, hm, hu, hrest⟩
  induction path with
  | single hedge => exact advance hedge h
  | tail _ hedge ih =>
    obtain ⟨t, m, hm, rfl, ht⟩ := ih
    obtain ⟨u, l, hl, hu, hrest⟩ := advance hedge ht
    exact ⟨u, l, hl.trans hm, hu, hrest⟩

/-- A loop that comes back to a control state never ends. -/
theorem not_returns_of_cycle (drive : ∀ s k, edge (view s) k →
      ∃ t, (body s).Returns (.next t) ∧ view t = k)
    (cycle : TransGen edge (view s) (view s)) : ¬ ∃ r, (loop body s).Returns r := by
  rintro ⟨r, n, h⟩
  change loopRun body n s = some r at h
  induction n using Nat.strong_induction_on generalizing s with
  | _ n ih =>
    obtain ⟨t, m, hm, ht, hrest⟩ := loopRun_follow drive cycle h
    exact ih m hm (ht ▸ cycle) hrest

end Comp

end Federated.Library
