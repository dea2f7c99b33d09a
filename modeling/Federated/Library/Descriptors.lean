import Federated.Library.Machine
import Mathlib.Data.Finset.Basic
import Mathlib.Logic.Function.Basic

/-!
# Descriptors

The open files of a process have numbers, and the parts of the process share one table of
them. A part that uses or closes a number which it does not hold goes wrong, as the number may
stand for a file of another part by then. Only the standard streams belong to nobody: they are
open all the time, and every part may use them. A number that is put into a set of `select` must
be smaller than the set. `Syscalls` are the programs that a part runs. `Ensures` speaks about one
part and the numbers that it holds, and is enough: whatever the parts do in between each other,
no call goes wrong.
-/

namespace Federated.Library

/-- The standard streams have the numbers below. -/
def standardStreams : Nat := 3

/-- The numbers below have room in a set of `select`. -/
def fdSetSize : Nat := 1024

/-- The numbers that a process can be given, which is limited in its open files. -/
def Grantable (limit fd : Nat) : Prop := standardStreams ≤ fd ∧ fd < limit

instance (limit fd : Nat) : Decidable (Grantable limit fd) :=
  inferInstanceAs (Decidable (_ ∧ _))

/-- A program that asks for descriptors, uses them, waits for them and closes them. The kernel may
answer with any number, which is given out if it can be and is free. -/
inductive Syscalls (α : Type) where
  | done (a : α)
  | obtain (answer : Option Nat) (next : Option Nat → Syscalls α)
  | use (handle : Option Nat) (next : Syscalls α)
  | select (handle : Option Nat) (next : Syscalls α)
  | close (fd : Nat) (next : Syscalls α)

namespace Syscalls

variable {α β : Type}

protected def bind : Syscalls α → (α → Syscalls β) → Syscalls β
  | .done a, f => f a
  | .obtain answer next, f => .obtain answer fun fd => (next fd).bind f
  | .use handle next, f => .use handle (next.bind f)
  | .select handle next, f => .select handle (next.bind f)
  | .close fd next, f => .close fd (next.bind f)

instance : Monad Syscalls where
  pure := .done
  bind := .bind

/-- Ask for a descriptor. -/
def grant (answer : Option Nat) : Syscalls (Option Nat) := .obtain answer .done

/-- Hand a descriptor to the kernel. -/
def touch (handle : Option Nat) : Syscalls Unit := .use handle (.done ())

/-- Put a descriptor into an empty set, and wait for it with `select`. -/
def await (handle : Option Nat) : Syscalls Unit := .select handle (.done ())

/-- Close a descriptor, if it is one. -/
def release : Option Nat → Syscalls Unit
  | none => .done ()
  | some fd => .close fd (.done ())

end Syscalls

/-! ## The table of a process -/

/-- Which part holds a number that is open. -/
abbrev Table (ω : Type) := Nat → Option ω

/-- A number, or none, that is handed to the kernel by a part that may not use it, or that is put
into a set without room for it. -/
structure Misuse where
  handle : Option Nat
  deriving DecidableEq, Repr

section

variable {α : Type} {ω : Type} {limit : Nat} {table table' : Table ω} {who : ω}

/-- Run a program of a part. -/
def Syscalls.run [DecidableEq ω] (limit : Nat) (who : ω) :
    Syscalls α → Table ω → Except Misuse (α × Table ω)
  | .done a, table => .ok (a, table)
  | .obtain none next, table => (next none).run limit who table
  | .obtain (some fd) next, table =>
    if Grantable limit fd ∧ table fd = none then
      (next (some fd)).run limit who (Function.update table fd (some who))
    else (next none).run limit who table
  | .use handle next, table =>
    if handle.bind table = some who ∨ ∃ fd ∈ handle, fd < standardStreams then
      next.run limit who table
    else .error ⟨handle⟩
  | .select handle next, table =>
    if handle.bind table = some who ∧ ∀ fd ∈ handle, fd < fdSetSize then next.run limit who table
    else .error ⟨handle⟩
  | .close fd next, table =>
    if table fd = some who then next.run limit who (Function.update table fd none)
    else .error ⟨some fd⟩

/-- Only numbers that can be given out are held. -/
def Limited (limit : Nat) (table : Table ω) : Prop := ∀ fd, table fd ≠ none → Grantable limit fd

theorem Limited.update (h : Limited limit table) {fd : Nat} {entry : Option ω}
    (hfd : entry ≠ none → Grantable limit fd) :
    Limited limit (Function.update table fd entry) := by
  intro number hnumber
  rcases eq_or_ne number fd with rfl | hne
  · exact hfd (by simpa using hnumber)
  · exact h number (by rwa [Function.update_of_ne hne] at hnumber)

/-- The numbers that a part holds. -/
def Holds (table : Table ω) (who : ω) (fds : Finset Nat) : Prop :=
  ∀ fd, table fd = some who ↔ fd ∈ fds

/-- What the other parts hold stays as it is. -/
def Frames (who : ω) (table table' : Table ω) : Prop :=
  ∀ other, other ≠ who → ∀ fd, table' fd = some other ↔ table fd = some other

theorem Frames.refl (who : ω) (table : Table ω) : Frames who table table :=
  fun _ _ _ => Iff.rfl

theorem Frames.update {fd : Nat} {entry : Option ω} (hentry : ∀ other, other ≠ who →
      entry ≠ some other) (hfd : ∀ other, other ≠ who → table fd ≠ some other)
    (h : Frames who (Function.update table fd entry) table') : Frames who table table' := by
  intro other hother number
  rw [h other hother number]
  rcases eq_or_ne number fd with rfl | hne
  · simp [hentry other hother, hfd other hother]
  · rw [Function.update_of_ne hne]

theorem Frames.holds (h : Frames who table table') {other : ω} (hother : other ≠ who)
    {fds : Finset Nat} (hholds : Holds table other fds) : Holds table' other fds :=
  fun fd => (h other hother fd).trans (hholds fd)

theorem Holds.grant {fds : Finset Nat} (h : Holds table who fds) (fd : Nat) :
    Holds (Function.update table fd (some who)) who (insert fd fds) := by
  intro number
  rcases eq_or_ne number fd with rfl | hne
  · simp
  · rw [Function.update_of_ne hne, h number, Finset.mem_insert, or_iff_right hne]

theorem Holds.release {fds : Finset Nat} (h : Holds table who fds) (fd : Nat) :
    Holds (Function.update table fd none) who (fds.erase fd) := by
  intro number
  rcases eq_or_ne number fd with rfl | hne
  · simp
  · rw [Function.update_of_ne hne, h number, Finset.mem_erase, and_iff_right hne]

/-- A program leaves the other parts alone, whatever it does. -/
theorem Syscalls.frames [DecidableEq ω] {c : Syscalls α} {a : α}
    (h : c.run limit who table = .ok (a, table')) : Frames who table table' := by
  induction c generalizing table with
  | done b =>
    cases h
    exact Frames.refl who _
  | obtain answer next ih =>
    cases answer with
    | none => exact ih none h
    | some fd =>
      rw [run] at h
      split_ifs at h with hfree
      · refine Frames.update (fun other hother heq => hother (Option.some.inj heq).symm) ?_ (ih _ h)
        simp [hfree.2]
      · exact ih none h
  | use handle next ih =>
    rw [run] at h
    split_ifs at h
    exact ih h
  | select handle next ih =>
    rw [run] at h
    split_ifs at h
    exact ih h
  | close fd next ih =>
    rw [run] at h
    split_ifs at h with hheld
    refine Frames.update (by simp) (fun other hother heq => hother ?_) (ih h)
    exact Option.some.inj (heq.symm.trans hheld)

end

/-! ## One part -/

namespace Syscalls

variable {α β : Type} {fds : Finset Nat} {post : α → Finset Nat → Prop}

/-- From the numbers that a part holds, a program of it only uses numbers that it holds or that of
a standard stream, waits for and closes numbers that it holds, and ends with a result and numbers
that meet a condition, whichever numbers are free. -/
def Ensures : Syscalls α → Finset Nat → (α → Finset Nat → Prop) → Prop
  | .done a, fds, post => post a fds
  | .obtain answer next, fds, post =>
    (next none).Ensures fds post ∧
      ∀ fd ∈ answer, fd ∉ fds → (next (some fd)).Ensures (insert fd fds) post
  | .use handle next, fds, post =>
    (∃ fd ∈ handle, fd ∈ fds ∨ fd < standardStreams) ∧ next.Ensures fds post
  | .select handle next, fds, post => (∃ fd ∈ handle, fd ∈ fds) ∧ next.Ensures fds post
  | .close fd next, fds, post => fd ∈ fds ∧ next.Ensures (fds.erase fd) post

@[simp] theorem ensures_pure {a : α} :
    (pure a : Syscalls α).Ensures fds post ↔ post a fds := Iff.rfl

@[simp] theorem ensures_bind {c : Syscalls α} {f : α → Syscalls β}
    {post : β → Finset Nat → Prop} :
    (c >>= f).Ensures fds post ↔ c.Ensures fds fun a fds => (f a).Ensures fds post := by
  change (c.bind f).Ensures fds post ↔ _
  induction c generalizing fds with
  | done a => exact Iff.rfl
  | obtain answer next ih =>
    exact and_congr (ih none) (forall₃_congr fun fd _ _ => ih (some fd))
  | use handle next ih => exact and_congr Iff.rfl ih
  | select handle next ih => exact and_congr Iff.rfl ih
  | close fd next ih => exact and_congr Iff.rfl ih

theorem Ensures.mono {c : Syscalls α} {post' : α → Finset Nat → Prop} (h : c.Ensures fds post)
    (himp : ∀ a fds, post a fds → post' a fds) : c.Ensures fds post' := by
  induction c generalizing fds with
  | done a => exact himp a fds h
  | obtain answer next ih =>
    exact ⟨ih none h.1, fun fd hfd hfree => ih (some fd) (h.2 fd hfd hfree)⟩
  | use handle next ih => exact ⟨h.1, ih h.2⟩
  | select handle next ih => exact ⟨h.1, ih h.2⟩
  | close fd next ih => exact ⟨h.1, ih h.2⟩

/-! What a step of a program needs. -/

section

variable {f : β → Syscalls α}

theorem Ensures.bind {c : Syscalls β} {mid : β → Finset Nat → Prop} (h : c.Ensures fds mid)
    (hf : ∀ b fds, mid b fds → (f b).Ensures fds post) : (c >>= f).Ensures fds post :=
  ensures_bind.mpr (h.mono hf)

theorem Ensures.ite {c : Prop} [Decidable c] {x y : Syscalls α} (hpos : c → x.Ensures fds post)
    (hneg : ¬ c → y.Ensures fds post) : (if c then x else y).Ensures fds post := by
  split_ifs with h
  · exact hpos h
  · exact hneg h

theorem Ensures.grant {answer : Option Nat} {f : Option Nat → Syscalls α}
    (hnone : (f none).Ensures fds post)
    (hsome : ∀ fd, fd ∉ fds → (f (some fd)).Ensures (insert fd fds) post) :
    (Syscalls.grant answer >>= f).Ensures fds post :=
  ⟨hnone, fun fd _ hfree => hsome fd hfree⟩

theorem Ensures.touch {fd : Nat} {f : Unit → Syscalls α} (hfd : fd ∈ fds)
    (h : (f ()).Ensures fds post) : (Syscalls.touch (some fd) >>= f).Ensures fds post :=
  ⟨⟨fd, rfl, .inl hfd⟩, h⟩

theorem Ensures.touch_stream {fd : Nat} {f : Unit → Syscalls α} (hfd : fd < standardStreams)
    (h : (f ()).Ensures fds post) : (Syscalls.touch (some fd) >>= f).Ensures fds post :=
  ⟨⟨fd, rfl, .inr hfd⟩, h⟩

theorem Ensures.await {fd : Nat} {f : Unit → Syscalls α} (hfd : fd ∈ fds)
    (h : (f ()).Ensures fds post) : (Syscalls.await (some fd) >>= f).Ensures fds post :=
  ⟨⟨fd, rfl, hfd⟩, h⟩

theorem Ensures.release {fd : Nat} {f : Unit → Syscalls α} (hfd : fd ∈ fds)
    (h : (f ()).Ensures (fds.erase fd) post) :
    (Syscalls.release (some fd) >>= f).Ensures fds post :=
  ⟨hfd, h⟩

end

/-- What is ensured for one part holds in the table of the process. -/
theorem Ensures.run {ω : Type} [DecidableEq ω] {limit : Nat} (hlimit : limit ≤ fdSetSize)
    {table : Table ω} {who : ω} {c : Syscalls α} (h : c.Ensures fds post)
    (hholds : Holds table who fds) (hlimited : Limited limit table) :
    ∃ a table' fds', c.run limit who table = .ok (a, table') ∧ Holds table' who fds' ∧
      Limited limit table' ∧ post a fds' := by
  induction c generalizing table fds with
  | done a => exact ⟨a, table, fds, rfl, hholds, hlimited, h⟩
  | obtain answer next ih =>
    cases answer with
    | none => exact ih none h.1 hholds hlimited
    | some fd =>
      rw [Syscalls.run]
      split_ifs with hfree
      · have hnot : fd ∉ fds := fun hmem => by simp [(hholds fd).mpr hmem] at hfree
        exact ih (some fd) (h.2 fd rfl hnot) (hholds.grant fd) (hlimited.update fun _ => hfree.1)
      · exact ih none h.1 hholds hlimited
  | use handle next ih =>
    obtain ⟨⟨fd, rfl, hfd⟩, hnext⟩ := h
    have hmay : (some fd).bind table = some who ∨ ∃ n ∈ some fd, n < standardStreams :=
      hfd.imp (hholds fd).mpr fun hstream => ⟨fd, rfl, hstream⟩
    rw [Syscalls.run, if_pos hmay]
    exact ih hnext hholds hlimited
  | select handle next ih =>
    obtain ⟨⟨fd, rfl, hfd⟩, hnext⟩ := h
    have hheld : table fd = some who := (hholds fd).mpr hfd
    have hsmall : fd < fdSetSize := (hlimited fd (by simp [hheld])).2.trans_le hlimit
    rw [Syscalls.run, if_pos ⟨hheld, by simpa using hsmall⟩]
    exact ih hnext hholds hlimited
  | close fd next ih =>
    obtain ⟨hfd, hnext⟩ := h
    rw [Syscalls.run, if_pos ((hholds fd).mpr hfd)]
    exact ih hnext (hholds.release fd) (hlimited.update (by simp))

end Syscalls

/-! ## The parts together -/

section

variable {ω : Type} [DecidableEq ω] {σ κ α : ω → Type}

/-- The limit of a process on its open files, its table of them, and the state of each part. -/
structure Process (σ : ω → Type) where
  limit : Nat
  table : Table ω
  state : ∀ who, σ who

/-- A part of the process answers a call. -/
def Process.call (step : ∀ who, κ who → σ who → Syscalls (α who × σ who)) (p : Process σ)
    (c : Σ who, κ who) : Except Misuse ((Σ who, α who) × Process σ) := do
  let ((answer, state), table) ← (step c.1 c.2 (p.state c.1)).run p.limit c.1 p.table
  return (⟨c.1, answer⟩, ⟨p.limit, table, Function.update p.state c.1 state⟩)

/-- The parts answer calls in some order. -/
def Process.calls (step : ∀ who, κ who → σ who → Syscalls (α who × σ who)) (p : Process σ) :
    List (Σ who, κ who) → Except Misuse (List (Σ who, α who) × Process σ)
  | [] => .ok ([], p)
  | c :: cs => do
    let (answer, p) ← p.call step c
    let (answers, p) ← p.calls step cs
    return (answer :: answers, p)

/-- Every call of a part keeps an invariant on its state and the numbers it holds, and answers
as specified. -/
def Keeps (step : ∀ who, κ who → σ who → Syscalls (α who × σ who))
    (inv : ∀ who, σ who → Finset Nat → Prop)
    (post : ∀ who, κ who → σ who → α who × σ who → Prop) : Prop :=
  ∀ who c s fds, inv who s fds →
    (step who c s).Ensures fds fun r fds' => inv who r.2 fds' ∧ post who c s r

/-- Every part holds numbers that fit its state, and there is room for each of them in a set of
`select`. -/
structure Process.Accounts (inv : ∀ who, σ who → Finset Nat → Prop) (p : Process σ) : Prop where
  limit_le : p.limit ≤ fdSetSize
  limited : Limited p.limit p.table
  holds : ∀ who, ∃ fds, Holds p.table who fds ∧ inv who (p.state who) fds

variable {step : ∀ who, κ who → σ who → Syscalls (α who × σ who)}
  {inv : ∀ who, σ who → Finset Nat → Prop} {post : ∀ who, κ who → σ who → α who × σ who → Prop}
  {p p' : Process σ}

/-- A call changes the state of its own part only, and the table stays in order. -/
theorem Process.Accounts.call (h : p.Accounts inv) (keeps : Keeps step inv post)
    (c : Σ who, κ who) : ∃ r table,
      p.call step c = .ok (⟨c.1, r.1⟩, ⟨p.limit, table, Function.update p.state c.1 r.2⟩) ∧
        Process.Accounts inv ⟨p.limit, table, Function.update p.state c.1 r.2⟩ ∧
          post c.1 c.2 (p.state c.1) r := by
  obtain ⟨fds, hholds, hinv⟩ := h.holds c.1
  obtain ⟨r, table, fds', hrun, hholds', hlimited, hinv', hpost⟩ :=
    (keeps c.1 c.2 _ _ hinv).run h.limit_le hholds h.limited
  refine ⟨r, table, by rw [Process.call, hrun]; rfl, ⟨h.limit_le, hlimited, fun who => ?_⟩, hpost⟩
  rcases eq_or_ne who c.1 with rfl | hne
  · exact ⟨fds', hholds', by simpa using hinv'⟩
  · obtain ⟨others, hothers, hinvo⟩ := h.holds who
    exact ⟨others, (Syscalls.frames hrun).holds hne hothers, by simpa [hne] using hinvo⟩

/-- Parts that are in order one by one are in order together: in no order of their calls does
one of them go wrong. -/
theorem Process.Accounts.calls (h : p.Accounts inv) (keeps : Keeps step inv post)
    (cs : List (Σ who, κ who)) :
    ∃ answers p', p.calls step cs = .ok (answers, p') ∧ p'.Accounts inv := by
  induction cs generalizing p with
  | nil => exact ⟨[], p, rfl, h⟩
  | cons c cs ih =>
    obtain ⟨r, table, hcall, h', -⟩ := h.call keeps c
    obtain ⟨answers, p'', hcalls, h''⟩ := ih h'
    refine ⟨⟨c.1, r.1⟩ :: answers, p'', ?_, h''⟩
    rw [Process.calls, hcall]
    change Except.bind (Process.calls step _ cs) _ = _
    rw [hcalls]
    rfl

/-- The entries of a list that belong to a part. -/
def entries (who : ω) {β : ω → Type} (l : List (Σ who, β who)) : List (β who) :=
  l.filterMap fun e => if h : e.1 = who then some (h ▸ e.2) else none

section

variable {β : ω → Type} {who : ω} {l : List (Σ who, β who)}

@[simp] theorem entries_nil : entries who ([] : List (Σ who, β who)) = [] := rfl

end

end

end Federated.Library
