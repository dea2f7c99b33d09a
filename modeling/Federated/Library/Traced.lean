import Mathlib.Tactic.Common

/-!
# Computations that record what they read

A computation gives a value and the list of the places it has read on the way. Two
computations one after the other read what both of them read.
-/

namespace Federated.Library

structure Traced (ι α : Type*) where
  reads : List ι
  value : α
  deriving DecidableEq, Repr

namespace Traced

universe u v

variable {ι : Type u} {α β : Type v}

/-- Read a place. -/
def read (place : ι) (value : α) : Traced ι α := ⟨[place], value⟩

/-- Read some places. -/
def readAll (places : List ι) (value : α) : Traced ι α := ⟨places, value⟩

instance : Monad (Traced ι) where
  pure value := ⟨[], value⟩
  bind c f := ⟨c.reads ++ (f c.value).reads, (f c.value).value⟩

/-- Only places with a property are read. -/
def Within (p : ι → Prop) (c : Traced ι α) : Prop := ∀ place ∈ c.reads, p place

@[simp] theorem value_read (place : ι) (value : α) : (read place value).value = value := rfl

@[simp] theorem value_readAll (places : List ι) (value : α) :
    (readAll places value).value = value := rfl

@[simp] theorem value_pure (value : α) : (pure value : Traced ι α).value = value := rfl

@[simp] theorem value_bind (c : Traced ι α) (f : α → Traced ι β) :
    (c >>= f).value = (f c.value).value := rfl

variable {p : ι → Prop}

@[simp] theorem within_read {place : ι} {value : α} : (read place value).Within p ↔ p place := by
  simp [Within, read]

@[simp] theorem within_readAll {places : List ι} {value : α} :
    (readAll places value).Within p ↔ ∀ place ∈ places, p place := Iff.rfl

@[simp] theorem within_pure (value : α) : (pure value : Traced ι α).Within p := nofun

@[simp] theorem within_bind {c : Traced ι α} {f : α → Traced ι β} :
    (c >>= f).Within p ↔ c.Within p ∧ (f c.value).Within p :=
  List.forall_mem_append

end Traced

end Federated.Library
