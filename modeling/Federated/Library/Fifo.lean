import Mathlib.Data.List.Basic

/-!
# First in, first out

Runs of a queue over events that put something in or take the front out. What
comes out of a run that never takes from an empty queue is what went in, in order.
-/

namespace Federated.Library

inductive QueueEvent (α : Type*) where
  | push (a : α)
  | pop
  deriving DecidableEq

namespace QueueEvent

variable {α : Type*}

/-- What the events put in. -/
def pushed (events : List (QueueEvent α)) : List α :=
  events.filterMap fun
    | push a => some a
    | pop => none

/-- How many events take something out. -/
def pops (events : List (QueueEvent α)) : Nat :=
  events.countP fun
    | push _ => false
    | pop => true

/-- Starting with `n` elements, no event takes from an empty queue. -/
def Balanced : Nat → List (QueueEvent α) → Prop
  | _, [] => True
  | n, push _ :: events => Balanced (n + 1) events
  | 0, pop :: _ => False
  | n + 1, pop :: events => Balanced n events

/-- Run a queue: what came out, and what is still in it. -/
def runQueue : List α → List (QueueEvent α) → Option (List α × List α)
  | queue, [] => some ([], queue)
  | queue, push a :: events => runQueue (queue ++ [a]) events
  | [], pop :: _ => none
  | a :: queue, pop :: events => (runQueue queue events).map fun r => (a :: r.1, r.2)

@[simp] theorem pushed_nil : pushed ([] : List (QueueEvent α)) = [] := rfl
@[simp] theorem pushed_push (a : α) (events : List (QueueEvent α)) :
    pushed (push a :: events) = a :: pushed events := rfl
@[simp] theorem pushed_pop (events : List (QueueEvent α)) :
    pushed (pop :: events) = pushed events := rfl
@[simp] theorem pops_nil : pops ([] : List (QueueEvent α)) = 0 := rfl
@[simp] theorem pops_push (a : α) (events : List (QueueEvent α)) :
    pops (push a :: events) = pops events := by simp [pops]
@[simp] theorem pops_pop (events : List (QueueEvent α)) :
    pops (pop :: events) = pops events + 1 := by simp [pops]

/-- A balanced run takes out the first of what was in the queue and went in. -/
theorem exists_runQueue {queue : List α} {events : List (QueueEvent α)}
    (h : Balanced queue.length events) : ∃ out rest, runQueue queue events = some (out, rest) ∧
      out ++ rest = queue ++ pushed events ∧ out.length = pops events := by
  induction events generalizing queue with
  | nil => exact ⟨[], queue, rfl, by simp, rfl⟩
  | cons event events ih =>
    cases event with
    | push a =>
      have h : Balanced (queue ++ [a]).length events := by simpa [Balanced] using h
      obtain ⟨out, rest, hrun, horder, hcount⟩ := ih h
      exact ⟨out, rest, hrun, by simpa using horder, by simpa using hcount⟩
    | pop =>
      cases queue with
      | nil => exact h.elim
      | cons a queue =>
        have h : Balanced queue.length events := h
        obtain ⟨out, rest, hrun, horder, hcount⟩ := ih h
        exact ⟨a :: out, rest, by simp [runQueue, hrun], by simpa using horder,
          by simpa using hcount⟩

end QueueEvent

end Federated.Library
