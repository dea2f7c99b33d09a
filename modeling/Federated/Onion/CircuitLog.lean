import Federated.Onion.CircuitLife

/-!
# What a run of the onion router creates

A record of the circuits that a run creates, and of how many were created before
each of the live ones. Identifiers count them, from one, as far as 32 bits go.
-/

namespace Federated.Onion

open Crypto Library

namespace SimpleOnionRouter

variable {router : SimpleOnionRouter} {a : Address}

/-- The circuits a run creates, in order, and where those that live lie, each with the number of
those that were created before it. -/
structure CircuitLog where
  created : List Circuit
  live : List (Address × Nat)

def CircuitLog.add (log : CircuitLog) (router : SimpleOnionRouter) : CircuitCall → CircuitLog
  | .create hops outCircuit allocated =>
    match router.createCircuit hops outCircuit allocated with
    | (.ok, _, router') =>
      ⟨log.created ++ (router'.circuitAt allocated).toList,
        log.live ++ [(allocated, log.created.length)]⟩
    | _ => log
  | .destroy circuit =>
    match router.destroyCircuit circuit with
    | .ok (.ok, _) => { log with live := log.live.filter fun e => circuit ≠ some e.1 }
    | _ => log

/-- The record of a run of a new router. -/
def logAfter (calls : List CircuitCall) : CircuitLog :=
  record step CircuitLog.add ⟨[], []⟩ new calls

/-- The identifiers of the live circuits. -/
def liveIds (router : SimpleOnionRouter) : List UInt32 := router.heap.map fun e => e.2.circuitId

/-- The identifier of a circuit before which `n` others were created. -/
def nthId (n : Nat) : UInt32 := .ofNat (n + 1)

theorem nthId_succ (n : Nat) : nthId n + 1 = nthId (n + 1) := (UInt32.ofNat_add (n + 1) 1).symm

theorem nthId_eq_iff {k n : Nat} (h : k ≤ n) : nthId k = nthId n ↔ (n - k) % 2 ^ 32 = 0 := by
  rw [nthId, nthId, UInt32.ofNat_eq_iff_mod_eq_toNat, UInt32.toNat_ofNat']
  omega

/-- A call creates at most one circuit. -/
theorem CircuitLog.length_add_le (log : CircuitLog) (router : SimpleOnionRouter)
    (call : CircuitCall) : (log.add router call).created.length ≤ log.created.length + 1 := by
  cases call with
  | create hops outCircuit a =>
    simp only [add]
    split
    · rw [List.length_append]
      exact Nat.add_le_add_left Option.length_toList_le _
    · exact Nat.le_succ _
  | destroy circuit =>
    simp only [add]
    split <;> exact Nat.le_succ _

theorem length_created_le (calls : List CircuitCall) (router : SimpleOnionRouter)
    (log : CircuitLog) :
    (record step CircuitLog.add log router calls).created.length ≤
      log.created.length + calls.length := by
  induction calls generalizing router log with
  | nil => exact Nat.le_refl _
  | cons call calls ih =>
    have hcall := log.length_add_le router call
    have hrest := ih (router.step call).2 (log.add router call)
    rw [record, List.length_cons]
    omega

/-- The log of a run fits the state behind it. -/
structure Recorded (router : SimpleOnionRouter) (log : CircuitLog) : Prop where
  sound : Sound router
  next : router.nextCircuitId = nthId log.created.length
  numbered : log.created.map Circuit.circuitId = (List.range log.created.length).map nthId
  bounded : ∀ c ∈ log.created, c.hops.length ≤ 10
  lives : router.heap.map (fun e => (e.1, e.2.circuitId)) = log.live.map fun e => (e.1, nthId e.2)
  before : ∀ e ∈ log.live, e.2 < log.created.length

theorem recorded_new : Recorded new ⟨[], []⟩ where
  sound := sound_new
  next := rfl
  numbered := rfl
  bounded := by simp
  lives := rfl
  before := by simp

namespace Recorded

variable {log : CircuitLog}

theorem live_eq (h : Recorded router log) : router.live = log.live.map Prod.fst := by
  have hlives := congrArg (List.map Prod.fst) h.lives
  simpa [live, Function.comp_def] using hlives

theorem liveIds_eq (h : Recorded router log) :
    router.liveIds = log.live.map fun e => nthId e.2 := by
  have hlives := congrArg (List.map Prod.snd) h.lives
  simpa [liveIds, Function.comp_def] using hlives

/-- Creating a circuit gives it the next number. -/
theorem create {nodes : List Node} {out : Option Address} (h : Recorded router log)
    (hfresh : a ∉ router.live) (haccepts : Accepts router (some nodes) (some out)) :
    ∃ router', createCircuit (some nodes) (some out) a router = (.ok, some (some a), router') ∧
      router'.heap = router.heap ++ [(a, router.nextCircuit nodes)] ∧
      log.add router (.create (some nodes) (some out) a) =
        ⟨log.created ++ [router.nextCircuit nodes], log.live ++ [(a, log.created.length)]⟩ ∧
      Recorded router'
        ⟨log.created ++ [router.nextCircuit nodes], log.live ++ [(a, log.created.length)]⟩ := by
  obtain ⟨router', hcreate, hsound, hheap, hnext⟩ :=
    createCircuit_accepted h.sound hfresh haccepts
  have hid : (router.nextCircuit nodes).circuitId = nthId log.created.length := h.next
  have hat : router'.circuitAt a = some (router.nextCircuit nodes) := by
    rw [circuitAt_allocated hfresh hheap, if_pos rfl]
  refine ⟨router', hcreate, hheap, by simp [CircuitLog.add, hcreate, hat], hsound,
    ?_, ?_, ?_, ?_, ?_⟩
  · rw [hnext, h.next, nthId_succ, List.length_append, List.length_singleton]
  · simp [List.range_succ, h.numbered, hid]
  · obtain ⟨_, _, ⟨⟩, -, -, hle, -⟩ := haccepts
    intro c hc
    rcases List.mem_append.mp hc with hc | hc
    · exact h.bounded c hc
    · obtain rfl := List.mem_singleton.mp hc
      exact hle
  · rw [hheap, List.map_append, List.map_append, h.lives]
    simp [hid]
  · intro e he
    rw [List.length_append, List.length_singleton]
    rcases List.mem_append.mp he with he | he
    · exact Nat.lt_succ_of_lt (h.before e he)
    · obtain rfl := List.mem_singleton.mp he
      exact Nat.lt_succ_self _

theorem add_refused {hops : Option (List Node)} {outCircuit : Option (Option Address)}
    (h : Sound router) (hrefused : ¬ Accepts router hops outCircuit) (log : CircuitLog) :
    log.add router (.create hops outCircuit a) = log := by
  obtain ⟨code, hcode, hcreate⟩ := createCircuit_refused (a := a) h hrefused
  simp only [CircuitLog.add, hcreate]
  split
  case h_1 heq =>
    cases heq
    exact absurd rfl hcode
  case h_2 => rfl

/-- Destroying one takes it out of those that live. -/
theorem destroy (h : Recorded router log) (ha : a ∈ router.live) :
    ∃ router', destroyCircuit (some a) router = .ok (.ok, router') ∧
      router'.heap = router.heap.filter (fun e => e.1 ≠ a) ∧
      log.add router (.destroy (some a)) =
        { log with live := log.live.filter fun e => e.1 ≠ a } ∧
      Recorded router' { log with live := log.live.filter fun e => e.1 ≠ a } := by
  obtain ⟨router', hdestroy, hsound, hheap, hnext⟩ := destroyCircuit_live h.sound ha
  refine ⟨router', hdestroy, hheap, ?_, hsound, hnext.trans h.next, h.numbered, h.bounded, ?_, ?_⟩
  · simp only [CircuitLog.add, hdestroy]
    simp [eq_comm]
  · have hlives := congrArg (List.filter fun e => e.1 ≠ a) h.lives
    rw [List.filter_map, List.filter_map] at hlives
    rw [hheap]
    exact hlives
  · intro e he
    exact h.before e (List.mem_of_mem_filter he)

/-- Every call keeps the log in line with the state. -/
theorem step {call : CircuitCall} (h : Recorded router log) (hfits : router.Fits call) :
    Recorded (router.step call).2 (log.add router call) := by
  refine hfits.cases (motive := fun call => Recorded (router.step call).2 (log.add router call))
    ?_ ?_ ?_ h
  · intro nodes out a hfresh haccepts
    obtain ⟨router', hcreate, -, hadd, hrecorded⟩ := h.create hfresh haccepts
    simpa [SimpleOnionRouter.step, hcreate, hadd] using hrecorded
  · intro hops outCircuit a hrefused
    obtain ⟨code, -, hcreate⟩ := createCircuit_refused (a := a) h.sound hrefused
    simpa [SimpleOnionRouter.step, hcreate, add_refused h.sound hrefused] using h
  · intro a ha
    obtain ⟨router', hdestroy, -, hadd, hrecorded⟩ := h.destroy ha
    simpa [SimpleOnionRouter.step, hdestroy, hadd] using hrecorded

theorem run {calls : List CircuitCall} (h : Recorded router log)
    (hfits : Along SimpleOnionRouter.step Fits router calls) :
    Recorded (after SimpleOnionRouter.step router calls)
      (record SimpleOnionRouter.step CircuitLog.add log router calls) :=
  hfits.invariant Recorded (fun _ _ _ => Recorded.step) h

end Recorded

theorem recorded_after {calls : List CircuitCall} (h : Along step Fits new calls) :
    Recorded (after step new calls) (logAfter calls) :=
  recorded_new.run h

/-! ## Circuits that do not last -/

/-- Create a circuit and destroy it, a number of times, in the same memory. -/
def turnover (nodes : List Node) (a : Address) (n : Nat) : List CircuitCall :=
  (List.replicate n [.create (some nodes) (some none) a, .destroy (some a)]).flatten

variable {log : CircuitLog} {nodes : List Node}

/-- Doing so once leaves a new circuit in the record and the other circuits alone. -/
theorem turnover_one (h : Recorded router log) (hfresh : a ∉ router.live)
    (haccepts : Accepts router (some nodes) (some none)) :
    let calls := [.create (some nodes) (some none) a, .destroy (some a)]
    Along step Fits router calls ∧ (after step router calls).heap = router.heap ∧
      ∃ c, c.hops = nodes ∧
        record step CircuitLog.add log router calls = ⟨log.created ++ [c], log.live⟩ := by
  intro calls
  obtain ⟨router', hcreate, hheap, hadd, hrecorded⟩ := h.create hfresh haccepts
  have hlive : a ∈ router'.live := by simp [live, hheap]
  obtain ⟨router'', hdestroy, hheap', hadd', -⟩ := hrecorded.destroy hlive
  have hfirst : (router.step (.create (some nodes) (some none) a)).2 = router' := by
    simp [step, hcreate]
  have hsecond : (router'.step (.destroy (some a))).2 = router'' := by
    simp [step, hdestroy]
  have hothers : ∀ e ∈ log.live, e.1 ≠ a := by
    rintro e he rfl
    exact hfresh (h.live_eq ▸ List.mem_map_of_mem he)
  refine ⟨⟨hfresh, ?_, trivial⟩, ?_, router.nextCircuit nodes, rfl, ?_⟩
  · rw [hfirst]
    rintro _ ⟨⟩
    exact hlive
  · rw [after_cons, hfirst, after_cons, hsecond, after_nil, hheap', hheap]
    rw [List.filter_append, List.filter_eq_self.mpr]
    · simp
    · rintro e he
      simpa using fun heq : e.1 = a => hfresh (List.mem_map.mpr ⟨e, he, heq⟩)
  · rw [record, hadd, hfirst, record, hadd', record, List.filter_append,
      List.filter_eq_self.mpr (by simpa using hothers)]
    simp

theorem turnover_recorded (h : Recorded router log) (hfresh : a ∉ router.live)
    (haccepts : Accepts router (some nodes) (some none)) (n : Nat) :
    Along step Fits router (turnover nodes a n) ∧
      (after step router (turnover nodes a n)).heap = router.heap ∧
      ∃ circuits : List Circuit, circuits.map Circuit.hops = List.replicate n nodes ∧
        record step CircuitLog.add log router (turnover nodes a n) =
          ⟨log.created ++ circuits, log.live⟩ := by
  induction n generalizing router log with
  | zero => exact ⟨trivial, rfl, [], rfl, by simp [turnover, record]⟩
  | succ n ih =>
    obtain ⟨hfits, hheap, c, hc, hlog⟩ := turnover_one h hfresh haccepts
    have hrecorded := h.run hfits
    rw [hlog] at hrecorded
    have hlive : live (after step router [.create (some nodes) (some none) a, .destroy (some a)]) =
        router.live := by rw [live, hheap, live]
    obtain ⟨hfits', hheap', circuits, hcircuits, hlog'⟩ :=
      ih hrecorded (by rwa [hlive]) (by rwa [Accepts, hlive])
    have hsplit : turnover nodes a (n + 1) =
        [.create (some nodes) (some none) a, .destroy (some a)] ++ turnover nodes a n := by
      rw [turnover, List.replicate_succ, List.flatten_cons,
        turnover]
    rw [hsplit, along_append, after_append, record_append, hlog, hlog', hheap', hheap]
    refine ⟨⟨hfits, hfits'⟩, rfl, c :: circuits, ?_, by simp⟩
    rw [List.map_cons, hc, hcircuits, List.replicate_succ]

end SimpleOnionRouter

end Federated.Onion
