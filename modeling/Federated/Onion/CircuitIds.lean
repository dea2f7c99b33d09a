import Federated.Onion.CircuitLog

/-!
# Identifiers of circuits

The counter that numbers the circuits comes back to a number after `2 ^ 32` of them,
and is not compared with the circuits that are still there.
-/

namespace Federated.Onion

open Crypto Library

namespace SimpleOnionRouter

variable {router : SimpleOnionRouter} {log : CircuitLog}

/-- In every state of a run the live circuits have distinct identifiers. -/
def DistinctIds (calls : List CircuitCall) : Prop :=
  ∀ pre, pre <+: calls → (after step new pre).liveIds.Nodup

/-- If the call creates a circuit, none of those that live was created a multiple of `2 ^ 32`
circuits before it. -/
def Spaced (router : SimpleOnionRouter) (log : CircuitLog) : CircuitCall → Prop
  | .create hops outCircuit _ => Accepts router hops outCircuit →
      ∀ e ∈ log.live, (log.created.length - e.2) % 2 ^ 32 ≠ 0
  | .destroy _ => True

/-- That is so whenever a circuit is created. -/
def SpacedThroughout (calls : List CircuitCall) : Prop :=
  ∀ pre call, pre ++ [call] <+: calls → Spaced (after step new pre) (logAfter pre) call

/-- Distinct identifiers stay distinct exactly if the call keeps its distance. -/
theorem Recorded.nodup_iff {call : CircuitCall} (h : Recorded router log)
    (hfits : router.Fits call) (hnodup : router.liveIds.Nodup) :
    (router.step call).2.liveIds.Nodup ↔ Spaced router log call := by
  refine hfits.cases (motive := fun call =>
    (router.step call).2.liveIds.Nodup ↔ Spaced router log call) ?_ ?_ ?_
    (iff_of_true hnodup trivial)
  · intro nodes out a hfresh haccepts
    obtain ⟨router', hcreate, hheap, -⟩ := h.create hfresh haccepts
    have hids : (router.step (.create (some nodes) (some out) a)).2.liveIds =
        router.liveIds ++ [nthId log.created.length] := by
      simp [SimpleOnionRouter.step, hcreate, liveIds, hheap, nextCircuit, h.next]
    have hnew : (router.liveIds ++ [nthId log.created.length]).Nodup ↔
        nthId log.created.length ∉ router.liveIds := by
      rw [← List.concat_eq_append, List.nodup_concat, and_iff_left hnodup]
    rw [hids, hnew, h.liveIds_eq, List.mem_map]
    simp only [Spaced, haccepts, true_implies, not_exists, not_and]
    refine forall₂_congr fun e he => ?_
    rw [ne_eq, nthId_eq_iff (h.before e he).le]
  · intro hops outCircuit a hrefused
    obtain ⟨code, -, hcreate⟩ := createCircuit_refused (a := a) h.sound hrefused
    simpa [SimpleOnionRouter.step, hcreate, Spaced, hrefused] using hnodup
  · intro a ha
    obtain ⟨router', hdestroy, hheap, -⟩ := h.destroy ha
    have hids : (router.step (.destroy (some a))).2.liveIds.Sublist router.liveIds := by
      simp only [SimpleOnionRouter.step, hdestroy, liveIds, hheap]
      exact List.filter_sublist.map _
    exact iff_of_true (hnodup.sublist hids) trivial

/-- The live circuits always have distinct identifiers exactly if none is created a multiple of
`2 ^ 32` circuits after one that still lives. -/
theorem distinctIds_iff (calls : List CircuitCall) (h : Along step Fits new calls) :
    DistinctIds calls ↔ SpacedThroughout calls := by
  refine forall_isPrefix_iff (by simp [liveIds, new]) fun pre call hpre hnodup => ?_
  obtain ⟨post, rfl⟩ := hpre
  rw [along_append, along_append] at h
  obtain ⟨⟨hbefore, hfits, -⟩, -⟩ := h
  rw [after_append, after_cons, after_nil]
  exact (recorded_after hbefore).nodup_iff hfits hnodup

/-- A run of at most `2 ^ 32` calls is too short for the counter to come back. -/
theorem spacedThroughout_of_length {calls : List CircuitCall} (h : Along step Fits new calls)
    (hlength : calls.length ≤ 2 ^ 32) : SpacedThroughout calls := by
  intro pre call hpre
  have hshort : pre.length < calls.length := by
    have hle := hpre.length_le
    rwa [List.length_append, List.length_singleton] at hle
  cases call with
  | destroy circuit => trivial
  | create hops outCircuit a =>
    intro haccepts e he
    obtain ⟨post, rfl⟩ := (List.prefix_append pre _).trans hpre
    rw [along_append] at h
    have hbefore := (recorded_after h.1).before e he
    have hcreated : (logAfter pre).created.length ≤ 0 + pre.length :=
      length_created_le pre new ⟨[], []⟩
    omega

/-- A circuit that stays while another one is created and destroyed. -/
theorem distinctIds_three : DistinctIds
    [.create (some [default]) (some none) 0, .create (some [default]) (some none) 1,
      .destroy (some 1)] := by
  have hfits : Along step Fits new [.create (some [default]) (some none) 0,
      .create (some [default]) (some none) 1, .destroy (some 1)] := by
    refine ⟨?_, ?_, ?_, trivial⟩
    · simp [Fits, live, new]
    · show 1 ∉ _
      decide
    · rintro a ⟨⟩
      decide
  exact (distinctIds_iff _ hfits).mpr (spacedThroughout_of_length hfits (by decide))

/-- A circuit that stays while `n` others are created and destroyed. -/
def longLived (n : Nat) : List CircuitCall :=
  .create (some [default]) (some none) 0 :: turnover [default] 1 n

theorem longLived_recorded (n : Nat) :
    Along step Fits new (longLived n) ∧ (after step new (longLived n)).live = [0] ∧
      ∃ circuits : List Circuit, circuits.length = n + 1 ∧
        logAfter (longLived n) = ⟨circuits, [(0, 0)]⟩ := by
  have hfresh : 0 ∉ new.live := by simp [live, new]
  obtain ⟨router, hcreate, hheap, hadd, hrecorded⟩ := recorded_new.create hfresh
    ⟨[default], none, rfl, rfl, by decide, by decide, by decide⟩
  have hstep : (new.step (.create (some [default]) (some none) 0)).2 = router := by
    simp [step, hcreate]
  have hlive : router.live = [0] := by simp [live, hheap, new]
  obtain ⟨hfits, hheap', circuits, hcircuits, hlog⟩ := turnover_recorded hrecorded (a := 1)
    (by simp [hlive]) ⟨[default], none, rfl, rfl, by decide, by decide, by rw [hlive]; decide⟩ n
  have hlength : circuits.length = n := by
    simpa using congrArg List.length hcircuits
  refine ⟨⟨hfresh, by rwa [hstep]⟩, ?_, nextCircuit new [default] :: circuits,
    by simp [hlength], ?_⟩
  · rw [longLived, after_cons, hstep, live, hheap', ← live, hlive]
  · rw [logAfter, longLived, record, hadd, hstep, hlog]
    rfl

/-- The next circuit behind them. -/
def oneMore : CircuitCall := .create (some [default]) (some none) 2

theorem oneMore_spaced (n : Nat) :
    Along step Fits new (longLived n ++ [oneMore]) ∧
      (DistinctIds (longLived n ++ [oneMore]) → (n + 1) % 2 ^ 32 ≠ 0) := by
  obtain ⟨hbefore, hlive, circuits, hlength, hlog⟩ := longLived_recorded n
  have hfits : Fits (after step new (longLived n)) oneMore := by simp [Fits, oneMore, hlive]
  have haccepts : Accepts (after step new (longLived n)) (some [default]) (some none) :=
    ⟨_, _, rfl, rfl, by decide, by decide, by rw [hlive]; decide⟩
  refine ⟨along_append.mpr ⟨hbefore, hfits, trivial⟩, fun hdistinct => ?_⟩
  have hnodup := hdistinct _ (List.prefix_append _ [oneMore])
  have hnodup' := hdistinct _ (List.prefix_refl _)
  rw [after_append, after_cons, after_nil] at hnodup'
  have hrecorded := recorded_after hbefore
  have hspaced := (hrecorded.nodup_iff hfits hnodup).mp hnodup' haccepts
  rw [hlog, hlength] at hspaced
  exact hspaced (0, 0) List.mem_cons_self

/-- When the counter has come around, a new circuit gets the identifier of the first. -/
theorem not_distinctIds_longLived :
    Along step Fits new (longLived (2 ^ 32 - 1) ++ [oneMore]) ∧
      ¬ DistinctIds (longLived (2 ^ 32 - 1) ++ [oneMore]) := by
  obtain ⟨hfits, hspaced⟩ := oneMore_spaced (2 ^ 32 - 1)
  exact ⟨hfits, fun h => hspaced h (by decide)⟩

end SimpleOnionRouter

end Federated.Onion
