import Mathlib.Data.List.Range

/-!
# Times with a distance

Times of which each is some distance behind the one before it come at a limited rate:
a window of a given length holds no more than a number of them, if that many distances
are as long as the window. Times at exactly that distance exceed every smaller rate.
-/

namespace Federated.Library.Pacing

variable {d n length : Nat} {times : List Nat}

/-- Each time is at least `d` behind those before it. -/
def Spaced (d : Nat) (times : List Nat) : Prop := times.Pairwise fun a b => a + d ≤ b

/-- No window of some length holds more than `n` of the times. -/
def Paced (length n : Nat) (times : List Nat) : Prop :=
  ∀ start, (times.filter fun t => start ≤ t ∧ t < start + length).length ≤ n

/-- Times from `start` on at exactly some distance. -/
def progression (start d : Nat) : Nat → List Nat
  | 0 => []
  | k + 1 => start :: progression (start + d) d k

@[simp] theorem length_progression (start k : Nat) : (progression start d k).length = k := by
  induction k generalizing start with
  | zero => rfl
  | succ k ih => rw [progression, List.length_cons, ih]

/-- Spaced times from `start` on reach at least as far as that many distances. -/
theorem Spaced.last_le {start stop : Nat} (h : Spaced d times) (hne : times ≠ [])
    (hwindow : ∀ t ∈ times, start ≤ t ∧ t < stop) : start + times.length * d < stop + d := by
  induction times generalizing start with
  | nil => exact absurd rfl hne
  | cons t times ih =>
    obtain ⟨hnext, hrest⟩ := List.pairwise_cons.mp h
    obtain ⟨hstart, hstop⟩ := hwindow t List.mem_cons_self
    rw [List.length_cons, Nat.succ_mul]
    rcases List.eq_nil_or_concat times with rfl | ⟨_, _, hconcat⟩
    · simpa using Nat.lt_of_le_of_lt hstart hstop
    · have hlater : ∀ u ∈ times, t + d ≤ u ∧ u < stop := fun u hu =>
        ⟨hnext u hu, (hwindow u (List.mem_cons_of_mem t hu)).2⟩
      have := ih hrest (by simp [hconcat]) hlater
      omega

/-- Spaced times come at a limited rate. -/
theorem Spaced.paced (h : Spaced d times) (hlength : length ≤ n * d) : Paced length n times := by
  intro start
  set inside := times.filter fun t => start ≤ t ∧ t < start + length with hinside
  rcases List.eq_nil_or_concat inside with hnil | ⟨_, _, hconcat⟩
  · simp [hnil]
  · have hspaced : Spaced d inside := List.Pairwise.filter _ h
    have hwindow : ∀ t ∈ inside, start ≤ t ∧ t < start + length := fun t ht => by
      simpa using (List.mem_filter.mp ht).2
    have hlast := hspaced.last_le (by simp [hconcat]) hwindow
    by_contra hmore
    have hmany : (n + 1) * d ≤ inside.length * d := Nat.mul_le_mul_right d (by omega)
    rw [Nat.succ_mul] at hmany
    omega

theorem mem_progression {start k t : Nat} (h : t ∈ progression start d (k + 1)) :
    start ≤ t ∧ t ≤ start + k * d := by
  induction k generalizing start with
  | zero =>
    rw [progression, progression, List.mem_singleton] at h
    omega
  | succ k ih =>
    rw [progression] at h
    rw [Nat.succ_mul]
    rcases List.mem_cons.mp h with rfl | h
    · omega
    · have := ih h
      omega

/-- More times at a distance than fill a window exceed the rate. -/
theorem not_paced_progression {start : Nat} (h : n * d < length) :
    ¬ Paced length n (progression start d (n + 1)) := by
  intro hpaced
  have hall : (progression start d (n + 1)).filter (fun t => start ≤ t ∧ t < start + length) =
      progression start d (n + 1) := by
    rw [List.filter_eq_self]
    intro t ht
    have := mem_progression ht
    simp only [Bool.decide_and, Bool.and_eq_true, decide_eq_true_eq]
    omega
  have := hpaced start
  rw [hall, length_progression] at this
  omega

end Federated.Library.Pacing
