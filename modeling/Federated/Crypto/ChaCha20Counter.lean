import Federated.Crypto.ChaCha20Refinement

/-!
# The block counter of ChaCha20

The counter is a word of 32 bits, taken from the end of the key buffer, and the
loop counts it up without looking at it. It stays at or above the counter that
was asked for as long as that counter and the blocks behind it fit into the word.
-/

namespace Federated.Crypto

open Library

/-- The number of blocks that `size` bytes of data are cut into. -/
def blockCount (size : Nat) : Nat := (size + 63) / 64

/-- The counters of the blocks that `cryptLoop` makes, in order. -/
def cryptCounters (state : State) (data : Bytes) : List UInt32 :=
  if _h : data = [] then [] else state[12] :: cryptCounters (nextCounter state) (data.drop 64)
termination_by data.length
decreasing_by
  have := List.length_pos_iff.mpr _h
  simp
  omega

/-- The blocks that the loop combines the data with are those of its counters. -/
theorem cryptLoop_counters (state : State) (data : Bytes) :
    cryptLoop state data = xorBytes data
      ((cryptCounters state data).flatMap fun c => chacha20Block (state.set 12 c)) := by
  induction state, data using cryptLoop.induct with
  | case1 state =>
    rw [cryptLoop, cryptCounters]
    simp [xorBytes]
  | case2 state data h ih =>
    have hset (c : UInt32) : (nextCounter state).set 12 c = state.set 12 c := by
      simp [nextCounter]
    have hfirst : state.set 12 state[12] = state := by simp
    conv_rhs => rw [cryptCounters, dif_neg h, List.flatMap_cons, hfirst]
    rw [cryptLoop, dif_neg h, ih, xorBytes_append, length_chacha20Block]
    simp only [hset]

theorem nextCounter_counter (state : State) : (nextCounter state)[12] = state[12] + 1 := by
  simp [nextCounter]

/-- The counters count up from the first one, in 32 bits. -/
theorem cryptCounters_eq (state : State) (data : Bytes) : cryptCounters state data =
    (List.range (blockCount data.length)).map fun j => state[12] + UInt32.ofNat j := by
  induction state, data using cryptCounters.induct with
  | case1 state =>
    rw [cryptCounters]
    simp [blockCount]
  | case2 state data h ih =>
    have hpos := List.length_pos_iff.mpr h
    have hcount : blockCount data.length = blockCount (data.drop 64).length + 1 := by
      simp only [blockCount, List.length_drop]
      omega
    rw [cryptCounters, dif_neg h, ih, hcount, List.range_succ_eq_map, List.map_cons, List.map_map]
    congr 1
    · simp
    · apply List.map_congr_left
      intro j _
      rw [nextCounter_counter, Function.comp_apply, Nat.succ_eq_add_one, UInt32.ofNat_add,
        UInt32.add_assoc, UInt32.add_comm (UInt32.ofNat j)]
      rfl

/-- The counters of a call are `c0`, `c0 + 1` and so on as numbers, so that none is below the one
that was asked for. -/
structure NeverWraps (key data : Bytes) : Prop where
  counts : (cryptCounters (initialState key) data).map UInt32.toNat =
    List.range' (startCounter key).toNat (blockCount data.length)
  notBelow : ∀ c ∈ cryptCounters (initialState key) data, startCounter key ≤ c

/-- The counter does not wrap exactly if the blocks fit between the counter that was asked for and
the end of the word. -/
theorem neverWraps_iff {data key : Bytes} {output result : Buffer}
    (h : chacha20Crypt data key output = .ok (.ok, result)) :
    NeverWraps key data ↔ (startCounter key).toNat + blockCount data.length ≤ 2 ^ 32 := by
  have hkey : 44 ≤ key.length ∧ key.length ≤ 48 := by grind [chacha20Crypt]
  have hstart : (initialState key)[12] = startCounter key := initialState_counter hkey.1 hkey.2
  have hlt := (startCounter key).toNat_lt
  constructor
  · intro hnever
    rcases Nat.eq_zero_or_pos (blockCount data.length) with hzero | hpos
    · omega
    · -- The last counter is a number of 32 bits.
      have hlast : (startCounter key).toNat + (blockCount data.length - 1) ∈
          List.range' (startCounter key).toNat (blockCount data.length) := by
        rw [List.mem_range'_1]
        omega
      rw [← hnever.counts, List.mem_map] at hlast
      obtain ⟨c, -, hc⟩ := hlast
      have := c.toNat_lt
      omega
  · intro hfits
    have hcount (j : Nat) (hj : j < blockCount data.length) :
        (startCounter key + UInt32.ofNat j).toNat = (startCounter key).toNat + j := by
      have hj' : j < UInt32.size := by
        change j < 2 ^ 32
        omega
      rw [UInt32.toNat_add, UInt32.toNat_ofNat_of_lt' hj']
      exact Nat.mod_eq_of_lt (by omega)
    constructor
    · rw [cryptCounters_eq, hstart, List.map_map, List.range'_eq_map_range]
      exact List.map_congr_left fun j hj => hcount j (List.mem_range.mp hj)
    · intro c hc
      rw [cryptCounters_eq, hstart, List.mem_map] at hc
      obtain ⟨j, hj, rfl⟩ := hc
      rw [UInt32.le_iff_toNat_le, hcount j (List.mem_range.mp hj)]
      exact Nat.le_add_right _ _

/-- Two blocks of zeros, from the counter zero on. -/
theorem neverWraps_two_blocks :
    NeverWraps (List.replicate 48 0) (List.replicate 65 0) := by
  have hok : chacha20Crypt (List.replicate 65 0) (List.replicate 48 0)
      (.ofBlock (List.replicate 65 0)) = .ok (.ok, _) :=
    chacha20Crypt_eq (by simp) (by simp) (by simp)
  exact (neverWraps_iff hok).mpr (by decide +kernel)

/-- A key buffer that asks for the last counter there is. -/
def lastCounterKey : Bytes := List.replicate 44 0 ++ List.replicate 4 0xff

/-- From the last counter the second block goes back to the counter zero. -/
theorem counter_wraps : ¬ ∀ (data key : Bytes) (output result : Buffer),
    chacha20Crypt data key output = .ok (.ok, result) → NeverWraps key data := by
  intro h
  have hok : chacha20Crypt (List.replicate 65 0) lastCounterKey
      (.ofBlock (List.replicate 65 0)) = .ok (.ok, _) :=
    chacha20Crypt_eq (by simp [lastCounterKey]) (by simp [lastCounterKey]) (by simp)
  have hbelow := (h _ _ _ _ hok).notBelow 0
  rw [cryptCounters_eq] at hbelow
  exact absurd (hbelow (by decide +kernel)) (by decide +kernel)

end Federated.Crypto
