import Federated.Onion.CircuitLog
import Mathlib.Data.Nat.Bitwise

/-!
# Nonces of different circuits

The nonce of a layer is the identifier of the circuit, with the index of the hop
added to it without carry from the seventeenth bit on. Those bits are free only
in the identifiers of the first 65535 circuits.
-/

namespace Federated.Onion

open Crypto Library

namespace SimpleOnionRouter

variable {c d : Circuit} {i j k l : Nat}

/-- The nonce of a layer: what lies behind the session key in its key buffer. -/
def nonce (circuit : Circuit) (i : Nat) : Bytes :=
  (keyBuffer circuit (circuit.hops.getD i default) i).drop 32

/-- Only one layer of one circuit has a nonce. -/
def NoncesApart (created : List Circuit) : Prop :=
  ∀ c ∈ created, ∀ d ∈ created, ∀ i < c.hops.length, ∀ j < d.hops.length,
    nonce c i = nonce d j → c.circuitId = d.circuitId ∧ i = j

/-- The numbers of no two circuits, counted from one, differ just by the difference of two of
their hops in the higher half. -/
def NumbersApart (hopCounts : List Nat) : Prop :=
  ∀ k l, k < l → ∀ i < hopCounts.getD k 0, ∀ j < hopCounts.getD l 0,
    (k + 1) ^^^ (l + 1) ≠ (i ^^^ j) <<< 16

/-! ## Nonces -/

theorem writeLe32_injective {v w : UInt32} (h : writeLe32 v = writeLe32 w) : v = w := by
  simp only [writeLe32, List.cons.injEq, ← UInt8.toNat_inj, UInt32.toNat_toUInt8,
    UInt32.toNat_shiftRight, Nat.shiftRight_eq_div_pow] at h
  obtain ⟨h0, h1, h2, h3, -⟩ := h
  have hv := v.toNat_lt
  have hw := w.toNat_lt
  simp at h1 h2 h3
  rw [← UInt32.toNat_inj]
  omega

theorem nonce_eq_iff : nonce c i = nonce d j ↔ nonceSeed c i = nonceSeed d j := by
  have hnonce : ∀ (c : Circuit) i,
      nonce c i = writeLe32 (nonceSeed c i) ++ List.replicate 8 0 := by
    intro c i
    simp [nonce, keyBuffer, overwrite, writeLe32]
  rw [hnonce, hnonce, List.append_left_inj]
  exact ⟨writeLe32_injective, congrArg writeLe32⟩

theorem toNat_nonceSeed (hid : c.circuitId = nthId k) (hk : k + 1 < 2 ^ 32) (hi : i < 10) :
    (nonceSeed c i).toNat = (k + 1) ^^^ (i <<< 16) := by
  have hshift : i <<< 16 < 2 ^ 32 := by
    rw [Nat.shiftLeft_eq]
    omega
  rw [nonceSeed, hid, nthId, UInt32.toNat_xor, UInt32.toNat_shiftLeft,
    UInt32.toNat_ofNat_of_lt' hk, UInt32.toNat_ofNat_of_lt' (hi.trans (by decide))]
  exact congrArg _ (Nat.mod_eq_of_lt hshift)

theorem xor_eq_xor_iff {a b x y : Nat} : a ^^^ x = b ^^^ y ↔ a ^^^ b = x ^^^ y := by
  have hsame : a ^^^ x ^^^ (b ^^^ y) = a ^^^ b ^^^ (x ^^^ y) := by ac_rfl
  rw [← Nat.xor_eq_zero_iff, hsame, Nat.xor_eq_zero_iff]

/-- Two nonces are the same if the identifiers differ by the difference of the hops. -/
theorem nonce_eq_iff_xor (hc : c.circuitId = nthId k) (hd : d.circuitId = nthId l)
    (hk : k + 1 < 2 ^ 32) (hl : l + 1 < 2 ^ 32) (hi : i < 10) (hj : j < 10) :
    nonce c i = nonce d j ↔ (k + 1) ^^^ (l + 1) = (i ^^^ j) <<< 16 := by
  rw [nonce_eq_iff, ← UInt32.toNat_inj, toNat_nonceSeed hc hk hi, toNat_nonceSeed hd hl hj,
    xor_eq_xor_iff, Nat.shiftLeft_xor_distrib]

/-! ## Runs -/

/-- Where the log fits a state, the nonces are apart exactly if the numbers are. -/
theorem Recorded.noncesApart_iff_numbersApart {router : SimpleOnionRouter} {log : CircuitLog}
    (h : Recorded router log) (hfew : log.created.length < 2 ^ 32) :
    NoncesApart log.created ↔ NumbersApart (log.created.map fun c => c.hops.length) := by
  have hid : ∀ k (hk : k < log.created.length), log.created[k].circuitId = nthId k := by
    intro k hk
    have hget := congrArg (fun ids => ids[k]?) h.numbered
    simpa [hk] using hget
  have hten : ∀ c ∈ log.created, ∀ i < c.hops.length, i < 10 := fun c hc i hi =>
    hi.trans_le (h.bounded c hc)
  have hhops : ∀ k i, i < (log.created.map fun c => c.hops.length).getD k 0 →
      ∃ hk : k < log.created.length, i < log.created[k].hops.length := by
    intro k i hi
    by_cases hk : k < log.created.length
    · exact ⟨hk, by simpa [hk] using hi⟩
    · simp [hk] at hi
  constructor
  · intro hapart k l hkl i hi j hj heq
    obtain ⟨hk, hi⟩ := hhops k i hi
    obtain ⟨hl, hj⟩ := hhops l j hj
    have hck := List.getElem_mem hk
    have hcl := List.getElem_mem hl
    have hnonce := (nonce_eq_iff_xor (hid k hk) (hid l hl) (by omega) (by omega)
      (hten _ hck i hi) (hten _ hcl j hj)).mpr heq
    have hsame := (hapart _ hck _ hcl i hi j hj hnonce).1
    rw [hid k hk, hid l hl, nthId_eq_iff hkl.le] at hsame
    omega
  · intro hapart c hc d hd i hi j hj heq
    obtain ⟨k, hk, rfl⟩ := List.getElem_of_mem hc
    obtain ⟨l, hl, rfl⟩ := List.getElem_of_mem hd
    have hxor := (nonce_eq_iff_xor (hid k hk) (hid l hl) (by omega) (by omega)
      (hten _ hc i hi) (hten _ hd j hj)).mp heq
    have hcount : ∀ k (hk : k < log.created.length),
        (log.created.map fun c => c.hops.length).getD k 0 = log.created[k].hops.length := by
      intro k hk
      simp [hk]
    rcases lt_trichotomy k l with hkl | rfl | hlk
    · exact absurd hxor (hapart k l hkl i (by rwa [hcount k hk]) j (by rwa [hcount l hl]))
    · rw [Nat.xor_self, eq_comm, Nat.shiftLeft_eq_zero_iff, Nat.xor_eq_zero_iff] at hxor
      exact ⟨rfl, hxor⟩
    · rw [Nat.xor_comm (k + 1), Nat.xor_comm i] at hxor
      exact absurd hxor (hapart l k hlk j (by rwa [hcount l hl]) i (by rwa [hcount k hk]))

/-- In a run that creates fewer than `2 ^ 32` circuits, no two layers of different circuits or
hops share a nonce exactly if the numbers of the circuits keep apart. -/
theorem noncesApart_iff (calls : List CircuitCall) (h : Along step Fits new calls)
    (hfew : (logAfter calls).created.length < 2 ^ 32) :
    NoncesApart (logAfter calls).created ↔
      NumbersApart ((logAfter calls).created.map fun c => c.hops.length) :=
  (recorded_after h).noncesApart_iff_numbersApart hfew

/-- The lower halves of the first 65535 numbers are apart. -/
theorem numbersApart_of_length {hopCounts : List Nat} (h : hopCounts.length < 2 ^ 16) :
    NumbersApart hopCounts := by
  intro k l hkl i hi j hj heq
  have hl : l < hopCounts.length := by
    by_contra hl
    simp [hl] at hj
  have hsmall : (k + 1) ^^^ (l + 1) < 2 ^ 16 := Nat.xor_lt_two_pow (by omega) (by omega)
  rw [heq, Nat.shiftLeft_eq] at hsmall
  have hzero : i ^^^ j = 0 := by omega
  rw [hzero, Nat.zero_shiftLeft, Nat.xor_eq_zero_iff] at heq
  omega

/-- Two circuits with three hops each. -/
theorem noncesApart_two : NoncesApart (logAfter
    [.create (some [default, default, default]) (some none) 0,
      .create (some [default, default, default]) (some none) 1]).created := by
  have hfits : Along step Fits new [.create (some [default, default, default]) (some none) 0,
      .create (some [default, default, default]) (some none) 1] := by
    refine ⟨?_, ?_, trivial⟩
    · simp [Fits, live, new]
    · show 1 ∉ _
      decide
  have hfew : (logAfter [.create (some [default, default, default]) (some none) 0,
      .create (some [default, default, default]) (some none) 1]).created.length ≤ 0 + 2 :=
    length_created_le _ new ⟨[], []⟩
  apply (noncesApart_iff _ hfits (by omega)).mpr
  apply numbersApart_of_length
  rw [List.length_map]
  omega

/-- A number of circuits with two hops that do not last, and one with one hop. -/
def manyCircuits (n : Nat) : List CircuitCall :=
  turnover [default, default] 1 n ++ [.create (some [default]) (some none) 2]

theorem manyCircuits_recorded (n : Nat) :
    Along step Fits new (manyCircuits n) ∧
      (logAfter (manyCircuits n)).created.map (fun c => c.hops.length) =
        List.replicate n 2 ++ [1] := by
  have hlive : new.live = [] := rfl
  obtain ⟨hfits, hheap, circuits, hcircuits, hlog⟩ := turnover_recorded recorded_new (a := 1)
    (by simp [hlive]) ⟨[default, default], none, rfl, rfl, by decide, by decide, by decide⟩ n
  have hlive' : (after step new (turnover [default, default] 1 n)).live = [] := by
    rw [live, hheap, ← live, hlive]
  have hfits' : Fits (after step new (turnover [default, default] 1 n))
      (.create (some [default]) (some none) 2) := by simp [Fits, hlive']
  have hrecorded := recorded_after hfits
  have haccepts : Accepts (after step new (turnover [default, default] 1 n)) (some [default])
      (some none) := ⟨_, _, rfl, rfl, by decide, by decide, by rw [hlive']; decide⟩
  obtain ⟨router, -, -, hadd, -⟩ := hrecorded.create hfits' haccepts
  have hcounts : circuits.map (fun c => c.hops.length) = List.replicate n 2 := by
    have hlengths := congrArg (List.map List.length) hcircuits
    simpa [Function.comp_def] using hlengths
  refine ⟨along_append.mpr ⟨hfits, hfits', trivial⟩, ?_⟩
  rw [logAfter, manyCircuits, record_append, record_singleton, ← logAfter, hadd, logAfter, hlog]
  simp [hcounts, nextCircuit]

/-- The first circuit shares the nonce of its second hop with the only hop of the 65537th. -/
theorem not_noncesApart_manyCircuits :
    Along step Fits new (manyCircuits 65536) ∧
      (logAfter (manyCircuits 65536)).created.length < 2 ^ 32 ∧
      ¬ NoncesApart (logAfter (manyCircuits 65536)).created := by
  obtain ⟨hfits, hcounts⟩ := manyCircuits_recorded 65536
  have hfirst : ∀ n, 0 < n → (List.replicate n 2 ++ [1]).getD 0 0 = 2 := by
    intro n hn
    simp [hn]
  have hlast : ∀ n, (List.replicate n 2 ++ [1]).getD n 0 = 1 := by
    intro n
    simp
  have hfew : (logAfter (manyCircuits 65536)).created.length < 2 ^ 32 := by
    have hlength := congrArg List.length hcounts
    rw [List.length_map, List.length_append, List.length_replicate, List.length_singleton]
      at hlength
    omega
  refine ⟨hfits, hfew, fun hapart => ?_⟩
  have hnumbers := ((recorded_after hfits).noncesApart_iff_numbersApart hfew).mp hapart
  rw [hcounts] at hnumbers
  refine hnumbers 0 65536 (by decide) 1 ?_ 0 ?_ (by decide)
  · rw [hfirst 65536 (by decide)]
    decide
  · rw [hlast 65536]
    decide

end SimpleOnionRouter

end Federated.Onion
