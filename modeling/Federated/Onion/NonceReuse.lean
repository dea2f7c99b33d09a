import Federated.Onion.Peeling

/-!
# A circuit uses its nonces again

The nonce of a hop is made from the circuit and the hop alone and the block
counter starts at zero, so any two messages of a circuit are encrypted with the
same keystreams, and the difference of two packets is the difference of their
plaintexts.
-/

namespace Federated.Onion

open Crypto Library

/-- The arguments of one call of `sendOnion` on a circuit. -/
structure SendCall where
  plaintext : Bytes
  working : Bytes
  output : Bytes
  packet : OnionPacket

variable (c : OpenCircuit)

def SendCall.result (a : SendCall) : Except Fault (ErrorCode × OnionPacket) :=
  sendOnion c.toCircuit a.plaintext a.working a.output a.packet

/-- The circuit encrypts this call's plaintext. -/
def SendCall.Encrypts (a : SendCall) : Prop := c.isActive = true ∧ a.plaintext ≠ []

instance (a : SendCall) : Decidable (a.Encrypts c) :=
  inferInstanceAs (Decidable (_ ∧ _))

/-- The keys, nonces and counters that the layer of hop `i` uses in a call. -/
def SendCall.uses (a : SendCall) (i : Nat) : List BlockUse :=
  if a.Encrypts c then blockUses (hopKey c i) a.plaintext.length else []

/-- The layer of no hop uses a key, nonce and counter in both calls. -/
def UsesApart (a b : SendCall) : Prop :=
  ∀ i < c.hops.length, ∀ u ∈ a.uses c i, u ∉ b.uses c i

/-- The xor of the two packets is the xor of the two plaintexts. -/
def LeaksXor (a b : SendCall) : Prop :=
  ∃ p q, a.result c = .ok (.ok, p) ∧ b.result c = .ok (.ok, q) ∧
    xorBytes p.payload.bytes q.payload.bytes = xorBytes a.plaintext b.plaintext

/-- In a run of calls, any two are encrypted apart, and their packets hide the
difference of their plaintexts. -/
def NeverReuses (calls : List SendCall) : Prop :=
  calls.Pairwise fun a b => UsesApart c a b ∧ ¬ LeaksXor c a b

variable {c} {a b : SendCall}

/-- What the layer of a hop combines the data with is made of its uses. -/
theorem layer_eq_uses (data : Bytes) (i : Nat) : layer c data i = xorBytes data
    ((blockUses (hopKey c i) data.length).flatMap fun u => chacha20Block u.state) := by
  rw [layer, ← cryptLoop_eq, cryptLoop_uses]

theorem mem_blockUses {key : Bytes} {size : Nat} (h : 0 < size) :
    ⟨key.take 32, (key.drop 32).take 12, (initialState key)[12]⟩ ∈ blockUses key size := by
  rw [blockUses, List.mem_map]
  exact ⟨0, by simp; omega, by simp⟩

/-- The difference of two texts shows through common layers. -/
theorem xorBytes_foldl_layer (is : List Nat) (p q : Bytes) :
    xorBytes (is.foldl (layer c) p) (is.foldl (layer c) q) = xorBytes p q := by
  induction is generalizing p q with
  | nil => rfl
  | cons i is ih => rw [List.foldl_cons, List.foldl_cons, ih, layer, layer, xorBytes_mask]

theorem leaksXor_of_encrypts (ha : a.Encrypts c) (hb : b.Encrypts c) : LeaksXor c a b := by
  refine ⟨_, _, sendOnion_eq ha.1 ha.2 .., sendOnion_eq hb.1 hb.2 .., ?_⟩
  rw [Buffer.bytes_ofBlock, Buffer.bytes_ofBlock]
  exact xorBytes_foldl_layer _ _ _

theorem not_usesApart_of_encrypts (ha : a.Encrypts c) (hb : b.Encrypts c) : ¬ UsesApart c a b := by
  intro h
  have huse := h 0 c.hops_pos
  simp only [SendCall.uses, if_pos ha, if_pos hb] at huse
  exact huse _ (mem_blockUses (List.length_pos_iff.mpr ha.2))
    (mem_blockUses (List.length_pos_iff.mpr hb.2))

theorem encrypts_of_result {p : OnionPacket} (h : a.result c = .ok (.ok, p)) : a.Encrypts c := by
  unfold SendCall.result sendOnion at h
  split at h
  · cases h
  rename_i hactive
  split at h
  · cases h
  rename_i hne
  exact ⟨by simpa using hactive, mt List.length_eq_zero_iff.mpr hne⟩

/-- Two calls keep apart only if one of them is not encrypted at all. -/
theorem apart_iff : (UsesApart c a b ∧ ¬ LeaksXor c a b) ↔ ¬ (a.Encrypts c ∧ b.Encrypts c) := by
  constructor
  · rintro ⟨hapart, -⟩ ⟨ha, hb⟩
    exact not_usesApart_of_encrypts ha hb hapart
  · intro hnot
    refine ⟨fun i _ u hu hu' => ?_, fun ⟨p, q, hp, hq, _⟩ => ?_⟩
    · by_cases ha : a.Encrypts c
      · have hb : ¬ b.Encrypts c := fun hb => hnot ⟨ha, hb⟩
        simp [SendCall.uses, hb] at hu'
      · simp [SendCall.uses, ha] at hu
    · exact hnot ⟨encrypts_of_result hp, encrypts_of_result hq⟩

theorem pairwise_false_iff {α : Type*} (l : List α) :
    l.Pairwise (fun _ _ => False) ↔ l.length ≤ 1 := by
  cases l with
  | nil => simp
  | cons x l =>
    cases l with
    | nil => simp
    | cons y l =>
      simp only [List.length_cons]
      refine ⟨fun h => ?_, fun h => by omega⟩
      exact absurd ((List.pairwise_cons.mp h).1 y (by simp)) id

/-- A circuit never uses a nonce again exactly as long as it encrypts at most one message. -/
theorem neverReuses_iff (c : OpenCircuit) (calls : List SendCall) :
    NeverReuses c calls ↔ (calls.filter fun a => a.Encrypts c).length ≤ 1 := by
  rw [← pairwise_false_iff, List.pairwise_filter, NeverReuses]
  simp only [apart_iff, decide_eq_true_eq]
  grind

/-- Two messages on the same circuit. -/
def twoSends : List SendCall :=
  [⟨ascii "attack", [], [], ⟨.ofBlock [], 0⟩⟩, ⟨ascii "defend", [], [], ⟨.ofBlock [], 0⟩⟩]

/-- They are encrypted with the same keys, nonces and counters. -/
theorem not_neverReuses_twoSends : ¬ NeverReuses threeHops twoSends := by
  intro h
  have hfirst := (List.pairwise_cons.mp h).1 _ (List.mem_singleton.mpr rfl)
  exact not_usesApart_of_encrypts ⟨rfl, by decide⟩ ⟨rfl, by decide⟩ hfirst.1

end Federated.Onion
