import Federated.Onion.Onion
import Federated.Library.Layers

/-!
# Peeling an onion

Sending puts the layers of the hops on, the last hop's first. Each layer is a
mask, so decrypting hop after hop from the first on takes them off again: behind
`k` hops the layers of the others are left, and behind all of them the plaintext.
-/

namespace Federated.Onion

open Crypto Library

variable (c : OpenCircuit)

/-! ## One layer -/

/-- The key buffer of hop `i`. -/
def hopKey (i : Nat) : Bytes := keyBuffer c.toCircuit (c.hops.getD i default) i

/-- The layer of hop `i`. -/
def layer (data : Bytes) (i : Nat) : Bytes := mask (keystream (initialState (hopKey c i))) data

@[simp] theorem length_hopKey (i : Nat) : (hopKey c i).length = 44 := by
  simp [hopKey, keyBuffer, overwrite, writeLe32]

@[simp] theorem length_layer (data : Bytes) (i : Nat) : (layer c data i).length = data.length := by
  simp [layer]

@[simp] theorem layer_layer (data : Bytes) (i : Nat) : layer c (layer c data i) i = data := by
  simp [layer]

variable {c}

theorem keyBuffer_hop {i : Nat} (hi : i < c.hops.length) :
    keyBuffer c.toCircuit c.hops[i] i = hopKey c i := by
  simp [hopKey, hi]

/-- Each crypto layer of a circuit puts on the layer of its hop. -/
theorem chacha20Crypt_hopKey {data : Bytes} {output : Buffer} {i : Nat}
    (hfits : data.length ≤ output.size) :
    chacha20Crypt data (hopKey c i) output = .ok (.ok, filled output (layer c data i)) :=
  chacha20Crypt_eq (by simp) (by simp) hfits

/-! ## The layering loop -/

/-- The working buffer holds `data`. -/
def LayerState.Holds (s : LayerState) (data : Bytes) : Prop :=
  (Buffer.mk s.workingBuffer s.currentSize).bytes = data ∧ s.currentSize = data.length

theorem holds_overwrite (block output data : Bytes) :
    LayerState.Holds ⟨overwrite block 0 data, output, data.length⟩ data := by
  simp [LayerState.Holds, Buffer.bytes, overwrite]

/-- A pass of the loop puts one layer on. -/
theorem encryptLayer_holds {maxSize i : Nat} {s : LayerState} {data : Bytes} (h : s.Holds data)
    (hi : i < c.hops.length) (hfits : data.length ≤ maxSize) :
    ∃ t, encryptLayer c.toCircuit maxSize s i = .ok t ∧ t.Holds (layer c data i) := by
  have hhop : c.hops[i]? = some c.hops[i] := List.getElem?_eq_getElem hi
  have hlayer : c.cryptoLayers[i]? = some chacha20Crypto := by
    simp [c.layers, hi]
  have hcrypt : chacha20Crypto.encrypt data (hopKey c i) ⟨s.outputBuffer, maxSize⟩ =
      .ok (.ok, filled ⟨s.outputBuffer, maxSize⟩ (layer c data i)) :=
    chacha20Crypt_hopKey hfits
  refine ⟨⟨overwrite s.workingBuffer 0 (layer c data i),
    overwrite s.outputBuffer 0 (layer c data i), (layer c data i).length⟩, ?_,
    holds_overwrite _ _ _⟩
  simp only [encryptLayer, hhop, hlayer, keyBuffer_hop hi, h.1, hcrypt, bytes_filled]
  simp [filled]

theorem foldlM_encryptLayer {maxSize : Nat} {s : LayerState} {data : Bytes} (is : List Nat)
    (h : s.Holds data) (his : ∀ i ∈ is, i < c.hops.length) (hfits : data.length ≤ maxSize) :
    ∃ t, is.foldlM (encryptLayer c.toCircuit maxSize) s = .ok t ∧
      t.Holds (is.foldl (layer c) data) := by
  induction is generalizing s data with
  | nil => exact ⟨s, rfl, h⟩
  | cons i is ih =>
    obtain ⟨t, ht, hholds⟩ := encryptLayer_holds h (his i (by simp)) hfits
    obtain ⟨u, hu, hlast⟩ := ih hholds (fun j hj => his j (by simp [hj])) (by simpa using hfits)
    refine ⟨u, ?_, hlast⟩
    rw [List.foldlM_cons, ht]
    exact hu

/-- What a circuit sends for a plaintext. -/
def onion (c : OpenCircuit) (plaintext : Bytes) : Bytes :=
  (List.range c.hops.length).reverse.foldl (layer c) plaintext

theorem length_foldl_layer (is : List Nat) (data : Bytes) :
    (is.foldl (layer c) data).length = data.length := by
  induction is generalizing data with
  | nil => rfl
  | cons i is ih => rw [List.foldl_cons, ih, length_layer]

/-- An active circuit sends the onion of a plaintext that is not empty. -/
theorem sendOnion_eq {plaintext : Bytes} (hactive : c.isActive = true) (hne : plaintext ≠ [])
    (working output : Bytes) (packet : OnionPacket) :
    sendOnion c.toCircuit plaintext working output packet =
      .ok (.ok, ⟨.ofBlock (onion c plaintext), c.circuitId⟩) := by
  have hfits : plaintext.length ≤ plaintext.length + c.hops.length * 64 := Nat.le_add_right _ _
  obtain ⟨t, ht, hholds⟩ := foldlM_encryptLayer (c := c) (List.range c.hops.length).reverse
    (holds_overwrite working output plaintext) (by simp) hfits
  have hlen : plaintext.length ≠ 0 := mt List.length_eq_zero_iff.mp hne
  rw [sendOnion, if_neg (by simp [hactive]), if_neg hlen]
  simp only [ht, hholds.1]
  rfl

/-! ## Hop after hop -/

/-- Send data through a crypto function with the key of hop `i`. -/
def throughHop (crypt : Bytes → Bytes → Buffer → CallResult) (circuit : Circuit)
    (outputs : Nat → Buffer) (data : Bytes) (i : Nat) : Option Bytes :=
  match circuit.hops[i]? with
  | none => none
  | some hop =>
    match crypt data (keyBuffer circuit hop i) (outputs i) with
    | .ok (.ok, out) => some out.bytes
    | _ => none

/-- One hop after the other, each time into an output buffer of its own. -/
def throughHops (crypt : Bytes → Bytes → Buffer → CallResult) (circuit : Circuit)
    (outputs : Nat → Buffer) (is : List Nat) (data : Bytes) : Option Bytes :=
  is.foldlM (throughHop crypt circuit outputs) data

theorem throughHop_eq {outputs : Nat → Buffer} {i : Nat} {data : Bytes} (hi : i < c.hops.length)
    (hfits : data.length ≤ (outputs i).size) :
    throughHop chacha20Crypt c.toCircuit outputs data i = some (layer c data i) := by
  have hhop : c.hops[i]? = some c.hops[i] := List.getElem?_eq_getElem hi
  simp only [throughHop, hhop, keyBuffer_hop hi, chacha20Crypt_hopKey hfits, bytes_filled]

theorem throughHops_eq {outputs : Nat → Buffer} {is : List Nat} {data : Bytes}
    (his : ∀ i ∈ is, i < c.hops.length) (hfits : ∀ i, data.length ≤ (outputs i).size) :
    throughHops chacha20Crypt c.toCircuit outputs is data = some (is.foldl (layer c) data) := by
  induction is generalizing data with
  | nil => rfl
  | cons i is ih =>
    rw [throughHops, List.foldlM_cons, throughHop_eq (his i (by simp)) (hfits i)]
    exact ih (fun j hj => his j (by simp [hj])) (by simpa using hfits)

theorem range_eq_append {k n : Nat} (h : k ≤ n) :
    List.range n = List.range k ++ List.range' k (n - k) := by
  have happend := List.range'_append_1 (s := 0) (m := k) (n := n - k)
  rw [Nat.zero_add, Nat.add_sub_cancel' h] at happend
  rw [List.range_eq_range', List.range_eq_range', happend]

/-- Behind the first `k` hops the layers of the others are left. -/
theorem foldl_layer_onion {k : Nat} (hk : k ≤ c.hops.length) (plaintext : Bytes) :
    (List.range k).foldl (layer c) (onion c plaintext) =
      (List.range' k (c.hops.length - k)).reverse.foldl (layer c) plaintext := by
  have hpeel := foldl_unwrap_foldl_wrap_append (layer_layer c)
    (List.range' k (c.hops.length - k)).reverse (List.range k).reverse plaintext
  rwa [List.reverse_reverse, ← List.reverse_append, ← range_eq_append hk] at hpeel

/-- The packet is as long as the plaintext, the hops peel it down to the plaintext,
and what is left behind the first `k` of them is the plaintext under the layers of
the others alone. -/
structure Peels (c : OpenCircuit) (outputs outputs' : Nat → Buffer) (plaintext : Bytes)
    (sent : OnionPacket) : Prop where
  size : sent.payload.size = plaintext.length
  all : throughHops chacha20Crypto.decrypt c.toCircuit outputs (List.range c.hops.length)
    sent.payload.bytes = some plaintext
  some : ∀ k < c.hops.length, ∃ rest,
    throughHops chacha20Crypto.decrypt c.toCircuit outputs (List.range k)
      sent.payload.bytes = some rest ∧
    throughHops chacha20Crypto.encrypt c.toCircuit outputs'
      (List.range' k (c.hops.length - k)).reverse plaintext = some rest

/-- The hops peel what `sendOnion` sends, one layer each, from the first hop on. -/
theorem sendOnion_peels (c : OpenCircuit) (hactive : c.isActive = true) (plaintext : Bytes)
    (hne : plaintext ≠ []) (working output : Bytes) (packet : OnionPacket)
    (outputs outputs' : Nat → Buffer) (hfits : ∀ i, plaintext.length ≤ (outputs i).size)
    (hfits' : ∀ i, plaintext.length ≤ (outputs' i).size) :
    ∃ sent, sendOnion c.toCircuit plaintext working output packet = .ok (.ok, sent) ∧
      Peels c outputs outputs' plaintext sent := by
  have hlen : (onion c plaintext).length = plaintext.length := length_foldl_layer _ _
  refine ⟨_, sendOnion_eq hactive hne working output packet, hlen, ?_, ?_⟩
  · have hall := foldl_layer_onion (Nat.le_refl c.hops.length) plaintext
    rw [Nat.sub_self] at hall
    rw [Buffer.bytes_ofBlock]
    exact (throughHops_eq (by simp) (by simpa [hlen] using hfits)).trans (congrArg _ hall)
  · intro k hk
    refine ⟨(List.range k).foldl (layer c) (onion c plaintext), ?_, ?_⟩
    · rw [Buffer.bytes_ofBlock]
      exact throughHops_eq (by simp; omega) (by simpa [hlen] using hfits)
    · rw [foldl_layer_onion (Nat.le_of_lt hk)]
      exact throughHops_eq (by simp; omega) hfits'

/-- A circuit of three hops with three session keys. -/
def threeHops : OpenCircuit where
  circuitId := 1
  hops := [⟨Vector.replicate 32 1⟩, ⟨Vector.replicate 32 2⟩, ⟨Vector.replicate 32 3⟩]
  cryptoLayers := [chacha20Crypto, chacha20Crypto, chacha20Crypto]
  isActive := true
  hops_pos := by decide
  hops_le := by decide
  layers := rfl

theorem sendOnion_peels_threeHops :
    ∃ sent, sendOnion threeHops.toCircuit (ascii "Hello") [] [] ⟨.ofBlock [], 0⟩ = .ok (.ok, sent) ∧
      Peels threeHops (fun _ => .ofBlock (List.replicate 8 0))
        (fun _ => .ofBlock (List.replicate 5 0)) (ascii "Hello") sent :=
  sendOnion_peels threeHops rfl (ascii "Hello") (by decide) [] [] ⟨.ofBlock [], 0⟩
    (fun _ => .ofBlock (List.replicate 8 0)) (fun _ => .ofBlock (List.replicate 5 0))
    (fun _ => by decide) (fun _ => by decide)

end Federated.Onion
