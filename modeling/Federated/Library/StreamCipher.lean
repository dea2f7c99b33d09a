import Mathlib.Data.List.Basic
import Mathlib.Data.UInt

/-!
# Masking with a keystream

A stream cipher combines data with a keystream byte by byte. Masking twice
with one keystream gives the data back, and two texts masked with the same
keystream have the same difference as before.
-/

namespace Federated.Library

/-- Combine two texts byte by byte, as far as both reach. -/
def xorBytes (a b : List UInt8) : List UInt8 := List.zipWith (· ^^^ ·) a b

/-- The second text may come in two parts. -/
theorem xorBytes_append (data a b : List UInt8) : xorBytes data (a ++ b) =
    xorBytes (data.take a.length) a ++ xorBytes (data.drop a.length) b := by
  induction a generalizing data with
  | nil => simp [xorBytes]
  | cons c a ih =>
    cases data with
    | nil => simp [xorBytes]
    | cons d data =>
      have ih := ih data
      simp only [xorBytes] at ih
      simp [xorBytes, ih]

theorem xorBytes_append_append {a b c d : List UInt8} (h : a.length = c.length) :
    xorBytes (a ++ b) (c ++ d) = xorBytes a c ++ xorBytes b d :=
  List.zipWith_append h

theorem getD_xorBytes {a b : List UInt8} (h : a.length = b.length) (p : Nat) :
    (xorBytes a b).getD p 0 = a.getD p 0 ^^^ b.getD p 0 := by
  obtain hlt | hge := Nat.lt_or_ge p a.length
  · have hlt' : p < b.length := h ▸ hlt
    simp [xorBytes, List.getD_eq_getElem?_getD, hlt, hlt']
  · have hge' : b.length ≤ p := h ▸ hge
    simp [xorBytes, List.getD_eq_getElem?_getD, hge, hge']

@[simp] theorem xorBytes_replicate_zero (a : List UInt8) :
    xorBytes a (List.replicate a.length 0) = a := by
  induction a with
  | nil => rfl
  | cons b a ih =>
    simp only [xorBytes] at ih
    simp [xorBytes, List.replicate_succ, ih]

/-- Only the empty difference changes nothing. -/
theorem xorBytes_eq_self_iff {a e : List UInt8} (h : a.length = e.length) :
    xorBytes a e = a ↔ ∀ b ∈ e, b = 0 := by
  induction a generalizing e with
  | nil =>
    obtain rfl := List.length_eq_zero_iff.mp h.symm
    simp [xorBytes]
  | cons b a ih =>
    cases e with
    | nil => cases h
    | cons c e =>
      have ih := ih (show a.length = e.length by simpa using h)
      have hself : b ^^^ c = b ↔ c = 0 := by
        rw [← UInt8.xor_right_inj b, ← UInt8.xor_assoc, UInt8.xor_self, UInt8.zero_xor]
      simp only [xorBytes] at ih
      simp [xorBytes, ih, hself]

/-- Combine data with a keystream. -/
def mask (keystream : Nat → UInt8) (data : List UInt8) : List UInt8 :=
  data.mapIdx fun i b => b ^^^ keystream i

variable (keystream : Nat → UInt8)

@[simp] theorem length_mask (data : List UInt8) : (mask keystream data).length = data.length := by
  simp [mask]

@[simp] theorem mask_nil : mask keystream [] = [] := rfl

/-- Masking again takes the mask off. -/
@[simp] theorem mask_mask (data : List UInt8) : mask keystream (mask keystream data) = data := by
  apply List.ext_getElem
  · simp
  · intro i _ _
    simp only [mask, List.getElem_mapIdx]
    rw [UInt8.xor_assoc, UInt8.xor_self, UInt8.xor_zero]

/-- Two masks may be put on in either order. -/
theorem mask_comm (other : Nat → UInt8) (data : List UInt8) :
    mask keystream (mask other data) = mask other (mask keystream data) := by
  apply List.ext_getElem
  · simp
  · intro i _ _
    simp only [mask, List.getElem_mapIdx]
    rw [UInt8.xor_assoc, UInt8.xor_comm (other i), ← UInt8.xor_assoc]

/-- Bits that are changed under a mask are changed in the text. -/
theorem mask_xorBytes (data changes : List UInt8) :
    mask keystream (xorBytes data changes) = xorBytes (mask keystream data) changes := by
  apply List.ext_getElem
  · simp [xorBytes]
  · intro i _ _
    have (x y k : UInt8) : x ^^^ y ^^^ k = x ^^^ k ^^^ y := by
      rw [UInt8.xor_assoc, UInt8.xor_comm y, ← UInt8.xor_assoc]
    simp [mask, xorBytes, this]

/-- The difference of two texts shows through a common mask. -/
theorem xorBytes_mask (a b : List UInt8) :
    xorBytes (mask keystream a) (mask keystream b) = xorBytes a b := by
  apply List.ext_getElem
  · simp [xorBytes]
  · intro i _ _
    have (x y k : UInt8) : x ^^^ k ^^^ (y ^^^ k) = x ^^^ y := by
      rw [UInt8.xor_comm y, ← UInt8.xor_assoc, UInt8.xor_assoc x, UInt8.xor_self, UInt8.xor_zero]
    simp [xorBytes, mask, this]

theorem mask_eq_xorBytes {k : Nat} {data : List UInt8} (h : data.length ≤ k) :
    mask keystream data = xorBytes data ((List.range k).map keystream) := by
  apply List.ext_getElem
  · simp [xorBytes, h]
  · intro i _ _
    simp [mask, xorBytes]

theorem mask_append (a b : List UInt8) : mask keystream (a ++ b) =
    mask keystream a ++ mask (fun i => keystream (a.length + i)) b := by
  simp [mask, List.mapIdx_append, Nat.add_comm]

/-- Masking the first `k` bytes with the front of the keystream and the rest with
what follows. -/
theorem mask_split (k : Nat) (data : List UInt8) :
    mask keystream data = xorBytes (data.take k) ((List.range k).map keystream) ++
      mask (fun i => keystream (k + i)) (data.drop k) := by
  have htake : (data.take k).length ≤ k := List.length_take_le k data
  rcases Nat.lt_or_ge data.length k with hlt | hge
  · have hdrop : data.drop k = [] := List.drop_eq_nil_of_le (by omega)
    rw [hdrop, mask_nil, List.append_nil, List.take_of_length_le (by omega),
      mask_eq_xorBytes keystream (Nat.le_of_lt hlt)]
  · have hlen : (data.take k).length = k := List.length_take_of_le hge
    have hsplit := mask_append keystream (data.take k) (data.drop k)
    rwa [List.take_append_drop, hlen, mask_eq_xorBytes keystream htake] at hsplit

end Federated.Library
