import Mathlib.Data.List.Basic
import Mathlib.Data.UInt

/-!
# Blocks, cipher block chaining and padding

Three things a block cipher needs around it: cutting bytes into blocks of one
length, chaining the blocks, and padding the last one. Chaining is over any
block type whose cipher is a bijection and whose mixing can be undone; padding
is the one that repeats its own length.
-/

namespace Federated.Library

/-! ## Blocks -/

section Blocks

variable {α : Type*} {k : Nat}

def joinBlocks (blocks : List (Vector α k)) : List α := blocks.flatMap Vector.toList

@[simp] theorem joinBlocks_nil : joinBlocks ([] : List (Vector α k)) = [] := rfl

@[simp] theorem joinBlocks_cons (b : Vector α k) (blocks : List (Vector α k)) :
    joinBlocks (b :: blocks) = b.toList ++ joinBlocks blocks := rfl

@[simp] theorem length_joinBlocks (blocks : List (Vector α k)) :
    (joinBlocks blocks).length = k * blocks.length := by
  induction blocks with
  | nil => simp
  | cons b blocks ih => simp [ih, Nat.mul_succ, Nat.add_comm]

/-- Each element lies in its block. -/
theorem getElem?_joinBlocks (hk : 0 < k) (blocks : List (Vector α k)) (p : Nat) :
    (joinBlocks blocks)[p]? = blocks[p / k]?.bind fun b => b.toList[p % k]? := by
  induction blocks generalizing p with
  | nil => simp
  | cons b blocks ih =>
    rw [joinBlocks_cons]
    obtain hlt | hge := Nat.lt_or_ge p k
    · rw [List.getElem?_append_left (by simpa using hlt), Nat.div_eq_of_lt hlt,
        Nat.mod_eq_of_lt hlt]
      simp
    · obtain ⟨q, rfl⟩ := Nat.exists_eq_add_of_le hge
      rw [List.getElem?_append_right (by simp), Vector.length_toList, Nat.add_sub_cancel_left, ih,
        Nat.add_div_left q hk, Nat.add_mod_left]
      simp

variable [Inhabited α]

/-- The block at the front of some data. -/
def frontBlock (k : Nat) (data : List α) : Vector α k := Vector.ofFn fun j => data.getD j default

/-- The first `n` blocks of some data. -/
def cutBlocks (k : Nat) : Nat → List α → List (Vector α k)
  | 0, _ => []
  | n + 1, data => frontBlock k data :: cutBlocks k n (data.drop k)

@[simp] theorem length_cutBlocks (n : Nat) (data : List α) : (cutBlocks k n data).length = n := by
  induction n generalizing data with
  | zero => rfl
  | succ n ih => simp [cutBlocks, ih]

theorem frontBlock_append (b : Vector α k) (rest : List α) :
    frontBlock k (b.toList ++ rest) = b := by
  ext i hi
  have hget : (b.toList ++ rest)[i]? = some b[i] := by
    rw [List.getElem?_append_left (by simpa using hi)]
    simp
  simp [frontBlock, hget]

theorem toList_frontBlock {data : List α} (h : k ≤ data.length) :
    (frontBlock k data).toList = data.take k := by
  apply List.ext_getElem
  · simp [h]
  · intro i hi _
    have hi : i < k := by simpa using hi
    have hlt : i < data.length := by omega
    simp [frontBlock, hlt]

theorem cutBlocks_joinBlocks (blocks : List (Vector α k)) :
    cutBlocks k blocks.length (joinBlocks blocks) = blocks := by
  induction blocks with
  | nil => rfl
  | cons b blocks ih =>
    have hdrop : (b.toList ++ joinBlocks blocks).drop k = joinBlocks blocks :=
      List.drop_left' (by simp)
    simp [cutBlocks, frontBlock_append, hdrop, ih]

theorem getElem?_cutBlocks {n j : Nat} (hj : j < n) (data : List α) :
    (cutBlocks k n data)[j]? = some (frontBlock k (data.drop (k * j))) := by
  induction n generalizing j data with
  | zero => exact absurd hj (Nat.not_lt_zero j)
  | succ n ih =>
    cases j with
    | zero => simp [cutBlocks]
    | succ j =>
      rw [cutBlocks, List.getElem?_cons_succ, ih (Nat.lt_of_succ_lt_succ hj), List.drop_drop,
        Nat.mul_succ, Nat.add_comm]

theorem joinBlocks_cutBlocks {n : Nat} {data : List α} (h : data.length = k * n) :
    joinBlocks (cutBlocks k n data) = data := by
  induction n generalizing data with
  | zero => simpa [cutBlocks] using (List.length_eq_zero_iff.mp h).symm
  | succ n ih =>
    have hk : k ≤ data.length := by
      rw [h]
      exact Nat.le_mul_of_pos_right k (by omega)
    have hrest : (data.drop k).length = k * n := by
      rw [List.length_drop, h, Nat.mul_succ]
      omega
    simp [cutBlocks, toList_frontBlock hk, ih hrest]

end Blocks

/-! ## Chaining -/

/-- A cipher on blocks together with the mixing that chains them. -/
structure BlockCipher (β : Type*) where
  encrypt : β → β
  decrypt : β → β
  mix : β → β → β
  decrypt_encrypt : ∀ b, decrypt (encrypt b) = b
  encrypt_decrypt : ∀ b, encrypt (decrypt b) = b
  mix_cancel : ∀ a b, mix (mix a b) b = a

namespace BlockCipher

variable {β : Type*} (C : BlockCipher β)

/-- Every block is mixed with the cipher block before it. -/
def cbcEncrypt : β → List β → List β
  | _, [] => []
  | prev, b :: blocks => C.encrypt (C.mix b prev) :: cbcEncrypt (C.encrypt (C.mix b prev)) blocks

def cbcDecrypt : β → List β → List β
  | _, [] => []
  | prev, b :: blocks => C.mix (C.decrypt b) prev :: cbcDecrypt b blocks

@[simp] theorem length_cbcEncrypt (iv : β) (blocks : List β) :
    (C.cbcEncrypt iv blocks).length = blocks.length := by
  induction blocks generalizing iv with
  | nil => rfl
  | cons b blocks ih => simp [cbcEncrypt, ih]

@[simp] theorem length_cbcDecrypt (iv : β) (blocks : List β) :
    (C.cbcDecrypt iv blocks).length = blocks.length := by
  induction blocks generalizing iv with
  | nil => rfl
  | cons b blocks ih => simp [cbcDecrypt, ih]

/-- A block of the plaintext comes from its cipher block and the one before it. -/
theorem getElem?_cbcDecrypt (iv : β) (blocks : List β) (j : Nat) :
    (C.cbcDecrypt iv blocks)[j]? =
      blocks[j]?.bind fun b => (iv :: blocks)[j]?.map (C.mix (C.decrypt b)) := by
  induction blocks generalizing iv j with
  | nil => simp [cbcDecrypt]
  | cons b blocks ih =>
    cases j with
    | zero => simp [cbcDecrypt]
    | succ j => simp [cbcDecrypt, ih]

@[simp] theorem cbcDecrypt_cbcEncrypt (iv : β) (blocks : List β) :
    C.cbcDecrypt iv (C.cbcEncrypt iv blocks) = blocks := by
  induction blocks generalizing iv with
  | nil => rfl
  | cons b blocks ih => simp [cbcEncrypt, cbcDecrypt, ih, C.decrypt_encrypt, C.mix_cancel]

@[simp] theorem cbcEncrypt_cbcDecrypt (iv : β) (blocks : List β) :
    C.cbcEncrypt iv (C.cbcDecrypt iv blocks) = blocks := by
  induction blocks generalizing iv with
  | nil => rfl
  | cons b blocks ih => simp [cbcEncrypt, cbcDecrypt, ih, C.encrypt_decrypt, C.mix_cancel]

end BlockCipher

/-! ## Padding -/

/-- How many bytes bring `n` bytes to the next multiple of `k`, at least one. -/
def padLength (k n : Nat) : Nat := k - n % k

/-- Fill the last block with bytes that say how many they are. -/
def pad (k : Nat) (data : List UInt8) : List UInt8 :=
  data ++ List.replicate (padLength k data.length) (UInt8.ofNat (padLength k data.length))

section Padding

variable {k : Nat} {data : List UInt8}

theorem padLength_pos (hk : 0 < k) (n : Nat) : 0 < padLength k n := by
  have := Nat.mod_lt n hk
  unfold padLength
  omega

theorem padLength_le (k n : Nat) : padLength k n ≤ k := Nat.sub_le _ _

theorem length_pad (k : Nat) (data : List UInt8) :
    (pad k data).length = data.length + padLength k data.length := by
  simp [pad]

theorem length_pad_eq (hk : 0 < k) (data : List UInt8) :
    (pad k data).length = k * (data.length / k + 1) := by
  have hdiv := Nat.div_add_mod data.length k
  have hlt := Nat.mod_lt data.length hk
  rw [length_pad, padLength, Nat.mul_add, Nat.mul_one]
  omega

theorem drop_pad (k : Nat) (data : List UInt8) : (pad k data).drop data.length =
    List.replicate (padLength k data.length) (UInt8.ofNat (padLength k data.length)) :=
  List.drop_left

theorem take_pad (k : Nat) (data : List UInt8) : (pad k data).take data.length = data :=
  List.take_left

/-- Taking up to `k` bytes off whole blocks leaves what needs so many bytes of padding. -/
theorem padLength_sub {m n : Nat} (hpos : 0 < n) (hn : n ≤ k) (hle : n ≤ m) (hm : m % k = 0) :
    padLength k (m - n) = n := by
  obtain ⟨q, rfl⟩ := Nat.dvd_of_mod_eq_zero hm
  have hq : 0 < q := by
    rcases Nat.eq_zero_or_pos q with rfl | hq
    · omega
    · exact hq
  have hsplit : k * q - n = (k - n) + k * (q - 1) := by
    have := Nat.mul_sub_one k q
    have := Nat.le_mul_of_pos_right k hq
    omega
  rw [padLength, hsplit, Nat.add_mul_mod_self_left]
  rcases Nat.eq_or_lt_of_le hn with rfl | hlt
  · simp
  · rw [Nat.mod_eq_of_lt (by omega)]
    omega

/-- Whole blocks that end in a run of its own length are padded. -/
theorem pad_take {padded : List UInt8} {n : Nat} (hpos : 0 < n) (hn : n ≤ k)
    (hle : n ≤ padded.length) (hlen : padded.length % k = 0)
    (hrun : padded.drop (padded.length - n) = List.replicate n (UInt8.ofNat n)) :
    pad k (padded.take (padded.length - n)) = padded := by
  have htake : (padded.take (padded.length - n)).length = padded.length - n := by simp
  rw [pad, htake, padLength_sub hpos hn hle hlen, ← hrun, List.take_append_drop]

end Padding

end Federated.Library
