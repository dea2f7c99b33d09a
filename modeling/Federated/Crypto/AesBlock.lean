import Federated.Crypto.Aes
import Federated.Library.Layers
import Mathlib.Data.Finite.Prod
import Mathlib.Data.Fintype.EquivFin
import Mathlib.Tactic.FinCases
import Mathlib.Tactic.IntervalCases

/-!
# The AES block cipher is a bijection

Every transformation of a round has its inverse: the tables by checking them,
the row shifts by looking at the indices, and the column mixes because the two
matrices are inverse over the polynomials in `xtime`. Rounds are layers, so
decryption, which takes them in the opposite order, undoes encryption under any
round keys, and the other way round.
-/

namespace Federated.Crypto

open Library

/-! ## Bytes under xor -/

theorem xor_cancel (a b : UInt8) : a ^^^ (a ^^^ b) = b := by
  rw [← UInt8.xor_assoc, UInt8.xor_self, UInt8.zero_xor]

theorem xor_cancel_right (a b : UInt8) : a ^^^ b ^^^ b = a := by
  rw [UInt8.xor_assoc, UInt8.xor_self, UInt8.xor_zero]

theorem xor_left_comm (a b c : UInt8) : a ^^^ (b ^^^ c) = b ^^^ (a ^^^ c) := by
  rw [← UInt8.xor_assoc, UInt8.xor_comm a, UInt8.xor_assoc]

/-! ## The S-boxes -/

theorem map_invSbox_sboxTable :
    sboxTable.toList.map invSbox = (List.range 256).map UInt8.ofNat := by
  decide +kernel

@[simp] theorem invSbox_sbox (b : UInt8) : invSbox (sbox b) = b := by
  have h := congrArg (fun l => l[b.toNat]?) map_invSbox_sboxTable
  have hlt : b.toNat < 256 := b.toNat_lt
  simpa [sbox, Vector.get, hlt] using h

@[simp] theorem invSubBytes_subBytes (s : Block) : invSubBytes (subBytes s) = s := by
  ext i hi
  simp [invSubBytes, subBytes]

/-! ## The rows -/

theorem ext_block {s t : Block} (h : ∀ i : Fin 16, s[i] = t[i]) : s = t :=
  Vector.ext fun i hi => h ⟨i, hi⟩

@[simp] theorem invShiftRows_shiftRows (s : Block) : invShiftRows (shiftRows s) = s := by
  apply ext_block
  intro i
  fin_cases i <;> rfl

/-! ## The columns -/

/-- Multiplication by `x` in GF(2^8), one pass of the loop of `gmul`. -/
def xtime (a : UInt8) : UInt8 := if a &&& 0x80 ≠ 0 then (a <<< 1) ^^^ 0x1b else a <<< 1

/-- A mask of one bit leaves that bit. -/
theorem and_twoPow (a : UInt8) (i : Fin 8) : a &&& .ofBitVec (.twoPow 8 i) =
    if a.toBitVec.getLsbD i then .ofBitVec (.twoPow 8 i) else 0 := by
  apply UInt8.toBitVec_inj.mp
  rw [UInt8.toBitVec_and, UInt8.toBitVec_ofBitVec, BitVec.and_twoPow]
  split <;> rfl

theorem and_high (a : UInt8) : a &&& 0x80 = 0 ∨ a &&& 0x80 = 0x80 := by
  have h : a &&& 0x80 = if a.toBitVec.getLsbD 7 then 0x80 else 0 := and_twoPow a 7
  rw [h]
  split
  · exact .inr rfl
  · exact .inl rfl

theorem xor_and (a b c : UInt8) : (a ^^^ b) &&& c = (a &&& c) ^^^ (b &&& c) := by
  apply UInt8.toBitVec_inj.mp
  ext i
  simp [Bool.and_xor_distrib_right]

/-- Multiplication by `x` is linear. -/
@[simp] theorem xtime_xor (a b : UInt8) : xtime (a ^^^ b) = xtime a ^^^ xtime b := by
  have hone : (0x80 : UInt8) ≠ 0 := by decide
  unfold xtime
  rw [xor_and, UInt8.shiftLeft_xor]
  rcases and_high a with ha | ha <;> rcases and_high b with hb | hb
  · simp [ha, hb]
  · simp [ha, hb, UInt8.xor_assoc]
  · simp only [ha, hb, UInt8.xor_zero, ne_eq, hone, not_true_eq_false, not_false_eq_true, if_true,
      if_false]
    rw [UInt8.xor_assoc, UInt8.xor_assoc, UInt8.xor_comm 0x1b]
  · simp only [ha, hb, UInt8.xor_self, ne_eq, hone, not_true_eq_false, not_false_eq_true, if_true,
      if_false]
    rw [UInt8.xor_comm (b <<< 1), UInt8.xor_assoc, xor_cancel]

theorem gmul_two (a : UInt8) : gmul a 2 = xtime a := UInt8.zero_xor

theorem gmul_three (a : UInt8) : gmul a 3 = 0 ^^^ a ^^^ xtime a := rfl

theorem gmul_nine (a : UInt8) : gmul a 9 = 0 ^^^ a ^^^ xtime (xtime (xtime a)) := rfl

theorem gmul_eleven (a : UInt8) : gmul a 11 = 0 ^^^ a ^^^ xtime a ^^^ xtime (xtime (xtime a)) := rfl

theorem gmul_thirteen (a : UInt8) :
    gmul a 13 = 0 ^^^ a ^^^ xtime (xtime a) ^^^ xtime (xtime (xtime a)) := rfl

theorem gmul_fourteen (a : UInt8) :
    gmul a 14 = 0 ^^^ xtime a ^^^ xtime (xtime a) ^^^ xtime (xtime (xtime a)) := rfl

theorem gmulLoop_xor (n : Nat) (p q a c b : UInt8) :
    gmulLoop n (p ^^^ q) (a ^^^ c) b = gmulLoop n p a b ^^^ gmulLoop n q c b := by
  induction n generalizing p q a c b with
  | zero => rfl
  | succ n ih =>
    change gmulLoop n _ (xtime (a ^^^ c)) _ =
      gmulLoop n _ (xtime a) _ ^^^ gmulLoop n _ (xtime c) _
    rw [xtime_xor, ← ih]
    congr 1
    split
    · rw [UInt8.xor_assoc, UInt8.xor_assoc, xor_left_comm q]
    · rfl

/-- Multiplication by a fixed factor is linear. -/
theorem gmul_xor (a c b : UInt8) : gmul (a ^^^ c) b = gmul a b ^^^ gmul c b := by
  rw [gmul, gmul, gmul, ← gmulLoop_xor, UInt8.xor_self]

abbrev Column := Vector UInt8 4

def xorColumn (s t : Column) : Column := Vector.zipWith (· ^^^ ·) s t

theorem mixColumn_xor (s t : Column) :
    mixColumn (xorColumn s t) = xorColumn (mixColumn s) (mixColumn t) := by
  ext i hi
  interval_cases i <;> simp [mixColumn, xorColumn, gmul_xor] <;> ac_rfl

theorem invMixColumn_xor (s t : Column) :
    invMixColumn (xorColumn s t) = xorColumn (invMixColumn s) (invMixColumn t) := by
  ext i hi
  interval_cases i <;> simp [invMixColumn, xorColumn, gmul_xor] <;> ac_rfl

/-- The column with one byte. -/
def axis (j : Fin 4) (a : UInt8) : Column := Vector.ofFn fun i => if i = j then a else 0

theorem eq_xor_axis (t : Column) : t = xorColumn (xorColumn (axis 0 (t.get 0)) (axis 1 (t.get 1)))
    (xorColumn (axis 2 (t.get 2)) (axis 3 (t.get 3))) := by
  ext i hi
  interval_cases i <;> simp [xorColumn, axis, Vector.get]

/-- The products of the coefficients of the two matrices, which are polynomials in `xtime`. -/
theorem mix_coefficients (a : UInt8) :
    gmul (gmul a 2) 14 ^^^ gmul a 11 ^^^ gmul a 13 ^^^ gmul (gmul a 3) 9 = a ∧
    gmul (gmul a 3) 14 ^^^ gmul (gmul a 2) 11 ^^^ gmul a 13 ^^^ gmul a 9 = 0 ∧
    gmul a 14 ^^^ gmul (gmul a 3) 11 ^^^ gmul (gmul a 2) 13 ^^^ gmul a 9 = 0 ∧
    gmul a 14 ^^^ gmul a 11 ^^^ gmul (gmul a 3) 13 ^^^ gmul (gmul a 2) 9 = 0 := by
  simp only [gmul_two, gmul_three, gmul_nine, gmul_eleven, gmul_thirteen, gmul_fourteen, xtime_xor,
    UInt8.zero_xor]
  generalize xtime a = x
  generalize xtime x = y
  generalize xtime y = z
  generalize xtime z = w
  refine ⟨?_, ?_, ?_, ?_⟩ <;>
    simp only [UInt8.xor_comm, xor_left_comm, xor_cancel, UInt8.xor_self,
      UInt8.xor_zero]

theorem gmul_zero_left (b : UInt8) : gmul 0 b = 0 := by
  have h := gmul_xor 0 0 b
  rwa [UInt8.xor_self, UInt8.xor_self] at h

theorem invMixColumn_mixColumn_axis (j : Fin 4) (a : UInt8) :
    invMixColumn (mixColumn (axis j a)) = axis j a := by
  obtain ⟨h0, h1, h2, h3⟩ := mix_coefficients a
  simp only [UInt8.xor_assoc, UInt8.xor_comm, xor_left_comm] at h0 h1 h2 h3
  fin_cases j <;> ext i hi <;> interval_cases i <;>
    simp [invMixColumn, mixColumn, axis, gmul_zero_left, UInt8.xor_assoc, UInt8.xor_comm,
      xor_left_comm, h0, h1, h2, h3]

@[simp] theorem invMixColumn_mixColumn (t : Column) : invMixColumn (mixColumn t) = t := by
  rw [eq_xor_axis t]
  simp only [mixColumn_xor, invMixColumn_xor, invMixColumn_mixColumn_axis]

theorem column_mapColumns (f : Column → Column) (s : Block) (c : Fin 4) :
    column (mapColumns f s) c = f (column s c) := by
  have hdiv (j : Nat) (hj : j < 4) : (c.val * 4 + j) / 4 = c.val := by omega
  have hmod (j : Nat) (hj : j < 4) : (c.val * 4 + j) % 4 = j := by omega
  ext i hi
  interval_cases i <;> simp [column, mapColumns, hdiv, hmod]

theorem eq_of_column {s t : Block} (h : ∀ c, column s c = column t c) : s = t := by
  have hget (c j : Fin 4) : s[c.val * 4 + j.val] = t[c.val * 4 + j.val] := by
    have hj := congrArg (fun v : Column => v[j]) (h c)
    fin_cases j <;> simpa [column] using hj
  refine Vector.ext fun i hi => ?_
  have hi' : i / 4 * 4 + i % 4 = i := by omega
  simpa only [hi'] using hget ⟨i / 4, by omega⟩ ⟨i % 4, by omega⟩

@[simp] theorem invMixColumns_mixColumns (s : Block) : invMixColumns (mixColumns s) = s := by
  apply eq_of_column
  intro c
  rw [invMixColumns, mixColumns, column_mapColumns, column_mapColumns, invMixColumn_mixColumn]

/-! ## Blocks -/

theorem xorBlock_cancel (a b : Block) : xorBlock (xorBlock a b) b = a := by
  refine Vector.ext fun i hi => ?_
  rw [xorBlock, xorBlock, Vector.getElem_zipWith, Vector.getElem_zipWith, xor_cancel_right]

@[simp] theorem addRoundKey_cancel (s k : Block) : addRoundKey (addRoundKey s k) k = s :=
  xorBlock_cancel s k

/-- What a round does to the bytes, without its key and its column mix. -/
def scramble (s : Block) : Block := shiftRows (subBytes s)

def unscramble (s : Block) : Block := invSubBytes (invShiftRows s)

@[simp] theorem unscramble_scramble (s : Block) : unscramble (scramble s) = s := by
  simp [unscramble, scramble]

/-- The rounds cut in front of the scrambling, which is where decryption takes them off. -/
def keyedRound (w : ExpandedKey) (s : Block) (r : Fin 11) : Block :=
  scramble (addRoundKey (mixColumns s) (roundKey w r))

theorem scramble_foldl_encryptRound (w : ExpandedKey) (rounds : List (Fin 11)) (s : Block) :
    scramble (rounds.foldl (encryptRound w) s) = rounds.foldl (keyedRound w) (scramble s) :=
  (List.foldl_hom scramble fun _ _ => rfl).symm

theorem decryptRound_keyedRound (w : ExpandedKey) (s : Block) (r : Fin 11) :
    decryptRound w (keyedRound w s r) r = s := by
  change invMixColumns (addRoundKey (unscramble (keyedRound w s r)) (roundKey w r)) = s
  simp [keyedRound]

/-- Decrypting a block undoes encrypting it, under any round keys. -/
@[simp] theorem aesDecryptBlock_aesEncryptBlock (w : ExpandedKey) (input : Block) :
    aesDecryptBlock w (aesEncryptBlock w input) = input := by
  have hencrypt : aesEncryptBlock w input =
      addRoundKey (mainRounds.foldl (keyedRound w) (scramble (addRoundKey input (roundKey w 0))))
        (roundKey w 10) := by
    rw [← scramble_foldl_encryptRound]
    rfl
  change addRoundKey (unscramble (mainRounds.reverse.foldl (decryptRound w)
    (addRoundKey (aesEncryptBlock w input) (roundKey w 10)))) (roundKey w 0) = input
  rw [hencrypt, addRoundKey_cancel, foldl_unwrap_foldl_wrap (decryptRound_keyedRound w),
    unscramble_scramble, addRoundKey_cancel]

instance finiteUInt8 : Finite UInt8 := Finite.of_injective UInt8.toFin fun _ _ => UInt8.toFin_inj.mp

instance : Finite Block :=
  Finite.of_injective (fun (b : Block) (i : Fin 16) => b[i]) fun _ _ h =>
    ext_block fun i => congrFun h i

/-- Blocks are finitely many, so encrypting undoes decrypting as well. -/
@[simp] theorem aesEncryptBlock_aesDecryptBlock (w : ExpandedKey) (input : Block) :
    aesEncryptBlock w (aesDecryptBlock w input) = input := by
  have hleft : Function.LeftInverse (aesDecryptBlock w) (aesEncryptBlock w) :=
    aesDecryptBlock_aesEncryptBlock w
  obtain ⟨b, rfl⟩ := Finite.surjective_of_injective hleft.injective input
  rw [hleft b]

/-- An expanded key is any eleven round keys, not only those that `keyExpansion128` makes:
whatever they are, both directions are bijections on blocks and undo each other. -/
theorem aesBlock_bijective (w : ExpandedKey) :
    (∀ b, aesDecryptBlock w (aesEncryptBlock w b) = b) ∧
      (∀ b, aesEncryptBlock w (aesDecryptBlock w b) = b) ∧
      Function.Bijective (aesEncryptBlock w) ∧ Function.Bijective (aesDecryptBlock w) := by
  have hdecrypt : Function.LeftInverse (aesDecryptBlock w) (aesEncryptBlock w) :=
    aesDecryptBlock_aesEncryptBlock w
  have hencrypt : Function.LeftInverse (aesEncryptBlock w) (aesDecryptBlock w) :=
    aesEncryptBlock_aesDecryptBlock w
  refine ⟨hdecrypt, hencrypt, ?_, ?_⟩
  · exact ⟨hdecrypt.injective, hencrypt.surjective⟩
  · exact ⟨hencrypt.injective, hdecrypt.surjective⟩

/-- AES-128 as a block cipher that is chained by xor. -/
def aesCipher (w : ExpandedKey) : BlockCipher Block where
  encrypt := aesEncryptBlock w
  decrypt := aesDecryptBlock w
  mix := xorBlock
  decrypt_encrypt := aesDecryptBlock_aesEncryptBlock w
  encrypt_decrypt := aesEncryptBlock_aesDecryptBlock w
  mix_cancel := xorBlock_cancel

end Federated.Crypto
