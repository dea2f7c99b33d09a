import Federated.Crypto.AesBlock
import Federated.Crypto.Rijndael
import Federated.Library.ShiftRegister

/-!
# The block cipher is AES-128

Bytes stand for residues, exclusive or for their addition and `gmul` for their
multiplication. The table is inversion followed by the affine map, so that every
transformation of the code is the one of the algebraic cipher, and the expanded
key its key schedule.
-/

namespace Federated.Crypto

open Library Rijndael

/-! ## Bytes and residues -/

/-- A bit of a byte. -/
def byteBit (b : UInt8) (i : Fin 8) : ZMod 2 := if b.toBitVec.getLsbD i then 1 else 0

/-- The residue a byte stands for. -/
noncomputable def residue (b : UInt8) : GF256 := ofBits (byteBit b)

@[simp] theorem bit_residue (b : UInt8) (i : Fin 8) : bit (residue b) i = byteBit b i :=
  bit_ofBits _ i

theorem byteBit_xor (a b : UInt8) (i : Fin 8) :
    byteBit (a ^^^ b) i = byteBit a i + byteBit b i := by
  simp only [byteBit, UInt8.toBitVec_xor, BitVec.getLsbD_xor]
  cases a.toBitVec.getLsbD i <;> cases b.toBitVec.getLsbD i <;> rfl

@[simp] theorem residue_xor (a b : UInt8) : residue (a ^^^ b) = residue a + residue b := by
  rw [residue, funext (byteBit_xor a b), ofBits_add]
  rfl

@[simp] theorem residue_zero : residue 0 = 0 := by
  have h := residue_xor 0 0
  rwa [UInt8.xor_self, left_eq_add] at h

theorem residue_injective : Function.Injective residue := by
  intro a b h
  apply UInt8.toBitVec_inj.mp
  apply BitVec.eq_of_getLsbD_eq
  intro i hi
  have hbit := congrArg (bit · ⟨i, hi⟩) h
  simp only [bit_residue, byteBit] at hbit
  cases ha : a.toBitVec.getLsbD i <;> cases hb : b.toBitVec.getLsbD i <;> simp [ha, hb] at hbit ⊢

theorem residue_surjective : Function.Surjective residue := by
  intro a
  refine ⟨.ofBitVec (ShiftRegister.word ((List.finRange 8).map fun i => bit a i = 1)), ?_⟩
  rw [residue, ← ofBits_bit a]
  congr 1
  funext i
  have hbit : bit a i = 0 ∨ bit a i = 1 := by
    generalize bit a i = b
    revert b
    decide
  rw [byteBit, ShiftRegister.getLsbD_word, List.getD_eq_getElem?_getD]
  obtain h | h := hbit <;> simp [h]

/-- Bytes and residues correspond. -/
noncomputable def byteEquiv : UInt8 ≃ GF256 :=
  Equiv.ofBijective residue ⟨residue_injective, residue_surjective⟩

/-! ## Multiplication -/

/-- A bit is what a mask of that bit leaves of the byte. -/
theorem byteBit_eq (b : UInt8) (i : Fin 8) :
    byteBit b i = if b &&& .ofBitVec (.twoPow 8 i) ≠ 0 then 1 else 0 := by
  have hone : (.ofBitVec (.twoPow 8 i) : UInt8) ≠ 0 := by
    revert i
    decide
  rw [byteBit, and_twoPow]
  cases b.toBitVec.getLsbD i <;> simp [hone]

theorem byteBit_shiftRight (b : UInt8) : byteBit (b >>> 1) =
    ![byteBit b 1, byteBit b 2, byteBit b 3, byteBit b 4, byteBit b 5, byteBit b 6, byteBit b 7,
      0] := by
  funext i
  fin_cases i <;> simp [byteBit]

theorem byteBit_shiftLeft (b : UInt8) : byteBit (b <<< 1) =
    ![0, byteBit b 0, byteBit b 1, byteBit b 2, byteBit b 3, byteBit b 4, byteBit b 5,
      byteBit b 6] := by
  funext i
  fin_cases i <;> simp [byteBit]

theorem byteBit_xtime (a : UInt8) : byteBit (xtime a) =
    ![byteBit a 7, byteBit a 0 + byteBit a 7, byteBit a 1, byteBit a 2 + byteBit a 7,
      byteBit a 3 + byteBit a 7, byteBit a 4, byteBit a 5, byteBit a 6] := by
  have hpoly : byteBit 0x1b = ![1, 1, 0, 1, 1, 0, 0, 0] := by decide
  have hhigh : byteBit a 7 = if a &&& 0x80 ≠ 0 then 1 else 0 := byteBit_eq a 7
  funext i
  rw [hhigh, xtime]
  split
  · rw [byteBit_xor, hpoly, byteBit_shiftLeft]
    fin_cases i <;> simp
  · rw [byteBit_shiftLeft]
    fin_cases i <;> simp

/-- The lowest bit of a byte, and the others moved down. -/
theorem residue_eq_shift (b : UInt8) :
    residue b = (if b &&& 1 ≠ 0 then 1 else 0 : GF256) + x * residue (b >>> 1) := by
  have hzero : byteBit b 0 = if b &&& 1 ≠ 0 then 1 else 0 := byteBit_eq b 0
  have hlow : (if b &&& 1 ≠ 0 then 1 else 0 : GF256) = AdjoinRoot.of modulus (byteBit b 0) := by
    rw [hzero, apply_ite (AdjoinRoot.of modulus), map_one, map_zero]
  rw [hlow, residue, residue, byteBit_shiftRight, ofBits_eq, ofBits_eq]
  simp
  ring

/-- One pass of the multiplication loop multiplies by `x`. -/
theorem residue_xtime (a : UInt8) : residue (xtime a) = x * residue a := by
  rw [residue, residue, byteBit_xtime, ofBits_eq, ofBits_eq]
  simp
  linear_combination -AdjoinRoot.of modulus (byteBit a 7) * x_pow_eight

/-- The loop adds the product of the factor with the bits that are left. -/
theorem residue_gmulLoop (n : Nat) (p a b : UInt8) (h : b.toNat < 2 ^ n) :
    residue (gmulLoop n p a b) = residue p + residue a * residue b := by
  induction n generalizing p a b with
  | zero =>
    obtain rfl : b = 0 := UInt8.toNat_inj.mp (by simpa using h)
    simp [gmulLoop]
  | succ n ih =>
    have hshift : (b >>> 1).toNat < 2 ^ n := by
      rw [UInt8.toNat_shiftRight]
      simp [Nat.shiftRight_eq_div_pow]
      omega
    change residue (gmulLoop n (if b &&& 1 ≠ 0 then p ^^^ a else p) (xtime a) (b >>> 1)) = _
    rw [ih _ _ _ hshift, residue_xtime, residue_eq_shift b]
    split
    · rw [residue_xor]
      ring
    · ring

/-- Multiplying bytes is multiplying residues. -/
@[simp] theorem residue_gmul (a b : UInt8) : residue (gmul a b) = residue a * residue b := by
  rw [gmul, residue_gmulLoop 8 0 a b b.toNat_lt, residue_zero, zero_add]

@[simp] theorem residue_one : residue 1 = 1 := by
  have h := residue_eq_shift 1
  rwa [if_pos (by decide), show (1 : UInt8) >>> 1 = 0 from rfl, residue_zero, mul_zero,
    add_zero] at h

@[simp] theorem residue_two : residue 2 = x := by
  have h := residue_xtime 1
  rwa [residue_one, mul_one] at h

@[simp] theorem residue_three : residue 3 = x + 1 := by
  have h := residue_xor 2 1
  rwa [residue_one, residue_two] at h

/-! ## The S-box -/

def rotateByte (b : UInt8) (n : Nat) : UInt8 := .ofBitVec (b.toBitVec.rotateLeft n)

/-- The affine map, on bytes. -/
def affineByte (b : UInt8) : UInt8 :=
  b ^^^ rotateByte b 4 ^^^ rotateByte b 3 ^^^ rotateByte b 2 ^^^ rotateByte b 1 ^^^ 0x63

/-- The byte the affine map takes to `s`. -/
def unaffineByte (s : UInt8) : UInt8 :=
  rotateByte s 1 ^^^ rotateByte s 3 ^^^ rotateByte s 6 ^^^ 0x05

/-- What the table leaves of an entry without the affine map. -/
def inverseByte (b : UInt8) : UInt8 := unaffineByte (sbox b)

theorem byteBit_rotateByte (b : UInt8) (n i : Fin 8) :
    byteBit (rotateByte b n) i = byteBit b (i - n) := by
  have hplace : ((i - n : Fin 8) : Nat) =
      if (i : Nat) < n then 8 - (n : Nat) + i else (i : Nat) - n := by
    rw [Fin.val_sub]
    split <;> omega
  rw [byteBit, rotateByte, UInt8.toBitVec_ofBitVec, BitVec.getLsbD_rotateLeft, byteBit, hplace,
    Nat.mod_eq_of_lt n.isLt]
  by_cases hlt : (i : Nat) < n
  · rw [decide_eq_true hlt, cond_true, if_pos hlt]
  · rw [decide_eq_false hlt, cond_false, if_neg hlt, decide_eq_true i.isLt, Bool.true_and]

theorem residue_affineByte (b : UInt8) : residue (affineByte b) = affine (residue b) := by
  have hconst : byteBit 0x63 = ![1, 1, 0, 0, 0, 1, 1, 0] := by decide
  have hplaces : ∀ i : Fin 8, i - 4 = i + 4 ∧ i - 3 = i + 5 ∧ i - 2 = i + 6 ∧ i - 1 = i + 7 := by
    decide
  rw [residue, affine]
  congr 1
  funext i
  obtain ⟨h4, h3, h2, h1⟩ := hplaces i
  simp only [affineByte, byteBit_xor, hconst, bit_residue, ← h4, ← h3, ← h2, ← h1,
    ← byteBit_rotateByte]
  rfl

theorem affineByte_unaffineByte (s : UInt8) : affineByte (unaffineByte s) = s := by
  revert s
  refine forall_byte ?_
  decide +kernel

/-- The products of the bytes with what stands in the table for them. -/
theorem gmul_sboxTable : List.zipWith (fun n s => gmul (UInt8.ofNat n) (unaffineByte s))
    (List.range 256) sboxTable.toList = 0 :: List.replicate 255 1 :=
  eq_of_beq (by decide +kernel)

theorem gmul_inverseByte {b : UInt8} (hb : b ≠ 0) : gmul b (inverseByte b) = 1 := by
  have hlt : b.toNat < 256 := b.toNat_lt
  have hpos : b.toNat ≠ 0 := fun h => hb (UInt8.toNat_inj.mp h)
  obtain ⟨n, hn⟩ := Nat.exists_eq_succ_of_ne_zero hpos
  have hentry : sboxTable.toList[b.toNat]? = some (sbox b) := by
    simp [sbox, Vector.get, hlt]
  have h := congrArg (fun l : List UInt8 => l[b.toNat]?) gmul_sboxTable
  have hone : (0 :: List.replicate 255 (1 : UInt8))[b.toNat]? = some 1 := by
    rw [hn, List.getElem?_cons_succ, List.getElem?_replicate, if_pos (by omega)]
  simp only [List.getElem?_zipWith, List.getElem?_range hlt, hentry, hone, UInt8.ofNat_toNat] at h
  exact Option.some.inj h

/-- Inversion, by checking the table. -/
theorem inverse_residue (b : UInt8) : Ring.inverse (residue b) = residue (inverseByte b) := by
  by_cases hb : b = 0
  · subst hb
    rw [residue_zero, Ring.inverse_zero, show inverseByte 0 = 0 from rfl, residue_zero]
  · have h := congrArg residue (gmul_inverseByte hb)
    rw [residue_gmul, residue_one] at h
    have hunit : IsUnit (residue b) := IsUnit.of_mul_eq_one _ h
    rw [← mul_one (Ring.inverse _), ← h, Ring.inverse_mul_cancel_left _ _ hunit]

/-- The table is the S-box of the algebraic cipher. -/
@[simp] theorem residue_sbox (b : UInt8) : residue (sbox b) = sBox (residue b) := by
  rw [sBox, inverse_residue, ← residue_affineByte, inverseByte, affineByte_unaffineByte]

/-- The residues are a field. -/
theorem isField_residues : IsField GF256 where
  exists_pair_ne := ⟨0, 1, zero_ne_one⟩
  mul_comm := mul_comm
  mul_inv_cancel := by
    intro a ha
    obtain ⟨b, rfl⟩ := residue_surjective a
    have hb : b ≠ 0 := fun hb => ha (by rw [hb, residue_zero])
    refine ⟨residue (inverseByte b), ?_⟩
    rw [← residue_gmul, gmul_inverseByte hb, residue_one]

/-! ## States -/

/-- The state a block stands for, column by column. -/
noncomputable def toState (s : Block) : State := fun r c => residue s[c.val * 4 + r.val]

theorem toState_apply (s : Block) (r c : Fin 4) : toState s r c = residue ((column s c).get r) := by
  fin_cases r <;> rfl

theorem toState_injective : Function.Injective toState := by
  intro s t h
  apply eq_of_column
  intro c
  refine Vector.ext fun r hr => residue_injective ?_
  have hentry := congrFun (congrFun h ⟨r, hr⟩) c
  rwa [toState_apply, toState_apply] at hentry

theorem toState_surjective : Function.Surjective toState := by
  intro m
  refine ⟨Vector.ofFn fun i => byteEquiv.symm (m ⟨i.val % 4, by omega⟩ ⟨i.val / 4, by omega⟩), ?_⟩
  funext r c
  have hr : (c.val * 4 + r.val) % 4 = r.val := by omega
  have hc : (c.val * 4 + r.val) / 4 = c.val := by omega
  simp only [toState, Vector.getElem_ofFn, hr, hc]
  exact byteEquiv.apply_symm_apply _

/-- Blocks and states correspond. -/
noncomputable def stateEquiv : Block ≃ State :=
  Equiv.ofBijective toState ⟨toState_injective, toState_surjective⟩

theorem toState_subBytes (s : Block) : toState (subBytes s) = Rijndael.subBytes (toState s) := by
  funext r c
  simp [toState, subBytes, Rijndael.subBytes]

theorem toState_shiftRows (s : Block) : toState (shiftRows s) = Rijndael.shiftRows (toState s) := by
  funext r c
  fin_cases r <;> fin_cases c <;> rfl

theorem toState_mixColumns (s : Block) :
    toState (mixColumns s) = Rijndael.mixColumns (toState s) := by
  funext r c
  have hcolumn : (fun i => toState s i c) = fun i => residue ((column s c).get i) :=
    funext fun i => toState_apply s i c
  rw [toState_apply, mixColumns, column_mapColumns, Rijndael.mixColumns, hcolumn, mixColumn_eq]
  fin_cases r <;> simp [mixColumn, Vector.get] <;> ring

theorem toState_xorBlock (s t : Block) (r c : Fin 4) :
    toState (xorBlock s t) r c = toState s r c + toState t r c := by
  simp [toState, xorBlock]

/-! ## The key schedule -/

/-- Each round constant is the one before, multiplied by `x`. -/
theorem rcon_succ (j : Fin 9) :
    rcon.get ⟨j.val + 2, by omega⟩ = xtime (rcon.get ⟨j.val + 1, by omega⟩) := by
  revert j
  decide

theorem residue_rcon {j : Nat} (h : j < 10) : residue (rcon.get ⟨j + 1, by omega⟩) = x ^ j := by
  induction j with
  | zero => exact residue_one
  | succ j ih => rw [rcon_succ ⟨j, by omega⟩, residue_xtime, ih (by omega), pow_succ']

/-- The word that is mixed into word `n + 4`. -/
def scheduleWord (w : ExpandedKey) (n : Fin 40) : Vector UInt8 4 :=
  let last : Vector UInt8 4 := Vector.ofFn fun j => w[(n.val + 3) * 4 + j.val]
  if n.val % 4 = 0 then scheduleCore last ⟨n.val / 4 + 1, by omega⟩ else last

/-- A pass of the expansion loop writes one word. -/
theorem getElem_expandWord (w : ExpandedKey) (n : Fin 40) (i : Fin 44) (j : Fin 4) :
    (expandWord w n)[i.val * 4 + j.val] =
      if i.val = n.val + 4 then w[n.val * 4 + j.val] ^^^ (scheduleWord w n)[j]
      else w[i.val * 4 + j.val] := by
  have htemp : (if (n.val + 4) % 4 = 0 then
        scheduleCore (Vector.ofFn fun j : Fin 4 => w[(n.val + 4 - 1) * 4 + j.val])
          ⟨(n.val + 4) / 4, by omega⟩
      else Vector.ofFn fun j : Fin 4 => w[(n.val + 4 - 1) * 4 + j.val]) = scheduleWord w n := by
    simp [scheduleWord]
  unfold expandWord
  simp only [htemp]
  rw [show List.finRange 4 = [0, 1, 2, 3] from rfl]
  simp only [List.foldl_cons, List.foldl_nil, Vector.getElem_set]
  grind

/-- The first words of the expanded key are those of the schedule. -/
def ScheduledUpTo (key : Block) (w : ExpandedKey) (n : Nat) : Prop :=
  ∀ (i : Fin 44) (j : Fin 4), i.val < n →
    residue w[i.val * 4 + j.val] = keyWord (toState key) i j

theorem residue_scheduleWord {key : Block} {w : ExpandedKey} {n : Fin 40}
    (h : ScheduledUpTo key w (n + 4)) (j : Fin 4) :
    residue (scheduleWord w n)[j] = (if n.val % 4 = 0 then
      subWord (rotWord (keyWord (toState key) (n + 3))) + Rijndael.rcon (n / 4 + 1)
      else keyWord (toState key) (n + 3)) j := by
  have hlast (j : Fin 4) : residue w[(n.val + 3) * 4 + j.val] = keyWord (toState key) (n + 3) j :=
    h ⟨n.val + 3, by omega⟩ j (Nat.lt_succ_self _)
  have hrcon : residue rcon[n.val / 4 + 1] = x ^ (n.val / 4) :=
    residue_rcon (show n.val / 4 < 10 by omega)
  by_cases hn : n.val % 4 = 0
  · have h0 := hlast 0
    have h1 := hlast 1
    have h2 := hlast 2
    have h3 := hlast 3
    simp only [scheduleWord, if_pos hn]
    fin_cases j <;>
      simp_all [scheduleCore, subWord, rotWord, Rijndael.rcon]
  · simp only [scheduleWord, if_neg hn]
    simpa using hlast j

theorem ScheduledUpTo.expandWord {key : Block} {w : ExpandedKey} {n : Fin 40}
    (h : ScheduledUpTo key w (n + 4)) : ScheduledUpTo key (expandWord w n) (n + 5) := by
  intro i j hi
  rw [getElem_expandWord]
  by_cases hlast : i.val = n.val + 4
  · have hfirst : residue w[n.val * 4 + j.val] = keyWord (toState key) n j :=
      h ⟨n.val, by omega⟩ j (by simp)
    have hmod : (n.val + 4) % 4 = n.val % 4 := by omega
    rw [if_pos hlast, residue_xor, hfirst, residue_scheduleWord h, hlast, keyWord.eq_1 _ (_ + 4),
      dif_neg (by omega), hmod]
    split <;> simp
  · rw [if_neg hlast]
    exact h i j (by omega)

theorem scheduledUpTo_start (key : Block) :
    ScheduledUpTo key (Vector.ofFn fun i => if h : i.val < 16 then key[i.val] else 0) 4 := by
  intro i j hi
  rw [keyWord.eq_1, dif_pos hi]
  have hinside : i.val * 4 + j.val < 16 := by omega
  simp [toState, hinside]

/-- The expanded key is the key schedule. -/
theorem keyExpansion128_scheduled (key : Block) : ScheduledUpTo key (keyExpansion128 key) 44 := by
  have hrun (n : Nat) (hn : n ≤ 40) : ScheduledUpTo key
      (((List.finRange 40).take n).foldl expandWord
        (Vector.ofFn fun i => if h : i.val < 16 then key[i.val] else 0)) (n + 4) := by
    induction n with
    | zero => exact scheduledUpTo_start key
    | succ n ih =>
      have hget : (List.finRange 40)[n]? = some ⟨n, hn⟩ := by
        rw [List.getElem?_eq_getElem (by simpa using hn), List.getElem_finRange]
        rfl
      rw [List.take_add_one, hget, Option.toList_some, List.foldl_append, List.foldl_cons,
        List.foldl_nil]
      exact (ih (by omega)).expandWord
  have h := hrun 40 (Nat.le_refl _)
  rwa [List.take_of_length_le (by simp)] at h

theorem toState_addRoundKey (key s : Block) (round : Fin 11) :
    toState (addRoundKey s (roundKey (keyExpansion128 key) round)) =
      Rijndael.addRoundKey (toState key) round (toState s) := by
  funext r c
  have hword := keyExpansion128_scheduled key ⟨round.val * 4 + c.val, by omega⟩ r (by simp; omega)
  have hindex : round.val * 16 + (c.val * 4 + r.val) = (round.val * 4 + c.val) * 4 + r.val := by
    omega
  rw [addRoundKey, toState_xorBlock, Rijndael.addRoundKey, Nat.mul_comm 4, ← hword]
  simp [toState, roundKey, hindex]

/-! ## The cipher -/

theorem toState_encryptRound (key s : Block) (round : Fin 11) :
    toState (encryptRound (keyExpansion128 key) s round) =
      Rijndael.addRoundKey (toState key) round
        (Rijndael.mixColumns (Rijndael.shiftRows (Rijndael.subBytes (toState s)))) := by
  rw [encryptRound, toState_addRoundKey, toState_mixColumns, toState_shiftRows, toState_subBytes]

/-- Encrypting a block under an expanded key is AES-128. -/
theorem aesEncryptBlock_eq_cipher (key block : Block) :
    aesEncryptBlock (keyExpansion128 key) block =
      stateEquiv.symm (cipher (stateEquiv key) (stateEquiv block)) := by
  rw [Equiv.eq_symm_apply]
  change toState (aesEncryptBlock (keyExpansion128 key) block) =
    cipher (toState key) (toState block)
  have hrounds (n : Nat) (hn : n ≤ 9) :
      toState ((mainRounds.take n).foldl (encryptRound (keyExpansion128 key))
        (addRoundKey block (roundKey (keyExpansion128 key) 0))) =
      rounds (toState key) (toState block) n := by
    induction n with
    | zero => exact toState_addRoundKey key block 0
    | succ n ih =>
      have hget : mainRounds[n]? = some ⟨n + 1, by omega⟩ := by
        have hlt : n < 9 := hn
        interval_cases n <;> rfl
      rw [List.take_add_one, hget, Option.toList_some, List.foldl_append, List.foldl_cons,
        List.foldl_nil, toState_encryptRound, ih (by omega), rounds]
  have hmain := hrounds 9 (Nat.le_refl _)
  rw [aesEncryptBlock, cipher, toState_addRoundKey, toState_shiftRows, toState_subBytes, ← hmain]
  rfl

end Federated.Crypto
