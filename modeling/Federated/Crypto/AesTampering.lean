import Federated.Crypto.AesCbc
import Federated.Library.StreamCipher

/-!
# What tampering with a ciphertext does

CBC mode does not authenticate. Bits that are changed in a cipher block change the same bits of the
next block of the message and spoil their own block; all others stay as they are. As long as the
padding is not reached, the module accepts the result.
-/

namespace Federated.Crypto

open Library

variable {key : Vector UInt8 32} {x y : Bytes}

theorem getD_xorBlock {r : Nat} (hr : r < 16) (a b : Block) :
    (xorBlock a b).toList.getD r 0 = a.toList.getD r 0 ^^^ b.toList.getD r 0 := by
  simp [xorBlock, hr]

/-- A byte of an opened ciphertext comes from its cipher block and the byte a block before. -/
theorem getD_cbcOpen {p : Nat} (hlen : x.length % 16 = 0) (hp : p < x.length) :
    (cbcOpen key x).getD p 0 =
      (aesDecryptBlock (roundKeys key) (frontBlock 16 (x.drop (16 * (p / 16))))).toList.getD
        (p % 16) 0 ^^^ ((ivOf key).toList ++ x).getD p 0 := by
  have hblock : p / 16 < x.length / 16 := by omega
  obtain ⟨prev, hprev⟩ : ∃ prev,
      (ivOf key :: cutBlocks 16 (x.length / 16) x)[p / 16]? = some prev :=
    ⟨_, List.getElem?_eq_getElem (by simp; omega)⟩
  have hbefore : ((ivOf key).toList ++ x).getD p 0 = prev.toList.getD (p % 16) 0 := by
    have hjoin := getElem?_joinBlocks (by omega) (ivOf key :: cutBlocks 16 (x.length / 16) x) p
    rw [joinBlocks_cons, joinBlocks_cutBlocks_div hlen, hprev, Option.bind_some] at hjoin
    rw [List.getD_eq_getElem?_getD, List.getD_eq_getElem?_getD, hjoin]
  rw [hbefore, ← getD_xorBlock (Nat.mod_lt p (by omega)), cbcOpen, List.getD_eq_getElem?_getD,
    getElem?_joinBlocks (by omega), BlockCipher.getElem?_cbcDecrypt, getElem?_cutBlocks hblock,
    hprev]
  rfl

/-- Byte strings with the same bytes at the places of a block have the same block there. -/
theorem frontBlock_drop_congr {j : Nat} (h : ∀ p, p / 16 = j → x.getD p 0 = y.getD p 0) :
    frontBlock 16 (x.drop (16 * j)) = frontBlock 16 (y.drop (16 * j)) := by
  refine Vector.ext fun r hr => ?_
  have hsame := h (16 * j + r) (by omega)
  simp only [frontBlock, Vector.getElem_ofFn, List.getD_eq_getElem?_getD,
    List.getElem?_drop] at hsame ⊢
  exact hsame

/-- The changes seen a block later. -/
def shifted (changes : Bytes) : Bytes := List.replicate 16 0 ++ changes

/-- In a block whose cipher block is not changed, the bits are changed that were changed in the
cipher block before it. -/
theorem getD_cbcOpen_xorBytes (key : Vector UInt8 32) {p : Nat} {changes : Bytes}
    (hlen : x.length % 16 = 0) (hchanges : x.length = changes.length) (hp : p < x.length)
    (hkept : ∀ q, q / 16 = p / 16 → changes.getD q 0 = 0) :
    (cbcOpen key (xorBytes x changes)).getD p 0 =
      (cbcOpen key x).getD p 0 ^^^ (shifted changes).getD p 0 := by
  have hsize : (xorBytes x changes).length = x.length := by simp [xorBytes, hchanges]
  have hblock : frontBlock 16 ((xorBytes x changes).drop (16 * (p / 16))) =
      frontBlock 16 (x.drop (16 * (p / 16))) := by
    refine frontBlock_drop_congr fun q hq => ?_
    rw [getD_xorBytes hchanges, hkept q hq, UInt8.xor_zero]
  have hbefore : ((ivOf key).toList ++ xorBytes x changes).getD p 0 =
      ((ivOf key).toList ++ x).getD p 0 ^^^ (shifted changes).getD p 0 := by
    have hlong : ((ivOf key).toList ++ x).length = (shifted changes).length := by
      rw [List.length_append, Vector.length_toList, hchanges, shifted, List.length_append,
        List.length_replicate]
    have hiv : xorBytes (ivOf key).toList (List.replicate 16 0) = (ivOf key).toList := by
      simpa using xorBytes_replicate_zero (ivOf key).toList
    rw [← getD_xorBytes hlong, shifted, xorBytes_append_append (by simp), hiv]
  rw [getD_cbcOpen (by omega) (by omega), getD_cbcOpen hlen hp, hblock, hbefore, UInt8.xor_assoc]

/-! ## The module -/

variable {message changes : Bytes}

/-- Changes of a ciphertext of a message of `n` bytes, none of them in its last two blocks. -/
structure SparesEnd (n : Nat) (changes : Bytes) : Prop where
  length : changes.length = 16 * (n / 16 + 1)
  spares : ∀ p, 16 * (n / 16 - 1) ≤ p → changes.getD p 0 = 0

theorem ext_getD {a b : Bytes} (hlen : a.length = b.length)
    (h : ∀ p < a.length, a.getD p 0 = b.getD p 0) : a = b := by
  refine List.ext_getElem hlen fun p ha hb => ?_
  simpa [List.getD_eq_getElem?_getD, ha, hb] using h p ha

/-- The changes seen a block later spare the last block. -/
theorem SparesEnd.getD_shifted {n p : Nat} (h : SparesEnd n changes) (hp : 16 * (n / 16) ≤ p) :
    (shifted changes).getD p 0 = 0 := by
  rw [shifted, List.getD_eq_getElem?_getD]
  obtain hlt | hge := Nat.lt_or_ge p 16
  · rw [List.getElem?_append_left (by simpa using hlt), List.getElem?_replicate, if_pos hlt,
      Option.getD_some]
  · rw [List.getElem?_append_right (by simpa using hge), List.length_replicate,
      ← List.getD_eq_getElem?_getD, h.spares (p - 16) (by omega)]

theorem length_cbcSeal_pad (key : Vector UInt8 32) (message : Bytes) :
    (cbcSeal key (pad 16 message)).length = 16 * (message.length / 16 + 1) := by
  rw [length_cbcSeal (length_pad_mod message), length_pad_eq (by omega)]

/-- The bytes of a tampered ciphertext in a block that is not changed. -/
theorem SparesEnd.getD_opened (h : SparesEnd message.length changes) (key : Vector UInt8 32)
    {p : Nat} (hp : p < 16 * (message.length / 16 + 1))
    (hkept : ∀ q, q / 16 = p / 16 → changes.getD q 0 = 0) :
    (cbcOpen key (xorBytes (cbcSeal key (pad 16 message)) changes)).getD p 0 =
      (pad 16 message).getD p 0 ^^^ (shifted changes).getD p 0 := by
  have hseal := length_cbcSeal_pad key message
  have hbyte := getD_cbcOpen_xorBytes key (by omega) (hseal.trans h.length.symm)
    (hp.trans_eq hseal.symm) hkept
  rwa [cbcOpen_cbcSeal (length_pad_mod message)] at hbyte

/-- Changes that do not reach the padding leave a padded message. -/
theorem SparesEnd.cbcOpen_eq (h : SparesEnd message.length changes) {opened : Bytes}
    (hopened : cbcOpen key (xorBytes (cbcSeal key (pad 16 message)) changes) = opened) :
    (opened.take message.length).length = message.length ∧
      opened = pad 16 (opened.take message.length) := by
  have hseal := length_cbcSeal_pad key message
  have hsize : (xorBytes (cbcSeal key (pad 16 message)) changes).length =
      16 * (message.length / 16 + 1) := by
    simp [xorBytes, hseal, h.length]
  have hlen : opened.length = 16 * (message.length / 16 + 1) := by
    rw [← hopened, length_cbcOpen (by omega), hsize]
  have htake : (opened.take message.length).length = message.length := by
    rw [List.length_take]
    omega
  have hpad := length_pad_eq (k := 16) (by omega) message
  -- The padding lies in the last block, where nothing is changed.
  have hdrop : opened.drop message.length = (pad 16 message).drop message.length := by
    refine ext_getD (by simp [hlen, hpad]) fun p hp => ?_
    have hend : 16 * (message.length / 16) ≤ message.length + p := by omega
    have hbyte := h.getD_opened key (p := message.length + p)
      (by rw [List.length_drop] at hp; omega) fun q hq => h.spares q (by omega)
    rw [h.getD_shifted hend, UInt8.xor_zero, hopened] at hbyte
    simpa [List.getD_eq_getElem?_getD] using hbyte
  refine ⟨htake, ?_⟩
  rw [pad, htake, ← drop_pad, ← hdrop, List.take_append_drop]

/-- Changes in a ciphertext that spare its last two blocks are accepted. Where the cipher block is
not changed, the message is changed in the bits that were changed in the cipher block before it;
and it comes out as it was only if nothing was changed. -/
theorem aesDecrypt_tampered (message changes : Bytes) (key : Vector UInt8 32)
    (ciphertext plaintext : Buffer) (h : SparesEnd message.length changes) :
    ∃ coded decoded, aesEncrypt message key.toList ciphertext = .ok (.ok, coded) ∧
      aesDecrypt (xorBytes coded.bytes changes) key.toList plaintext = .ok (.ok, decoded) ∧
      decoded.bytes.length = message.length ∧
      (decoded.bytes = message ↔ ∀ c ∈ changes, c = 0) ∧
      ∀ p < message.length, (∀ q, q / 16 = p / 16 → changes.getD q 0 = 0) →
        decoded.bytes.getD p 0 = message.getD p 0 ^^^ (shifted changes).getD p 0 := by
  have hseal := length_cbcSeal_pad key message
  have hmod : (xorBytes (cbcSeal key (pad 16 message)) changes).length % 16 = 0 := by
    simp [xorBytes, hseal, h.length]
  have hunchanged : xorBytes (cbcSeal key (pad 16 message)) changes =
      cbcSeal key (pad 16 message) ↔ ∀ c ∈ changes, c = 0 :=
    xorBytes_eq_self_iff (hseal.trans h.length.symm)
  have hagain := @cbcSeal_cbcOpen key _ hmod
  obtain ⟨opened, hopened⟩ : ∃ opened,
      cbcOpen key (xorBytes (cbcSeal key (pad 16 message)) changes) = opened := ⟨_, rfl⟩
  obtain ⟨htake, hpadded⟩ := h.cbcOpen_eq hopened
  refine ⟨_, .ofBlock (opened.take message.length), aesEncrypt_eq key message ciphertext,
    ?_, ?_, ?_, ?_⟩
  · rw [Buffer.bytes_ofBlock]
    exact aesDecrypt_of_pad plaintext hmod (hopened.trans hpadded)
  · rwa [Buffer.bytes_ofBlock]
  · rw [Buffer.bytes_ofBlock, ← hunchanged]
    constructor
    · intro hmessage
      rw [hmessage] at hpadded
      rw [← hagain, hopened, hpadded]
    · intro hsame
      rw [hsame, cbcOpen_cbcSeal (length_pad_mod message)] at hopened
      rw [← hopened, take_pad]
  · intro p hp hkept
    have hbyte := h.getD_opened key (p := p) (by omega) hkept
    rw [hopened] at hbyte
    rw [Buffer.bytes_ofBlock]
    have hfront : (opened.take message.length).getD p 0 = opened.getD p 0 := by
      simp [List.getD_eq_getElem?_getD, hp]
    have hmessage : (pad 16 message).getD p 0 = message.getD p 0 := by
      rw [List.getD_eq_getElem?_getD, pad, List.getElem?_append_left hp,
        ← List.getD_eq_getElem?_getD]
    rw [hfront, hbyte, hmessage]

/-- The lowest bit of the first cipher byte is changed. -/
def lowestBit : Bytes := 1 :: List.replicate 47 0

theorem sparesEnd_lowestBit : SparesEnd 32 lowestBit where
  length := rfl
  spares p hp := by
    obtain ⟨q, rfl⟩ : ∃ q, p = q + 1 := ⟨p - 1, by omega⟩
    rw [lowestBit, List.getD_cons_succ, List.getD_eq_getElem?_getD, List.getElem?_replicate]
    split <;> rfl

theorem aesDecrypt_tampered_lowestBit :
    ∃ coded decoded,
      aesEncrypt (List.replicate 32 1) zeroKey.toList (.ofBlock []) = .ok (.ok, coded) ∧
      aesDecrypt (xorBytes coded.bytes lowestBit) zeroKey.toList (.ofBlock []) =
        .ok (.ok, decoded) ∧
      decoded.bytes.length = 32 ∧ decoded.bytes ≠ List.replicate 32 1 ∧
      decoded.bytes.getD 16 0 = 0 := by
  obtain ⟨coded, decoded, hcoded, hdecoded, hlength, hsame, hbytes⟩ :=
    aesDecrypt_tampered (List.replicate 32 1) lowestBit zeroKey (.ofBlock []) (.ofBlock [])
      sparesEnd_lowestBit
  refine ⟨coded, decoded, hcoded, hdecoded, hlength, fun heq => ?_, ?_⟩
  · exact absurd (hsame.mp heq 1 (List.mem_cons_self ..)) (by decide)
  · rw [hbytes 16 (by decide) fun q hq => sparesEnd_lowestBit.spares q (by simp; omega)]
    rfl

end Federated.Crypto
