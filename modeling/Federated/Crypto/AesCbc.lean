import Federated.Crypto.AesBlock

/-!
# The AES-128-CBC module undoes itself, and what it accepts

Encrypting pads the message and chains its blocks; decrypting undoes both. The
other way round, decrypting accepts a ciphertext only if its decryption ends in
padding, except that a ciphertext of one block is always accepted.
-/

namespace Federated.Crypto

open Library

/-! ## Padding -/

theorem addPadding_eq (input : Bytes) : addPadding input (input.length + 16) = pad 16 input := by
  rw [addPadding, if_neg (by omega), pad, padLength]

theorem length_pad_mod (data : Bytes) : (pad 16 data).length % 16 = 0 := by
  rw [length_pad_eq (by omega), Nat.mul_mod_right]

theorem removePadding_pad {data : Bytes} {capacity : Nat} (h : data.length ≤ capacity) :
    removePadding (pad 16 data) capacity = data := by
  have hpos : 0 < padLength 16 data.length := padLength_pos (by omega) _
  have hle : padLength 16 data.length ≤ 16 := padLength_le _ _
  have hlen := length_pad 16 data
  have hbyte : (UInt8.ofNat (padLength 16 data.length)).toNat = padLength 16 data.length :=
    by
    rw [UInt8.toNat_ofNat', Nat.mod_eq_of_lt (by omega)]
  have hlast : ((pad 16 data).getD ((pad 16 data).length - 1) 0).toNat =
      padLength 16 data.length := by
    rw [List.getD_eq_getElem?_getD, pad, List.getElem?_append_right (by simp; omega),
      List.getElem?_replicate, if_pos (by simp; omega)]
    exact hbyte
  have hsub : (pad 16 data).length - padLength 16 data.length = data.length := by omega
  have hrun : ((pad 16 data).drop data.length).any (·.toNat ≠ padLength 16 data.length) =
      false := by
    simp [drop_pad, hbyte]
  rw [removePadding, if_neg (by have := length_pad_mod data; omega)]
  simp only [hlast]
  rw [if_neg (by omega), hsub, hrun, if_neg (by simp), if_neg (by omega), take_pad]

/-- Data that is not padded is as good as empty. -/
theorem removePadding_eq_nil {input : Bytes} (h : ∀ data, input ≠ pad 16 data) (capacity : Nat) :
    removePadding input capacity = [] := by
  unfold removePadding
  split
  · rfl
  · rename_i hlen
    dsimp only
    generalize (input.getD (input.length - 1) 0).toNat = n
    split
    · rfl
    · rename_i hn
      split
      · rfl
      · rename_i hrun
        -- All tests passed, so the data is padded.
        have hbyte : ∀ c ∈ input.drop (input.length - n), c = UInt8.ofNat n := by
          intro c hc
          have hc := (List.any_eq_false.mp (Bool.eq_false_iff.mpr hrun)) c hc
          rw [← UInt8.ofNat_toNat (x := c)]
          simp at hc
          rw [hc]
        have hreplicate : input.drop (input.length - n) = List.replicate n (UInt8.ofNat n) := by
          rw [List.eq_replicate_iff]
          refine ⟨?_, hbyte⟩
          simp
          omega
        have hpad : pad 16 (input.take (input.length - n)) = input :=
          pad_take (by omega) (by omega) (by omega) (by omega) hreplicate
        exact absurd hpad.symm (h _)

/-! ## Chaining -/

theorem cbcEncryptLoop_eq (w : ExpandedKey) (iv : Block) (blocks : List Block) :
    cbcEncryptLoop w iv blocks = (aesCipher w).cbcEncrypt iv blocks := by
  induction blocks generalizing iv with
  | nil => rfl
  | cons b blocks ih =>
    rw [cbcEncryptLoop, ih]
    rfl

theorem cbcDecryptLoop_eq (w : ExpandedKey) (iv : Block) (blocks : List Block) :
    cbcDecryptLoop w iv blocks = (aesCipher w).cbcDecrypt iv blocks := by
  induction blocks generalizing iv with
  | nil => rfl
  | cons b blocks ih =>
    rw [cbcDecryptLoop, ih]
    rfl

section Key

variable (key : Vector UInt8 32)

/-- The round keys of a key buffer. -/
def roundKeys : ExpandedKey := keyExpansion128 (frontBlock 16 key.toList)

/-- The initialisation vector of a key buffer. -/
def ivOf : Block := frontBlock 16 (key.toList.drop 16)

/-- CBC encryption of whole blocks. -/
def cbcSeal (padded : Bytes) : Bytes :=
  joinBlocks ((aesCipher (roundKeys key)).cbcEncrypt (ivOf key)
    (cutBlocks 16 (padded.length / 16) padded))

/-- CBC decryption of whole blocks. -/
def cbcOpen (ciphertext : Bytes) : Bytes :=
  joinBlocks ((aesCipher (roundKeys key)).cbcDecrypt (ivOf key)
    (cutBlocks 16 (ciphertext.length / 16) ciphertext))

variable {key} {data : Bytes}

theorem length_cbcSeal (h : data.length % 16 = 0) : (cbcSeal key data).length = data.length := by
  simp [cbcSeal]
  omega

theorem length_cbcOpen (h : data.length % 16 = 0) : (cbcOpen key data).length = data.length := by
  simp [cbcOpen]
  omega

/-- Cutting what was joined gives the blocks back. -/
theorem cutBlocks_joinBlocks_div (blocks : List Block) :
    cutBlocks 16 ((joinBlocks blocks).length / 16) (joinBlocks blocks) = blocks := by
  rw [length_joinBlocks, Nat.mul_div_cancel_left _ (by omega), cutBlocks_joinBlocks]

theorem joinBlocks_cutBlocks_div (h : data.length % 16 = 0) :
    joinBlocks (cutBlocks 16 (data.length / 16) data) = data :=
  joinBlocks_cutBlocks (by omega)

theorem cbcOpen_cbcSeal (h : data.length % 16 = 0) : cbcOpen key (cbcSeal key data) = data := by
  rw [cbcOpen, cbcSeal, cutBlocks_joinBlocks_div, BlockCipher.cbcDecrypt_cbcEncrypt,
    joinBlocks_cutBlocks_div h]

theorem cbcSeal_cbcOpen (h : data.length % 16 = 0) : cbcSeal key (cbcOpen key data) = data := by
  rw [cbcSeal, cbcOpen, cutBlocks_joinBlocks_div, BlockCipher.cbcEncrypt_cbcDecrypt,
    joinBlocks_cutBlocks_div h]

/-! ## The module -/

variable (key) in
theorem aesEncrypt_eq (plaintext : Bytes) (ciphertext : Buffer) :
    aesEncrypt plaintext key.toList ciphertext =
      .ok (.ok, .ofBlock (cbcSeal key (pad 16 plaintext))) := by
  have hlen := length_pad_eq (k := 16) (by omega) plaintext
  simp only [aesEncrypt, addPadding_eq, cbcEncryptLoop_eq, Vector.length_toList]
  simp [cbcSeal, roundKeys, ivOf, hlen]

/-- What the module does with whole blocks. -/
theorem aesDecrypt_eq {ciphertext : Bytes} (plaintext : Buffer) (hne : ciphertext ≠ [])
    (hlen : ciphertext.length % 16 = 0) :
    aesDecrypt ciphertext key.toList plaintext =
      let message := removePadding (cbcOpen key ciphertext) ciphertext.length
      if message.length = 0 ∧ ciphertext.length = 16 then .ok (.ok, ⟨[], 0⟩)
      else if message.length = 0 then .ok (.errCrypto, ⟨[], plaintext.size⟩)
      else .ok (.ok, .ofBlock message) := by
  have hne : ciphertext.length ≠ 0 := mt List.length_eq_zero_iff.mp hne
  rw [aesDecrypt, if_neg (by simp), if_neg (by omega)]
  simp only [cbcDecryptLoop_eq, Vector.length_toList, not_true_eq_false, if_false, if_true]
  rfl

/-- A padded message comes out as it went in. -/
theorem aesDecrypt_of_pad {ciphertext message : Bytes} (plaintext : Buffer)
    (hlen : ciphertext.length % 16 = 0) (hopen : cbcOpen key ciphertext = pad 16 message) :
    aesDecrypt ciphertext key.toList plaintext = .ok (.ok, .ofBlock message) := by
  have hcipher : (cbcOpen key ciphertext).length = ciphertext.length := length_cbcOpen hlen
  have hpad := length_pad_eq (k := 16) (by omega) message
  rw [hopen] at hcipher
  have hne : ciphertext ≠ [] := by
    intro hnil
    rw [hnil, hpad, List.length_nil] at hcipher
    omega
  have hremove : removePadding (cbcOpen key ciphertext) ciphertext.length = message := by
    rw [hopen, removePadding_pad (by omega)]
  rw [aesDecrypt_eq plaintext hne hlen]
  simp only [hremove]
  by_cases hempty : message.length = 0
  · -- The padding fills the only block.
    have hone : ciphertext.length = 16 := by omega
    rw [if_pos ⟨hempty, hone⟩, List.length_eq_zero_iff.mp hempty]
    rfl
  · rw [if_neg (fun h => hempty h.1), if_neg hempty]

/-- Without padding, a single block passes for the empty message and more blocks are refused. -/
theorem aesDecrypt_of_not_pad {ciphertext : Bytes} (plaintext : Buffer) (hne : ciphertext ≠ [])
    (hlen : ciphertext.length % 16 = 0) (hopen : ∀ data, cbcOpen key ciphertext ≠ pad 16 data) :
    aesDecrypt ciphertext key.toList plaintext =
      if ciphertext.length = 16 then .ok (.ok, ⟨[], 0⟩)
      else .ok (.errCrypto, ⟨[], plaintext.size⟩) := by
  rw [aesDecrypt_eq plaintext hne hlen]
  simp [removePadding_eq_nil hopen]

/-- Cut-off blocks and no blocks are refused. -/
theorem aesDecrypt_of_not_blocks {ciphertext : Bytes} (plaintext : Buffer)
    (h : ciphertext.length = 0 ∨ ciphertext.length % 16 ≠ 0) :
    aesDecrypt ciphertext key.toList plaintext = .ok (.errFormat, plaintext) := by
  rw [aesDecrypt, if_neg (by simp), if_pos h]

end Key

/-- Encrypting gives whole blocks that decrypt to the message. -/
theorem aesDecrypt_aesEncrypt (message : Bytes) (key : Vector UInt8 32)
    (ciphertext plaintext : Buffer) :
    ∃ coded decoded, aesEncrypt message key.toList ciphertext = .ok (.ok, coded) ∧
      coded.size = 16 * (message.length / 16 + 1) ∧ coded.bytes.length = coded.size ∧
      aesDecrypt coded.bytes key.toList plaintext = .ok (.ok, decoded) ∧
      decoded.bytes = message := by
  have hmod := length_pad_mod message
  have hseal : (cbcSeal key (pad 16 message)).length = 16 * (message.length / 16 + 1) := by
    rw [length_cbcSeal hmod, length_pad_eq (by omega)]
  refine ⟨_, _, aesEncrypt_eq key message ciphertext, hseal, by simp, ?_, Buffer.bytes_ofBlock _⟩
  rw [Buffer.bytes_ofBlock]
  exact aesDecrypt_of_pad plaintext (by omega) (cbcOpen_cbcSeal hmod)

/-! ## What is accepted -/

/-- The CBC decryption of a single block under a key buffer. -/
def openedBlock (key : Vector UInt8 32) (ciphertext : Bytes) : Block :=
  xorBlock (aesDecryptBlock (roundKeys key) (frontBlock 16 ciphertext)) (ivOf key)

theorem cbcOpen_single {key : Vector UInt8 32} {ciphertext : Bytes}
    (h : ciphertext.length = 16) :
    cbcOpen key ciphertext = (openedBlock key ciphertext).toList := by
  simp [cbcOpen, h, cutBlocks, BlockCipher.cbcDecrypt, openedBlock, aesCipher]

/-- The result reports success. -/
def Accepted (r : CallResult) : Prop := ∃ buffer, r = .ok (.ok, buffer)

/-- Every message the module accepts encrypts back to the ciphertext, and whole blocks
without padding are not accepted. -/
def OpensStrictly (ciphertext : Bytes) (key : Vector UInt8 32) (plaintext coded : Buffer) : Prop :=
  (∀ message, aesDecrypt ciphertext key.toList plaintext = .ok (.ok, message) →
    ∃ again, aesEncrypt message.bytes key.toList coded = .ok (.ok, again) ∧
      again.bytes = ciphertext) ∧
  ((∀ data, cbcOpen key ciphertext ≠ pad 16 data) →
    ¬ Accepted (aesDecrypt ciphertext key.toList plaintext))

/-- A single block passes whatever it decrypts to, so it has to be padded. -/
theorem OpensStrictly.single {ciphertext : Bytes} {key : Vector UInt8 32}
    {plaintext coded : Buffer} (h : OpensStrictly ciphertext key plaintext coded)
    (hone : ciphertext.length = 16) :
    ∃ data, (openedBlock key ciphertext).toList = pad 16 data := by
  by_contra hpad
  have hpad : ∀ data, cbcOpen key ciphertext ≠ pad 16 data := by
    intro data hdata
    rw [cbcOpen_single hone] at hdata
    exact hpad ⟨data, hdata⟩
  have hne : ciphertext ≠ [] := by
    intro hnil
    simp [hnil] at hone
  apply h.2 hpad
  rw [aesDecrypt_of_not_pad plaintext hne (by omega) hpad, if_pos hone]
  exact ⟨_, rfl⟩

/-- The module opens strictly, except for a single block that is not padded. -/
theorem aesDecrypt_strict_iff (ciphertext : Bytes) (key : Vector UInt8 32)
    (plaintext coded : Buffer) :
    OpensStrictly ciphertext key plaintext coded ↔
      (ciphertext.length = 16 → ∃ data, (openedBlock key ciphertext).toList = pad 16 data) := by
  constructor
  · intro h
    exact h.single
  · intro hsingle
    by_cases hblocks : ciphertext.length = 0 ∨ ciphertext.length % 16 ≠ 0
    · -- No whole blocks: refused.
      rw [OpensStrictly, aesDecrypt_of_not_blocks plaintext hblocks]
      grind [Accepted]
    · have hlen : ciphertext.length % 16 = 0 := by omega
      have hne : ciphertext ≠ [] := by
        intro hnil
        simp [hnil] at hblocks
      by_cases hpad : ∃ data, cbcOpen key ciphertext = pad 16 data
      · -- Padded: sealing the message again gives the same blocks.
        obtain ⟨data, hdata⟩ := hpad
        rw [OpensStrictly, aesDecrypt_of_pad plaintext hlen hdata]
        refine ⟨fun message h => ?_, fun h => absurd hdata (h data)⟩
        cases h
        refine ⟨_, aesEncrypt_eq key _ coded, ?_⟩
        rw [Buffer.bytes_ofBlock, Buffer.bytes_ofBlock, ← hdata, cbcSeal_cbcOpen hlen]
      · -- Not padded: the condition excludes the single block, and the others are refused.
        have hpad : ∀ data, cbcOpen key ciphertext ≠ pad 16 data := not_exists.mp hpad
        have hone : ciphertext.length ≠ 16 := by
          intro hone
          obtain ⟨data, hdata⟩ := hsingle hone
          exact hpad data (by rw [cbcOpen_single hone, hdata])
        rw [OpensStrictly, aesDecrypt_of_not_pad plaintext hne hlen hpad, if_neg hone]
        grind [Accepted]

/-- The key buffer of zeros. -/
def zeroKey : Vector UInt8 32 := Vector.replicate 32 0

/-- Sixteen zero bytes, encrypted without padding:
`66e94bd4ef8a2c3b884cfa59ca342b2e`. -/
def unpaddedBlock : Bytes := (aesEncryptBlock (roundKeys zeroKey) (Vector.replicate 16 0)).toList

theorem openedBlock_unpaddedBlock : openedBlock zeroKey unpaddedBlock = Vector.replicate 16 0 := by
  have hfront : frontBlock 16 unpaddedBlock =
      aesEncryptBlock (roundKeys zeroKey) (Vector.replicate 16 0) := by
    rw [unpaddedBlock, ← List.append_nil (Vector.toList _), frontBlock_append]
  have hiv : ivOf zeroKey = Vector.replicate 16 0 := by decide
  rw [openedBlock, hfront, aesDecryptBlock_aesEncryptBlock, hiv]
  refine Vector.ext fun i hi => ?_
  simp [xorBlock]

/-- Bytes that end in a zero are not padded. -/
theorem pad_ne_replicate_zero (n : Nat) (data : Bytes) : List.replicate n 0 ≠ pad 16 data := by
  intro h
  have hpos : 0 < padLength 16 data.length := padLength_pos (by omega) _
  have hle : padLength 16 data.length ≤ 16 := padLength_le _ _
  have hmem : UInt8.ofNat (padLength 16 data.length) ∈ List.replicate n (0 : UInt8) := by
    rw [h, pad]
    simp
    omega
  have hzero := congrArg UInt8.toNat (List.eq_of_mem_replicate hmem)
  rw [UInt8.toNat_ofNat', Nat.mod_eq_of_lt (by omega)] at hzero
  simp at hzero
  omega

/-- A block of zeros is not padded, yet its ciphertext is accepted, as the empty message. -/
theorem aesDecrypt_not_strict :
    ¬ OpensStrictly unpaddedBlock zeroKey (.ofBlock []) (.ofBlock []) := by
  intro h
  obtain ⟨data, hdata⟩ := h.single (by simp [unpaddedBlock])
  rw [openedBlock_unpaddedBlock] at hdata
  exact pad_ne_replicate_zero 16 data hdata

end Federated.Crypto
