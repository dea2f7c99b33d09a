import Federated.Crypto.AesCbc
import Federated.Crypto.ChaCha20

/-!
# The output of a crypto call that fails

The modules that mask check the key and the capacity in front of the first
write. AES allocates: its last exit frees the block that it has put into the
caller's buffer, and leaves a null pointer there.
-/

namespace Federated.Crypto

open Library

inductive CryptoKind where
  | none
  | xorStream
  | chacha20
  | aes
  deriving DecidableEq, Repr

/-- The module of a kind. -/
def CryptoKind.module : CryptoKind → CryptoModule
  | none => noneCrypto
  | xorStream => xorStreamCrypto
  | chacha20 => chacha20Crypto
  | aes => aesCrypto

variable (data key : Bytes)

theorem kept_noneEncrypt (output : Buffer) : Kept output (noneEncrypt data key output) :=
  kept_ite (kept_unchanged _) (kept_ok _)

theorem kept_noneDecrypt (output : Buffer) : Kept output (noneDecrypt data key output) :=
  kept_ite (kept_unchanged _) (kept_ok _)

theorem kept_xorStreamEncrypt (output : Buffer) :
    Kept output (xorStreamEncrypt data key output) :=
  kept_ite (kept_unchanged _) (kept_ite (kept_unchanged _) (kept_ok _))

theorem kept_chacha20Crypt (output : Buffer) : Kept output (chacha20Crypt data key output) :=
  kept_ite (kept_unchanged _) (kept_ite (kept_unchanged _) (kept_ok _))

theorem kept_aesEncrypt (output : Buffer) : Kept output (aesEncrypt data key output) :=
  kept_ite (kept_unchanged _)
    (kept_ite (kept_unchanged _) (kept_ite (kept_unchanged _) (kept_ok _)))

/-- The data is what the module encrypts some message to. -/
def Sealed (key data : Bytes) : Prop :=
  ∃ message output, aesEncrypt message key output = .ok (.ok, .ofBlock data)

/-- More than one whole block that is no ciphertext under a key of the right length. -/
structure BadPadding (key data : Bytes) : Prop where
  key_eq : key.length = 32
  blocks : data.length % 16 = 0
  many : 16 < data.length
  unsealed : ¬ Sealed key data

variable {data key}

theorem sealed_iff {key : Vector UInt8 32} :
    Sealed key.toList data ↔ ∃ message, data = cbcSeal key (pad 16 message) := by
  constructor
  · rintro ⟨message, output, h⟩
    rw [aesEncrypt_eq] at h
    injection h with h
    injection h with _ h
    exact ⟨message, (congrArg Buffer.data h).symm⟩
  · rintro ⟨message, rfl⟩
    exact ⟨message, .ofBlock [], aesEncrypt_eq key message _⟩

theorem not_pad_of_not_sealed {key : Vector UInt8 32} (hblocks : data.length % 16 = 0)
    (h : ¬ Sealed key.toList data) (message : Bytes) : cbcOpen key data ≠ pad 16 message := by
  intro hopen
  apply h
  rw [sealed_iff]
  exact ⟨message, by rw [← hopen, cbcSeal_cbcOpen hblocks]⟩

theorem exists_eq_toList (h : key.length = 32) : ∃ k : Vector UInt8 32, key = k.toList :=
  ⟨⟨key.toArray, by simpa using h⟩, by simp⟩

/-- Behind the last exit the pointer of any block is lost. -/
theorem BadPadding.not_kept (h : BadPadding key data) :
    ¬ Kept (.ofBlock [0]) (aesDecrypt data key (.ofBlock [0])) := by
  obtain ⟨k, rfl⟩ := exists_eq_toList h.key_eq
  have hne : data ≠ [] := List.ne_nil_of_length_pos (Nat.zero_lt_of_lt h.many)
  have hpad := not_pad_of_not_sealed h.blocks h.unsealed
  rw [aesDecrypt_of_not_pad _ hne h.blocks hpad, if_neg (Nat.ne_of_gt h.many)]
  intro hkept
  have hlost := hkept _ _ rfl (by simp)
  simp [Buffer.ofBlock] at hlost

theorem kept_aesDecrypt (h : ¬ BadPadding key data) (output : Buffer) :
    Kept output (aesDecrypt data key output) := by
  by_cases hkey : key.length = 32
  · obtain ⟨k, rfl⟩ := exists_eq_toList hkey
    by_cases hblocks : data.length = 0 ∨ data.length % 16 ≠ 0
    · rw [aesDecrypt_of_not_blocks output hblocks]
      exact kept_unchanged _
    · have hlen : data.length % 16 = 0 := by omega
      by_cases hpad : ∃ message, cbcOpen k data = pad 16 message
      · obtain ⟨message, hmessage⟩ := hpad
        rw [aesDecrypt_of_pad output hlen hmessage]
        exact kept_ok _
      · -- A single block passes; more of them are what is excluded.
        have hpad : ∀ message, cbcOpen k data ≠ pad 16 message := not_exists.mp hpad
        have hne : data ≠ [] := fun hnil => hblocks (.inl (by simp [hnil]))
        rw [aesDecrypt_of_not_pad output hne hlen hpad]
        by_cases hone : data.length = 16
        · rw [if_pos hone]
          exact kept_ok _
        · refine absurd ⟨hkey, hlen, by omega, ?_⟩ h
          intro hsealed
          obtain ⟨message, rfl⟩ := sealed_iff.mp hsealed
          exact hpad message (cbcOpen_cbcSeal (length_pad_mod message))
  · -- No key of this length leads behind the checks.
    refine kept_ite (kept_unchanged _) (kept_ite (kept_unchanged _) ?_)
    simp only [hkey, not_false_eq_true, if_true]
    exact kept_unchanged _

/-- The modules keep the output of a call that fails, up to AES decrypting what it never
encrypted. -/
theorem crypto_kept_iff (k : CryptoKind) (data key : Bytes) :
    (∀ output, Kept output (k.module.encrypt data key output) ∧
      Kept output (k.module.decrypt data key output)) ↔
      ¬ (k = .aes ∧ BadPadding key data) := by
  cases k with
  | none => simp [CryptoKind.module, noneCrypto, kept_noneEncrypt, kept_noneDecrypt]
  | xorStream =>
    simp [CryptoKind.module, xorStreamCrypto, xorStreamDecrypt, kept_xorStreamEncrypt]
  | chacha20 => simp [CryptoKind.module, chacha20Crypto, kept_chacha20Crypt]
  | aes =>
    constructor
    · rintro h ⟨-, hbad⟩
      exact hbad.not_kept (h _).2
    · intro h output
      have hgood : ¬ BadPadding key data := fun hbad => h ⟨rfl, hbad⟩
      exact ⟨kept_aesEncrypt data key output, kept_aesDecrypt hgood output⟩

/-- The ciphertext of two blocks of zeros that were not padded. -/
def unpaddedBlocks : Bytes := cbcSeal zeroKey (List.replicate 32 0)

/-- Decrypting it leaves a null pointer where the caller's block was. -/
theorem crypto_not_kept : ¬ ∀ (k : CryptoKind) (data key : Bytes) (output : Buffer),
    Kept output (k.module.encrypt data key output) ∧
      Kept output (k.module.decrypt data key output) := by
  intro h
  have hlen : unpaddedBlocks.length = 32 := by simp [unpaddedBlocks, length_cbcSeal]
  have hbad : BadPadding zeroKey.toList unpaddedBlocks := by
    refine ⟨by simp, by rw [hlen], by rw [hlen]; decide, ?_⟩
    intro hsealed
    obtain ⟨message, hmessage⟩ := sealed_iff.mp hsealed
    have hopen := congrArg (cbcOpen zeroKey) hmessage
    rw [unpaddedBlocks, cbcOpen_cbcSeal (by simp),
      cbcOpen_cbcSeal (length_pad_mod message)] at hopen
    exact pad_ne_replicate_zero 32 message hopen
  exact hbad.not_kept (h .aes unpaddedBlocks zeroKey.toList (.ofBlock [0])).2

end Federated.Crypto
