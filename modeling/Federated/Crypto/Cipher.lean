import Federated.Crypto.AesCbc
import Federated.Crypto.ChaCha20

/-!
# Every crypto module decrypts what it encrypts

The crypto modules with a key each of them accepts, and the ciphertext of a
message.
-/

namespace Federated.Crypto

open Library

/-- A crypto module together with a key that it accepts. -/
inductive Cipher where
  | none (key : Bytes)
  | xorStream (key : Bytes) (hpos : 1 ≤ key.length) (hle : key.length ≤ 256)
  | chacha20 (key : Bytes) (hge : 44 ≤ key.length) (hle : key.length ≤ 48)
  | aes (key : Vector UInt8 32)

namespace Cipher

def module : Cipher → CryptoModule
  | none _ => noneCrypto
  | xorStream _ _ _ => xorStreamCrypto
  | chacha20 _ _ _ => chacha20Crypto
  | aes _ => aesCrypto

def key : Cipher → Bytes
  | none key => key
  | xorStream key _ _ => key
  | chacha20 key _ _ => key
  | aes key => key.toList

/-- The ciphertext of a message. -/
def ciphertext : Cipher → Bytes → Bytes
  | none _, message => message
  | xorStream key _ _, message => mask (repeatingKey key) message
  | chacha20 key _ _, message => mask (keystream (initialState key)) message
  | aes key, message => cbcSeal key (pad 16 message)

variable (c : Cipher) {message : Bytes} {output : Buffer}

/-- With room for the ciphertext, encryption writes it. -/
theorem encrypt_ok (hfits : (c.ciphertext message).length ≤ output.size) : ∃ buffer,
    c.module.encrypt message c.key output = .ok (.ok, buffer) ∧
      buffer.bytes = c.ciphertext message := by
  cases c with
  | none key =>
    have hfits : ¬ message.length > output.size := Nat.not_lt.mpr hfits
    exact ⟨filled output message, if_neg hfits, bytes_filled _ _⟩
  | xorStream key hpos hle =>
    have hkey : ¬ (key.length = 0 ∨ key.length > 256) := by omega
    have hfits : ¬ message.length > output.size := by simpa [ciphertext] using hfits
    exact ⟨_, (if_neg hkey).trans (if_neg hfits), bytes_filled _ _⟩
  | chacha20 key hge hle =>
    have hfits : message.length ≤ output.size := by simpa [ciphertext] using hfits
    exact ⟨_, chacha20Crypt_eq hge hle hfits, bytes_filled _ _⟩
  | aes key => exact ⟨_, aesEncrypt_eq key message output, Buffer.bytes_ofBlock _⟩

/-- With room for it, decryption writes the message whose ciphertext it is given. -/
theorem decrypt_ok (hfits : (c.ciphertext message).length ≤ output.size) : ∃ buffer,
    c.module.decrypt (c.ciphertext message) c.key output = .ok (.ok, buffer) ∧
      buffer.bytes = message := by
  cases c with
  | none key =>
    have hfits : ¬ message.length > output.size := Nat.not_lt.mpr hfits
    exact ⟨filled output message, if_neg hfits, bytes_filled _ _⟩
  | xorStream key hpos hle =>
    have hkey : ¬ (key.length = 0 ∨ key.length > 256) := by omega
    refine ⟨_, (if_neg hkey).trans (if_neg (Nat.not_lt.mpr hfits)), ?_⟩
    exact (bytes_filled _ _).trans (mask_mask _ _)
  | chacha20 key hge hle =>
    refine ⟨_, chacha20Crypt_eq hge hle hfits, ?_⟩
    exact (bytes_filled _ _).trans (mask_mask _ _)
  | aes key =>
    have hpad := length_pad_mod message
    have hlen : (cbcSeal key (pad 16 message)).length % 16 = 0 := by
      rwa [length_cbcSeal hpad]
    exact ⟨_, aesDecrypt_of_pad output hlen (cbcOpen_cbcSeal hpad), Buffer.bytes_ofBlock _⟩

end Cipher

end Federated.Crypto
