import Federated.Crypto.Module
import Federated.Library.Cbc

/-!
# The AES-128-CBC module

The block cipher on sixteen bytes as the source computes it, table by table and
round by round, and `aesEncrypt` and `aesDecrypt` around it. Both allocate the
buffer of their result; of the block behind a decrypted message only the bytes
written are kept.
-/

namespace Federated.Crypto

open Library

abbrev Block := Vector UInt8 16

/-! ## Tables -/

set_option maxRecDepth 2000 in
def sboxTable : Vector UInt8 256 := #v[
    0x63, 0x7c, 0x77, 0x7b, 0xf2, 0x6b, 0x6f, 0xc5, 0x30, 0x01, 0x67, 0x2b, 0xfe, 0xd7, 0xab, 0x76,
    0xca, 0x82, 0xc9, 0x7d, 0xfa, 0x59, 0x47, 0xf0, 0xad, 0xd4, 0xa2, 0xaf, 0x9c, 0xa4, 0x72, 0xc0,
    0xb7, 0xfd, 0x93, 0x26, 0x36, 0x3f, 0xf7, 0xcc, 0x34, 0xa5, 0xe5, 0xf1, 0x71, 0xd8, 0x31, 0x15,
    0x04, 0xc7, 0x23, 0xc3, 0x18, 0x96, 0x05, 0x9a, 0x07, 0x12, 0x80, 0xe2, 0xeb, 0x27, 0xb2, 0x75,
    0x09, 0x83, 0x2c, 0x1a, 0x1b, 0x6e, 0x5a, 0xa0, 0x52, 0x3b, 0xd6, 0xb3, 0x29, 0xe3, 0x2f, 0x84,
    0x53, 0xd1, 0x00, 0xed, 0x20, 0xfc, 0xb1, 0x5b, 0x6a, 0xcb, 0xbe, 0x39, 0x4a, 0x4c, 0x58, 0xcf,
    0xd0, 0xef, 0xaa, 0xfb, 0x43, 0x4d, 0x33, 0x85, 0x45, 0xf9, 0x02, 0x7f, 0x50, 0x3c, 0x9f, 0xa8,
    0x51, 0xa3, 0x40, 0x8f, 0x92, 0x9d, 0x38, 0xf5, 0xbc, 0xb6, 0xda, 0x21, 0x10, 0xff, 0xf3, 0xd2,
    0xcd, 0x0c, 0x13, 0xec, 0x5f, 0x97, 0x44, 0x17, 0xc4, 0xa7, 0x7e, 0x3d, 0x64, 0x5d, 0x19, 0x73,
    0x60, 0x81, 0x4f, 0xdc, 0x22, 0x2a, 0x90, 0x88, 0x46, 0xee, 0xb8, 0x14, 0xde, 0x5e, 0x0b, 0xdb,
    0xe0, 0x32, 0x3a, 0x0a, 0x49, 0x06, 0x24, 0x5c, 0xc2, 0xd3, 0xac, 0x62, 0x91, 0x95, 0xe4, 0x79,
    0xe7, 0xc8, 0x37, 0x6d, 0x8d, 0xd5, 0x4e, 0xa9, 0x6c, 0x56, 0xf4, 0xea, 0x65, 0x7a, 0xae, 0x08,
    0xba, 0x78, 0x25, 0x2e, 0x1c, 0xa6, 0xb4, 0xc6, 0xe8, 0xdd, 0x74, 0x1f, 0x4b, 0xbd, 0x8b, 0x8a,
    0x70, 0x3e, 0xb5, 0x66, 0x48, 0x03, 0xf6, 0x0e, 0x61, 0x35, 0x57, 0xb9, 0x86, 0xc1, 0x1d, 0x9e,
    0xe1, 0xf8, 0x98, 0x11, 0x69, 0xd9, 0x8e, 0x94, 0x9b, 0x1e, 0x87, 0xe9, 0xce, 0x55, 0x28, 0xdf,
    0x8c, 0xa1, 0x89, 0x0d, 0xbf, 0xe6, 0x42, 0x68, 0x41, 0x99, 0x2d, 0x0f, 0xb0, 0x54, 0xbb, 0x16]

set_option maxRecDepth 2000 in
def invSboxTable : Vector UInt8 256 := #v[
    0x52, 0x09, 0x6a, 0xd5, 0x30, 0x36, 0xa5, 0x38, 0xbf, 0x40, 0xa3, 0x9e, 0x81, 0xf3, 0xd7, 0xfb,
    0x7c, 0xe3, 0x39, 0x82, 0x9b, 0x2f, 0xff, 0x87, 0x34, 0x8e, 0x43, 0x44, 0xc4, 0xde, 0xe9, 0xcb,
    0x54, 0x7b, 0x94, 0x32, 0xa6, 0xc2, 0x23, 0x3d, 0xee, 0x4c, 0x95, 0x0b, 0x42, 0xfa, 0xc3, 0x4e,
    0x08, 0x2e, 0xa1, 0x66, 0x28, 0xd9, 0x24, 0xb2, 0x76, 0x5b, 0xa2, 0x49, 0x6d, 0x8b, 0xd1, 0x25,
    0x72, 0xf8, 0xf6, 0x64, 0x86, 0x68, 0x98, 0x16, 0xd4, 0xa4, 0x5c, 0xcc, 0x5d, 0x65, 0xb6, 0x92,
    0x6c, 0x70, 0x48, 0x50, 0xfd, 0xed, 0xb9, 0xda, 0x5e, 0x15, 0x46, 0x57, 0xa7, 0x8d, 0x9d, 0x84,
    0x90, 0xd8, 0xab, 0x00, 0x8c, 0xbc, 0xd3, 0x0a, 0xf7, 0xe4, 0x58, 0x05, 0xb8, 0xb3, 0x45, 0x06,
    0xd0, 0x2c, 0x1e, 0x8f, 0xca, 0x3f, 0x0f, 0x02, 0xc1, 0xaf, 0xbd, 0x03, 0x01, 0x13, 0x8a, 0x6b,
    0x3a, 0x91, 0x11, 0x41, 0x4f, 0x67, 0xdc, 0xea, 0x97, 0xf2, 0xcf, 0xce, 0xf0, 0xb4, 0xe6, 0x73,
    0x96, 0xac, 0x74, 0x22, 0xe7, 0xad, 0x35, 0x85, 0xe2, 0xf9, 0x37, 0xe8, 0x1c, 0x75, 0xdf, 0x6e,
    0x47, 0xf1, 0x1a, 0x71, 0x1d, 0x29, 0xc5, 0x89, 0x6f, 0xb7, 0x62, 0x0e, 0xaa, 0x18, 0xbe, 0x1b,
    0xfc, 0x56, 0x3e, 0x4b, 0xc6, 0xd2, 0x79, 0x20, 0x9a, 0xdb, 0xc0, 0xfe, 0x78, 0xcd, 0x5a, 0xf4,
    0x1f, 0xdd, 0xa8, 0x33, 0x88, 0x07, 0xc7, 0x31, 0xb1, 0x12, 0x10, 0x59, 0x27, 0x80, 0xec, 0x5f,
    0x60, 0x51, 0x7f, 0xa9, 0x19, 0xb5, 0x4a, 0x0d, 0x2d, 0xe5, 0x7a, 0x9f, 0x93, 0xc9, 0x9c, 0xef,
    0xa0, 0xe0, 0x3b, 0x4d, 0xae, 0x2a, 0xf5, 0xb0, 0xc8, 0xeb, 0xbb, 0x3c, 0x83, 0x53, 0x99, 0x61,
    0x17, 0x2b, 0x04, 0x7e, 0xba, 0x77, 0xd6, 0x26, 0xe1, 0x69, 0x14, 0x63, 0x55, 0x21, 0x0c, 0x7d]

def rcon : Vector UInt8 11 := #v[0x00, 0x01, 0x02, 0x04, 0x08, 0x10, 0x20, 0x40, 0x80, 0x1b, 0x36]

def sbox (b : UInt8) : UInt8 := sboxTable.get ⟨b.toNat, b.toNat_lt⟩

def invSbox (b : UInt8) : UInt8 := invSboxTable.get ⟨b.toNat, b.toNat_lt⟩

/-! ## Round transformations -/

/-- The passes of the multiplication loop that are left, the product so far and
the two factors. -/
def gmulLoop : Nat → UInt8 → UInt8 → UInt8 → UInt8
  | 0, p, _, _ => p
  | passes + 1, p, a, b =>
    gmulLoop passes (if b &&& 1 ≠ 0 then p ^^^ a else p)
      (if a &&& 0x80 ≠ 0 then (a <<< 1) ^^^ 0x1b else a <<< 1) (b >>> 1)

/-- Multiplication in GF(2^8). -/
def gmul (a b : UInt8) : UInt8 := gmulLoop 8 0 a b

def subBytes (state : Block) : Block := state.map sbox

def invSubBytes (state : Block) : Block := state.map invSbox

/-- Row `r` of the state is the bytes `r`, `r + 4`, `r + 8` and `r + 12`. -/
def shiftRows (s : Block) : Block :=
  #v[s[0], s[5], s[10], s[15], s[4], s[9], s[14], s[3],
    s[8], s[13], s[2], s[7], s[12], s[1], s[6], s[11]]

def invShiftRows (s : Block) : Block :=
  #v[s[0], s[13], s[10], s[7], s[4], s[1], s[14], s[11],
    s[8], s[5], s[2], s[15], s[12], s[9], s[6], s[3]]

def mixColumn (t : Vector UInt8 4) : Vector UInt8 4 :=
  #v[gmul t[0] 2 ^^^ gmul t[1] 3 ^^^ t[2] ^^^ t[3],
    t[0] ^^^ gmul t[1] 2 ^^^ gmul t[2] 3 ^^^ t[3],
    t[0] ^^^ t[1] ^^^ gmul t[2] 2 ^^^ gmul t[3] 3,
    gmul t[0] 3 ^^^ t[1] ^^^ t[2] ^^^ gmul t[3] 2]

def invMixColumn (t : Vector UInt8 4) : Vector UInt8 4 :=
  #v[gmul t[0] 14 ^^^ gmul t[1] 11 ^^^ gmul t[2] 13 ^^^ gmul t[3] 9,
    gmul t[0] 9 ^^^ gmul t[1] 14 ^^^ gmul t[2] 11 ^^^ gmul t[3] 13,
    gmul t[0] 13 ^^^ gmul t[1] 9 ^^^ gmul t[2] 14 ^^^ gmul t[3] 11,
    gmul t[0] 11 ^^^ gmul t[1] 13 ^^^ gmul t[2] 9 ^^^ gmul t[3] 14]

def column (s : Block) (c : Fin 4) : Vector UInt8 4 :=
  #v[s[c.val * 4 + 0], s[c.val * 4 + 1], s[c.val * 4 + 2], s[c.val * 4 + 3]]

/-- The loop over the four columns. -/
def mapColumns (f : Vector UInt8 4 → Vector UInt8 4) (s : Block) : Block :=
  Vector.ofFn fun i => (f (column s ⟨i.val / 4, by omega⟩))[i.val % 4]

def mixColumns (state : Block) : Block := mapColumns mixColumn state

def invMixColumns (state : Block) : Block := mapColumns invMixColumn state

def xorBlock (a b : Block) : Block := Vector.zipWith (· ^^^ ·) a b

def addRoundKey (state roundKey : Block) : Block := xorBlock state roundKey

/-! ## Key expansion -/

abbrev ExpandedKey := Vector UInt8 176

/-- Rotate a word and send its bytes through the S-box, then add the round constant. -/
def scheduleCore (t : Vector UInt8 4) (r : Fin 11) : Vector UInt8 4 :=
  #v[sbox t[1] ^^^ rcon[r], sbox t[2], sbox t[3], sbox t[0]]

/-- The pass of the expansion loop for word `n + 4`. -/
def expandWord (w : ExpandedKey) (n : Fin 40) : ExpandedKey :=
  let i := n.val + 4
  have hi : i < 44 := by omega
  let last : Vector UInt8 4 := Vector.ofFn fun j => w[(i - 1) * 4 + j.val]
  let temp := if i % 4 = 0 then scheduleCore last ⟨i / 4, by omega⟩ else last
  (List.finRange 4).foldl
    (fun w j => w.set (i * 4 + j.val) (w[(i - 4) * 4 + j.val] ^^^ temp[j])) w

def keyExpansion128 (key : Block) : ExpandedKey :=
  (List.finRange 40).foldl expandWord (Vector.ofFn fun i => if h : i < 16 then key[i.val] else 0)

/-- The sixteen bytes the round `r` adds. -/
def roundKey (w : ExpandedKey) (r : Fin 11) : Block := Vector.ofFn fun i => w[r.val * 16 + i.val]

/-! ## One block -/

/-- The rounds between the first and the last. -/
def mainRounds : List (Fin 11) := [1, 2, 3, 4, 5, 6, 7, 8, 9]

def encryptRound (w : ExpandedKey) (s : Block) (r : Fin 11) : Block :=
  addRoundKey (mixColumns (shiftRows (subBytes s))) (roundKey w r)

def aesEncryptBlock (w : ExpandedKey) (input : Block) : Block :=
  let s := mainRounds.foldl (encryptRound w) (addRoundKey input (roundKey w 0))
  addRoundKey (shiftRows (subBytes s)) (roundKey w 10)

def decryptRound (w : ExpandedKey) (s : Block) (r : Fin 11) : Block :=
  invMixColumns (addRoundKey (invSubBytes (invShiftRows s)) (roundKey w r))

def aesDecryptBlock (w : ExpandedKey) (input : Block) : Block :=
  let s := mainRounds.reverse.foldl (decryptRound w) (addRoundKey input (roundKey w 10))
  addRoundKey (invSubBytes (invShiftRows s)) (roundKey w 0)

/-! ## Padding -/

/-- Pad `input` in a buffer of `capacity` bytes; the empty result is a failure. -/
def addPadding (input : Bytes) (capacity : Nat) : Bytes :=
  let paddingLen := 16 - input.length % 16
  if input.length + paddingLen > capacity then []
  else input ++ List.replicate paddingLen (UInt8.ofNat paddingLen)

/-- Take the padding off again. Empty input data and a failure both give the
empty result. -/
def removePadding (input : Bytes) (capacity : Nat) : Bytes :=
  if input.length = 0 ∨ input.length % 16 ≠ 0 then []
  else
    let paddingLen := (input.getD (input.length - 1) 0).toNat
    if paddingLen = 0 ∨ paddingLen > 16 then []
    else if (input.drop (input.length - paddingLen)).any (·.toNat ≠ paddingLen) then []
    else if input.length - paddingLen > capacity then []
    else input.take (input.length - paddingLen)

/-! ## CBC -/

/-- The encryption loop, with the cipher block before. -/
def cbcEncryptLoop (w : ExpandedKey) : Block → List Block → List Block
  | _, [] => []
  | prevBlock, block :: rest =>
    let out := aesEncryptBlock w (xorBlock block prevBlock)
    out :: cbcEncryptLoop w out rest

/-- The decryption loop, with the cipher block before. -/
def cbcDecryptLoop (w : ExpandedKey) : Block → List Block → List Block
  | _, [] => []
  | prevBlock, block :: rest =>
    xorBlock (aesDecryptBlock w block) prevBlock :: cbcDecryptLoop w block rest

/-- Encrypt `plaintext` into `ciphertext`, whose block is replaced by a fresh one. -/
def aesEncrypt (plaintext key : Bytes) (ciphertext : Buffer) : CallResult :=
  if key.length ≠ 32 ∧ key.length ≠ 48 then .ok (.errInvalidArg, ciphertext)
  else
    let isAes128 := key.length = 32
    let aesKey : Block := frontBlock 16 key
    let iv : Block := frontBlock 16 (key.drop (if isAes128 then 16 else 32))
    let padded := addPadding plaintext (plaintext.length + 16)
    if padded.length = 0 then .ok (.errInternal, ciphertext)
    else if ¬ isAes128 then .ok (.errUnsupported, ciphertext)
    else
      let blocks := cutBlocks 16 (padded.length / 16) padded
      .ok (.ok, .ofBlock (joinBlocks (cbcEncryptLoop (keyExpansion128 aesKey) iv blocks)))

/-- Decrypt `ciphertext` into `plaintext`, whose block is replaced by a fresh one. -/
def aesDecrypt (ciphertext key : Bytes) (plaintext : Buffer) : CallResult :=
  if key.length ≠ 32 ∧ key.length ≠ 48 then .ok (.errInvalidArg, plaintext)
  else if ciphertext.length = 0 ∨ ciphertext.length % 16 ≠ 0 then .ok (.errFormat, plaintext)
  else
    let isAes128 := key.length = 32
    let aesKey : Block := frontBlock 16 key
    let iv : Block := frontBlock 16 (key.drop (if isAes128 then 16 else 32))
    if ¬ isAes128 then .ok (.errUnsupported, plaintext)
    else
      let blocks := cutBlocks 16 (ciphertext.length / 16) ciphertext
      let decrypted := joinBlocks (cbcDecryptLoop (keyExpansion128 aesKey) iv blocks)
      let message := removePadding decrypted ciphertext.length
      -- The empty message of a single block, and by the same test its bad padding.
      if message.length = 0 ∧ ciphertext.length = 16 then .ok (.ok, ⟨[], 0⟩)
      -- The fresh block is freed and the pointer is null; the size stays.
      else if message.length = 0 then .ok (.errCrypto, ⟨[], plaintext.size⟩)
      else .ok (.ok, .ofBlock message)

def aesCrypto : CryptoModule := ⟨aesEncrypt, aesDecrypt⟩

end Federated.Crypto
