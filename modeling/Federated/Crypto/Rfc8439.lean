import Federated.Core
import Mathlib.Data.Fin.VecNotation
import Mathlib.Logic.Function.Iterate

/-!
# The ChaCha20 block of RFC 8439

The block function over a square of words: a column round turns the four columns
at once, and a diagonal round is a column round with the rows rotated so that the
diagonals stand upright. The input is 64 bytes, read as words.
-/

namespace Federated.Crypto.Rfc8439

/-- Sixteen words, by rows and columns. -/
abbrev Square := Fin 4 → Fin 4 → UInt32

def rotateLeft (v : UInt32) (n : Nat) : UInt32 := .ofBitVec (v.toBitVec.rotateLeft n)

/-- The quarter round on four words. -/
def quarterRound (q : Fin 4 → UInt32) : Fin 4 → UInt32 :=
  let a := q 0 + q 1
  let d := rotateLeft (q 3 ^^^ a) 16
  let c := q 2 + d
  let b := rotateLeft (q 1 ^^^ c) 12
  let a := a + b
  let d := rotateLeft (d ^^^ a) 8
  let c := c + d
  let b := rotateLeft (b ^^^ c) 7
  ![a, b, c, d]

def columnRound (s : Square) : Square := fun r c => quarterRound (fun i => s i c) r

/-- Row `r` rotates left by `r` places. -/
def upright (s : Square) : Square := fun r c => s r (c + r)

/-- And back. -/
def slanted (s : Square) : Square := fun r c => s r (c - r)

def diagonalRound (s : Square) : Square := slanted (columnRound (upright s))

def doubleRound (s : Square) : Square := diagonalRound (columnRound s)

/-- Twenty rounds, and the input added again. -/
def mixed (s : Square) : Square := fun r c => doubleRound^[10] s r c + s r c

/-! ## Bytes -/

/-- Word `i` of a text, low bytes first. -/
def word (bytes : Bytes) (i : Nat) : UInt32 :=
  UInt32.ofNat ((bytes.getD (4 * i) 0).toNat + 2 ^ 8 * (bytes.getD (4 * i + 1) 0).toNat +
    2 ^ 16 * (bytes.getD (4 * i + 2) 0).toNat + 2 ^ 24 * (bytes.getD (4 * i + 3) 0).toNat)

/-- The bytes of a word, low bytes first. -/
def littleEndian (v : UInt32) : Bytes := (List.range 4).map fun k => UInt8.ofNat (v.toNat / 256 ^ k)

/-- Constant, key, counter and nonce, row by row. -/
def input (key nonce : Bytes) (counter : UInt32) : Square := fun r c =>
  word (ascii "expand 32-byte k" ++ key ++ littleEndian counter ++ nonce) (4 * r.val + c.val)

/-- Byte `i` of the block for a key of 32 bytes, a nonce of 12 bytes and a counter. -/
def blockByte (key nonce : Bytes) (counter : UInt32) (i : Fin 64) : UInt8 :=
  (littleEndian (mixed (input key nonce counter) ⟨i.val / 16, by omega⟩
    ⟨i.val / 4 % 4, by omega⟩)).getD (i.val % 4) 0

end Federated.Crypto.Rfc8439
