import Federated.Framer.CrcRegister
import Federated.Library.BinaryDivision

/-!
# The checksum as a division

The checksum of the standard is defined by polynomials over the field of two
elements: the message is moved up by 32 powers, a start value of 32 ones is added at
its top, and the remainder of the division by the generator is complemented. The
register of the code holds that remainder with its bits in reverse.
-/

namespace Federated.Framer

open Polynomial Library ShiftRegister BinaryDivision

/-- The generator: `X ^ 32` and the polynomial of 0x04C11DB7. -/
noncomputable def crcGenerator : (ZMod 2)[X] := X ^ 32 + ofWord (0x04C11DB7 : BitVec 32)

/-- The message, the first bit at its highest power. The bits of a byte come with the least
significant one first. -/
noncomputable def crcMessage (data : Bytes) : (ZMod 2)[X] := ofBits (bits data)

/-- The CRC-32 of IEEE 802.3: the complement of the remainder, its bits in reverse. -/
noncomputable def ieeeCrc32 (data : Bytes) : BitVec 32 :=
  ~~~(toWord 32 ((crcMessage data * X ^ 32 +
    (∑ i ∈ Finset.range 32, X ^ i) * X ^ (8 * data.length)) %ₘ crcGenerator)).reverse

theorem crcPolynomial_eq : crcPolynomial = (0x04C11DB7 : BitVec 32).reverse := by
  decide +kernel

/-- The register behind a message, read in reverse, is the remainder. -/
theorem ofWord_reverse_foldl_crc32Step (data : Bytes) :
    ofWord (data.foldl crc32Step 0xFFFFFFFF).toBitVec.reverse = (crcMessage data * X ^ 32 +
      (∑ i ∈ Finset.range 32, X ^ i) * X ^ (8 * data.length)) %ₘ crcGenerator := by
  have hstart : (0xFFFFFFFF : UInt32).toBitVec = BitVec.allOnes 32 := rfl
  rw [toBitVec_foldl_crc32Step, crcPolynomial_eq, ofWord_reverse_feed (by decide), hstart,
    ofWord_reverse_allOnes, length_bits]
  rfl

/-- The table look-ups compute the checksum of the standard. -/
theorem crc32Compute_eq_ieeeCrc32 (data : Bytes) :
    (crc32Compute data).toBitVec = ieeeCrc32 data := by
  have hmask : (0xFFFFFFFF : UInt32).toBitVec = BitVec.allOnes 32 := rfl
  rw [ieeeCrc32, ← ofWord_reverse_foldl_crc32Step, toWord_ofWord, BitVec.reverse_reverse_eq,
    crc32Compute, UInt32.toBitVec_xor, hmask, BitVec.xor_allOnes]

end Federated.Framer
