import Federated.Core
import Federated.Library.StreamCipher

/-!
# Crypto modules

A crypto module is a pair of functions that fill an output buffer from data and
a key. The two simple modules are here: the pass-through and the repeating XOR.
Both check the output's capacity before they write.
-/

namespace Federated.Crypto

open Library

structure CryptoModule where
  encrypt : Bytes → Bytes → Buffer → CallResult
  decrypt : Bytes → Bytes → Buffer → CallResult

/-! ## No crypto -/

def noneEncrypt (data _key : Bytes) (output : Buffer) : CallResult :=
  if data.length > output.size then .ok (.errFormat, output)
  else .ok (.ok, filled output data)

def noneDecrypt (data _key : Bytes) (output : Buffer) : CallResult :=
  if data.length > output.size then .ok (.errFormat, output)
  else .ok (.ok, filled output data)

def noneCrypto : CryptoModule := ⟨noneEncrypt, noneDecrypt⟩

/-! ## XOR stream -/

/-- The key, over and over. -/
def repeatingKey (key : Bytes) (i : Nat) : UInt8 := key.getD (i % key.length) 0

def xorStreamEncrypt (data key : Bytes) (output : Buffer) : CallResult :=
  if key.length = 0 ∨ key.length > 256 then .ok (.errCrypto, output)
  else if data.length > output.size then .ok (.errFormat, output)
  else .ok (.ok, filled output (mask (repeatingKey key) data))

def xorStreamDecrypt (data key : Bytes) (output : Buffer) : CallResult :=
  xorStreamEncrypt data key output

def xorStreamCrypto : CryptoModule := ⟨xorStreamEncrypt, xorStreamDecrypt⟩

end Federated.Crypto
