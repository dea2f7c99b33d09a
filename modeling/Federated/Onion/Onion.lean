import Federated.Crypto.ChaCha20

/-!
# The onion router

`sendOnion` of the simple onion router. A circuit holds the session keys of its
hops and one crypto layer for each. Sending copies the plaintext to a working
buffer and lets every layer encrypt it into the other buffer and back, the last
hop's layer first. What the two fresh buffers hold before is not determined, so
it is a parameter.
-/

namespace Federated.Onion

open Crypto

structure Node where
  sessionKey : Vector UInt8 32
  deriving Inhabited

structure Circuit where
  circuitId : UInt32
  hops : List Node
  cryptoLayers : List CryptoModule
  isActive : Bool

structure OnionPacket where
  payload : Buffer
  circuitId : UInt32
  deriving DecidableEq

/-! ## Circuits -/

/-- A circuit as the router creates it: one to ten hops, ChaCha20 for each. -/
structure OpenCircuit extends Circuit where
  hops_pos : 0 < hops.length
  hops_le : hops.length ≤ 10
  layers : cryptoLayers = hops.map fun _ => chacha20Crypto

/-! ## Sending -/

/-- Why the layering loop stops early. -/
inductive Abort where
  | fault (fault : Fault)
  | error (code : ErrorCode)

structure LayerState where
  workingBuffer : Bytes
  outputBuffer : Bytes
  currentSize : Nat

/-- The number a hop's nonce is made from. -/
def nonceSeed (circuit : Circuit) (i : Nat) : UInt32 :=
  circuit.circuitId ^^^ (UInt32.ofNat i <<< 16)

/-- The session key and the nonce: the seed as it lies in memory, and zeros. -/
def keyBuffer (circuit : Circuit) (hop : Node) (i : Nat) : Bytes :=
  hop.sessionKey.toList ++ overwrite (List.replicate 12 0) 0 (writeLe32 (nonceSeed circuit i))

/-- The pass of the layering loop for hop `i`. -/
def encryptLayer (circuit : Circuit) (maxSize : Nat) (s : LayerState) (i : Nat) :
    Except Abort LayerState :=
  match circuit.hops[i]?, circuit.cryptoLayers[i]? with
  | some hop, some crypto =>
    let input : Buffer := ⟨s.workingBuffer, s.currentSize⟩
    match crypto.encrypt input.bytes (keyBuffer circuit hop i) ⟨s.outputBuffer, maxSize⟩ with
    | .error fault => .error (.fault fault)
    | .ok (code, output) =>
      if code ≠ .ok then .error (.error code)
      else .ok ⟨overwrite s.workingBuffer 0 output.bytes, output.data, output.size⟩
  | _, _ => .error (.fault .read)

/-- Send `plaintext` through a circuit; `working` and `output` are what the fresh
buffers hold. -/
def sendOnion (circuit : Circuit) (plaintext working output : Bytes) (packet : OnionPacket) :
    Except Fault (ErrorCode × OnionPacket) :=
  if circuit.isActive = false then .ok (.errInvalidArg, packet)
  else if plaintext.length = 0 then .ok (.errInvalidArg, packet)
  else
    let hopCount := circuit.hops.length
    let maxSize := plaintext.length + hopCount * 64
    let start : LayerState := ⟨overwrite working 0 plaintext, output, plaintext.length⟩
    match (List.range hopCount).reverse.foldlM (encryptLayer circuit maxSize) start with
    | .error (.fault fault) => .error fault
    | .error (.error code) => .ok (code, packet)
    | .ok s =>
      .ok (.ok, ⟨.ofBlock (Buffer.mk s.workingBuffer s.currentSize).bytes, circuit.circuitId⟩)

end Federated.Onion
