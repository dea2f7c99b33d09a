import Federated.Core
import Federated.Library.Computation

/-!
# The chunked framer

`chunkedEncode` and `chunkedDecode` as the framer computes them. Offsets, chunk
sizes and the remaining length are 32-bit words, so sums of them wrap before
they are compared with the 64-bit sizes; every access to a buffer is checked
against the exact bounds of the buffer and faults outside them. Neither loop is
known to end beforehand, so both are `Comp.loop`s.
-/

namespace Federated.Framer

open Library

def cr : UInt8 := 13
def lf : UInt8 := 10
def crlf : Bytes := [cr, lf]

def maxChunkSize : UInt32 := 1024

/-- The value of a hex character of either case. -/
def hexToValue (c : UInt8) : Option UInt32 :=
  if 48 ≤ c ∧ c ≤ 57 then some (c - 48).toUInt32
  else if 97 ≤ c ∧ c ≤ 102 then some (10 + (c - 97).toUInt32)
  else if 65 ≤ c ∧ c ≤ 70 then some (10 + (c - 65).toUInt32)
  else none

/-- The lowercase hex character of a value below 16. -/
def valueToHex (val : UInt32) : UInt8 :=
  if val < 10 then 48 + val.toUInt8 else 97 + (val - 10).toUInt8

/-! ## Encoding -/

/-- Count the nibbles of `temp`; a 32-bit word runs out of them within the given passes. -/
def countNibbles : Nat → UInt32 → Nat
  | 0, _ => 0
  | passes + 1, temp => if temp = 0 then 0 else countNibbles passes (temp >>> 4) + 1

/-- The characters `write_hex` puts at its destination. -/
def writeHex (value : UInt32) : Bytes :=
  if value = 0 then [48]
  else
    let nibbles := countNibbles 8 value
    (List.range nibbles).map fun i =>
      valueToHex ((value >>> (UInt32.ofNat (nibbles - 1 - i) * 4)) &&& 15)

/-- The write position in the output and the output block. -/
structure Writer where
  offset : UInt32
  output : Bytes

/-- Write some bytes and move on. The position wraps, the addresses do not. -/
def Writer.put (capacity : Nat) (src : Bytes) (w : Writer) : Except Fault Writer := do
  let output ← store capacity w.output w.offset.toNat src
  return ⟨w.offset + UInt32.ofNat src.length, output⟩

structure EncodeState where
  payloadRemaining : UInt32
  payloadOffset : UInt32
  writer : Writer

/-- Write one chunk: its size line, its data and the CRLF behind them. -/
def putChunk (payload : Bytes) (capacity : Nat) (s : EncodeState) (chunkSize : UInt32) :
    Except Fault EncodeState := do
  let w ← s.writer.put capacity (writeHex chunkSize)
  let w ← w.put capacity [cr]
  let w ← w.put capacity [lf]
  let data ← load payload s.payloadOffset.toNat chunkSize.toNat
  let w ← w.put capacity data
  let w ← w.put capacity [cr]
  let w ← w.put capacity [lf]
  return ⟨s.payloadRemaining - chunkSize, s.payloadOffset + chunkSize, w⟩

/-- Write the final zero chunk and report the frame. -/
def putLastChunk (capacity : Nat) (w : Writer) : CallResult :=
  if (w.offset + 5).toNat > capacity then .ok (.errFormat, ⟨w.output, capacity⟩)
  else do
    let w ← w.put capacity [48]
    let w ← w.put capacity [cr]
    let w ← w.put capacity [lf]
    let w ← w.put capacity [cr]
    let w ← w.put capacity [lf]
    return (.ok, ⟨w.output, w.offset.toNat⟩)

/-- One pass of the encoding loop, the part behind the loop included. -/
def encodePass (payload : Bytes) (capacity : Nat) (s : EncodeState) :
    Pass EncodeState CallResult :=
  if s.payloadRemaining > 0 then
    let chunkSize :=
      if s.payloadRemaining > maxChunkSize then maxChunkSize else s.payloadRemaining
    let hexChars : UInt32 := if chunkSize = 0 then 1 else UInt32.ofNat (countNibbles 8 chunkSize)
    let chunkOverhead := hexChars + 2 + 2
    let spaceNeeded := chunkOverhead + chunkSize
    if (s.writer.offset + spaceNeeded).toNat > capacity then
      .exit (.ok (.errFormat, ⟨s.writer.output, capacity⟩))
    else
      match putChunk payload capacity s chunkSize with
      | .error fault => .exit (.error fault)
      | .ok t => .next t
  else .exit (putLastChunk capacity s.writer)

/-- Encode `payload` into the buffer `output`. -/
def chunkedEncode (payload : Bytes) (output : Buffer) : Comp CallResult :=
  Comp.loop (fun s => .pure (encodePass payload output.size s))
    ⟨UInt32.ofNat payload.length, 0, ⟨0, output.data⟩⟩

/-! ## Decoding -/

structure SizeScan where
  frameOffset : UInt32
  chunkSize : UInt32
  foundHex : Bool
  deriving DecidableEq

/-- One character of a chunk size. The scan leaves at the end of the frame or at
a `\r`, and with `none` where the source returns `ERR_FORMAT`. -/
def sizePass (frame : Bytes) (s : SizeScan) : Pass SizeScan (Option SizeScan) :=
  match frame[s.frameOffset.toNat]? with
  | none => .exit (some s)
  | some c =>
    if c = cr then .exit (some s)
    else
      match hexToValue c with
      | none => .exit none
      | some v =>
        if s.chunkSize > (0xFFFFFFFF : UInt32) >>> 4 then .exit none
        else .next ⟨s.frameOffset + 1, (s.chunkSize <<< 4) ||| v, true⟩

/-- Scan a chunk size from `frameOffset` on. -/
def scanSize (frame : Bytes) (frameOffset : UInt32) : Comp (Option SizeScan) :=
  Comp.loop (fun s => .pure (sizePass frame s)) ⟨frameOffset, 0, false⟩

/-- Expect `\r\n` at an offset and step over it. The second byte is only read
when the first one is a `\r`. -/
def expectCrlf (frame : Bytes) (frameOffset : UInt32) : Except Fault (Option UInt32) :=
  if (frameOffset + 2).toNat > frame.length then .ok none
  else
    match frame[frameOffset.toNat]? with
    | none => .error .read
    | some c =>
      if c ≠ cr then .ok none
      else
        match frame[(frameOffset + 1).toNat]? with
        | none => .error .read
        | some d => if d ≠ lf then .ok none else .ok (some (frameOffset + 2))

structure DecodeState where
  frameOffset : UInt32
  outputOffset : UInt32
  output : Bytes

/-- The part of a decoding pass behind the scan of the chunk size. -/
def chunkPass (frame : Bytes) (capacity : Nat) (s : DecodeState) (scan : SizeScan) :
    Except Fault (Pass DecodeState (ErrorCode × Buffer)) :=
  if scan.foundHex = false then .ok (.exit (.errFormat, ⟨s.output, capacity⟩))
  else do
    match ← expectCrlf frame scan.frameOffset with
    | none => return .exit (.errFormat, ⟨s.output, capacity⟩)
    | some frameOffset =>
      if scan.chunkSize = 0 then
        match ← expectCrlf frame frameOffset with
        | none => return .exit (.errFormat, ⟨s.output, capacity⟩)
        | some frameOffset =>
          if frameOffset.toNat ≠ frame.length then
            return .exit (.errFormat, ⟨s.output, capacity⟩)
          else return .exit (.ok, ⟨s.output, s.outputOffset.toNat⟩)
      else if (frameOffset + scan.chunkSize).toNat > frame.length then
        return .exit (.errFormat, ⟨s.output, capacity⟩)
      else if (s.outputOffset + scan.chunkSize).toNat > capacity then
        return .exit (.errFormat, ⟨s.output, capacity⟩)
      else
        let data ← load frame frameOffset.toNat scan.chunkSize.toNat
        let output ← store capacity s.output s.outputOffset.toNat data
        match ← expectCrlf frame (frameOffset + scan.chunkSize) with
        | none => return .exit (.errFormat, ⟨output, capacity⟩)
        | some frameOffset => return .next ⟨frameOffset, s.outputOffset + scan.chunkSize, output⟩

/-- A fault ends the call. -/
def orFault : Except Fault (Pass DecodeState (ErrorCode × Buffer)) → Pass DecodeState CallResult
  | .error fault => .exit (.error fault)
  | .ok (.exit r) => .exit (.ok r)
  | .ok (.next s) => .next s

/-- One pass of the decoding loop, with the scan of the chunk size inside. -/
def decodePass (frame : Bytes) (capacity : Nat) (s : DecodeState) :
    Comp (Pass DecodeState CallResult) :=
  if s.frameOffset.toNat < frame.length then
    (scanSize frame s.frameOffset).bind fun
      | none => .pure (.exit (.ok (.errFormat, ⟨s.output, capacity⟩)))
      | some scan => .pure (orFault (chunkPass frame capacity s scan))
  else .pure (.exit (.ok (.ok, ⟨s.output, s.outputOffset.toNat⟩)))

/-- Decode `frame` into the buffer `output`. -/
def chunkedDecode (frame : Bytes) (output : Buffer) : Comp CallResult :=
  Comp.loop (decodePass frame output.size) ⟨0, 0, output.data⟩

end Federated.Framer
