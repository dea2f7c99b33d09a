import Federated.Framer.Chunked

/-!
# The other framers

The raw framer, the length prefix and the length prefix with a CRC-32 behind the
payload. Lengths and checksums are in network byte order.
-/

namespace Federated.Framer

open Library

structure FramerModule where
  encode : Bytes → Buffer → Comp CallResult
  decode : Bytes → Buffer → Comp CallResult

/-! ## Raw -/

def rawEncode (payload : Bytes) (output : Buffer) : CallResult :=
  if payload.length > output.size then .ok (.errFormat, output)
  else .ok (.ok, filled output payload)

def rawDecode (frame : Bytes) (output : Buffer) : CallResult :=
  if frame.length > output.size then .ok (.errFormat, output)
  else .ok (.ok, filled output frame)

def rawFramer : FramerModule := ⟨fun p o => .pure (rawEncode p o), fun f o => .pure (rawDecode f o)⟩

/-! ## Length prefix -/

/-- A word in network byte order. -/
def writeBe32 (v : UInt32) : Bytes :=
  [(v >>> 24).toUInt8, (v >>> 16).toUInt8, (v >>> 8).toUInt8, v.toUInt8]

/-- The word that four bytes in network byte order stand for. -/
def readBe32 : Bytes → UInt32
  | [a, b, c, d] =>
    UInt32.ofNat (a.toNat * 2 ^ 24 + b.toNat * 2 ^ 16 + c.toNat * 2 ^ 8 + d.toNat)
  | _ => 0

/-- Write a length, the payload and a trailer, `overhead` bytes more than the payload. -/
def prefixedEncode (overhead : UInt32) (trailer payload : Bytes) (output : Buffer) : CallResult :=
  if payload.length > ((0xFFFFFFFF : UInt32) - overhead).toNat then .ok (.errFormat, output)
  else if output.size < payload.length + overhead.toNat then .ok (.errFormat, output)
  else
    let data := overwrite output.data 0 (writeBe32 (UInt32.ofNat payload.length))
    let data := overwrite data 4 payload
    let data := overwrite data (4 + payload.length) trailer
    .ok (.ok, ⟨data, payload.length + overhead.toNat⟩)

/-- Read the length of a frame with `overhead` bytes around its payload, check that
the frame and the output have room for it, and go on with `extract`. -/
def prefixedDecode (overhead : UInt32) (frame : Bytes) (output : Buffer)
    (extract : UInt32 → CallResult) : CallResult :=
  if frame.length < overhead.toNat then .ok (.errFormat, output)
  else
    match load frame 0 4 with
    | .error fault => .error fault
    | .ok header =>
      let length := readBe32 header
      if length > 0xFFFFFFFF - overhead then .ok (.errFormat, output)
      else if frame.length < (length + overhead).toNat then .ok (.errFormat, output)
      else if output.size < length.toNat then .ok (.errFormat, output)
      else extract length

def lengthPrefixEncode (payload : Bytes) (output : Buffer) : CallResult :=
  prefixedEncode 4 [] payload output

def lengthPrefixDecode (frame : Bytes) (output : Buffer) : CallResult :=
  prefixedDecode 4 frame output fun length => do
    let payload ← load frame 4 length.toNat
    return (.ok, filled output payload)

def lengthPrefixFramer : FramerModule :=
  ⟨fun p o => .pure (lengthPrefixEncode p o), fun f o => .pure (lengthPrefixDecode f o)⟩

/-! ## CRC -/

/-- An entry of the CRC table. -/
def crc32Table (i : UInt32) : UInt32 :=
  (List.range 8).foldl
    (fun crc _ => if crc &&& 1 ≠ 0 then (crc >>> 1) ^^^ 0xEDB88320 else crc >>> 1) i

def crc32Step (crc : UInt32) (b : UInt8) : UInt32 :=
  (crc >>> 8) ^^^ crc32Table ((crc ^^^ b.toUInt32) &&& 0xFF)

def crc32Compute (data : Bytes) : UInt32 := data.foldl crc32Step 0xFFFFFFFF ^^^ 0xFFFFFFFF

/-- The checksum of the digits one to nine. -/
example : crc32Compute (ascii "123456789") = 0xCBF43926 := by decide +kernel

def crcEncode (payload : Bytes) (output : Buffer) : CallResult :=
  prefixedEncode 8 (writeBe32 (crc32Compute payload)) payload output

def crcDecode (frame : Bytes) (output : Buffer) : CallResult :=
  prefixedDecode 8 frame output fun length => do
    let receivedCrc ← load frame (4 + length.toNat) 4
    let payload ← load frame 4 length.toNat
    if readBe32 receivedCrc ≠ crc32Compute payload then return (.errFormat, output)
    else return (.ok, filled output payload)

def crcFramer : FramerModule := ⟨fun p o => .pure (crcEncode p o), fun f o => .pure (crcDecode f o)⟩

def chunkedFramer : FramerModule := ⟨chunkedEncode, chunkedDecode⟩

end Federated.Framer
