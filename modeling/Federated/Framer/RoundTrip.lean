import Federated.Framer.Framers
import Federated.Framer.ChunkedAccept

/-!
# Every framer decodes what it encodes

The frame each format describes for a payload, and that encoding writes it and
decoding gives the payload back, as long as the frame is shorter than 2^32 bytes
and the buffers have room.
-/

namespace Federated.Framer

open Library Comp

inductive FramerKind where
  | raw
  | lengthPrefix
  | crc
  | chunked
  deriving DecidableEq, Repr

/-- The framer of a kind. -/
def FramerKind.module : FramerKind → FramerModule
  | raw => rawFramer
  | lengthPrefix => lengthPrefixFramer
  | crc => crcFramer
  | chunked => chunkedFramer

/-- The frame of the formats with a length in front. -/
def prefixedFrame (payload trailer : Bytes) : Bytes :=
  writeBe32 (UInt32.ofNat payload.length) ++ payload ++ trailer

/-- The frame that the format of a kind describes for a payload. -/
def FramerKind.frame : FramerKind → Bytes → Bytes
  | raw, payload => payload
  | lengthPrefix, payload => prefixedFrame payload []
  | crc, payload => prefixedFrame payload (writeBe32 (crc32Compute payload))
  | chunked, payload => encoding payload

/-! ## Network byte order -/

@[simp] theorem length_writeBe32 (v : UInt32) : (writeBe32 v).length = 4 := rfl

@[simp] theorem readBe32_writeBe32 (v : UInt32) : readBe32 (writeBe32 v) = v := by
  apply UInt32.toNat_inj.mp
  have := v.toNat_lt
  simp only [writeBe32, readBe32, UInt32.toNat_ofNat', UInt32.toNat_toUInt8,
    UInt32.toNat_shiftRight, Nat.shiftRight_eq_div_pow, UInt32.reduceToNat, Nat.reduceMod,
    Nat.reducePow]
  omega

variable {payload : Bytes} {output : Buffer}

theorem overwrite_start (block src : Bytes) :
    overwrite block 0 src = src ++ block.drop src.length := by
  simp [overwrite]

/-- Two pieces written one behind the other. -/
theorem overwrite_two (block a b : Bytes) {n : Nat} (ha : a.length = n) :
    overwrite (overwrite block 0 a) n b = a ++ b ++ block.drop (n + b.length) := by
  subst ha
  rw [overwrite_start, overwrite_append]

theorem overwrite_three (block a b c : Bytes) {n : Nat} (ha : a.length = n) :
    overwrite (overwrite (overwrite block 0 a) n b) (n + b.length) c =
      a ++ b ++ c ++ block.drop (n + b.length + c.length) := by
  have hlen : (a ++ b).length = n + b.length := by rw [List.length_append, ha]
  rw [overwrite_two block a b ha, ← hlen, overwrite_append]

/-! ## A length, the payload and a trailer -/

variable {overhead : UInt32} {trailer : Bytes}

theorem length_prefixedFrame (payload trailer : Bytes) :
    (prefixedFrame payload trailer).length = payload.length + (4 + trailer.length) := by
  simp [prefixedFrame]
  omega

theorem length_le_frame (k : FramerKind) (payload : Bytes) :
    payload.length ≤ (k.frame payload).length := by
  cases k with
  | raw => exact Nat.le_refl _
  | lengthPrefix => simp [FramerKind.frame, length_prefixedFrame]
  | crc => simp [FramerKind.frame, length_prefixedFrame]
  | chunked => exact length_le_encoding payload

theorem toNat_max_sub (overhead : UInt32) :
    ((0xFFFFFFFF : UInt32) - overhead).toNat = 2 ^ 32 - 1 - overhead.toNat := by
  have hlt := overhead.toNat_lt
  rw [UInt32.toNat_sub_of_le]
  · rfl
  · rw [UInt32.le_iff_toNat_le]
    exact Nat.le_sub_one_of_lt hlt

theorem prefixedEncode_eq (hover : overhead.toNat = 4 + trailer.length)
    (hlen : (prefixedFrame payload trailer).length < 2 ^ 32)
    (hfits : (prefixedFrame payload trailer).length ≤ output.size) : ∃ buffer,
      prefixedEncode overhead trailer payload output = .ok (.ok, buffer) ∧
        buffer.bytes = prefixedFrame payload trailer := by
  rw [length_prefixedFrame, ← hover] at hlen hfits
  have hmax : ¬ payload.length > ((0xFFFFFFFF : UInt32) - overhead).toNat := by
    rw [toNat_max_sub]
    omega
  refine ⟨_, by rw [prefixedEncode, if_neg hmax, if_neg (by omega)], ?_⟩
  rw [Buffer.bytes, overwrite_three _ _ _ _ (length_writeBe32 _)]
  exact List.take_left' (by rw [hover, ← length_prefixedFrame, prefixedFrame])

/-- The length in front of a frame shorter than 2^32 bytes is the one of its payload. -/
theorem toNat_ofNat_length (hlen : (prefixedFrame payload trailer).length < 2 ^ 32) :
    (UInt32.ofNat payload.length).toNat = payload.length := by
  rw [length_prefixedFrame] at hlen
  exact UInt32.toNat_ofNat_of_lt' (show _ < 2 ^ 32 by omega)

/-- A frame with anything behind it passes the checks, if the output has room. -/
theorem prefixedDecode_frame {extract : UInt32 → CallResult}
    (hover : overhead.toNat = 4 + trailer.length)
    (hlen : (prefixedFrame payload trailer).length < 2 ^ 32) (rest : Bytes) :
    prefixedDecode overhead (prefixedFrame payload trailer ++ rest) output extract =
      if output.size < payload.length then .ok (.errFormat, output)
      else extract (UInt32.ofNat payload.length) := by
  have hframe := length_prefixedFrame payload trailer
  have hwhole : (prefixedFrame payload trailer ++ rest).length =
      (prefixedFrame payload trailer).length + rest.length := List.length_append
  have hnat := toNat_ofNat_length hlen
  have hheader : load (prefixedFrame payload trailer ++ rest) 0 4 =
      .ok (writeBe32 (UInt32.ofNat payload.length)) := by
    rw [prefixedFrame, List.append_assoc, List.append_assoc]
    exact load_middle [] _ _ rfl rfl
  have hmax : ¬ UInt32.ofNat payload.length > 0xFFFFFFFF - overhead := by
    rw [gt_iff_lt, UInt32.lt_iff_toNat_lt, hnat, toNat_max_sub]
    omega
  have hsum : (UInt32.ofNat payload.length + overhead).toNat =
      payload.length + overhead.toNat := by
    rw [UInt32.toNat_add, hnat, Nat.mod_eq_of_lt (by omega)]
  rw [prefixedDecode, if_neg (by omega), hheader]
  simp only [readBe32_writeBe32]
  rw [if_neg hmax, if_neg (by omega), hnat]

theorem load_payload (payload trailer rest : Bytes) :
    load (prefixedFrame payload trailer ++ rest) 4 payload.length = .ok payload := by
  rw [prefixedFrame, List.append_assoc]
  exact load_middle _ payload _ rfl rfl

theorem load_trailer (payload trailer rest : Bytes) :
    load (prefixedFrame payload trailer ++ rest) (4 + payload.length) trailer.length =
      .ok trailer := by
  have hoff : (writeBe32 (UInt32.ofNat payload.length) ++ payload).length = 4 + payload.length := by
    simp
  exact load_middle _ trailer rest hoff rfl

theorem lengthPrefixDecode_frame (hlen : (prefixedFrame payload []).length < 2 ^ 32)
    (rest : Bytes) :
    lengthPrefixDecode (prefixedFrame payload [] ++ rest) output =
      if output.size < payload.length then .ok (.errFormat, output)
      else .ok (.ok, filled output payload) := by
  rw [lengthPrefixDecode, prefixedDecode_frame rfl hlen, toNat_ofNat_length hlen, load_payload]
  rfl

/-- The CRC decoder compares the trailer with the checksum of the payload. -/
theorem crcDecode_frame (htrailer : trailer.length = 4)
    (hlen : (prefixedFrame payload trailer).length < 2 ^ 32) (rest : Bytes) :
    crcDecode (prefixedFrame payload trailer ++ rest) output =
      if output.size < payload.length then .ok (.errFormat, output)
      else if readBe32 trailer ≠ crc32Compute payload then .ok (.errFormat, output)
      else .ok (.ok, filled output payload) := by
  have hnat := toNat_ofNat_length hlen
  have hover : (8 : UInt32).toNat = 4 + trailer.length := by
    rw [htrailer]
    rfl
  have hcrc := load_trailer payload trailer rest
  rw [htrailer] at hcrc
  rw [crcDecode, prefixedDecode_frame hover hlen, hnat, hcrc, load_payload]
  rfl

theorem lengthPrefixDecode_eq (hlen : (prefixedFrame payload []).length < 2 ^ 32)
    (hfits : payload.length ≤ output.size) (rest : Bytes) :
    lengthPrefixDecode (prefixedFrame payload [] ++ rest) output =
      .ok (.ok, filled output payload) := by
  rw [lengthPrefixDecode_frame hlen, if_neg (by omega)]

theorem crcDecode_eq
    (hlen : (prefixedFrame payload (writeBe32 (crc32Compute payload))).length < 2 ^ 32)
    (hfits : payload.length ≤ output.size) (rest : Bytes) :
    crcDecode (prefixedFrame payload (writeBe32 (crc32Compute payload)) ++ rest) output =
      .ok (.ok, filled output payload) := by
  rw [crcDecode_frame (length_writeBe32 _) hlen, if_neg (by omega),
    if_neg (not_not.mpr (readBe32_writeBe32 _))]

/-! ## All of them -/

variable {k : FramerKind}

/-- Encoding into a buffer with room writes the frame of the format. -/
theorem FramerKind.encode_returns (hlen : (k.frame payload).length < 2 ^ 32)
    (hfits : (k.frame payload).length ≤ output.size) : ∃ buffer,
      (k.module.encode payload output).Returns (.ok (.ok, buffer)) ∧
        buffer.bytes = k.frame payload := by
  cases k with
  | raw =>
    have hfits : ¬ payload.length > output.size := Nat.not_lt.mpr hfits
    exact ⟨filled output payload, by simp [module, rawFramer, rawEncode, hfits], bytes_filled _ _⟩
  | lengthPrefix =>
    have hover : (4 : UInt32).toNat = 4 + ([] : Bytes).length := rfl
    obtain ⟨buffer, hencode, hbytes⟩ := prefixedEncode_eq hover hlen hfits
    exact ⟨buffer, returns_pure.mpr hencode.symm, hbytes⟩
  | crc =>
    have hover : (8 : UInt32).toNat = 4 + (writeBe32 (crc32Compute payload)).length := by
      rw [length_writeBe32]
      rfl
    obtain ⟨buffer, hencode, hbytes⟩ := prefixedEncode_eq hover hlen hfits
    exact ⟨buffer, returns_pure.mpr hencode.symm, hbytes⟩
  | chunked =>
    have hseen : seen payload = payload :=
      seen_of_lt ((length_le_frame .chunked payload).trans_lt hlen)
    have hlen' : (encoding (seen payload)).length < 2 ^ 32 := by
      rw [hseen]
      exact hlen
    obtain ⟨r, hr, hencoded⟩ := chunkedEncode_returns output hlen'
    rw [hseen] at hencoded
    obtain ⟨buffer, rfl⟩ := hencoded.ok (by simpa [frame] using hfits)
    exact ⟨buffer, hr, hencoded.bytes⟩

/-- Decoding a frame into a buffer with room gives its payload back. -/
theorem FramerKind.decode_returns (hlen : (k.frame payload).length < 2 ^ 32)
    (hfits : payload.length ≤ output.size) : ∃ buffer,
      (k.module.decode (k.frame payload) output).Returns (.ok (.ok, buffer)) ∧
        buffer.bytes = payload := by
  cases k with
  | raw =>
    have hfits : ¬ payload.length > output.size := Nat.not_lt.mpr hfits
    exact ⟨filled output payload, by simp [module, rawFramer, rawDecode, frame, hfits],
      bytes_filled _ _⟩
  | lengthPrefix =>
    have hdecode := lengthPrefixDecode_eq hlen hfits []
    rw [List.append_nil] at hdecode
    exact ⟨filled output payload, returns_pure.mpr hdecode.symm, bytes_filled _ _⟩
  | crc =>
    have hdecode := crcDecode_eq hlen hfits []
    rw [List.append_nil] at hdecode
    exact ⟨filled output payload, returns_pure.mpr hdecode.symm, bytes_filled _ _⟩
  | chunked =>
    refine ⟨_, (chunkedDecode_ok_iff _ _ _).mpr ⟨splitChunks payload, ⟨hlen,
      .inr (body_encoding payload), by rwa [payload_splitChunks]⟩, rfl⟩, ?_⟩
    rw [Buffer.bytes_written, payload_splitChunks]

/-! ## Chunked bodies in any spelling -/

/-- A body decodes to the data of its chunks. -/
theorem chunkedDecode_body {frame : Bytes} {cs : List Chunk} (hbody : Body frame cs)
    (hlen : frame.length < 2 ^ 32) (hfits : (Framer.payload cs).length ≤ output.size) :
    ∃ decoded, (chunkedDecode frame output).Returns (.ok (.ok, decoded)) ∧
      decoded.bytes = Framer.payload cs := by
  refine ⟨_, (chunkedDecode_ok_iff _ _ _).mpr ⟨cs, ⟨hlen, .inr hbody, hfits⟩, rfl⟩, ?_⟩
  exact Buffer.bytes_written _ _

/-- Every body is decoded to the data of its chunks, however their sizes are
spelled, and the encoder writes a body with the payload as its data. -/
theorem chunked_bodies (output : Buffer) :
    (∀ frame cs, Body frame cs → frame.length < 2 ^ 32 →
      (Framer.payload cs).length ≤ output.size →
      ∃ decoded, (chunkedDecode frame output).Returns (.ok (.ok, decoded)) ∧
        decoded.bytes = Framer.payload cs) ∧
    ∀ p, (encoding p).length < 2 ^ 32 → (encoding p).length ≤ output.size →
      ∃ coded cs, (chunkedEncode p output).Returns (.ok (.ok, coded)) ∧ Body coded.bytes cs ∧
        Framer.payload cs = p ∧ coded.bytes.length < 2 ^ 32 ∧
        ∀ target : Buffer, p.length ≤ target.size →
          ∃ decoded, (chunkedDecode coded.bytes target).Returns (.ok (.ok, decoded)) ∧
            decoded.bytes = p := by
  refine ⟨fun frame cs => chunkedDecode_body, fun p hlen hfits => ?_⟩
  obtain ⟨coded, hcoded, hbytes⟩ := FramerKind.encode_returns (k := .chunked) hlen hfits
  have hbytes : coded.bytes = encoding p := hbytes
  have hpayload := payload_splitChunks p
  have hbody : Body coded.bytes (splitChunks p) := hbytes ▸ body_encoding p
  refine ⟨coded, splitChunks p, hcoded, hbody, hpayload, hbytes ▸ hlen, ?_⟩
  intro target htarget
  have hfits : (Framer.payload (splitChunks p)).length ≤ target.size := by rwa [hpayload]
  obtain ⟨decoded, hdecoded, hdata⟩ := chunkedDecode_body hbody (hbytes ▸ hlen) hfits
  exact ⟨decoded, hdecoded, hdata.trans hpayload⟩

/-- `Hello` as one chunk whose size is written `05`. -/
def helloChunk : Chunk where
  digits := ascii "05"
  data := ascii "Hello"
  hex := List.forall_mem_cons.mpr ⟨rfl, List.forall_mem_singleton.mpr rfl⟩
  value := by decide
  nonempty := by decide

/-- Both directions on `Hello`. -/
theorem chunked_bodies_hello :
    (∃ decoded, (chunkedDecode (ascii "05\r\nHello\r\n00\r\n\r\n")
        (.ofBlock (List.replicate 32 0))).Returns (.ok (.ok, decoded)) ∧
      decoded.bytes = ascii "Hello") ∧
    ∃ coded cs, (chunkedEncode (ascii "Hello") (.ofBlock (List.replicate 32 0))).Returns
        (.ok (.ok, coded)) ∧ Body coded.bytes cs ∧ Framer.payload cs = ascii "Hello" ∧
      coded.bytes.length < 2 ^ 32 ∧
      ∀ target : Buffer, (ascii "Hello").length ≤ target.size →
        ∃ decoded, (chunkedDecode coded.bytes target).Returns (.ok (.ok, decoded)) ∧
          decoded.bytes = ascii "Hello" := by
  obtain ⟨hdecode, hencode⟩ := chunked_bodies (.ofBlock (List.replicate 32 0))
  have hbody : Body (ascii "05\r\nHello\r\n00\r\n\r\n") [helloChunk] :=
    ⟨[48, 48], ⟨by decide, by simp⟩, by decide⟩
  have hlen : (encoding (ascii "Hello")).length = 15 := by
    obtain ⟨c, hdigits, hdata, hsplit⟩ := splitChunks_of_ne_nil (show ascii "Hello" ≠ [] by decide)
    have hrest : (ascii "Hello").drop 1024 = [] := by decide
    have hwire : c.wire.length = 10 := by
      rw [Chunk.length_wire, hdigits, hdata]
      decide
    rw [encoding, hsplit, hrest, splitChunks_nil, wires_cons, wires_nil, List.append_nil,
      List.length_append, hwire]
    rfl
  refine ⟨hdecode _ [helloChunk] hbody (by decide) (by decide), ?_⟩
  exact hencode (ascii "Hello") (by rw [hlen]; decide) (by rw [hlen]; decide)

end Federated.Framer
