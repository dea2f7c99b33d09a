import Federated.Framer.PrefixedAccept

/-!
# Frames that were cut

Of a frame that was written or read in part, the framers with a length in front accept nothing but
the whole. The others can accept a part, and give a part of the payload.
-/

namespace Federated.Framer

open Library Comp

variable {k : FramerKind} {payload p content : Bytes} {output : Buffer}

/-- What encoding a payload writes is its frame. -/
theorem FramerKind.Encodes.eq_of_lt (hlen : (k.frame payload).length < 2 ^ 32)
    (h : k.Encodes payload output content) : content = k.frame payload := by
  obtain ⟨buffer, hbuffer, rfl⟩ := h
  cases k with
  | raw =>
    have hraw : rawEncode payload output = .ok (.ok, buffer) := (returns_pure.mp hbuffer).symm
    unfold rawEncode at hraw
    split_ifs at hraw
    · cases hraw
    · cases hraw
      exact bytes_filled _ _
  | lengthPrefix => exact (Encodes.eq_frame (.inl rfl) ⟨buffer, hbuffer, rfl⟩).1
  | crc => exact (Encodes.eq_frame (.inr rfl) ⟨buffer, hbuffer, rfl⟩).1
  | chunked =>
    have hseen : seen payload = payload :=
      seen_of_lt ((length_le_frame .chunked payload).trans_lt hlen)
    have hlen' : (encoding (seen payload)).length < 2 ^ 32 := by
      rw [hseen]
      exact hlen
    obtain ⟨r, hr, hencoded⟩ := chunkedEncode_returns output hlen'
    obtain rfl := hr.unique hbuffer
    rw [hencoded.bytes, hseen]
    rfl

/-- Chunks that start a body are its first chunks. -/
theorem payload_isPrefix_of_wires {cs ds : List Chunk} {rest : Bytes}
    (h : Body (wires cs ++ rest) ds) : Framer.payload cs <+: Framer.payload ds := by
  obtain ⟨z, hz, h⟩ := h
  induction cs generalizing ds with
  | nil => exact List.nil_prefix
  | cons c cs ih =>
    cases ds with
    | nil =>
      have hlast : c.wire ++ (wires cs ++ rest) = z ++ crlf ++ crlf := by simpa using h
      exact absurd hlast (Chunk.wire_ne_last hz)
    | cons d ds =>
      have hwire : c.wire ++ (wires cs ++ rest) = d.wire ++ (wires ds ++ (z ++ crlf ++ crlf)) := by
        simpa using h
      obtain ⟨rfl, hrest⟩ := Chunk.wire_cancel hwire
      rw [payload_cons, payload_cons]
      exact (List.prefix_append_right_inj _).mpr (ih hrest)

/-- What is decoded of a part of a frame is a part of its payload. -/
theorem FramerKind.Decodes.isPrefix (hlen : (k.frame payload).length < 2 ^ 32)
    (hcut : content <+: k.frame payload) (h : k.Decodes content output p) : p <+: payload := by
  obtain ⟨buffer, hbuffer, rfl⟩ := h
  cases k with
  | raw =>
    have hraw : rawDecode content output = .ok (.ok, buffer) := (returns_pure.mp hbuffer).symm
    unfold rawDecode at hraw
    split_ifs at hraw
    · cases hraw
    · cases hraw
      rw [bytes_filled]
      exact hcut
  | lengthPrefix =>
    obtain ⟨-, hstart⟩ := (decodes_iff (.inl rfl)).mp ⟨buffer, hbuffer, rfl⟩
    rw [StartsWith.unique (.inl rfl) ⟨hstart.1.trans hcut, hstart.2⟩ ⟨List.prefix_rfl, hlen⟩]
  | crc =>
    obtain ⟨-, hstart⟩ := (decodes_iff (.inr rfl)).mp ⟨buffer, hbuffer, rfl⟩
    rw [StartsWith.unique (.inr rfl) ⟨hstart.1.trans hcut, hstart.2⟩ ⟨List.prefix_rfl, hlen⟩]
  | chunked =>
    obtain ⟨cs, ⟨-, hcs, -⟩, rfl⟩ := (chunkedDecode_ok_iff _ _ _).mp hbuffer
    obtain ⟨rest, hrest⟩ := hcut
    have hbody : Body (content ++ rest) (splitChunks payload) := by
      rw [hrest]
      exact body_encoding payload
    rw [Buffer.bytes_written, ← payload_splitChunks payload]
    obtain rfl | hwhole := hcs
    · exact payload_isPrefix_of_wires hbody
    · rw [(hwhole.append_unique hbody).1]

/-- With a length in front, nothing but the whole frame is decoded. -/
theorem FramerKind.Decodes.eq_of_prefixed (hk : k.Prefixed)
    (hlen : (k.frame payload).length < 2 ^ 32) (hcut : content <+: k.frame payload)
    (h : k.Decodes content output p) : p = payload := by
  obtain ⟨-, hstart⟩ := (decodes_iff hk).mp h
  exact StartsWith.unique hk ⟨hstart.1.trans hcut, hstart.2⟩ ⟨List.prefix_rfl, hlen⟩

end Federated.Framer
