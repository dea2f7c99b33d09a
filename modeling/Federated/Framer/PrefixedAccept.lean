import Federated.Framer.RoundTrip

/-!
# What the length-prefixed decoders accept

The length prefix and the CRC framer accept a frame exactly when it starts with
the frame of a payload that fits the output, and that payload is the only one.
-/

namespace Federated.Framer

open Library Comp

variable {k : FramerKind} {frame p : Bytes} {output target buffer coded : Buffer}

/-! ## Reading a header -/

/-- Four bytes in network byte order are the bytes of the word they stand for. -/
theorem writeBe32_readBe32 {bytes : Bytes} (h : bytes.length = 4) :
    writeBe32 (readBe32 bytes) = bytes := by
  obtain ⟨a, b, c, d, rfl⟩ : ∃ a b c d, bytes = [a, b, c, d] := by
    match bytes, h with
    | [a, b, c, d], _ => exact ⟨a, b, c, d, rfl⟩
  have ha := a.toNat_lt
  have hb := b.toNat_lt
  have hc := c.toNat_lt
  have hd := d.toNat_lt
  simp only [writeBe32, readBe32, List.cons.injEq, and_true]
  generalize hn : a.toNat * 2 ^ 24 + b.toNat * 2 ^ 16 + c.toNat * 2 ^ 8 + d.toNat = n
  have hword := UInt32.toNat_ofNat_of_lt' (show n < 2 ^ 32 by omega)
  refine ⟨?_, ?_, ?_, ?_⟩ <;>
    simp only [← UInt8.toNat_inj, UInt32.toNat_toUInt8, UInt32.toNat_shiftRight, hword,
      Nat.shiftRight_eq_div_pow, UInt32.reduceToNat, Nat.reduceMod, Nat.reducePow] <;>
    omega

/-- A frame that passes the checks is the frame of a payload with something behind it. -/
theorem prefixedDecode_cases {overhead : UInt32} {t : Nat} (hover : overhead.toNat = 4 + t)
    (frame : Bytes) (output : Buffer) (extract : UInt32 → CallResult) :
    (∃ p trailer rest, frame = prefixedFrame p trailer ++ rest ∧ trailer.length = t ∧
      (prefixedFrame p trailer).length < 2 ^ 32) ∨
    prefixedDecode overhead frame output extract = .ok (.errFormat, output) := by
  unfold prefixedDecode
  split
  · exact .inr rfl
  rename_i hshort
  rw [load_eq_ok (by omega), List.drop_zero]
  simp only
  generalize hlength : readBe32 (frame.take 4) = length
  split
  · exact .inr rfl
  rename_i hmax
  split
  · exact .inr rfl
  rename_i hinside
  left
  rw [gt_iff_lt, UInt32.lt_iff_toNat_lt, toNat_max_sub] at hmax
  have hsum : (length + overhead).toNat = length.toNat + overhead.toNat := by
    rw [UInt32.toNat_add, Nat.mod_eq_of_lt]
    have := overhead.toNat_lt
    omega
  rw [hsum] at hinside
  have hheader : (frame.take 4).length = 4 := by
    rw [List.length_take]
    omega
  have hp : ((frame.drop 4).take length.toNat).length = length.toNat := by
    rw [List.length_take, List.length_drop]
    omega
  have htrailer : ((frame.drop (4 + length.toNat)).take t).length = t := by
    rw [List.length_take, List.length_drop]
    omega
  have hword : writeBe32 (UInt32.ofNat length.toNat) = frame.take 4 := by
    rw [UInt32.ofNat_toNat, ← hlength, writeBe32_readBe32 hheader]
  refine ⟨(frame.drop 4).take length.toNat, (frame.drop (4 + length.toNat)).take t,
    (frame.drop (4 + length.toNat)).drop t, ?_, htrailer, ?_⟩
  · rw [prefixedFrame, hp, hword, List.append_assoc, List.take_append_drop, List.append_assoc,
      ← List.drop_drop, List.take_append_drop, List.take_append_drop]
  · rw [length_prefixedFrame, hp, htrailer]
    have := overhead.toNat_lt
    omega

/-! ## Both framers -/

/-- The framers with a length in front. -/
def FramerKind.Prefixed (k : FramerKind) : Prop := k = .lengthPrefix ∨ k = .crc

/-- Encoding `p` into `target` succeeds and writes `coded`. -/
def FramerKind.Encodes (k : FramerKind) (p : Bytes) (target : Buffer) (coded : Bytes) : Prop :=
  ∃ buffer, (k.module.encode p target).Returns (.ok (.ok, buffer)) ∧ buffer.bytes = coded

/-- Decoding `frame` into `output` succeeds with payload `p`. -/
def FramerKind.Decodes (k : FramerKind) (frame : Bytes) (output : Buffer) (p : Bytes) : Prop :=
  ∃ buffer, (k.module.decode frame output).Returns (.ok (.ok, buffer)) ∧ buffer.bytes = p

/-- The frame of a payload that the length field can express is at the front of `frame`. -/
def FramerKind.StartsWith (k : FramerKind) (frame p : Bytes) : Prop :=
  k.frame p <+: frame ∧ (k.frame p).length < 2 ^ 32

theorem prefixedEncode_ok {overhead : UInt32} {trailer : Bytes}
    (hover : overhead.toNat = 4 + trailer.length)
    (h : prefixedEncode overhead trailer p target = .ok (.ok, buffer)) :
    buffer.bytes = prefixedFrame p trailer ∧ (prefixedFrame p trailer).length < 2 ^ 32 := by
  have hlen : (prefixedFrame p trailer).length < 2 ^ 32 ∧
      (prefixedFrame p trailer).length ≤ target.size := by
    have hlt := overhead.toNat_lt
    rw [length_prefixedFrame, ← hover]
    unfold prefixedEncode at h
    split at h
    · cases h
    rename_i hmax
    rw [toNat_max_sub] at hmax
    split at h
    · cases h
    omega
  obtain ⟨buffer', hbuffer', hbytes⟩ := prefixedEncode_eq hover hlen.1 hlen.2
  rw [h] at hbuffer'
  cases hbuffer'
  exact ⟨hbytes, hlen.1⟩

/-- What is encoded is the frame of the payload. -/
theorem FramerKind.Encodes.eq_frame {bytes : Bytes} (hk : k.Prefixed)
    (h : k.Encodes p target bytes) : bytes = k.frame p ∧ (k.frame p).length < 2 ^ 32 := by
  obtain ⟨buffer, hbuffer, rfl⟩ := h
  obtain rfl | rfl := hk
  · exact prefixedEncode_ok rfl (returns_pure.mp hbuffer).symm
  · have hover : (8 : UInt32).toNat = 4 + (writeBe32 (crc32Compute p)).length := by
      rw [length_writeBe32]
      rfl
    exact prefixedEncode_ok hover (returns_pure.mp hbuffer).symm

theorem FramerKind.encodes_frame (hlen : (k.frame p).length < 2 ^ 32)
    (hfits : (k.frame p).length ≤ target.size) : k.Encodes p target (k.frame p) :=
  encode_returns hlen hfits

/-- Decoding succeeds exactly when the payload fits and its frame is in front. -/
theorem FramerKind.decodes_iff (hk : k.Prefixed) :
    k.Decodes frame output p ↔ p.length ≤ output.size ∧ k.StartsWith frame p := by
  constructor
  · rintro ⟨buffer, hbuffer, rfl⟩
    obtain rfl | rfl := hk
    · have h : .ok (.ok, buffer) = lengthPrefixDecode frame output := returns_pure.mp hbuffer
      obtain ⟨q, trailer, rest, rfl, htrailer, hlen⟩ | herr :=
        prefixedDecode_cases (show (4 : UInt32).toNat = 4 + 0 from rfl) frame output _
      · obtain rfl := List.length_eq_zero_iff.mp htrailer
        rw [lengthPrefixDecode_frame hlen] at h
        split at h
        · cases h
        · cases h
          rw [bytes_filled]
          exact ⟨by omega, ⟨rest, rfl⟩, hlen⟩
      · rw [lengthPrefixDecode, herr] at h
        cases h
    · have h : .ok (.ok, buffer) = crcDecode frame output := returns_pure.mp hbuffer
      obtain ⟨q, trailer, rest, rfl, htrailer, hlen⟩ | herr :=
        prefixedDecode_cases (show (8 : UInt32).toNat = 4 + 4 from rfl) frame output _
      · rw [crcDecode_frame htrailer hlen] at h
        split at h
        · cases h
        split at h
        · cases h
        rename_i hsame
        cases h
        rw [not_not] at hsame
        have hcrc : writeBe32 (crc32Compute q) = trailer := by
          rw [← hsame, writeBe32_readBe32 htrailer]
        rw [bytes_filled, StartsWith, FramerKind.frame, hcrc]
        exact ⟨by omega, ⟨rest, rfl⟩, hlen⟩
      · rw [crcDecode, herr] at h
        cases h
  · rintro ⟨hfits, ⟨rest, rfl⟩, hlen⟩
    refine ⟨filled output p, ?_, bytes_filled _ _⟩
    obtain rfl | rfl := hk
    · exact returns_pure.mpr (lengthPrefixDecode_eq hlen hfits rest).symm
    · exact returns_pure.mpr (crcDecode_eq hlen hfits rest).symm

/-- Two payloads whose frames start the same frame are the same. -/
theorem FramerKind.StartsWith.unique (hk : k.Prefixed) {q : Bytes} (hp : k.StartsWith frame p)
    (hq : k.StartsWith frame q) : p = q := by
  have hroom : p.length ≤ (Buffer.mk [] (p.length + q.length)).size ∧
      q.length ≤ (Buffer.mk [] (p.length + q.length)).size := by
    constructor <;> simp
  obtain ⟨a, ha, rfl⟩ := (decodes_iff hk).mpr ⟨hroom.1, hp⟩
  obtain ⟨b, hb, rfl⟩ := (decodes_iff hk).mpr ⟨hroom.2, hq⟩
  cases ha.unique hb
  rfl

theorem FramerKind.StartsWith.append {rest : Bytes} (h : k.StartsWith frame p) :
    k.StartsWith (frame ++ rest) p :=
  ⟨h.1.trans (List.prefix_append _ _), h.2⟩

/-- A length-prefixed framer decodes exactly the frames that start with what it encodes,
to a payload that is unique, whatever follows. -/
theorem prefixed_decodes_iff (hk : k.Prefixed) (frame : Bytes) (output : Buffer) :
    (∀ p target, (k.frame p).length ≤ target.size →
      (k.Decodes frame output p ↔
        p.length ≤ output.size ∧ ∃ coded, k.Encodes p target coded ∧ coded <+: frame)) ∧
    (∀ p q target target' coded coded', k.Encodes p target coded → k.Encodes q target' coded' →
      coded <+: frame → coded' <+: frame → p = q) ∧
    (∀ p target coded, k.Encodes p target coded → p.length ≤ output.size →
      k.Decodes coded output p) ∧
    ∀ p rest, k.Decodes frame output p → k.Decodes (frame ++ rest) output p := by
  refine ⟨?_, ?_, ?_, ?_⟩
  · intro p target hroom
    rw [FramerKind.decodes_iff hk]
    apply and_congr_right
    intro hfits
    constructor
    · intro hstarts
      exact ⟨k.frame p, FramerKind.encodes_frame hstarts.2 hroom, hstarts.1⟩
    · rintro ⟨coded, hcoded, hfront⟩
      obtain ⟨rfl, hlen⟩ := hcoded.eq_frame hk
      exact ⟨hfront, hlen⟩
  · intro p q target target' coded coded' hp hq hcoded hcoded'
    obtain ⟨rfl, hlen⟩ := hp.eq_frame hk
    obtain ⟨rfl, hlen'⟩ := hq.eq_frame hk
    exact FramerKind.StartsWith.unique hk ⟨hcoded, hlen⟩ ⟨hcoded', hlen'⟩
  · intro p target coded hp hfits
    obtain ⟨rfl, hlen⟩ := hp.eq_frame hk
    exact (FramerKind.decodes_iff hk).mpr ⟨hfits, List.prefix_rfl, hlen⟩
  · intro p rest h
    obtain ⟨hfits, hstarts⟩ := (FramerKind.decodes_iff hk).mp h
    exact (FramerKind.decodes_iff hk).mpr ⟨hfits, hstarts.append⟩

/-- A CRC frame of `Hello` with a byte behind it. -/
theorem prefixed_decodes_iff_hello :
    FramerKind.crc.Decodes (FramerKind.crc.frame (ascii "Hello") ++ [33])
      (.ofBlock (List.replicate 8 0)) (ascii "Hello") := by
  have hlen : (FramerKind.crc.frame (ascii "Hello")).length = 13 := by
    rw [FramerKind.frame, length_prefixedFrame]
    rfl
  obtain ⟨hiff, -⟩ := prefixed_decodes_iff (.inr rfl : FramerKind.crc.Prefixed)
    (FramerKind.crc.frame (ascii "Hello") ++ [33]) (.ofBlock (List.replicate 8 0))
  have hroom : (FramerKind.crc.frame (ascii "Hello")).length ≤
      (Buffer.ofBlock (List.replicate 16 0)).size := by
    rw [hlen]
    decide
  refine (hiff (ascii "Hello") (.ofBlock (List.replicate 16 0)) hroom).mpr
    ⟨by decide, FramerKind.crc.frame (ascii "Hello"), ?_, ?_⟩
  · exact FramerKind.encodes_frame (by rw [hlen]; decide) hroom
  · exact List.prefix_append _ _

end Federated.Framer
