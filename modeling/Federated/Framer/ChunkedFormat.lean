import Federated.Framer.ChunkedSafety

/-!
# The chunked format

The frames that the format describes, as concatenations: a `Chunk` carries the
proof that its size line announces its data, and a `Body` is a list of chunks
followed by a zero chunk and a final CRLF. The format can be read in one way
only. The decoder accepts, besides the bodies, the lists of chunks that just
stop, and nothing else.
-/

namespace Federated.Framer

open Library Comp Relation

/-- A chunk with data, whose size line is any hex spelling of the data's length. -/
structure Chunk where
  digits : Bytes
  data : Bytes
  hex : ∀ c ∈ digits, IsHex c
  value : hexValue digits = data.length
  nonempty : data ≠ []

def Chunk.wire (c : Chunk) : Bytes := c.digits ++ crlf ++ c.data ++ crlf

/-- Chunks one behind the other. -/
def wires (cs : List Chunk) : Bytes := cs.flatMap Chunk.wire

/-- The data that chunks carry. -/
def payload (cs : List Chunk) : Bytes := cs.flatMap Chunk.data

/-- The size line of a zero chunk: one or more zero digits. -/
def LastLine (z : Bytes) : Prop := z ≠ [] ∧ ∀ c ∈ z, c = 48

/-- Chunks with data, a zero chunk and the final CRLF. -/
def Body (frame : Bytes) (cs : List Chunk) : Prop :=
  ∃ z, LastLine z ∧ frame = wires cs ++ (z ++ crlf ++ crlf)

/-- A frame of the chunked format. -/
def WellFormed (frame : Bytes) : Prop := ∃ cs, Body frame cs

@[simp] theorem wires_nil : wires [] = [] := rfl
@[simp] theorem wires_cons (c : Chunk) (cs : List Chunk) : wires (c :: cs) = c.wire ++ wires cs :=
  rfl
@[simp] theorem payload_nil : payload [] = [] := rfl
@[simp] theorem payload_cons (c : Chunk) (cs : List Chunk) :
    payload (c :: cs) = c.data ++ payload cs := rfl
@[simp] theorem wires_append (cs ds : List Chunk) : wires (cs ++ ds) = wires cs ++ wires ds := by
  simp [wires]
@[simp] theorem payload_append (cs ds : List Chunk) :
    payload (cs ++ ds) = payload cs ++ payload ds := by
  simp [payload]

theorem Chunk.digits_ne_nil (c : Chunk) : c.digits ≠ [] := by
  intro h
  have hv := c.value
  rw [h] at hv
  exact c.nonempty (List.length_eq_zero_iff.mp hv.symm)

@[simp] theorem Chunk.length_wire (c : Chunk) :
    c.wire.length = c.digits.length + c.data.length + 4 := by
  simp [Chunk.wire, crlf]
  omega

theorem length_payload_le (cs : List Chunk) : (payload cs).length ≤ (wires cs).length := by
  induction cs with
  | nil => simp
  | cons c cs ih => simp; omega

theorem LastLine.hex {z : Bytes} (h : LastLine z) : ∀ c ∈ z, IsHex c := by
  intro c hc
  rw [h.2 c hc]
  decide

theorem LastLine.value {z : Bytes} (h : LastLine z) : hexValue z = 0 := by
  rw [List.eq_replicate_iff.mpr ⟨rfl, h.2⟩]
  exact hexValue_replicate_zero _

/-! ## Unique reading -/

/-- A run of hex digits in front of a CRLF reaches exactly to the CRLF. -/
theorem digits_cancel {a b x y : Bytes} (ha : ∀ c ∈ a, IsHex c) (hb : ∀ c ∈ b, IsHex c)
    (h : a ++ crlf ++ x = b ++ crlf ++ y) : a = b ∧ x = y := by
  induction a generalizing b with
  | nil =>
    cases b with
    | nil => exact ⟨rfl, by simpa using h⟩
    | cons d b =>
      have : cr = d := by simpa [crlf] using congrArg List.head? h
      exact absurd this.symm (hb d (by simp)).ne_cr
  | cons c a ih =>
    cases b with
    | nil =>
      have : c = cr := by simpa [crlf] using congrArg List.head? h
      exact absurd this (ha c (by simp)).ne_cr
    | cons d b =>
      simp only [List.cons_append, List.cons.injEq] at h
      obtain ⟨rfl, h⟩ := h
      obtain ⟨rfl, rfl⟩ := ih (fun e he => ha e (by simp [he])) (fun e he => hb e (by simp [he])) h
      exact ⟨rfl, rfl⟩

/-- A run of hex digits that is cut off is the front of the whole run. -/
theorem digits_prefix {a b x y : Bytes} (ha : ∀ c ∈ a, IsHex c)
    (h : a ++ x = b ++ crlf ++ y) : a.length ≤ b.length := by
  by_contra hlt
  have hget : a[b.length]? = some cr := by
    have := congrArg (fun l => l[b.length]?) h
    rwa [List.getElem?_append_left (by omega), List.append_assoc,
      List.getElem?_append_right (Nat.le_refl _), Nat.sub_self] at this
  exact (ha cr (List.mem_of_getElem? hget)).ne_cr rfl

theorem Chunk.wire_append (c : Chunk) (x : Bytes) :
    c.wire ++ x = c.digits ++ crlf ++ (c.data ++ crlf ++ x) := by
  simp [Chunk.wire]

theorem Chunk.wire_cancel {c d : Chunk} {x y : Bytes} (h : c.wire ++ x = d.wire ++ y) :
    c = d ∧ x = y := by
  rw [c.wire_append, d.wire_append] at h
  obtain ⟨hdigits, hrest⟩ := digits_cancel c.hex d.hex h
  have hlen : c.data.length = d.data.length := by rw [← c.value, ← d.value, hdigits]
  simp only [List.append_assoc] at hrest
  obtain ⟨hdata, htail⟩ := List.append_inj hrest hlen
  obtain ⟨cdigits, cdata⟩ := c
  obtain ⟨ddigits, ddata⟩ := d
  obtain rfl : cdigits = ddigits := hdigits
  obtain rfl : cdata = ddata := hdata
  exact ⟨rfl, List.append_cancel_left htail⟩

/-- A chunk with data is no zero chunk. -/
theorem Chunk.wire_ne_last {c : Chunk} {z x y : Bytes} (hz : LastLine z) :
    c.wire ++ x ≠ z ++ crlf ++ y := by
  intro h
  rw [c.wire_append] at h
  obtain ⟨hdigits, -⟩ := digits_cancel c.hex hz.hex h
  have hv := c.value
  rw [hdigits, hz.value] at hv
  exact c.nonempty (List.length_eq_zero_iff.mp hv.symm)

/-- A body with something behind it is a body only if that something is empty. -/
theorem Body.append_unique {frame x : Bytes} {cs ds : List Chunk} (h : Body frame cs)
    (hx : Body (frame ++ x) ds) : cs = ds ∧ x = [] := by
  obtain ⟨z, hz, rfl⟩ := h
  obtain ⟨w, hw, hx⟩ := hx
  induction cs generalizing ds with
  | nil =>
    cases ds with
    | nil =>
      have : z ++ crlf ++ (crlf ++ x) = w ++ crlf ++ (crlf ++ []) := by simpa using hx
      obtain ⟨-, h⟩ := digits_cancel hz.hex hw.hex this
      exact ⟨rfl, List.append_cancel_left h⟩
    | cons d ds =>
      have : d.wire ++ (wires ds ++ (w ++ crlf ++ crlf)) = z ++ crlf ++ (crlf ++ x) := by
        simpa using hx.symm
      exact absurd this (Chunk.wire_ne_last hz)
  | cons c cs ih =>
    cases ds with
    | nil =>
      have : c.wire ++ (wires cs ++ (z ++ crlf ++ crlf) ++ x) = w ++ crlf ++ crlf := by
        simpa using hx
      exact absurd this (Chunk.wire_ne_last hw)
    | cons d ds =>
      have : c.wire ++ (wires cs ++ (z ++ crlf ++ crlf) ++ x) =
          d.wire ++ (wires ds ++ (w ++ crlf ++ crlf)) := by simpa using hx
      obtain ⟨rfl, hrest⟩ := Chunk.wire_cancel this
      obtain ⟨rfl, hnil⟩ := ih hrest
      exact ⟨rfl, hnil⟩

/-- Chunks that just stop are no body. -/
theorem not_body_wires (cs ds : List Chunk) : ¬ Body (wires cs) ds := by
  rintro ⟨z, hz, h⟩
  induction cs generalizing ds with
  | nil =>
    have := congrArg List.length h
    simp [crlf] at this
  | cons c cs ih =>
    cases ds with
    | nil => exact Chunk.wire_ne_last hz (by simpa using h)
    | cons d ds =>
      have : c.wire ++ wires cs = d.wire ++ (wires ds ++ (z ++ crlf ++ crlf)) := by simpa using h
      exact ih ds (Chunk.wire_cancel this).2

/-- What is behind the first chunks of a body starts with a size line and has
room for the announced data and a CRLF. -/
theorem Body.line {rest : Bytes} {cs ds : List Chunk} (h : Body (wires cs ++ rest) ds) :
    ∃ line tail, line ≠ [] ∧ (∀ c ∈ line, IsHex c) ∧ rest = line ++ crlf ++ tail ∧
      hexValue line + 2 ≤ tail.length := by
  obtain ⟨z, hz, h⟩ := h
  induction cs generalizing ds with
  | nil =>
    cases ds with
    | nil => exact ⟨z, crlf, hz.1, hz.hex, by simpa using h, by simp [hz.value, crlf]⟩
    | cons d ds =>
      refine ⟨d.digits, d.data ++ crlf ++ (wires ds ++ (z ++ crlf ++ crlf)), d.digits_ne_nil,
        d.hex, ?_, ?_⟩
      · rw [← d.wire_append]
        simpa using h
      · rw [d.value]
        simp [crlf]
  | cons c cs ih =>
    cases ds with
    | nil =>
      have : c.wire ++ (wires cs ++ rest) = z ++ crlf ++ crlf := by simpa using h
      exact absurd this (Chunk.wire_ne_last hz)
    | cons d ds =>
      have : c.wire ++ (wires cs ++ rest) = d.wire ++ (wires ds ++ (z ++ crlf ++ crlf)) := by
        simpa using h
      exact ih (Chunk.wire_cancel this).2

/-! ## Chunks and passes -/

/-- The decoder has taken `done` out of the frame and `rest` is still in front of it. -/
structure Decoded (frame : Bytes) (output : Buffer) (done rest : Bytes) (s : DecodeState) :
    Prop where
  inside : s.frameOffset.toNat ≤ frame.length
  rest : frame.drop s.frameOffset.toNat = rest
  offset : s.outputOffset.toNat = done.length
  behind : done.length ≤ s.frameOffset.toNat
  fits : done.length ≤ output.size
  written : s.output = done ++ output.data.drop done.length

theorem Decoded.start (frame : Bytes) (output : Buffer) :
    Decoded frame output [] frame ⟨0, 0, output.data⟩ := by
  constructor <;> simp

variable {frame done rest : Bytes} {output : Buffer} {s t : DecodeState}

/-- The length of a frame that has something left. -/
theorem Decoded.length_eq (h : Decoded frame output done rest s) :
    s.frameOffset.toNat + rest.length = frame.length := by
  have := congrArg List.length h.rest
  have := h.inside
  simp at *
  omega

theorem toNat_advance_of_lt {f : UInt32} {n : Nat} (h : f.toNat + n < 2 ^ 32) :
    (advance f n).toNat = f.toNat + n := by
  rw [toNat_advance, Nat.mod_eq_of_lt h]

/-- Text at an offset the frame reaches to, below 2^32. -/
theorem readsAt_iff_of_drop (hframe : frame.length < 2 ^ 32) {f : UInt32} {n : Nat}
    (h : f.toNat + n ≤ frame.length) (text : Bytes) :
    ReadsAt frame (advance f n) text ↔ ∃ tail, frame.drop (f.toNat + n) = text ++ tail := by
  have hn := toNat_advance_of_lt (f := f) (n := n) (by omega)
  rw [readsAt_iff_drop hframe (by omega), hn]

theorem drop_add_of_append {a b : Bytes} {k n : Nat} (h : frame.drop k = a ++ b)
    (hn : a.length = n) : frame.drop (k + n) = b := by
  rw [← List.drop_drop, h, ← hn, List.drop_left]

/-- A chunk in front of the decoder is taken whole. -/
theorem Decoded.chunk (hframe : frame.length < 2 ^ 32) {c : Chunk}
    (h : Decoded frame output done (c.wire ++ rest) s)
    (hfits : done.length + c.data.length ≤ output.size) :
    ∃ t, (decodePass frame output.size s).Returns (.next t) ∧
      Decoded frame output (done ++ c.data) rest t := by
  have hlen := h.length_eq
  have hbehind := h.behind
  simp only [List.length_append, Chunk.length_wire] at hlen
  have hrest : frame.drop s.frameOffset.toNat =
      c.digits ++ (crlf ++ (c.data ++ (crlf ++ rest))) := by
    rw [h.rest, Chunk.wire]
    simp
  have hrest₁ := drop_add_of_append hrest rfl
  have hrest₂ := drop_add_of_append hrest₁ (n := 2) rfl
  have hrest₃ := drop_add_of_append hrest₂ rfl
  have hrest₄ := drop_add_of_append hrest₃ (n := 2) rfl
  have hsize : (UInt32.ofNat c.data.length).toNat = c.data.length := by
    rw [UInt32.toNat_ofNat', Nat.mod_eq_of_lt (by omega)]
  have hline : SizeLine frame s.frameOffset c.digits (UInt32.ofNat c.data.length) :=
    ⟨c.digits_ne_nil, c.hex, (readsAt_iff_drop hframe h.inside).mpr ⟨_, hrest⟩,
      by rw [hsize, c.value]⟩
  have hoff : (advance (advance s.frameOffset c.digits.length) 2).toNat =
      s.frameOffset.toNat + c.digits.length + 2 := by
    rw [advance_advance, toNat_advance_of_lt (by omega)]
    omega
  have hwhole : WholeAt frame output.size (advance s.frameOffset c.digits.length) s.outputOffset
      (UInt32.ofNat c.data.length) := by
    refine ⟨?_, ?_, ?_, ?_, ?_⟩
    · exact (readsAt_iff_of_drop hframe (by omega) crlf).mpr ⟨_, hrest₁⟩
    · intro hzero
      have := congrArg UInt32.toNat hzero
      rw [hsize] at this
      exact c.nonempty (List.length_eq_zero_iff.mp this)
    · rw [hoff, hsize]
      omega
    · rw [h.offset, hsize]
      exact hfits
    · rw [advance_advance, advance_advance, hsize]
      refine (readsAt_iff_of_drop hframe (by omega) crlf).mpr ⟨rest, ?_⟩
      rw [← hrest₃]
      congr 1
      omega
  refine ⟨_, decodePass_whole hline hwhole, ?_⟩
  have hfoff : (afterChunk frame s (advance s.frameOffset c.digits.length)
      (UInt32.ofNat c.data.length)).frameOffset.toNat =
      s.frameOffset.toNat + c.digits.length + 2 + c.data.length + 2 := by
    simp only [afterChunk, advance_advance, hsize]
    rw [toNat_advance_of_lt (by omega)]
    omega
  constructor
  · rw [hfoff]
    omega
  · rw [hfoff, hrest₄]
  · simp only [afterChunk, UInt32.toNat_add, h.offset, hsize, List.length_append]
    rw [Nat.mod_eq_of_lt (by omega)]
  · rw [hfoff, List.length_append]
    omega
  · simpa using hfits
  · have htake : (c.data ++ (crlf ++ rest)).take c.data.length = c.data := List.take_left
    simp only [afterChunk, hoff, hrest₂, hsize, htake, h.offset, h.written]
    rw [overwrite_append, List.length_append]

/-- What a pass that goes on has taken is a chunk. -/
theorem Decoded.next (hframe : frame.length < 2 ^ 32) (h : Decoded frame output done rest s)
    (hnext : (decodePass frame output.size s).Returns (.next t)) :
    ∃ (c : Chunk) (tail : Bytes), rest = c.wire ++ tail ∧
      Decoded frame output (done ++ c.data) tail t := by
  obtain ⟨digits, size, hline, hwhole, ht⟩ | ⟨-, ht⟩ | ⟨-, _, ht⟩ | ⟨_, ht⟩ :=
    decodePass_cases hnext
  rotate_left
  · cases ht
  · cases ht
  · cases ht
  obtain ⟨tail₁, hrest₀⟩ := (readsAt_iff_drop hframe h.inside).mp hline.reads
  have hlen₀ := congrArg List.length hrest₀
  simp only [List.length_drop, List.length_append] at hlen₀
  have hrest₁ := drop_add_of_append hrest₀ rfl
  have hin := h.inside
  obtain ⟨tail₂, hlineEnd⟩ := (readsAt_iff_of_drop hframe (by omega) crlf).mp hwhole.lineEnd
  have hlen₁ := congrArg List.length hlineEnd
  simp only [List.length_drop, List.length_append, crlf, List.length_cons, List.length_nil] at hlen₁
  have hoff : (advance (advance s.frameOffset digits.length) 2).toNat =
      s.frameOffset.toNat + digits.length + 2 := by
    rw [advance_advance, toNat_advance_of_lt (by omega)]
    omega
  have hinside := hwhole.inside
  rw [hoff] at hinside
  have hrest₂ := drop_add_of_append hlineEnd (n := 2) rfl
  have hdataEnd := hwhole.dataEnd
  rw [advance_advance, advance_advance] at hdataEnd
  obtain ⟨tail₃, hdataEnd⟩ := (readsAt_iff_of_drop hframe (by omega) crlf).mp hdataEnd
  have hdata : tail₂ = tail₂.take size.toNat ++ (crlf ++ tail₃) := by
    rw [← hdataEnd, ← Nat.add_assoc, ← Nat.add_assoc, ← List.drop_drop, hrest₂,
      List.take_append_drop]
  have htake : (tail₂.take size.toNat).length = size.toNat := by
    have := congrArg List.length hrest₂
    simp only [List.length_drop] at this
    simp
    omega
  have hpos : size.toNat ≠ 0 := fun h => hwhole.pos (UInt32.toNat_inj.mp h)
  let c : Chunk :=
    { digits := digits
      data := tail₂.take size.toNat
      hex := hline.hex
      value := by rw [htake, hline.value]
      nonempty := by
        intro hnil
        rw [hnil] at htake
        exact hpos htake.symm }
  have hc : rest = c.wire ++ tail₃ := by
    rw [← h.rest, hrest₀, c.wire_append]
    simp only [List.append_assoc]
    change digits ++ tail₁ = digits ++ (crlf ++ (tail₂.take size.toNat ++ (crlf ++ tail₃)))
    rw [← hdata, ← hlineEnd, hrest₁]
  refine ⟨c, tail₃, hc, ?_⟩
  have hfit : done.length + c.data.length ≤ output.size := by
    have := hwhole.fits
    rw [h.offset] at this
    change done.length + (tail₂.take size.toNat).length ≤ output.size
    omega
  obtain ⟨t', ht', hdecoded⟩ := (hc ▸ h).chunk hframe hfit
  cases hnext.unique ht'
  exact hdecoded

end Federated.Framer
