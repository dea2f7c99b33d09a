import Federated.Framer.ChunkedEncode

/-!
# What the chunked decoder accepts

The decoder accepts the bodies that fit the output, and also the lists of chunks
that just stop, because its outer loop leaves with `OK` when the frame runs out.
A proper prefix of an encoded frame is rejected exactly when it is not such a
list.
-/

namespace Federated.Framer

open Library Comp Relation

variable {frame : Bytes} {output : Buffer}

/-! ## Runs and lists of chunks -/

/-- Some chunks have been taken and the decoder stands behind them. -/
def TakenChunks (frame : Bytes) (output : Buffer) (cs : List Chunk) (rest : Bytes)
    (s : DecodeState) : Prop :=
  frame = wires cs ++ rest ∧ Decoded frame output (payload cs) rest s

theorem TakenChunks.start (frame : Bytes) (output : Buffer) :
    TakenChunks frame output [] frame ⟨0, 0, output.data⟩ :=
  ⟨by simp, Decoded.start frame output⟩

/-- A pass that goes on takes one more chunk. -/
theorem TakenChunks.next (hframe : frame.length < 2 ^ 32) {cs : List Chunk} {rest : Bytes}
    {s t : DecodeState} (h : TakenChunks frame output cs rest s)
    (hnext : (decodePass frame output.size s).Returns (.next t)) :
    ∃ c tail, TakenChunks frame output (cs ++ [c]) tail t ∧
      s.frameOffset.toNat < t.frameOffset.toNat := by
  obtain ⟨hcs, hdecoded⟩ := h
  obtain ⟨c, tail, hrest, ht⟩ := hdecoded.next hframe hnext
  have hs := hdecoded.length_eq
  have ht' := ht.length_eq
  refine ⟨c, tail, ⟨by simp [hcs, hrest], by simpa using ht⟩, ?_⟩
  rw [hrest, List.length_append, Chunk.length_wire] at hs
  omega

/-- A run of the decoder passes over chunks that fit. -/
theorem Decoded.follow (hframe : frame.length < 2 ^ 32) {cs : List Chunk} {done rest : Bytes}
    {s : DecodeState} {r : CallResult} (h : Decoded frame output done (wires cs ++ rest) s)
    (hfits : (done ++ payload cs).length ≤ output.size)
    (hend : ∀ t, Decoded frame output (done ++ payload cs) rest t →
      (loop (decodePass frame output.size) t).Returns r) :
    (loop (decodePass frame output.size) s).Returns r := by
  induction cs generalizing done s with
  | nil =>
    apply hend
    simpa using h
  | cons c cs ih =>
    have hc : Decoded frame output done (c.wire ++ (wires cs ++ rest)) s := by simpa using h
    obtain ⟨t, hnext, ht⟩ := hc.chunk hframe (by simp at hfits; omega)
    apply returns_loop_of_next hnext
    exact ih ht (by simpa using hfits) (by simpa using hend)

/-- Behind the last byte the decoder leaves with `OK`. -/
theorem Decoded.exit_nil {done : Bytes} {s : DecodeState}
    (h : Decoded frame output done [] s) :
    (decodePass frame output.size s).Returns (.exit (.ok (.ok, ⟨s.output, done.length⟩))) := by
  have hlen := h.length_eq
  rw [List.length_nil] at hlen
  rw [decodePass, if_neg (by omega), returns_pure, h.offset]

/-- So it does behind a zero chunk and its CRLF. -/
theorem Decoded.exit_last (hframe : frame.length < 2 ^ 32) {done z : Bytes} {s : DecodeState}
    (hz : LastLine z) (h : Decoded frame output done (z ++ crlf ++ crlf) s) :
    (decodePass frame output.size s).Returns (.exit (.ok (.ok, ⟨s.output, done.length⟩))) := by
  have hlen := h.length_eq
  have hcrlf : crlf.length = 2 := rfl
  simp only [List.length_append, hcrlf] at hlen
  have hrest : frame.drop s.frameOffset.toNat = z ++ (crlf ++ crlf) := by
    rw [h.rest, List.append_assoc]
  have hrest₁ := drop_add_of_append hrest rfl
  have hrest₂ := drop_add_of_append hrest₁ hcrlf
  have hline : SizeLine frame s.frameOffset z 0 :=
    ⟨hz.1, hz.hex, (readsAt_iff_drop hframe h.inside).mpr ⟨_, hrest⟩, hz.value⟩
  have hlast : LastAt frame (advance s.frameOffset z.length) 0 := by
    refine ⟨?_, rfl, ?_, ?_⟩
    · exact (readsAt_iff_of_drop hframe (by omega) crlf).mpr ⟨_, hrest₁⟩
    · rw [advance_advance]
      refine (readsAt_iff_of_drop hframe (by omega) crlf).mpr ⟨[], ?_⟩
      rw [← Nat.add_assoc, hrest₂, List.append_nil]
    · rw [advance_advance, toNat_advance_of_lt (by omega)]
      omega
  rw [← h.offset]
  exact decodePass_last hline hlast

/-- Where the decoder leaves with `OK`, nothing is left or the zero chunk is. -/
theorem Decoded.exit_ok (hframe : frame.length < 2 ^ 32) {done rest : Bytes} {s : DecodeState}
    {buffer : Buffer} (h : Decoded frame output done rest s)
    (hexit : (decodePass frame output.size s).Returns (.exit (.ok (.ok, buffer)))) :
    (rest = [] ∨ ∃ z, LastLine z ∧ rest = z ++ crlf ++ crlf) ∧
      buffer = ⟨s.output, done.length⟩ := by
  have hlen := h.length_eq
  obtain ⟨_, _, -, -, he⟩ | ⟨hend, he⟩ | ⟨-, _, he⟩ | ⟨_, he⟩ := decodePass_cases hexit
  · cases he
  · cases he
    refine ⟨?_, by rw [h.offset]⟩
    obtain hend | ⟨z, size, hline, hlast⟩ := hend
    · exact .inl (List.length_eq_zero_iff.mp (by omega))
    · right
      have hzero : size.toNat = 0 := by rw [hlast.zero, UInt32.toNat_zero]
      refine ⟨z, ⟨hline.nonempty, eq_zero_of_hexValue hline.hex (hline.value.trans hzero)⟩, ?_⟩
      obtain ⟨tail₁, hrest⟩ := (readsAt_iff_drop hframe h.inside).mp hline.reads
      have hlen₁ := congrArg List.length hrest
      rw [List.length_drop, List.length_append] at hlen₁
      have hin := h.inside
      obtain ⟨tail₂, hlineEnd⟩ := (readsAt_iff_of_drop hframe (by omega) crlf).mp hlast.lineEnd
      have hlen₂ := congrArg List.length hlineEnd
      rw [List.length_drop, List.length_append, show crlf.length = 2 from rfl] at hlen₂
      have hfinal := hlast.finalEnd
      rw [advance_advance] at hfinal
      obtain ⟨tail₃, hfinalEnd⟩ := (readsAt_iff_of_drop hframe (by omega) crlf).mp hfinal
      have hlen₃ := congrArg List.length hfinalEnd
      rw [List.length_drop, List.length_append, show crlf.length = 2 from rfl] at hlen₃
      have hends := hlast.ends
      rw [advance_advance, toNat_advance_of_lt (by omega)] at hends
      have htail₁ := drop_add_of_append hrest rfl
      have htail₂ := drop_add_of_append hlineEnd (n := 2) rfl
      have htail₃ : tail₃ = [] := List.length_eq_zero_iff.mp (by omega)
      rw [← h.rest, hrest, ← htail₁, hlineEnd, ← htail₂, Nat.add_assoc, hfinalEnd, htail₃]
      simp
  · cases he
  · cases he

/-! ## What is accepted -/

/-- A frame of 2^32 bytes or more is never accepted: the frame offset cannot reach its end. -/
theorem length_lt_of_ok {buffer : Buffer}
    (h : (chunkedDecode frame output).Returns (.ok (.ok, buffer))) : frame.length < 2 ^ 32 := by
  obtain ⟨t, -, hexit⟩ := h.loop_invariant (fun _ => True) trivial fun _ _ _ _ => trivial
  obtain ⟨_, _, -, -, he⟩ | ⟨hend, -⟩ | ⟨-, _, he⟩ | ⟨_, he⟩ := decodePass_cases hexit
  · cases he
  · obtain hend | ⟨_, _, -, hlast⟩ := hend
    · exact hend.trans_lt t.frameOffset.toNat_lt
    · exact hlast.ends ▸ UInt32.toNat_lt _
  · cases he
  · cases he

/-- The chunks of a frame the decoder accepts: a body, or chunks that just stop. -/
def AcceptedChunks (frame : Bytes) (capacity : Nat) (cs : List Chunk) : Prop :=
  frame.length < 2 ^ 32 ∧ (frame = wires cs ∨ Body frame cs) ∧ (payload cs).length ≤ capacity

/-- The decoder accepts exactly these frames and writes their payload. -/
theorem chunkedDecode_ok_iff (frame : Bytes) (output buffer : Buffer) :
    (chunkedDecode frame output).Returns (.ok (.ok, buffer)) ↔
      ∃ cs, AcceptedChunks frame output.size cs ∧
        buffer = ⟨payload cs ++ output.data.drop (payload cs).length, (payload cs).length⟩ := by
  constructor
  · intro h
    have hframe := length_lt_of_ok h
    obtain ⟨t, ⟨cs, rest, hcs, ht⟩, hexit⟩ := h.loop_invariant
      (fun s => ∃ cs rest, TakenChunks frame output cs rest s)
      ⟨[], frame, TakenChunks.start frame output⟩
      fun s t ⟨_, _, hs⟩ hnext => by
        obtain ⟨c, tail, ht, -⟩ := hs.next hframe hnext
        exact ⟨_, _, ht⟩
    obtain ⟨hrest, rfl⟩ := ht.exit_ok hframe hexit
    refine ⟨cs, ⟨hframe, ?_, ht.fits⟩, by rw [ht.written]⟩
    obtain rfl | ⟨z, hz, rfl⟩ := hrest
    · exact .inl (by simpa using hcs)
    · exact .inr ⟨z, hz, hcs⟩
  · rintro ⟨cs, ⟨hframe, haccepted, hfits⟩, rfl⟩
    have hstart := Decoded.start frame output
    obtain hwires | ⟨z, hz, hbody⟩ := haccepted
    · have hwires' : Decoded frame output [] (wires cs ++ []) ⟨0, 0, output.data⟩ := by
        rwa [List.append_nil, ← hwires]
      apply hwires'.follow hframe hfits
      intro t ht
      rw [List.nil_append] at ht
      rw [← ht.written]
      exact returns_loop_of_exit ht.exit_nil
    · have hbody' : Decoded frame output [] (wires cs ++ (z ++ crlf ++ crlf))
          ⟨0, 0, output.data⟩ := by
        rwa [← hbody]
      apply hbody'.follow hframe hfits
      intro t ht
      rw [List.nil_append] at ht
      rw [← ht.written]
      exact returns_loop_of_exit (ht.exit_last hframe hz)

/-- The frame is a list of chunks that just stops, without the zero chunk, and
its payload fits. -/
def EndsUnterminated (frame : Bytes) (capacity : Nat) : Prop :=
  frame.length < 2 ^ 32 ∧ ∃ cs, frame = wires cs ∧ (payload cs).length ≤ capacity

/-- The frame is a body whose payload fits. -/
def FittingBody (frame : Bytes) (capacity : Nat) : Prop :=
  frame.length < 2 ^ 32 ∧ ∃ cs, Body frame cs ∧ (payload cs).length ≤ capacity

/-- The decoder accepts a frame. -/
def Accepts (frame : Bytes) (output : Buffer) : Prop :=
  ∃ buffer, (chunkedDecode frame output).Returns (.ok (.ok, buffer))

/-- The decoder rejects a frame with `ERR_FORMAT`. -/
def Rejects (frame : Bytes) (output : Buffer) : Prop :=
  ∃ buffer, (chunkedDecode frame output).Returns (.ok (.errFormat, buffer))

theorem accepts_iff : Accepts frame output ↔
    EndsUnterminated frame output.size ∨ FittingBody frame output.size := by
  constructor
  · rintro ⟨buffer, h⟩
    obtain ⟨cs, ⟨hframe, hwires | hbody, hfits⟩, -⟩ := (chunkedDecode_ok_iff _ _ _).mp h
    · exact .inl ⟨hframe, cs, hwires, hfits⟩
    · exact .inr ⟨hframe, cs, hbody, hfits⟩
  · rintro (⟨hframe, cs, hwires, hfits⟩ | ⟨hframe, cs, hbody, hfits⟩)
    · exact ⟨_, (chunkedDecode_ok_iff _ _ _).mpr ⟨cs, ⟨hframe, .inl hwires, hfits⟩, rfl⟩⟩
    · exact ⟨_, (chunkedDecode_ok_iff _ _ _).mpr ⟨cs, ⟨hframe, .inr hbody, hfits⟩, rfl⟩⟩

theorem EndsUnterminated.not_wellFormed {capacity : Nat} (h : EndsUnterminated frame capacity) :
    ¬ WellFormed frame := by
  obtain ⟨-, cs, rfl, -⟩ := h
  rintro ⟨ds, hds⟩
  exact not_body_wires cs ds hds

/-- What is not accepted is rejected as long as the decoder stays inside its buffers. -/
theorem rejects_iff : Rejects frame output ↔
    NoWrap frame output.size ∧ ¬ Accepts frame output := by
  constructor
  · rintro ⟨buffer, h⟩
    refine ⟨DecodesInside.noWrap ⟨_, _, h, .inr rfl⟩, ?_⟩
    rintro ⟨buffer', h'⟩
    cases h.unique h'
  · rintro ⟨hwrap, hnot⟩
    obtain ⟨code, buffer, hr, rfl | rfl⟩ := hwrap.decodesInside
    · exact absurd ⟨buffer, hr⟩ hnot
    · exact ⟨buffer, hr⟩

/-! ## Prefixes of a body -/

/-- A position that chunks lead to is one the decoder really stands at. -/
theorem ChunksReach.taken (hframe : frame.length < 2 ^ 32) {q : Position}
    (h : ChunksReach frame output.size q) :
    ∃ cs rest t, TakenChunks frame output cs rest t ∧ t.position = q := by
  induction h with
  | refl => exact ⟨[], frame, _, TakenChunks.start frame output, rfl⟩
  | tail _ hedge ih =>
    obtain ⟨cs, rest, s, hs, rfl⟩ := ih
    obtain ⟨t, hnext, rfl⟩ := NextChunk.drive s _ hedge
    obtain ⟨c, tail, ht, -⟩ := hs.next hframe hnext
    exact ⟨_, _, t, ht, rfl⟩

/-- Below 2^32 bytes, chunks only lead forwards. -/
theorem ChunksReach.forward (hframe : frame.length < 2 ^ 32) {q r : Position}
    (hq : ChunksReach frame output.size q) (h : TransGen (NextChunk frame output.size) q r) :
    q.1.toNat < r.1.toNat := by
  have step : ∀ {q r : Position}, ChunksReach frame output.size q →
      NextChunk frame output.size q r → q.1.toNat < r.1.toNat := by
    intro q r hq hedge
    obtain ⟨cs, rest, s, hs, rfl⟩ := hq.taken hframe
    obtain ⟨t, hnext, rfl⟩ := NextChunk.drive s _ hedge
    obtain ⟨c, tail, -, hlt⟩ := hs.next hframe hnext
    exact hlt
  induction h with
  | single hedge => exact step hq hedge
  | tail hpath hedge ih => exact ih.trans (step (hq.trans hpath.to_reflTransGen) hedge)

/-- At a size line with room below 2^32 for its data and a CRLF, no sum wraps. -/
theorem not_overrunAt {capacity : Nat} {p o size : UInt32} (ho : o.toNat ≤ p.toNat)
    (hroom : p.toNat + 2 < 2 ^ 32)
    (hline : ReadsAt frame p crlf → p.toNat + 2 + size.toNat + 2 < 2 ^ 32) :
    ¬ OverrunAt frame capacity p o size := by
  rintro (hcrlf | ⟨hcrlf, hover⟩)
  · exact not_crlfOverrun hroom hcrlf
  have hline := hline hcrlf
  have hp : (advance p 2).toNat = p.toNat + 2 := toNat_advance_of_lt hroom
  have hdata : (advance (advance p 2) size.toNat).toNat = p.toNat + 2 + size.toNat := by
    rw [toNat_advance_of_lt (by omega), hp]
  have hout : (advance o size.toNat).toNat = o.toNat + size.toNat :=
    toNat_advance_of_lt (by omega)
  obtain ⟨-, hfinal⟩ | ⟨-, ⟨hread, hwrite, hexact⟩ | ⟨-, -, hend⟩⟩ := hover
  · exact not_crlfOverrun (by omega) hfinal
  · rw [hdata] at hread
    rw [hout] at hwrite
    exact hexact ⟨by omega, hwrite⟩
  · exact not_crlfOverrun (by omega) hend

/-- Where a body that is cut off goes on with a size line, no sum wraps. -/
theorem TakenChunks.not_overruns {x rest : Bytes} {cs ds : List Chunk} {s : DecodeState}
    (hlen : (frame ++ x).length < 2 ^ 32) (hbody : Body (frame ++ x) ds)
    (h : TakenChunks frame output cs rest s) : ¬ Overruns frame output.size s.position := by
  rintro ⟨digits, size, hsize, hover⟩
  obtain ⟨hcs, hdecoded⟩ := h
  have hframe : frame.length < 2 ^ 32 := by
    rw [List.length_append] at hlen
    omega
  have hrest := hdecoded.length_eq
  have hbehind := hdecoded.behind
  have hoffset := hdecoded.offset
  -- The size line the whole body has here.
  rw [hcs, List.append_assoc] at hbody
  obtain ⟨line, tail, -, hhex, hgoes, hroom⟩ := hbody.line
  have hgoesLen := congrArg List.length hgoes
  simp only [List.length_append, show crlf.length = 2 from rfl] at hgoesLen hlen
  -- What the cut frame has of it.
  obtain ⟨tail₁, hreads⟩ := (readsAt_iff_drop hframe hdecoded.inside).mp hsize.reads
  have hreads₁ := drop_add_of_append hreads rfl
  have hdigits : digits ++ (tail₁ ++ x) = line ++ crlf ++ tail := by
    rw [← hgoes, ← hdecoded.rest, hreads, List.append_assoc]
  have hle := digits_prefix hsize.hex hdigits
  have hreadsLen := congrArg List.length hreads
  rw [List.length_drop, List.length_append] at hreadsLen
  have hp : (advance s.frameOffset digits.length).toNat = s.frameOffset.toNat + digits.length :=
    toNat_advance_of_lt (by omega)
  have ho : s.outputOffset.toNat ≤ (advance s.frameOffset digits.length).toNat := by omega
  have hpRoom : (advance s.frameOffset digits.length).toNat + 2 < 2 ^ 32 := by omega
  refine not_overrunAt ho hpRoom ?_ hover
  intro hcrlf
  have hin := hdecoded.inside
  obtain ⟨tail₂, hcrlf⟩ := (readsAt_iff_of_drop hframe (by omega) crlf).mp hcrlf
  rw [← hreads₁, hcrlf] at hdigits
  have hdigits : digits ++ crlf ++ (tail₂ ++ x) = line ++ crlf ++ tail := by
    simpa using hdigits
  obtain ⟨rfl, -⟩ := digits_cancel hsize.hex hhex hdigits
  have hvalue := hsize.value
  omega

/-- Cutting a body off keeps the decoder inside its buffers. -/
theorem NoWrap.of_prefix {x : Bytes} {ds : List Chunk} (hlen : (frame ++ x).length < 2 ^ 32)
    (hbody : Body (frame ++ x) ds) (output : Buffer) : NoWrap frame output.size := by
  have hframe : frame.length < 2 ^ 32 := by
    rw [List.length_append] at hlen
    omega
  refine ⟨not_allZeros_of_length hframe, fun q hq hcycle => ?_, fun q hq => ?_⟩
  · exact Nat.lt_irrefl _ (hq.forward hframe hcycle)
  · obtain ⟨cs, rest, s, hs, rfl⟩ := hq.taken hframe
    exact hs.not_overruns hlen hbody

theorem not_fittingBody_of_prefix {x : Bytes} {ds : List Chunk} {capacity : Nat} (hx : x ≠ [])
    (hbody : Body (frame ++ x) ds) : ¬ FittingBody frame capacity := by
  rintro ⟨-, cs, hcs, -⟩
  exact hx (hcs.append_unique hbody).2

/-- The decoder accepts well-formed frames only, unless the frame is a list of
chunks that just stops; what is left of an encoded payload that is cut off is
rejected unless it is such a list, or the encoder had wrapped around. -/
theorem chunkedDecode_wellFormed_iff (frame : Bytes) (output : Buffer) :
    ((Accepts frame output → WellFormed frame) ↔ ¬ EndsUnterminated frame output.size) ∧
    ∀ payload target coded x, (chunkedEncode payload target).Returns (.ok (.ok, coded)) →
      coded.bytes = frame ++ x → x ≠ [] →
        (Rejects frame output ↔ ¬ EndsUnterminated frame output.size ∧
          ((encoding (seen payload)).length < 2 ^ 32 ∨
            NoWrap frame output.size ∧ ¬ FittingBody frame output.size)) := by
  refine ⟨⟨?_, ?_⟩, ?_⟩
  · intro h hends
    exact hends.not_wellFormed (h (accepts_iff.mpr (.inl hends)))
  · intro hends haccepts
    obtain h | ⟨-, cs, hcs, -⟩ := accepts_iff.mp haccepts
    · exact absurd h hends
    · exact ⟨cs, hcs⟩
  · intro payload target coded x hcoded hx hne
    rw [rejects_iff, accepts_iff]
    by_cases hlen : (encoding (seen payload)).length < 2 ^ 32
    · obtain ⟨r, hr, hencoded⟩ := chunkedEncode_returns target hlen
      cases hr.unique hcoded
      have hbody : Body (frame ++ x) (splitChunks (seen payload)) := by
        rw [← hx, hencoded.bytes]
        exact body_encoding _
      have hlen' : (frame ++ x).length < 2 ^ 32 := by rwa [← hx, hencoded.bytes]
      have hwrap := NoWrap.of_prefix hlen' hbody output
      have hfitting : ¬ FittingBody frame output.size := not_fittingBody_of_prefix hne hbody
      simp [hwrap, hfitting]
    · simp only [hlen, false_or]
      grind

/-- The encoded `Hello` without its zero chunk. -/
def helloCut : Bytes := ascii "5\r\nHello\r\n"

/-- It is the front of an encoded payload and no well-formed frame, and it is accepted. -/
theorem chunkedDecode_unterminated :
    (∃ coded, (chunkedEncode (ascii "Hello") (.ofBlock (List.replicate 32 0))).Returns
        (.ok (.ok, coded)) ∧ coded.bytes = helloCut ++ lastChunk) ∧
      Accepts helloCut (.ofBlock (List.replicate 8 0)) ∧ ¬ WellFormed helloCut := by
  refine ⟨⟨⟨ascii "5\r\nHello\r\n0\r\n\r\n" ++ List.replicate 17 0, 15⟩, ⟨3, by decide⟩,
    by decide⟩, ⟨⟨ascii "Hello" ++ List.replicate 3 0, 5⟩, ⟨20, by decide⟩⟩, ?_⟩
  let c : Chunk := ⟨[53], ascii "Hello", List.forall_mem_singleton.mpr rfl, by decide, by decide⟩
  rintro ⟨ds, hds⟩
  exact not_body_wires [c] ds hds

/-- With half of the zero chunk in place the same frame is rejected exactly as stated. -/
theorem chunkedDecode_wellFormed_iff_hello :
    Rejects (helloCut ++ [48]) (.ofBlock (List.replicate 8 0)) ↔
      ¬ EndsUnterminated (helloCut ++ [48]) 8 ∧
        ((encoding (seen (ascii "Hello"))).length < 2 ^ 32 ∨
          NoWrap (helloCut ++ [48]) 8 ∧ ¬ FittingBody (helloCut ++ [48]) 8) :=
  (chunkedDecode_wellFormed_iff (helloCut ++ [48]) (.ofBlock (List.replicate 8 0))).2
    (ascii "Hello") (.ofBlock (List.replicate 32 0))
    ⟨ascii "5\r\nHello\r\n0\r\n\r\n" ++ List.replicate 17 0, 15⟩ (crlf ++ crlf)
    ⟨3, by decide⟩ (by decide) (by decide)

end Federated.Framer
