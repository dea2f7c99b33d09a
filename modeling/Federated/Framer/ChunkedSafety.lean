import Federated.Framer.ChunkedScan

/-!
# Memory safety of the chunked decoder

A position of the decoder is a pair of offsets, into the frame and into the
output. `NextChunk` relates the positions before and after a whole chunk and
`Overruns` marks the positions at which a 32-bit comparison lets an access
through that the exact comparison would refuse. Both are read off the bytes of
the frame. The passes of the decoding loop are determined by them, and so is
whether the decoder ends inside its buffers.
-/

namespace Federated.Framer

open Library Comp Relation

instance finiteUInt32 : Finite UInt32 :=
  Finite.of_injective UInt32.toFin fun _ _ => UInt32.toFin_inj.mp

/-! ## One pass behind the size line -/

/-- Behind a size line that ends at `p`, a whole chunk of `size` bytes that fits
the output behind `o`. -/
structure WholeAt (frame : Bytes) (capacity : Nat) (p o size : UInt32) : Prop where
  lineEnd : ReadsAt frame p crlf
  pos : size ≠ 0
  inside : (advance p 2).toNat + size.toNat ≤ frame.length
  fits : o.toNat + size.toNat ≤ capacity
  dataEnd : ReadsAt frame (advance (advance p 2) size.toNat) crlf

/-- Behind a size line that ends at `p`, the end of a zero chunk that ends the frame. -/
structure LastAt (frame : Bytes) (p size : UInt32) : Prop where
  lineEnd : ReadsAt frame p crlf
  zero : size = 0
  finalEnd : ReadsAt frame (advance p 2) crlf
  ends : (advance p 4).toNat = frame.length

/-- The data passes both 32-bit comparisons but not both exact ones. -/
def DataOverrun (frame : Bytes) (capacity : Nat) (g o size : UInt32) : Prop :=
  (advance g size.toNat).toNat ≤ frame.length ∧ (advance o size.toNat).toNat ≤ capacity ∧
    ¬ (g.toNat + size.toNat ≤ frame.length ∧ o.toNat + size.toNat ≤ capacity)

/-- Behind a size line that ends at `p`, an access outside the frame or the output. -/
def OverrunAt (frame : Bytes) (capacity : Nat) (p o size : UInt32) : Prop :=
  CrlfOverrun frame p ∨ ReadsAt frame p crlf ∧
    (size = 0 ∧ CrlfOverrun frame (advance p 2) ∨
     size ≠ 0 ∧ (DataOverrun frame capacity (advance p 2) o size ∨
      (advance p 2).toNat + size.toNat ≤ frame.length ∧ o.toNat + size.toNat ≤ capacity ∧
        CrlfOverrun frame (advance (advance p 2) size.toNat)))

variable {frame : Bytes} {capacity : Nat} {p o size : UInt32}

theorem ReadsAt.not_crlfOverrun (h : ReadsAt frame p crlf) : ¬ CrlfOverrun frame p := by
  rw [← expectCrlf_error_iff, expectCrlf_of_reads h]
  simp

theorem WholeAt.not_lastAt (h : WholeAt frame capacity p o size) : ¬ LastAt frame p size :=
  fun hlast => h.pos hlast.zero

theorem WholeAt.not_overrunAt (h : WholeAt frame capacity p o size) :
    ¬ OverrunAt frame capacity p o size := by
  rintro (hcrlf | ⟨-, ⟨hzero, -⟩ | ⟨-, ⟨-, -, hdata⟩ | ⟨-, -, hcrlf⟩⟩⟩)
  · exact h.lineEnd.not_crlfOverrun hcrlf
  · exact h.pos hzero
  · exact hdata ⟨h.inside, h.fits⟩
  · exact h.dataEnd.not_crlfOverrun hcrlf

theorem LastAt.not_overrunAt (h : LastAt frame p size) : ¬ OverrunAt frame capacity p o size := by
  rintro (hcrlf | ⟨-, ⟨-, hcrlf⟩ | ⟨hpos, -⟩⟩)
  · exact h.lineEnd.not_crlfOverrun hcrlf
  · exact h.finalEnd.not_crlfOverrun hcrlf
  · exact hpos h.zero

/-- The state after a whole chunk. -/
def afterChunk (frame : Bytes) (s : DecodeState) (p size : UInt32) : DecodeState where
  frameOffset := advance (advance (advance p 2) size.toNat) 2
  outputOffset := s.outputOffset + size
  output := overwrite s.output s.outputOffset.toNat
    ((frame.drop (advance p 2).toNat).take size.toNat)

theorem load_eq_ok {block : Bytes} {offset len : Nat} (h : offset + len ≤ block.length) :
    load block offset len = .ok ((block.drop offset).take len) := if_pos h

theorem load_eq_error {block : Bytes} {offset len : Nat} (h : ¬ offset + len ≤ block.length) :
    load block offset len = .error .read := if_neg h

theorem chunkPass_of_found_false {s : DecodeState} {scan : SizeScan} (h : scan.foundHex = false) :
    chunkPass frame capacity s scan = .ok (.exit (.errFormat, ⟨s.output, capacity⟩)) := by
  simp [chunkPass, h]

section Data

/-- The data of a chunk. -/
theorem length_data (hinside : (advance p 2).toNat + size.toNat ≤ frame.length) :
    ((frame.drop (advance p 2).toNat).take size.toNat).length = size.toNat := by
  simp
  omega

variable (s : DecodeState) (hline : ReadsAt frame p crlf) (hpos : size ≠ 0)

include hline hpos

/-- A chunk that fails one of the 32-bit comparisons. -/
theorem chunkPass_refused (hwrap : ¬ ((advance (advance p 2) size.toNat).toNat ≤ frame.length ∧
    (advance s.outputOffset size.toNat).toNat ≤ capacity)) :
    chunkPass frame capacity s ⟨p, size, true⟩ =
      .ok (.exit (.errFormat, ⟨s.output, capacity⟩)) := by
  have hsum : advance p 2 + size = advance (advance p 2) size.toNat := advance_toNat _ _
  have hout : s.outputOffset + size = advance s.outputOffset size.toNat := advance_toNat _ _
  simp only [chunkPass, Bool.true_eq_false, if_false, expectCrlf_of_reads hline, ok_bind,
    if_neg hpos, hsum, hout, gt_iff_lt]
  by_cases hread : (advance (advance p 2) size.toNat).toNat ≤ frame.length
  · have hwrite : capacity < (advance s.outputOffset size.toNat).toNat := by
      by_contra h
      exact hwrap ⟨hread, by omega⟩
    rw [if_neg (Nat.not_lt.mpr hread), if_pos hwrite]
    rfl
  · rw [if_pos (Nat.lt_of_not_le hread)]
    rfl

/-- A chunk that passes the 32-bit comparisons but does not fit: the copy faults. -/
theorem chunkPass_overrun (hread : (advance (advance p 2) size.toNat).toNat ≤ frame.length)
    (hwrite : (advance s.outputOffset size.toNat).toNat ≤ capacity)
    (hfits : ¬ ((advance p 2).toNat + size.toNat ≤ frame.length ∧
      s.outputOffset.toNat + size.toNat ≤ capacity)) :
    ∃ fault, chunkPass frame capacity s ⟨p, size, true⟩ = .error fault := by
  have hsum : advance p 2 + size = advance (advance p 2) size.toNat := advance_toNat _ _
  have hout : s.outputOffset + size = advance s.outputOffset size.toNat := advance_toNat _ _
  simp only [chunkPass, Bool.true_eq_false, if_false, expectCrlf_of_reads hline, ok_bind,
    if_neg hpos, hsum, hout, gt_iff_lt, if_neg (Nat.not_lt.mpr hread),
    if_neg (Nat.not_lt.mpr hwrite)]
  by_cases hinside : (advance p 2).toNat + size.toNat ≤ frame.length
  · rw [load_eq_ok hinside, ok_bind, store, length_data hinside,
      if_neg fun hroom => hfits ⟨hinside, hroom⟩]
    exact ⟨.write, rfl⟩
  · rw [load_eq_error hinside]
    exact ⟨.read, rfl⟩

/-- A chunk whose data fit, up to the CRLF behind them. -/
theorem chunkPass_data (hinside : (advance p 2).toNat + size.toNat ≤ frame.length)
    (hfits : s.outputOffset.toNat + size.toNat ≤ capacity) :
    chunkPass frame capacity s ⟨p, size, true⟩ =
      (expectCrlf frame (advance (advance p 2) size.toNat)).map fun found =>
        found.elim (.exit (.errFormat, ⟨(afterChunk frame s p size).output, capacity⟩))
          fun f => .next { afterChunk frame s p size with frameOffset := f } := by
  have hsum : advance p 2 + size = advance (advance p 2) size.toNat := advance_toNat _ _
  have hout : s.outputOffset + size = advance s.outputOffset size.toNat := advance_toNat _ _
  have hframe : (advance (advance p 2) size.toNat).toNat ≤ frame.length :=
    (toNat_advance _ _).trans_le ((Nat.mod_le _ _).trans hinside)
  have hroom : (advance s.outputOffset size.toNat).toNat ≤ capacity :=
    (toNat_advance _ _).trans_le ((Nat.mod_le _ _).trans hfits)
  simp only [chunkPass, Bool.true_eq_false, if_false, expectCrlf_of_reads hline, ok_bind,
    if_neg hpos, hsum, hout, gt_iff_lt, if_neg (Nat.not_lt.mpr hframe),
    if_neg (Nat.not_lt.mpr hroom), load_eq_ok hinside, store, length_data hinside, if_pos hfits,
    afterChunk]
  cases expectCrlf frame (advance (advance p 2) size.toNat) with
  | error fault => rfl
  | ok found => cases found <;> rfl

end Data

/-- The four ways out of a pass behind a size line that ends at `p`. -/
def ChunkOutcome (frame : Bytes) (capacity : Nat) (s : DecodeState) (p size : UInt32) : Prop :=
  (WholeAt frame capacity p s.outputOffset size ∧
    chunkPass frame capacity s ⟨p, size, true⟩ = .ok (.next (afterChunk frame s p size))) ∨
  (LastAt frame p size ∧
    chunkPass frame capacity s ⟨p, size, true⟩ =
      .ok (.exit (.ok, ⟨s.output, s.outputOffset.toNat⟩))) ∨
  (OverrunAt frame capacity p s.outputOffset size ∧
    ∃ fault, chunkPass frame capacity s ⟨p, size, true⟩ = .error fault) ∨
  ((¬ WholeAt frame capacity p s.outputOffset size ∧ ¬ LastAt frame p size ∧
      ¬ OverrunAt frame capacity p s.outputOffset size) ∧
    ∃ output, chunkPass frame capacity s ⟨p, size, true⟩ =
      .ok (.exit (.errFormat, ⟨output, capacity⟩)))

/-- The zero chunk: a final CRLF and the end of the frame. -/
theorem chunkOutcome_zero (s : DecodeState) (hline : ReadsAt frame p crlf) :
    ChunkOutcome frame capacity s p 0 := by
  have he := expectCrlf_of_reads hline
  have hadvance : advance (advance p 2) 2 = advance p 4 := advance_advance p 2 2
  obtain ⟨hfinal, hf⟩ | ⟨hfinal, hno, hf⟩ | ⟨-, hover, hf⟩ := expectCrlf_cases frame (advance p 2)
  · by_cases hends : (advance p 4).toNat = frame.length
    · exact .inr (.inl ⟨⟨hline, rfl, hfinal, hends⟩,
        by simp [chunkPass, he, hf, hadvance, hends, bind, Except.bind, pure, Except.pure]⟩)
    · refine .inr (.inr (.inr ⟨⟨fun h => h.pos rfl, fun h => hends h.ends, ?_⟩, s.output,
        by simp [chunkPass, he, hf, hadvance, hends, bind, Except.bind, pure, Except.pure]⟩))
      rintro (h | ⟨-, ⟨-, h⟩ | ⟨h, -⟩⟩)
      · exact hline.not_crlfOverrun h
      · exact hfinal.not_crlfOverrun h
      · exact h rfl
  · refine .inr (.inr (.inr ⟨⟨fun h => h.pos rfl, fun h => hfinal h.finalEnd, ?_⟩, s.output,
      by simp [chunkPass, he, hf, bind, Except.bind, pure, Except.pure]⟩))
    rintro (h | ⟨-, ⟨-, h⟩ | ⟨h, -⟩⟩)
    · exact hline.not_crlfOverrun h
    · exact hno h
    · exact h rfl
  · exact .inr (.inr (.inl ⟨.inr ⟨hline, .inl ⟨rfl, hover⟩⟩, .read,
      by simp [chunkPass, he, hf, bind, Except.bind]⟩))

/-- A chunk with data that fails one of the 32-bit comparisons. -/
theorem chunkOutcome_refused (s : DecodeState) (hline : ReadsAt frame p crlf) (hzero : size ≠ 0)
    (hwrap : ¬ ((advance (advance p 2) size.toNat).toNat ≤ frame.length ∧
      (advance s.outputOffset size.toNat).toNat ≤ capacity)) :
    ChunkOutcome frame capacity s p size := by
  refine .inr (.inr (.inr ⟨⟨fun h => hwrap ⟨?_, ?_⟩, fun h => hzero h.zero, ?_⟩, s.output, ?_⟩))
  · exact (toNat_advance _ _).trans_le ((Nat.mod_le _ _).trans h.inside)
  · exact (toNat_advance _ _).trans_le ((Nat.mod_le _ _).trans h.fits)
  · rintro (h | ⟨-, ⟨h, -⟩ | ⟨-, ⟨h₁, h₂, -⟩ | ⟨h₁, h₂, -⟩⟩⟩)
    · exact hline.not_crlfOverrun h
    · exact hzero h
    · exact hwrap ⟨h₁, h₂⟩
    · exact hwrap ⟨(toNat_advance _ _).trans_le ((Nat.mod_le _ _).trans h₁),
        (toNat_advance _ _).trans_le ((Nat.mod_le _ _).trans h₂)⟩
  · exact chunkPass_refused s hline hzero hwrap

/-- A chunk with data: the copy, and the CRLF behind it. -/
theorem chunkOutcome_data (s : DecodeState) (hline : ReadsAt frame p crlf) (hzero : size ≠ 0)
    (hwrap₁ : (advance (advance p 2) size.toNat).toNat ≤ frame.length)
    (hwrap₂ : (advance s.outputOffset size.toNat).toNat ≤ capacity) :
    ChunkOutcome frame capacity s p size := by
  by_cases hfits : (advance p 2).toNat + size.toNat ≤ frame.length ∧
      s.outputOffset.toNat + size.toNat ≤ capacity
  · have hpass := chunkPass_data s hline hzero hfits.1 hfits.2
    obtain ⟨hdata, hf⟩ | ⟨hdata, hno, hf⟩ | ⟨-, hover, hf⟩ :=
      expectCrlf_cases frame (advance (advance p 2) size.toNat)
    · exact .inl ⟨⟨hline, hzero, hfits.1, hfits.2, hdata⟩, by rw [hpass, hf]; rfl⟩
    · refine .inr (.inr (.inr ⟨⟨fun h => hdata h.dataEnd, fun h => hzero h.zero, ?_⟩,
        (afterChunk frame s p size).output, by rw [hpass, hf]; rfl⟩))
      rintro (h | ⟨-, ⟨h, -⟩ | ⟨-, ⟨-, -, h⟩ | ⟨-, -, h⟩⟩⟩)
      · exact hline.not_crlfOverrun h
      · exact hzero h
      · exact h hfits
      · exact hno h
    · exact .inr (.inr (.inl ⟨.inr ⟨hline, .inr ⟨hzero, .inr ⟨hfits.1, hfits.2, hover⟩⟩⟩, .read,
        by rw [hpass, hf]; rfl⟩))
  · have hfault := chunkPass_overrun s hline hzero hwrap₁ hwrap₂ hfits
    exact .inr (.inr (.inl ⟨.inr ⟨hline, .inr ⟨hzero, .inl ⟨hwrap₁, hwrap₂, hfits⟩⟩⟩, hfault⟩))

/-- A pass behind a size line goes one of the four ways. -/
theorem chunkPass_cases (frame : Bytes) (capacity : Nat) (s : DecodeState) (p size : UInt32) :
    ChunkOutcome frame capacity s p size := by
  obtain ⟨hline, -⟩ | ⟨hline, hno, he⟩ | ⟨-, hover, he⟩ := expectCrlf_cases frame p
  · by_cases hzero : size = 0
    · subst hzero
      exact chunkOutcome_zero s hline
    · by_cases hwrap : (advance (advance p 2) size.toNat).toNat ≤ frame.length ∧
          (advance s.outputOffset size.toNat).toNat ≤ capacity
      · exact chunkOutcome_data s hline hzero hwrap.1 hwrap.2
      · exact chunkOutcome_refused s hline hzero hwrap
  · refine .inr (.inr (.inr ⟨⟨fun h => hline h.lineEnd, fun h => hline h.lineEnd, ?_⟩,
      s.output, by simp [chunkPass, he, bind, Except.bind, pure, Except.pure]⟩))
    rintro (h | ⟨h, -⟩)
    · exact hno h
    · exact hline h
  · exact .inr (.inr (.inl ⟨.inl hover, .read, by simp [chunkPass, he, bind, Except.bind]⟩))

/-! ## One pass of the decoder -/

/-- A frame offset and an output offset. -/
abbrev Position := UInt32 × UInt32

def DecodeState.position (s : DecodeState) : Position := (s.frameOffset, s.outputOffset)

/-- The position behind a size line, its data and both CRLFs. -/
def Position.afterChunk (q : Position) (digits : Bytes) (size : UInt32) : Position :=
  (advance (advance (advance (advance q.1 digits.length) 2) size.toNat) 2, q.2 + size)

/-- A whole chunk that fits lies between two positions. -/
def NextChunk (frame : Bytes) (capacity : Nat) (q r : Position) : Prop :=
  ∃ digits size, SizeLine frame q.1 digits size ∧
    WholeAt frame capacity (advance q.1 digits.length) q.2 size ∧ r = q.afterChunk digits size

/-- The size line at a position leads to an access outside the frame or the output. -/
def Overruns (frame : Bytes) (capacity : Nat) (q : Position) : Prop :=
  ∃ digits size, SizeLine frame q.1 digits size ∧
    OverrunAt frame capacity (advance q.1 digits.length) q.2 size

theorem ReadsAt.atLineEnd (h : ReadsAt frame p crlf) : AtLineEnd frame p := .inr h.1

theorem OverrunAt.atLineEnd (h : OverrunAt frame capacity p o size) : AtLineEnd frame p := by
  obtain ⟨-, hnone | ⟨hcr, -⟩⟩ | ⟨hline, -⟩ := h
  · exact .inl hnone
  · exact .inr hcr
  · exact hline.atLineEnd

theorem SizeLine.scan {f : UInt32} {digits : Bytes} (h : SizeLine frame f digits size)
    (hend : AtLineEnd frame (advance f digits.length)) :
    (scanSize frame f).Returns (some ⟨advance f digits.length, size, true⟩) := by
  have hlt : hexValue digits < 2 ^ 32 := h.value ▸ size.toNat_lt
  refine (scanSize_some_iff frame f _).mpr ⟨digits, h.hex, h.reads, hlt, hend, ?_⟩
  simp [h.value, h.nonempty]

theorem sizeLine_of_scan {f : UInt32} {scan : SizeScan}
    (h : (scanSize frame f).Returns (some scan)) : scan.foundHex = false ∨
      ∃ digits size, SizeLine frame f digits size ∧
        scan = ⟨advance f digits.length, size, true⟩ := by
  obtain ⟨digits, hhex, hreads, hlt, -, rfl⟩ := (scanSize_some_iff frame f scan).mp h
  by_cases hnil : digits = []
  · exact .inl (by simp [hnil])
  · refine .inr ⟨digits, UInt32.ofNat (hexValue digits), ⟨hnil, hhex, hreads, ?_⟩, by simp [hnil]⟩
    rw [UInt32.toNat_ofNat', Nat.mod_eq_of_lt hlt]

/-- Behind a size line the pass does what `chunkPass` says. -/
theorem SizeLine.decodePass {s : DecodeState} {digits : Bytes}
    (h : SizeLine frame s.frameOffset digits size)
    (hend : AtLineEnd frame (advance s.frameOffset digits.length)) :
    (decodePass frame capacity s).Returns
      (orFault (chunkPass frame capacity s ⟨advance s.frameOffset digits.length, size, true⟩)) := by
  have hlt : s.frameOffset.toNat < frame.length := by
    obtain ⟨c, rest, rfl⟩ := List.exists_cons_of_ne_nil h.nonempty
    exact (List.getElem?_eq_some_iff.mp h.reads.1).1
  rw [Framer.decodePass, if_pos hlt, returns_bind]
  exact ⟨_, h.scan hend, by simp⟩

theorem decodePass_whole {s : DecodeState} {digits : Bytes}
    (h : SizeLine frame s.frameOffset digits size)
    (hwhole : WholeAt frame capacity (advance s.frameOffset digits.length) s.outputOffset size) :
    (decodePass frame capacity s).Returns
      (.next (afterChunk frame s (advance s.frameOffset digits.length) size)) := by
  have hpass : (decodePass frame capacity s).Returns _ := h.decodePass hwhole.lineEnd.atLineEnd
  obtain ⟨-, he⟩ | ⟨hl, -⟩ | ⟨ho, -⟩ | ⟨⟨hw, -⟩, -⟩ := chunkPass_cases frame capacity s
    (advance s.frameOffset digits.length) size
  · rwa [he] at hpass
  · exact absurd hl hwhole.not_lastAt
  · exact absurd ho hwhole.not_overrunAt
  · exact absurd hwhole hw

theorem decodePass_last {s : DecodeState} {digits : Bytes}
    (h : SizeLine frame s.frameOffset digits size)
    (hlast : LastAt frame (advance s.frameOffset digits.length) size) :
    (decodePass frame capacity s).Returns
      (.exit (.ok (.ok, ⟨s.output, s.outputOffset.toNat⟩))) := by
  have hpass : (decodePass frame capacity s).Returns _ := h.decodePass hlast.lineEnd.atLineEnd
  obtain ⟨hw, -⟩ | ⟨-, he⟩ | ⟨ho, -⟩ | ⟨⟨-, hl, -⟩, -⟩ := chunkPass_cases frame capacity s
    (advance s.frameOffset digits.length) size
  · exact absurd hlast hw.not_lastAt
  · rwa [he] at hpass
  · exact absurd ho hlast.not_overrunAt
  · exact absurd hlast hl

theorem decodePass_overrun {s : DecodeState} (h : Overruns frame capacity s.position) :
    ∃ fault, (decodePass frame capacity s).Returns (.exit (.error fault)) := by
  obtain ⟨digits, size, hline, hover⟩ := h
  have hpass : (decodePass frame capacity s).Returns _ := hline.decodePass hover.atLineEnd
  obtain ⟨hw, -⟩ | ⟨hl, -⟩ | ⟨-, fault, he⟩ | ⟨⟨-, -, ho⟩, -⟩ := chunkPass_cases frame capacity s
    (advance s.frameOffset digits.length) size
  · exact absurd hover hw.not_overrunAt
  · exact absurd hover hl.not_overrunAt
  · exact ⟨fault, by rwa [he] at hpass⟩
  · exact absurd hover ho

/-- Everything a finished pass can have done. -/
theorem decodePass_cases {s : DecodeState} {pass : Pass DecodeState CallResult}
    (h : (decodePass frame capacity s).Returns pass) :
    (∃ digits size, SizeLine frame s.frameOffset digits size ∧
      WholeAt frame capacity (advance s.frameOffset digits.length) s.outputOffset size ∧
      pass = .next (afterChunk frame s (advance s.frameOffset digits.length) size)) ∨
    ((frame.length ≤ s.frameOffset.toNat ∨ ∃ digits size,
        SizeLine frame s.frameOffset digits size ∧
        LastAt frame (advance s.frameOffset digits.length) size) ∧
      pass = .exit (.ok (.ok, ⟨s.output, s.outputOffset.toNat⟩))) ∨
    (Overruns frame capacity s.position ∧ ∃ fault, pass = .exit (.error fault)) ∨
    ∃ output, pass = .exit (.ok (.errFormat, ⟨output, capacity⟩)) := by
  by_cases hlt : s.frameOffset.toNat < frame.length
  · rw [decodePass, if_pos hlt, returns_bind] at h
    obtain ⟨scan, hscan, hpass⟩ := h
    cases scan with
    | none => exact .inr (.inr (.inr ⟨s.output, returns_pure.mp hpass⟩))
    | some scan =>
      have hpass : pass = orFault (chunkPass frame capacity s scan) := returns_pure.mp hpass
      obtain hfound | ⟨digits, size, hline, rfl⟩ := sizeLine_of_scan hscan
      · rw [chunkPass_of_found_false hfound] at hpass
        exact .inr (.inr (.inr ⟨s.output, hpass⟩))
      · obtain ⟨hw, he⟩ | ⟨hl, he⟩ | ⟨ho, fault, he⟩ | ⟨-, output, he⟩ :=
          chunkPass_cases frame capacity s (advance s.frameOffset digits.length) size
        · exact .inl ⟨digits, size, hline, hw, by rw [hpass, he]; rfl⟩
        · exact .inr (.inl ⟨.inr ⟨digits, size, hline, hl⟩, by rw [hpass, he]; rfl⟩)
        · exact .inr (.inr (.inl ⟨⟨digits, size, hline, ho⟩, fault, by rw [hpass, he]; rfl⟩))
        · exact .inr (.inr (.inr ⟨output, by rw [hpass, he]; rfl⟩))
  · rw [decodePass, if_neg hlt, returns_pure] at h
    exact .inr (.inl ⟨.inl (by omega), h⟩)

theorem decodePass_next {s t : DecodeState} (h : (decodePass frame capacity s).Returns (.next t)) :
    NextChunk frame capacity s.position t.position := by
  obtain ⟨digits, size, hline, hw, ht⟩ | ⟨-, ht⟩ | ⟨-, _, ht⟩ | ⟨_, ht⟩ := decodePass_cases h
  · cases ht
    exact ⟨digits, size, hline, hw, rfl⟩
  all_goals cases ht

theorem NextChunk.drive (s : DecodeState) (r : Position)
    (h : NextChunk frame capacity s.position r) :
    ∃ t, (decodePass frame capacity s).Returns (.next t) ∧ t.position = r := by
  obtain ⟨digits, size, hline, hw, rfl⟩ := h
  exact ⟨_, decodePass_whole hline hw, rfl⟩

theorem exists_decodePass (hzeros : ¬ AllZeros frame) (s : DecodeState) :
    ∃ pass, (decodePass frame capacity s).Returns pass := by
  by_cases hlt : s.frameOffset.toNat < frame.length
  · obtain ⟨scan, hscan⟩ := exists_scanSize hzeros s.frameOffset
    rw [decodePass, if_pos hlt]
    cases scan with
    | none => exact ⟨_, returns_bind.mpr ⟨none, hscan, returns_pure.mpr rfl⟩⟩
    | some scan => exact ⟨_, returns_bind.mpr ⟨some scan, hscan, returns_pure.mpr rfl⟩⟩
  · exact ⟨_, by rw [decodePass, if_neg hlt, returns_pure]⟩

/-! ## Whole runs -/

/-- The decoder ends with `OK` or `ERR_FORMAT`, all its accesses inside the buffers. -/
def DecodesInside (frame : Bytes) (output : Buffer) : Prop :=
  ∃ code buffer, (chunkedDecode frame output).Returns (.ok (code, buffer)) ∧
    (code = .ok ∨ code = .errFormat)

/-- A position the chunks at the front of the frame lead to. -/
def ChunksReach (frame : Bytes) (capacity : Nat) (q : Position) : Prop :=
  ReflTransGen (NextChunk frame capacity) (0, 0) q

/-- The frames and capacities the 32-bit arithmetic of the decoder is safe for. -/
structure NoWrap (frame : Bytes) (capacity : Nat) : Prop where
  /-- the first 2^32 bytes are not all zero digits -/
  ends : ¬ AllZeros frame
  /-- no chunk leads back to a position that was passed -/
  acyclic : ∀ q, ChunksReach frame capacity q → ¬ TransGen (NextChunk frame capacity) q q
  /-- no comparison that passes modulo 2^32 fails exactly -/
  inside : ∀ q, ChunksReach frame capacity q → ¬ Overruns frame capacity q

theorem NoWrap.decodesInside {output : Buffer} (h : NoWrap frame output.size) :
    DecodesInside frame output := by
  let inv : DecodeState → Prop := fun s => ChunksReach frame output.size s.position
  have step : ∀ s t, inv s → (decodePass frame output.size s).Returns (.next t) → inv t :=
    fun s t hs hnext => hs.tail (decodePass_next hnext)
  have start : inv ⟨0, 0, output.data⟩ := .refl
  obtain ⟨r, hr⟩ := exists_returns_of_acyclic inv start
    (fun s _ => exists_decodePass h.ends s)
    (fun s t hs hnext => ⟨step s t hs hnext, decodePass_next hnext⟩)
    (fun q hq => h.acyclic q hq)
  obtain ⟨t, ht, hexit⟩ := hr.loop_invariant inv start step
  obtain ⟨_, _, -, -, he⟩ | ⟨-, he⟩ | ⟨hover, -⟩ | ⟨_, he⟩ := decodePass_cases hexit
  · cases he
  · cases he
    exact ⟨_, _, hr, .inl rfl⟩
  · exact absurd hover (h.inside _ ht)
  · cases he
    exact ⟨_, _, hr, .inr rfl⟩

/-- Where the chunks lead, a run that ends comes by. -/
theorem ChunksReach.follow {q : Position} {output : Buffer} {r : CallResult}
    (h : ChunksReach frame output.size q) (hr : (chunkedDecode frame output).Returns r) :
    ∃ t : DecodeState, t.position = q ∧ (loop (decodePass frame output.size) t).Returns r := by
  have path : ReflTransGen (NextChunk frame output.size)
    (DecodeState.position ⟨0, 0, output.data⟩) q := h
  exact Returns.follow NextChunk.drive path hr

theorem DecodesInside.noWrap {output : Buffer} (h : DecodesInside frame output) :
    NoWrap frame output.size := by
  obtain ⟨code, buffer, hr, -⟩ := h
  refine ⟨fun hzeros => ?_, fun q hq hcycle => ?_, fun q hq hover => ?_⟩
  · have hlt : (0 : UInt32).toNat < frame.length :=
      (List.getElem?_eq_some_iff.mp (hzeros 0)).1
    obtain hexit | ⟨t, hnext, -⟩ := returns_loop_iff.mp hr
    · rw [decodePass, if_pos hlt, returns_bind] at hexit
      obtain ⟨scan, hscan, -⟩ := hexit
      exact not_scanSize_of_allZeros hzeros _ _ hscan
    · rw [decodePass, if_pos hlt, returns_bind] at hnext
      obtain ⟨scan, hscan, -⟩ := hnext
      exact not_scanSize_of_allZeros hzeros _ _ hscan
  · obtain ⟨t, rfl, ht⟩ := hq.follow hr
    exact not_returns_of_cycle NextChunk.drive hcycle ⟨_, ht⟩
  · obtain ⟨t, rfl, ht⟩ := hq.follow hr
    obtain ⟨fault, hfault⟩ := decodePass_overrun hover
    cases ht.unique (returns_loop_of_exit hfault)

/-- The decoder ends inside its buffers exactly on the frames and capacities on
which none of its 32-bit sums wraps in a comparison. -/
theorem chunkedDecode_inside_iff (frame : Bytes) (output : Buffer) :
    DecodesInside frame output ↔ NoWrap frame output.size :=
  ⟨DecodesInside.noWrap, NoWrap.decodesInside⟩

/-- A chunk of sixteen bytes in front of one that claims 2^32 - 16: both sums wrap
to something small, and the copy leaves the frame. -/
theorem chunkedDecode_outside :
    ¬ DecodesInside (ascii "10\r\n0123456789abcdef\r\nfffffff0\r\n")
      (Buffer.ofBlock (List.replicate 16 0)) := by
  rintro ⟨code, buffer, hr, -⟩
  have hfault : (chunkedDecode (ascii "10\r\n0123456789abcdef\r\nfffffff0\r\n")
      (Buffer.ofBlock (List.replicate 16 0))).Returns (.error .read) := ⟨20, by decide⟩
  cases hr.unique hfault

end Federated.Framer
