import Federated.Framer.KeptOutput

/-!
# The output of a decoding call that fails

The chunked decoder copies each chunk before it looks at what stands behind it.
Where it refuses is read off the frame: at a position that the chunks lead to, and
there in front of the copy or, if only the CRLF behind the data is missing, after
it.
-/

namespace Federated.Framer

open Library Comp Relation

variable {frame : Bytes} {capacity : Nat} {p o size : UInt32} {s : DecodeState}

/-! ## Where a pass refuses -/

/-- Behind a size line that ends at `p`, data that fit but have no CRLF behind them. -/
structure CutAt (frame : Bytes) (capacity : Nat) (p o size : UInt32) : Prop where
  lineEnd : ReadsAt frame p crlf
  pos : size ≠ 0
  inside : (advance p 2).toNat + size.toNat ≤ frame.length
  fits : o.toNat + size.toNat ≤ capacity
  open_end : ¬ ReadsAt frame (advance (advance p 2) size.toNat) crlf
  no_overrun : ¬ CrlfOverrun frame (advance (advance p 2) size.toNat)

/-- The data of the chunk at a position are copied before the chunk is refused. -/
def CutChunk (frame : Bytes) (capacity : Nat) (q : Position) : Prop :=
  ∃ digits size, SizeLine frame q.1 digits size ∧
    CutAt frame capacity (advance q.1 digits.length) q.2 size

/-- No chunk, no end and no access outside the buffers at a position in the frame. -/
structure Refused (frame : Bytes) (capacity : Nat) (q : Position) : Prop where
  inside : q.1.toNat < frame.length
  no_chunk : ∀ r, ¬ NextChunk frame capacity q r
  no_last : ∀ digits size, SizeLine frame q.1 digits size →
    ¬ LastAt frame (advance q.1 digits.length) size
  no_overrun : ¬ Overruns frame capacity q

theorem chunkPass_cut (h : CutAt frame capacity p s.outputOffset size) :
    chunkPass frame capacity s ⟨p, size, true⟩ =
      .ok (.exit (.errFormat, ⟨(afterChunk frame s p size).output, capacity⟩)) := by
  rw [chunkPass_data s h.lineEnd h.pos h.inside h.fits]
  obtain ⟨hreads, -⟩ | ⟨-, -, he⟩ | ⟨-, hover, -⟩ :=
    expectCrlf_cases frame (advance (advance p 2) size.toNat)
  · exact absurd hreads h.open_end
  · rw [he]
    rfl
  · exact absurd hover h.no_overrun

/-- A refusal leaves the output alone unless it comes behind the copy. -/
theorem output_of_chunkPass {output : Bytes} {n : Nat}
    (h : chunkPass frame capacity s ⟨p, size, true⟩ =
      .ok (.exit (.errFormat, ⟨output, n⟩))) :
    n = capacity ∧ (output = s.output ∨ CutAt frame capacity p s.outputOffset size) := by
  obtain ⟨hline, he⟩ | ⟨-, -, he⟩ | ⟨-, -, he⟩ := expectCrlf_cases frame p
  · by_cases hpos : size = 0
    · -- The zero chunk: every refusal is in front of any copy.
      obtain ⟨-, hf⟩ | ⟨-, -, hf⟩ | ⟨-, -, hf⟩ := expectCrlf_cases frame (advance p 2)
      all_goals
        simp only [chunkPass, Bool.true_eq_false, if_false, he, hf, hpos, if_true, ok_bind] at h
      · split at h
        all_goals cases h
        exact ⟨rfl, .inl rfl⟩
      · cases h
        exact ⟨rfl, .inl rfl⟩
      · cases h
    · by_cases hfits : (advance p 2).toNat + size.toNat ≤ frame.length ∧
          s.outputOffset.toNat + size.toNat ≤ capacity
      · obtain ⟨hdata, hf⟩ | ⟨hdata, hno, hf⟩ | ⟨-, -, hf⟩ :=
          expectCrlf_cases frame (advance (advance p 2) size.toNat)
        all_goals
          rw [chunkPass_data s hline hpos hfits.1 hfits.2, hf] at h
          cases h
        exact ⟨rfl, .inr ⟨hline, hpos, hfits.1, hfits.2, hdata, hno⟩⟩
      · -- The copy faults, so a refusal is in front of it.
        by_cases hwrap : (advance (advance p 2) size.toNat).toNat ≤ frame.length ∧
            (advance s.outputOffset size.toNat).toNat ≤ capacity
        · obtain ⟨fault, hfault⟩ := chunkPass_overrun s hline hpos hwrap.1 hwrap.2 hfits
          rw [hfault] at h
          cases h
        · rw [chunkPass_refused s hline hpos hwrap] at h
          cases h
          exact ⟨rfl, .inl rfl⟩
  · simp only [chunkPass, Bool.true_eq_false, if_false, he, ok_bind] at h
    cases h
    exact ⟨rfl, .inl rfl⟩
  · simp only [chunkPass, Bool.true_eq_false, if_false, he] at h
    cases h

theorem orFault_exit {x : Except Fault (Pass DecodeState (ErrorCode × Buffer))}
    {r : ErrorCode × Buffer} (h : orFault x = .exit (.ok r)) : x = .ok (.exit r) := by
  rcases x with fault | pass
  · cases h
  · cases pass <;> cases h
    rfl

/-- An error comes from a position where the decoder refuses. -/
theorem decodePass_error {code : ErrorCode} {buffer : Buffer} (hcode : code ≠ .ok)
    (h : (decodePass frame capacity s).Returns (.exit (.ok (code, buffer)))) :
    Refused frame capacity s.position ∧ (buffer = ⟨s.output, capacity⟩ ∨
      CutChunk frame capacity s.position) := by
  have hinside : s.frameOffset.toNat < frame.length := by
    by_contra hend
    rw [decodePass, if_neg hend, returns_pure] at h
    cases h
    exact hcode rfl
  refine ⟨⟨hinside, fun r hnext => ?_, fun digits size hline hlast => ?_, fun hover => ?_⟩, ?_⟩
  · obtain ⟨t, ht, -⟩ := hnext.drive
    cases h.unique ht
  · cases h.unique (decodePass_last hline hlast)
    exact hcode rfl
  · obtain ⟨fault, hfault⟩ := decodePass_overrun hover
    cases h.unique hfault
  · obtain ⟨_, _, -, -, he⟩ | ⟨-, he⟩ | ⟨-, _, he⟩ | ⟨output, he⟩ := decodePass_cases h
    case inr.inr.inr =>
      cases he
      rw [decodePass, if_pos hinside, returns_bind] at h
      obtain ⟨scan, hscan, hpass⟩ := h
      cases scan with
      | none =>
        cases returns_pure.mp hpass
        exact .inl rfl
      | some scan =>
        have hpass := orFault_exit (returns_pure.mp hpass).symm
        obtain hfound | ⟨digits, size, hline, rfl⟩ := sizeLine_of_scan hscan
        · rw [chunkPass_of_found_false hfound] at hpass
          cases hpass
          exact .inl rfl
        · obtain ⟨-, rfl | hcut⟩ := output_of_chunkPass hpass
          · exact .inl rfl
          · exact .inr ⟨digits, size, hline, hcut⟩
    all_goals cases he
    exact absurd rfl hcode

theorem Refused.decodePass (h : Refused frame capacity s.position) (hzeros : ¬ AllZeros frame) :
    ∃ buffer, (decodePass frame capacity s).Returns (.exit (.ok (.errFormat, buffer))) := by
  obtain ⟨pass, hpass⟩ := exists_decodePass hzeros s
  obtain ⟨digits, size, hline, hw, -⟩ | ⟨hend | ⟨digits, size, hline, hlast⟩, -⟩ | ⟨hover, -⟩ |
    ⟨output, rfl⟩ := decodePass_cases hpass
  · exact absurd ⟨digits, size, hline, hw, rfl⟩ (h.no_chunk _)
  · exact absurd hend (Nat.not_le.mpr h.inside)
  · exact absurd hlast (h.no_last digits size hline)
  · exact absurd hover h.no_overrun
  · exact ⟨_, hpass⟩

/-! ## What has been copied -/

theorem data_ne_nil (hpos : size ≠ 0)
    (hinside : (advance p 2).toNat + size.toNat ≤ frame.length) :
    (frame.drop (advance p 2).toNat).take size.toNat ≠ [] := by
  intro hnil
  have hlen := length_data hinside
  rw [hnil] at hlen
  exact hpos (UInt32.toNat_inj.mp hlen.symm)

/-- The chunks on the way to a position leave a mark in the output. -/
theorem exists_marks {q : Position}
    (path : TransGen (NextChunk frame capacity) (0, 0) q) : ∃ change, Marks capacity change ∧
      ∀ block r, (loop (decodePass frame capacity) ⟨q.1, q.2, change block⟩).Returns r →
        (loop (decodePass frame capacity) ⟨0, 0, block⟩).Returns r := by
  induction path with
  | single hnext =>
    obtain ⟨digits, size, hline, hw, rfl⟩ := hnext
    refine ⟨_, marks_overwrite (data_ne_nil hw.pos hw.inside) ?_, fun block r hr => ?_⟩
    · rw [length_data hw.inside]
      simpa using hw.fits
    · exact returns_loop_of_next (decodePass_whole hline hw) hr
  | @tail b c _ hnext ih =>
    obtain ⟨digits, size, hline, hw, rfl⟩ := hnext
    obtain ⟨change, hmarks, hgoes⟩ := ih
    have hfits := hw.fits
    rw [← length_data hw.inside] at hfits
    refine ⟨_, hmarks.overwrite (data_ne_nil hw.pos hw.inside) hfits, fun block r hr => ?_⟩
    exact hgoes block r (returns_loop_of_next (decodePass_whole hline hw) hr)

/-- A copy that the refusal comes behind. -/
theorem CutChunk.exists_copy {q : Position} (h : CutChunk frame capacity q) :
    ∃ data, data ≠ [] ∧ q.2.toNat + data.length ≤ capacity ∧ ∀ block,
      (decodePass frame capacity ⟨q.1, q.2, block⟩).Returns
        (.exit (.ok (.errFormat, ⟨overwrite block q.2.toNat data, capacity⟩))) := by
  obtain ⟨digits, size, hline, hcut⟩ := h
  have hfits := hcut.fits
  rw [← length_data hcut.inside] at hfits
  refine ⟨_, data_ne_nil hcut.pos hcut.inside, hfits, fun block => ?_⟩
  have hpass : (decodePass frame capacity ⟨q.1, q.2, block⟩).Returns _ :=
    SizeLine.decodePass (s := ⟨q.1, q.2, block⟩) hline hcut.lineEnd.atLineEnd
  rwa [chunkPass_cut hcut] at hpass

/-- The decoder refuses behind a copy. -/
def DecodesPartly (frame : Bytes) (capacity : Nat) : Prop :=
  CutChunk frame capacity (0, 0) ∨
    ∃ q, TransGen (NextChunk frame capacity) (0, 0) q ∧ Refused frame capacity q

theorem not_allZeros_of_chunk {q r : Position} (h : NextChunk frame capacity q r) :
    ¬ AllZeros frame := by
  intro hzeros
  obtain ⟨digits, size, -, hw, -⟩ := h
  have hcr := hw.lineEnd.1
  rw [hzeros] at hcr
  exact absurd hcr (by decide)

theorem keeps_chunkedDecode_iff (frame : Bytes) (capacity : Nat) :
    Keeps (chunkedDecode frame) capacity ↔ ¬ DecodesPartly frame capacity := by
  constructor
  · rintro hkeeps (hcut | ⟨q, path, hrefused⟩)
    · -- The data of the first chunk are copied.
      obtain ⟨data, hdata, hfits, hpass⟩ := hcut.exists_copy
      have hmarks := marks_overwrite hdata (by simpa using hfits)
      refine hmarks.not_keeps (fun block hblock => ?_) hkeeps
      rw [chunkedDecode, Buffer.size_ofBlock, hblock]
      exact returns_loop_of_exit (hpass block)
    · have hzeros : ¬ AllZeros frame := by
        obtain ⟨r, hfirst, -⟩ := TransGen.head'_iff.mp path
        exact not_allZeros_of_chunk hfirst
      obtain ⟨change, hmarks, hgoes⟩ := exists_marks path
      by_cases hcut : CutChunk frame capacity q
      · obtain ⟨data, hdata, hfits, hpass⟩ := hcut.exists_copy
        refine (hmarks.overwrite hdata hfits).not_keeps (fun block hblock => ?_) hkeeps
        rw [chunkedDecode, Buffer.size_ofBlock, hblock]
        exact hgoes block _ (returns_loop_of_exit (hpass _))
      · refine hmarks.not_keeps (fun block hblock => ?_) hkeeps
        rw [chunkedDecode, Buffer.size_ofBlock, hblock]
        apply hgoes block
        obtain ⟨buffer, hpass⟩ := hrefused.decodePass (s := ⟨q.1, q.2, change block⟩) hzeros
        obtain ⟨-, rfl | hcopied⟩ := decodePass_error (by simp) hpass
        · exact returns_loop_of_exit hpass
        · exact absurd hcopied hcut
  · rintro hpartly output rfl r hr code buffer rfl hcode
    -- The pass that fails is the first one, or chunks lead to it.
    let inv : DecodeState → Prop := fun t => t = ⟨0, 0, output.data⟩ ∨
      TransGen (NextChunk frame output.size) (0, 0) t.position
    have step : ∀ t u, inv t → (decodePass frame output.size t).Returns (.next u) → inv u := by
      rintro t u (rfl | path) hnext
      · exact .inr (.single (decodePass_next hnext))
      · exact .inr (path.tail (decodePass_next hnext))
    obtain ⟨t, rfl | path, hexit⟩ := Returns.loop_invariant inv hr (.inl rfl) step
    · obtain ⟨-, rfl | hcut⟩ := decodePass_error hcode hexit
      · rfl
      · exact absurd (.inl hcut) hpartly
    · exact absurd (.inr ⟨_, path, (decodePass_error hcode hexit).1⟩) hpartly

/-! ## All framers -/

/-- The framers keep the output of a call that fails, up to the chunked one failing behind a
write. -/
theorem framer_keeps_iff (k : FramerKind) (input : Bytes) (capacity : Nat) :
    (Keeps (k.module.encode input) capacity ↔ ¬ (k = .chunked ∧ EncodesPartly input capacity)) ∧
      (Keeps (k.module.decode input) capacity ↔
        ¬ (k = .chunked ∧ DecodesPartly input capacity)) := by
  cases k with
  | raw =>
    have hencode := keeps_pure (kept_rawEncode input) capacity
    have hdecode := keeps_pure (kept_rawDecode input) capacity
    simpa [FramerKind.module, rawFramer] using ⟨hencode, hdecode⟩
  | lengthPrefix =>
    have hencode := keeps_pure (kept_prefixedEncode 4 [] input) capacity
    have hdecode := keeps_pure (kept_lengthPrefixDecode input) capacity
    simpa [FramerKind.module, lengthPrefixFramer, lengthPrefixEncode] using ⟨hencode, hdecode⟩
  | crc =>
    have hencode := keeps_pure
      (kept_prefixedEncode 8 (writeBe32 (crc32Compute input)) input) capacity
    have hdecode := keeps_pure (kept_crcDecode input) capacity
    simpa [FramerKind.module, crcFramer, crcEncode] using ⟨hencode, hdecode⟩
  | chunked =>
    simpa [FramerKind.module, chunkedFramer] using
      ⟨keeps_chunkedEncode_iff input capacity, keeps_chunkedDecode_iff input capacity⟩

/-- A chunk that is followed by something else: its byte is in the output when the decoder
refuses. -/
theorem framer_not_keeps : ¬ ∀ (k : FramerKind) (input : Bytes) (capacity : Nat),
    Keeps (k.module.encode input) capacity ∧ Keeps (k.module.decode input) capacity := by
  intro h
  have hr : (chunkedDecode (ascii "1\r\nA\r\nX") (.ofBlock [0])).Returns
      (.ok (.errFormat, ⟨[65], 1⟩)) := ⟨5, by decide⟩
  have hkept := (h .chunked (ascii "1\r\nA\r\nX") 1).2 (.ofBlock [0]) rfl _ hr
  exact absurd (hkept _ _ rfl (by decide)) (by decide)

end Federated.Framer
