import Federated.Framer.ChunkedLimits
import Federated.Framer.RoundTrip

/-!
# The output of a framing call that fails

Three of the framers make every check in front of the first write. The chunked
one checks and writes chunk by chunk, so a refusal behind the first chunk comes
too late: whatever the output held, its front is gone.
-/

namespace Federated.Framer

open Library Comp Relation

/-- Whatever an output of this capacity holds, a call that fails leaves it as it was. -/
def Keeps (call : Buffer → Comp CallResult) (capacity : Nat) : Prop :=
  ∀ output, output.size = capacity → ∀ r, (call output).Returns r → Kept output r

/-! ## Checks in front of the first write -/

theorem keeps_pure {call : Buffer → CallResult} (h : ∀ output, Kept output (call output))
    (capacity : Nat) : Keeps (fun output => .pure (call output)) capacity := by
  intro output _ r hr
  rw [returns_pure.mp hr]
  exact h output

theorem kept_rawEncode (payload : Bytes) (output : Buffer) :
    Kept output (rawEncode payload output) :=
  kept_ite (kept_unchanged _) (kept_ok _)

theorem kept_rawDecode (frame : Bytes) (output : Buffer) : Kept output (rawDecode frame output) :=
  kept_ite (kept_unchanged _) (kept_ok _)

theorem kept_prefixedEncode (overhead : UInt32) (trailer payload : Bytes) (output : Buffer) :
    Kept output (prefixedEncode overhead trailer payload output) :=
  kept_ite (kept_unchanged _) (kept_ite (kept_unchanged _) (kept_ok _))

theorem kept_bind {output : Buffer} {α : Type} (x : Except Fault α) {f : α → CallResult}
    (h : ∀ a, Kept output (f a)) : Kept output (x >>= f) := by
  cases x with
  | error fault => exact kept_fault fault
  | ok a => exact h a

theorem kept_prefixedDecode (overhead : UInt32) (frame : Bytes) {output : Buffer}
    {extract : UInt32 → CallResult} (h : ∀ length, Kept output (extract length)) :
    Kept output (prefixedDecode overhead frame output extract) := by
  refine kept_ite (kept_unchanged _) ?_
  cases load frame 0 4 with
  | error fault => exact kept_fault fault
  | ok header =>
    exact kept_ite (kept_unchanged _) (kept_ite (kept_unchanged _)
      (kept_ite (kept_unchanged _) (h _)))

theorem kept_lengthPrefixDecode (frame : Bytes) (output : Buffer) :
    Kept output (lengthPrefixDecode frame output) :=
  kept_prefixedDecode 4 frame fun _ => kept_bind _ fun _ => kept_ok _

/-- The checksum is compared in front of the copy. -/
theorem kept_crcDecode (frame : Bytes) (output : Buffer) : Kept output (crcDecode frame output) :=
  kept_prefixedDecode 8 frame fun _ => kept_bind _ fun _ => kept_bind _ fun _ =>
    kept_ite (kept_unchanged _) (kept_ok _)

/-! ## Writes at the front of a block -/

theorem length_overwrite {block src : Bytes} {offset : Nat}
    (h : offset + src.length ≤ block.length) :
    (overwrite block offset src).length = block.length := by
  simp [overwrite]
  omega

theorem head?_overwrite {block src : Bytes} {offset : Nat} (hsrc : src ≠ [])
    (h : offset + src.length ≤ block.length) :
    (overwrite block offset src).head? = if offset = 0 then src.head? else block.head? := by
  obtain ⟨c, src, rfl⟩ := List.exists_cons_of_ne_nil hsrc
  cases block with
  | nil => simp at h
  | cons b block =>
    cases offset with
    | zero => simp [overwrite]
    | succ offset => simp [overwrite]

/-- A change of blocks of `capacity` bytes that leaves the same byte at the front of all of
them. -/
def Marks (capacity : Nat) (change : Bytes → Bytes) : Prop :=
  ∃ c, ∀ block, block.length = capacity →
    (change block).length = capacity ∧ (change block).head? = some c

section Marks

variable {capacity : Nat} {change : Bytes → Bytes}

theorem marks_overwrite {src : Bytes} (hsrc : src ≠ []) (hfits : src.length ≤ capacity) :
    Marks capacity fun block => overwrite block 0 src := by
  refine ⟨src.head hsrc, fun block hblock => ?_⟩
  have hroom : 0 + src.length ≤ block.length := by omega
  rw [length_overwrite hroom, head?_overwrite hsrc hroom, if_pos rfl, List.head?_eq_some_head hsrc]
  exact ⟨hblock, rfl⟩

/-- A mark is only ever replaced by another one. -/
theorem Marks.overwrite (h : Marks capacity change) {src : Bytes} {offset : Nat} (hsrc : src ≠ [])
    (hfits : offset + src.length ≤ capacity) :
    Marks capacity fun block => overwrite (change block) offset src := by
  obtain ⟨c, hc⟩ := h
  refine ⟨if offset = 0 then src.head hsrc else c, fun block hblock => ?_⟩
  obtain ⟨hlen, hhead⟩ := hc block hblock
  have hroom : offset + src.length ≤ (change block).length := by omega
  rw [length_overwrite hroom, head?_overwrite hsrc hroom, hhead, List.head?_eq_some_head hsrc]
  exact ⟨hlen, by split <;> rfl⟩

theorem Marks.capacity_pos (h : Marks capacity change) : 0 < capacity := by
  obtain ⟨c, hc⟩ := h
  by_contra hzero
  obtain rfl : capacity = 0 := by omega
  obtain ⟨hlen, hhead⟩ := hc [] rfl
  rw [List.length_eq_zero_iff.mp hlen] at hhead
  cases hhead

/-- A call that fails behind a mark does not keep every output. -/
theorem Marks.not_keeps (h : Marks capacity change) {call : Buffer → Comp CallResult}
    (hcall : ∀ block, block.length = capacity →
      (call (.ofBlock block)).Returns (.ok (.errFormat, ⟨change block, capacity⟩))) :
    ¬ Keeps call capacity := by
  intro hkeeps
  have hpos := h.capacity_pos
  obtain ⟨c, hc⟩ := h
  have hlen : (List.replicate capacity (c + 1)).length = capacity := List.length_replicate
  have hkept := hkeeps (.ofBlock (List.replicate capacity (c + 1))) hlen _ (hcall _ hlen)
  have hsame : change (List.replicate capacity (c + 1)) = List.replicate capacity (c + 1) :=
    congrArg Buffer.data (hkept _ _ rfl (by simp))
  have hhead := (hc _ hlen).2
  rw [hsame, List.head?_replicate, if_neg (Nat.ne_of_gt hpos)] at hhead
  simpa using Option.some.inj hhead

end Marks

/-! ## The encoder -/

variable {capacity : Nat}

theorem Writer.puts_append (a b : List Bytes) (w : Writer) :
    w.puts capacity (a ++ b) = (w.puts capacity a >>= fun v => v.puts capacity b) := by
  induction a generalizing w with
  | nil => rfl
  | cons src a ih => simp only [List.cons_append, puts, ih, bind_assoc]

theorem Chunk.pieces_ne_nil (c : Chunk) : ∀ src ∈ c.pieces, src ≠ [] := by
  simp [pieces, c.digits_ne_nil, c.nonempty]

/-- Pieces that are put behind a mark leave one. -/
theorem Marks.puts {change : Bytes → Bytes} (h : Marks capacity change) {pieces : List Bytes}
    (hne : ∀ src ∈ pieces, src ≠ []) {offset : UInt32}
    (hreach : reachFrom offset pieces ≤ capacity) : ∃ change', Marks capacity change' ∧
      ∀ block, (Writer.mk offset (change block)).puts capacity pieces =
        .ok ⟨offset + UInt32.ofNat pieces.flatten.length, change' block⟩ := by
  induction pieces generalizing offset change with
  | nil => exact ⟨change, h, fun block => by simp [Writer.puts]⟩
  | cons src rest ih =>
    rw [reachFrom, Nat.max_le] at hreach
    rw [List.forall_mem_cons] at hne
    obtain ⟨change', hmarks, hputs⟩ := ih (h.overwrite hne.1 hreach.1) hne.2 hreach.2
    refine ⟨change', hmarks, fun block => ?_⟩
    rw [Writer.puts, Writer.put_ok hreach.1, ok_bind, hputs, List.flatten_cons,
      List.length_append, UInt32.ofNat_add, UInt32.add_assoc]

/-- Pieces that are put from the front on leave a mark. -/
theorem marks_puts {pieces : List Bytes} (hnil : pieces ≠ []) (hne : ∀ src ∈ pieces, src ≠ [])
    (hreach : reachFrom 0 pieces ≤ capacity) : ∃ change, Marks capacity change ∧
      ∀ block, (Writer.mk 0 block).puts capacity pieces =
        .ok ⟨UInt32.ofNat pieces.flatten.length, change block⟩ := by
  obtain ⟨src, rest, rfl⟩ := List.exists_cons_of_ne_nil hnil
  rw [reachFrom, Nat.max_le] at hreach
  rw [List.forall_mem_cons] at hne
  obtain ⟨change, hmarks, hputs⟩ :=
    (marks_overwrite hne.1 (by simpa using hreach.1)).puts hne.2 hreach.2
  refine ⟨change, hmarks, fun block => ?_⟩
  rw [Writer.puts, Writer.put_ok hreach.1, ok_bind]
  have := hputs block
  rw [List.flatten_cons, List.length_append, UInt32.ofNat_add]
  simpa using this

/-- Chunks that fit are put, and the encoder goes on behind them. -/
theorem encodeFrom_follow {payload done rest : Bytes} (h : Ahead payload done rest)
    {front back : List Chunk} (hsplit : splitChunks rest = front ++ back) {w v : Writer}
    (hputs : w.puts capacity (front.flatMap Chunk.pieces) = .ok v) :
    ∃ done' rest', Ahead payload done' rest' ∧ splitChunks rest' = back ∧
      ∀ r, (encodeFrom payload capacity done' rest' v).Returns r →
        (encodeFrom payload capacity done rest w).Returns r := by
  induction front generalizing done rest w with
  | nil =>
    cases hputs
    exact ⟨done, rest, h, hsplit, fun _ hr => hr⟩
  | cons c front ih =>
    have hnil : rest ≠ [] := by
      rintro rfl
      simp [splitChunks_nil] at hsplit
    obtain ⟨c', hdigits, hdata, hnext⟩ := splitChunks_of_ne_nil hnil
    rw [hnext, List.cons_append, List.cons.injEq] at hsplit
    obtain ⟨rfl, hsplit⟩ := hsplit
    rw [List.flatMap_cons, Writer.puts_append] at hputs
    by_cases hreach : reachFrom w.offset c'.pieces ≤ capacity
    · obtain ⟨v', hchunk, -, hruns⟩ := encodeFrom_goes h hnil hdigits hdata hreach
      rw [hchunk] at hputs
      obtain ⟨done', rest', h', hback, hgoes⟩ := ih (h.next 1024) hsplit hputs
      exact ⟨done', rest', h', hback, fun r hr => (hruns r).mpr (hgoes r hr)⟩
    · obtain ⟨fault, hfault⟩ := Writer.puts_error (Nat.not_le.mp hreach)
      rw [hfault] at hputs
      cases hputs

/-- The encoder runs out of room behind its first chunk. -/
def EncodesPartly (p : Bytes) (capacity : Nat) : Prop :=
  ∃ front back, splitChunks (seen p) = front ++ back ∧ front ≠ [] ∧
    reachFrom 0 (front.flatMap Chunk.pieces) ≤ capacity ∧
    capacity < (UInt32.ofNat (wires front).length + UInt32.ofNat (nextLength back)).toNat

theorem keeps_chunkedEncode_iff (p : Bytes) (capacity : Nat) :
    Keeps (chunkedEncode p) capacity ↔ ¬ EncodesPartly p capacity := by
  constructor
  · rintro hkeeps ⟨front, back, hsplit, hfront, hfits, hfull⟩
    have hnil : front.flatMap Chunk.pieces ≠ [] := by
      obtain ⟨c, front, rfl⟩ := List.exists_cons_of_ne_nil hfront
      simp [Chunk.pieces]
    have hne : ∀ src ∈ front.flatMap Chunk.pieces, src ≠ [] := by
      intro src hsrc
      obtain ⟨c, -, hc⟩ := List.mem_flatMap.mp hsrc
      exact c.pieces_ne_nil src hc
    obtain ⟨change, hmarks, hputs⟩ := marks_puts hnil hne hfits
    refine hmarks.not_keeps (fun block hblock => ?_) hkeeps
    obtain ⟨done', rest', h', rfl, hgoes⟩ :=
      encodeFrom_follow (ahead_seen p) hsplit (hputs block)
    rw [chunkedEncode, ofNat_length_seen, Buffer.size_ofBlock, hblock]
    apply hgoes
    have hlen : (front.flatMap Chunk.pieces).flatten = wires front := flatten_flatMap_pieces front
    exact encodeFrom_refused h' (by rw [hlen]; exact hfull)
  · rintro hpartly output rfl r hr code buffer rfl hcode
    rw [chunkedEncode, ofNat_length_seen] at hr
    obtain ⟨front, back, hsplit, hfits, hfull, hbuffer⟩ :=
      encodeFrom_error (ahead_seen p) hcode hr
    by_cases hfront : front = []
    · exact hbuffer hfront
    · exact absurd ⟨front, back, hsplit, hfront, hfits, by simpa using hfull⟩ hpartly

/-- A frame shorter than 2^32 bytes is written in part where its first chunk has room and the
whole of it has not. -/
theorem encodesPartly_iff_of_lt {p : Bytes} (h : (encoding (seen p)).length < 2 ^ 32) :
    EncodesPartly p capacity ↔ ∃ c rest, splitChunks (seen p) = c :: rest ∧
      c.wire.length ≤ capacity ∧ capacity < (encoding (seen p)).length := by
  constructor
  · rintro ⟨front, back, hsplit, hfront, hfits, hfull⟩
    obtain ⟨c, front, rfl⟩ := List.exists_cons_of_ne_nil hfront
    have hlen := nextLength_le _ _ hsplit
    have hwire : c.wire.length ≤ (wires (c :: front)).length := by simp
    refine ⟨c, front ++ back, hsplit, ?_, ?_⟩
    · rw [List.flatMap_cons, reachFrom_append, Nat.max_le] at hfits
      have hend := end_le_reachFrom 0 (show c.pieces ≠ [] by simp [Chunk.pieces])
      rw [UInt32.zero_add, c.flatten_pieces, UInt32.toNat_ofNat_of_lt' (by grind)] at hend
      exact hend.trans hfits.1
    · rw [← UInt32.ofNat_add, UInt32.toNat_ofNat'] at hfull
      have := Nat.mod_le ((wires (c :: front)).length + nextLength back) (2 ^ 32)
      omega
  · rintro ⟨c, rest, hsplit, hfirst, hfull⟩
    -- The encoder refuses such a frame, and not at the first chunk.
    obtain ⟨r, hr, hencoded⟩ := chunkedEncode_returns ⟨[], capacity⟩ h
    rw [Encoded, if_neg (by simpa using hfull)] at hencoded
    obtain ⟨buffer, rfl⟩ := hencoded
    rw [chunkedEncode, ofNat_length_seen] at hr
    obtain ⟨front, back, hback, hfits, hroom, -⟩ :=
      encodeFrom_error (ahead_seen p) (by simp) hr
    refine ⟨front, back, hback, ?_, hfits, by simpa using hroom⟩
    rintro rfl
    rw [List.nil_append] at hback
    have hzero : (0 : UInt32) + UInt32.ofNat (wires []).length = 0 := rfl
    rw [← hback, hsplit, hzero, UInt32.zero_add, UInt32.toNat_ofNat'] at hroom
    have hmod := Nat.mod_le c.wire.length (2 ^ 32)
    exact absurd (hroom.trans_le hmod) (Nat.not_lt.mpr hfirst)

/-- A frame shorter than 2^32 bytes is written whole, or the output is left alone if that has no
room for the first chunk. -/
theorem keeps_chunkedEncode_iff_of_lt {p : Bytes} (h : (encoding (seen p)).length < 2 ^ 32) :
    Keeps (chunkedEncode p) capacity ↔ (encoding (seen p)).length ≤ capacity ∨
      ∀ c rest, splitChunks (seen p) = c :: rest → capacity < c.wire.length := by
  rw [keeps_chunkedEncode_iff, encodesPartly_iff_of_lt h]
  constructor
  · intro hnot
    by_contra! hpartly
    obtain ⟨hshort, c, rest, hsplit, hfirst⟩ := hpartly
    exact hnot ⟨c, rest, hsplit, hfirst, hshort⟩
  · rintro (hwhole | hnone) ⟨c, rest, hsplit, hfirst, hshort⟩
    · exact absurd hwhole (Nat.not_le.mpr hshort)
    · exact absurd (hnone c rest hsplit) (Nat.not_lt.mpr hfirst)

end Federated.Framer
