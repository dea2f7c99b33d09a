import Federated.Framer.ChunkedEncode

/-!
# Payloads too long for the chunked encoder

The encoder narrows the length of its payload to 32 bits and puts the pieces of a
frame at 32-bit positions, so the positions of a long frame wrap to the front of the
output. It never refuses a payload for that: an output that reaches to the end of
the highest piece gets `OK`, and a frame without the bytes that were cut off or
written over. A smaller output is refused where a chunk ends behind it, and else
written past its end.
-/

namespace Federated.Framer

open Library Comp

/-! ## Pieces at 32-bit positions -/

/-- The end of the highest of the pieces put one behind the other from a position on.
Positions wrap between pieces, not inside of them. -/
def reachFrom (offset : UInt32) : List Bytes → Nat
  | [] => 0
  | src :: rest =>
    max (offset.toNat + src.length) (reachFrom (offset + UInt32.ofNat src.length) rest)

theorem reachFrom_append (offset : UInt32) (a b : List Bytes) :
    reachFrom offset (a ++ b) =
      max (reachFrom offset a) (reachFrom (offset + UInt32.ofNat a.flatten.length) b) := by
  induction a generalizing offset with
  | nil => simp [reachFrom]
  | cons src a ih =>
    rw [List.cons_append, reachFrom, ih, reachFrom, List.flatten_cons, List.length_append,
      UInt32.ofNat_add, ← UInt32.add_assoc, Nat.max_assoc]

/-- The position behind the pieces is not above their highest end. -/
theorem end_le_reachFrom (offset : UInt32) {pieces : List Bytes} (h : pieces ≠ []) :
    (offset + UInt32.ofNat pieces.flatten.length).toNat ≤ reachFrom offset pieces := by
  induction pieces generalizing offset with
  | nil => exact absurd rfl h
  | cons src rest ih =>
    by_cases hrest : rest = []
    · subst hrest
      simp only [List.flatten_cons, List.flatten_nil, List.append_nil, reachFrom,
        UInt32.toNat_add, UInt32.toNat_ofNat']
      omega
    · rw [List.flatten_cons, List.length_append, UInt32.ofNat_add, ← UInt32.add_assoc, reachFrom]
      exact (ih _ hrest).trans (Nat.le_max_right _ _)

/-- As long as no position wraps, the highest end is the last one. -/
theorem reachFrom_eq_of_lt {w : Nat} {pieces : List Bytes} (hnil : pieces ≠ [])
    (h : w + pieces.flatten.length < 2 ^ 32) :
    reachFrom (UInt32.ofNat w) pieces = w + pieces.flatten.length := by
  induction pieces generalizing w with
  | nil => exact absurd rfl hnil
  | cons src rest ih =>
    rw [List.flatten_cons, List.length_append] at h ⊢
    rw [reachFrom, ← UInt32.ofNat_add, UInt32.toNat_ofNat_of_lt' (show w < 2 ^ 32 by omega)]
    by_cases hrest : rest = []
    · simp [hrest, reachFrom]
    · rw [ih hrest (by omega)]
      omega

theorem Writer.put_ok {capacity : Nat} {src : Bytes} {w : Writer}
    (h : w.offset.toNat + src.length ≤ capacity) : w.put capacity src =
      .ok ⟨w.offset + UInt32.ofNat src.length, overwrite w.output w.offset.toNat src⟩ := by
  rw [put, store, if_pos h]
  rfl

theorem Writer.puts_ok {capacity : Nat} {pieces : List Bytes} {w : Writer}
    (h : reachFrom w.offset pieces ≤ capacity) : ∃ output, w.puts capacity pieces =
      .ok ⟨w.offset + UInt32.ofNat pieces.flatten.length, output⟩ := by
  induction pieces generalizing w with
  | nil => exact ⟨w.output, by simp [puts]⟩
  | cons src rest ih =>
    rw [reachFrom, Nat.max_le] at h
    obtain ⟨output, ho⟩ := ih (w := ⟨_, overwrite w.output w.offset.toNat src⟩) h.2
    refine ⟨output, ?_⟩
    rw [puts, put_ok h.1, ok_bind, ho, List.flatten_cons, List.length_append, UInt32.ofNat_add,
      UInt32.add_assoc]

theorem Writer.puts_error {capacity : Nat} {pieces : List Bytes} {w : Writer}
    (h : capacity < reachFrom w.offset pieces) :
    ∃ fault, w.puts capacity pieces = .error fault := by
  induction pieces generalizing w with
  | nil => exact absurd h (Nat.not_lt_zero _)
  | cons src rest ih =>
    by_cases hfits : w.offset.toNat + src.length ≤ capacity
    · rw [reachFrom] at h
      obtain ⟨fault, hf⟩ := ih (w := ⟨w.offset + UInt32.ofNat src.length,
        overwrite w.output w.offset.toNat src⟩) (by simp only; omega)
      exact ⟨fault, by rw [puts, put_ok hfits, ok_bind, hf]⟩
    · exact ⟨.write, by rw [puts, put, store, if_neg hfits]; rfl⟩

/-! ## What a pass does -/

section

variable {payload done rest : Bytes} {c : Chunk} {capacity : Nat} {w : Writer}

/-- The run of the encoder that has `done` behind it and `rest` in front of it. -/
abbrev encodeFrom (payload : Bytes) (capacity : Nat) (done rest : Bytes) (w : Writer) :
    Comp CallResult :=
  loop (fun s => .pure (encodePass payload capacity s))
    ⟨UInt32.ofNat rest.length, UInt32.ofNat done.length, w⟩

theorem encodeFrom_last (done : Bytes) (w : Writer) (r : CallResult) :
    (encodeFrom payload capacity done [] w).Returns r ↔ r = putLastChunk capacity w :=
  returns_loop_iff_of_exit (congrArg Comp.pure (encodePass_nil payload done capacity w))

theorem encodeFrom_refuses (h : Ahead payload done rest) (hnil : rest ≠ [])
    (hdigits : c.digits = writeHex (UInt32.ofNat (rest.take 1024).length))
    (hdata : c.data = rest.take 1024)
    (hroom : capacity < (w.offset + UInt32.ofNat c.wire.length).toNat) (r : CallResult) :
    (encodeFrom payload capacity done rest w).Returns r ↔
      r = .ok (.errFormat, ⟨w.output, capacity⟩) := by
  have hpass := encodePass_chunk h hnil hdigits hdata capacity w
  rw [if_pos hroom] at hpass
  exact returns_loop_iff_of_exit (congrArg Comp.pure hpass)

/-- A chunk that passes the check may leave the output all the same. -/
theorem encodeFrom_leaves (h : Ahead payload done rest) (hnil : rest ≠ [])
    (hdigits : c.digits = writeHex (UInt32.ofNat (rest.take 1024).length))
    (hdata : c.data = rest.take 1024)
    (hroom : ¬ capacity < (w.offset + UInt32.ofNat c.wire.length).toNat)
    (hreach : capacity < reachFrom w.offset c.pieces) :
    ∃ fault, ∀ r, (encodeFrom payload capacity done rest w).Returns r ↔ r = .error fault := by
  obtain ⟨fault, hputs⟩ := Writer.puts_error hreach
  have hpass := encodePass_chunk h hnil hdigits hdata capacity w
  rw [if_neg hroom, hputs] at hpass
  exact ⟨fault, fun r => returns_loop_iff_of_exit (congrArg Comp.pure hpass)⟩

/-- A chunk that stays inside the output passes the check, and the encoder goes on behind it. -/
theorem encodeFrom_goes (h : Ahead payload done rest) (hnil : rest ≠ [])
    (hdigits : c.digits = writeHex (UInt32.ofNat (rest.take 1024).length))
    (hdata : c.data = rest.take 1024) (hreach : reachFrom w.offset c.pieces ≤ capacity) :
    ∃ v, w.puts capacity c.pieces = .ok v ∧ v.offset = w.offset + UInt32.ofNat c.wire.length ∧
      ∀ r, (encodeFrom payload capacity done rest w).Returns r ↔
        (encodeFrom payload capacity (done ++ rest.take 1024) (rest.drop 1024) v).Returns r := by
  obtain ⟨output, hputs⟩ := Writer.puts_ok hreach
  have hend := end_le_reachFrom w.offset (show c.pieces ≠ [] by simp [Chunk.pieces])
  have hpass := encodePass_chunk h hnil hdigits hdata capacity w
  rw [c.flatten_pieces] at hputs hend
  rw [if_neg (Nat.not_lt.mpr (hend.trans hreach)), hputs] at hpass
  exact ⟨_, hputs, rfl, fun r => returns_loop_iff_of_next (congrArg Comp.pure hpass)⟩

end

/-! ## Whole runs -/

/-- How far into the output the encoder writes for a payload. -/
def reach (p : Bytes) : Nat := reachFrom 0 (pieces (seen p))

theorem reach_eq_of_lt {p : Bytes} (h : (encoding (seen p)).length < 2 ^ 32) :
    reach p = (encoding (seen p)).length := by
  have hnil : pieces (seen p) ≠ [] := List.append_ne_nil_of_right_ne_nil _ (by decide)
  have := reachFrom_eq_of_lt (w := 0) hnil (by simpa using h)
  simpa [reach] using this

/-- The zero chunk is refused only where its pieces leave the output as well. -/
theorem putLastChunk_ok_iff (capacity : Nat) (w : Writer) (size : Nat) :
    (∃ data, putLastChunk capacity w = .ok (.ok, ⟨data, size⟩)) ↔
      reachFrom w.offset lastPieces ≤ capacity ∧ size = (w.offset + 5).toNat := by
  have hlen : UInt32.ofNat lastPieces.flatten.length = 5 := rfl
  have hend := end_le_reachFrom w.offset (show lastPieces ≠ [] by decide)
  rw [hlen] at hend
  rw [putLastChunk_eq]
  by_cases hreach : reachFrom w.offset lastPieces ≤ capacity
  · obtain ⟨output, hputs⟩ := Writer.puts_ok hreach
    rw [if_neg (by omega), hputs]
    constructor
    · rintro ⟨data, h⟩
      cases h
      exact ⟨hreach, rfl⟩
    · rintro ⟨-, rfl⟩
      exact ⟨output, rfl⟩
  · obtain ⟨fault, hputs⟩ := Writer.puts_error (Nat.not_le.mp hreach)
    rw [hputs]
    refine iff_of_false ?_ fun h => hreach h.1
    rintro ⟨data, h⟩
    split at h <;> cases h

/-- The encoder returns `OK` exactly when the pieces it puts for the rest end inside
the output, and reports the position behind them. -/
theorem encodeLoop_ok_iff {payload done rest : Bytes} (h : Ahead payload done rest)
    (capacity : Nat) (w : Writer) (size : Nat) :
    (∃ data, (encodeFrom payload capacity done rest w).Returns (.ok (.ok, ⟨data, size⟩))) ↔
      reachFrom w.offset (pieces rest) ≤ capacity ∧
        size = (w.offset + UInt32.ofNat (encoding rest).length).toNat := by
  induction h using Ahead.chunk_induction generalizing w with
  | last done h =>
    have hlast := putLastChunk_ok_iff capacity w size
    have hpieces : pieces [] = lastPieces := by simp [pieces, splitChunks_nil]
    have hlen : UInt32.ofNat (encoding []).length = 5 := by
      rw [encoding, splitChunks_nil]
      rfl
    rw [hpieces, hlen, ← hlast]
    exact exists_congr fun data => (encodeFrom_last done w _).trans eq_comm
  | chunk done rest h hnil ih =>
    obtain ⟨c, hdigits, hdata, hpieces, hencoding⟩ := pieces_of_ne_nil hnil
    rw [hpieces, reachFrom_append, Nat.max_le, c.flatten_pieces]
    by_cases hreach : reachFrom w.offset c.pieces ≤ capacity
    · -- The chunk goes out; the rest is the induction hypothesis.
      obtain ⟨v, -, hoffset, hgoes⟩ := encodeFrom_goes h hnil hdigits hdata hreach
      rw [hencoding, List.length_append, UInt32.ofNat_add, ← UInt32.add_assoc, ← hoffset]
      simp only [hreach, true_and]
      rw [← ih v]
      exact exists_congr fun data => hgoes _
    · -- A piece leaves the output, or the check in front of the chunk has refused it.
      refine iff_of_false ?_ fun h => hreach h.1.1
      rintro ⟨data, hr⟩
      by_cases hroom : capacity < (w.offset + UInt32.ofNat c.wire.length).toNat
      · rw [encodeFrom_refuses h hnil hdigits hdata hroom] at hr
        cases hr
      · obtain ⟨fault, hleaves⟩ :=
          encodeFrom_leaves h hnil hdigits hdata hroom (Nat.not_le.mp hreach)
        rw [hleaves] at hr
        cases hr

theorem chunkedEncode_ok_iff (p : Bytes) (output : Buffer) (size : Nat) :
    (∃ data, (chunkedEncode p output).Returns (.ok (.ok, ⟨data, size⟩))) ↔
      reach p ≤ output.size ∧ size = (encoding (seen p)).length % 2 ^ 32 := by
  have hloop := encodeLoop_ok_iff (ahead_seen p) output.size ⟨0, output.data⟩ size
  rw [UInt32.zero_add, UInt32.toNat_ofNat'] at hloop
  rw [chunkedEncode, ofNat_length_seen]
  exact hloop

/-! ## Bounds on a frame -/

/-- A chunk that the encoder writes is little longer than its data. -/
theorem length_wire_le {c : Chunk} {p : Bytes}
    (hdigits : c.digits = writeHex (UInt32.ofNat (p.take 1024).length)) :
    c.wire.length ≤ c.data.length + 12 := by
  have hlen : c.digits.length ≤ 8 := by
    rw [hdigits, length_writeHex]
    split
    · omega
    · exact (countNibbles_spec 8 _ (UInt32.toNat_lt _)).2
  rw [c.length_wire]
  omega

/-- Chunks add a dozen bytes at most to each piece of the payload. -/
theorem length_encoding_le (p : Bytes) :
    (encoding p).length ≤ p.length + 12 * (p.length / 1024 + 1) + 5 := by
  induction hn : p.length using Nat.strong_induction_on generalizing p with
  | _ n ih =>
    by_cases hnil : p = []
    · rw [hnil, encoding, splitChunks_nil]
      exact (show 5 ≤ 12 + 5 by decide).trans (by omega)
    · obtain ⟨c, hdigits, hdata, -, hencoding⟩ := pieces_of_ne_nil hnil
      have hpos := List.length_pos_iff.mpr hnil
      have htake : (p.take 1024).length = min 1024 p.length := List.length_take
      have hdrop : (p.drop 1024).length = p.length - 1024 := List.length_drop
      have hwire := length_wire_le hdigits
      have hrest := ih (p.drop 1024).length (by omega) _ rfl
      rw [hdata] at hwire
      rw [hencoding, List.length_append]
      by_cases hshort : p.length ≤ 1024
      · have hend : p.drop 1024 = [] := List.drop_eq_nil_of_le hshort
        have hlast : (encoding []).length = 5 := by rw [encoding, splitChunks_nil]; rfl
        rw [hend, hlast]
        omega
      · omega

/-! ## Refusals -/

variable {capacity : Nat}

/-- What the encoder asks room for next, in front of the given chunks. -/
def nextLength : List Chunk → Nat
  | [] => lastChunk.length
  | c :: _ => c.wire.length

theorem encodeFrom_refused {payload done rest : Bytes} (h : Ahead payload done rest) {w : Writer}
    (hroom : capacity <
      (w.offset + UInt32.ofNat (nextLength (splitChunks rest))).toNat) :
    (encodeFrom payload capacity done rest w).Returns (.ok (.errFormat, ⟨w.output, capacity⟩)) := by
  by_cases hnil : rest = []
  · subst hnil
    rw [splitChunks_nil] at hroom
    rw [encodeFrom_last, putLastChunk_eq]
    exact (if_pos hroom).symm
  · obtain ⟨c, hdigits, hdata, hsplit⟩ := splitChunks_of_ne_nil hnil
    rw [hsplit] at hroom
    exact (encodeFrom_refuses h hnil hdigits hdata hroom _).mpr rfl

/-- Where the encoder refuses: behind chunks that it has put, at one it has no room for. -/
theorem encodeFrom_error {payload done rest : Bytes} (h : Ahead payload done rest) {w : Writer}
    {code : ErrorCode} {buffer : Buffer} (hcode : code ≠ .ok)
    (hr : (encodeFrom payload capacity done rest w).Returns (.ok (code, buffer))) :
    ∃ front back, splitChunks rest = front ++ back ∧
      reachFrom w.offset (front.flatMap Chunk.pieces) ≤ capacity ∧
      capacity < (w.offset + UInt32.ofNat (wires front).length +
        UInt32.ofNat (nextLength back)).toNat ∧
      (front = [] → buffer = ⟨w.output, capacity⟩) := by
  induction h using Ahead.chunk_induction generalizing w with
  | last done h =>
    rw [encodeFrom_last, putLastChunk_eq] at hr
    by_cases hroom : (w.offset + 5).toNat > capacity
    · rw [if_pos hroom] at hr
      cases hr
      have hlast : UInt32.ofNat (nextLength []) = 5 := rfl
      exact ⟨[], [], splitChunks_nil, Nat.zero_le _, by simpa [hlast] using hroom, fun _ => rfl⟩
    · -- Putting the zero chunk gives no other error.
      rw [if_neg hroom] at hr
      cases hputs : w.puts capacity lastPieces with
      | error fault =>
        rw [hputs] at hr
        cases hr
      | ok v =>
        rw [hputs] at hr
        cases hr
        exact absurd rfl hcode
  | chunk done rest h hnil ih =>
    obtain ⟨c, hdigits, hdata, hsplit⟩ := splitChunks_of_ne_nil hnil
    by_cases hreach : reachFrom w.offset c.pieces ≤ capacity
    · -- The chunk is put; the refusal is behind it.
      obtain ⟨v, -, hoffset, hgoes⟩ := encodeFrom_goes h hnil hdigits hdata hreach
      obtain ⟨front, back, hsplit', hfits, hfull, -⟩ := ih ((hgoes _).mp hr)
      rw [hoffset] at hfits hfull
      refine ⟨c :: front, back, by rw [hsplit, hsplit', List.cons_append], ?_, ?_, by simp⟩
      · rw [List.flatMap_cons, reachFrom_append, Nat.max_le, c.flatten_pieces]
        exact ⟨hreach, hfits⟩
      · rwa [wires_cons, List.length_append, UInt32.ofNat_add, ← UInt32.add_assoc w.offset]
    · by_cases hroom : capacity < (w.offset + UInt32.ofNat c.wire.length).toNat
      · rw [encodeFrom_refuses h hnil hdigits hdata hroom] at hr
        cases hr
        exact ⟨[], _, rfl, Nat.zero_le _, by simpa [hsplit, nextLength] using hroom, fun _ => rfl⟩
      · obtain ⟨fault, hleaves⟩ :=
          encodeFrom_leaves h hnil hdigits hdata hroom (Nat.not_le.mp hreach)
        rw [hleaves] at hr
        cases hr

/-- The room that the encoder asks for reaches no further than the frame. -/
theorem nextLength_le (front back : List Chunk) {rest : Bytes}
    (h : splitChunks rest = front ++ back) :
    (wires front).length + nextLength back ≤ (encoding rest).length := by
  have hnext : nextLength back ≤ (wires back ++ lastChunk).length := by
    cases back <;> simp [nextLength]
  rw [encoding, h, wires_append, List.append_assoc, List.length_append]
  omega

/-- As long as positions have not wrapped, a chunk that ends behind the output is refused, and
nothing in front of it leaves the output: behind a wrap all positions are small. -/
theorem encodeFrom_of_end {payload done rest : Bytes} (h : Ahead payload done rest) {n : Nat}
    {output : Bytes} (hn : n < 2 ^ 32) (hfits : n ≤ capacity)
    (htotal : n + (encoding rest).length < 2 ^ 32 + 2 ^ 31) {front back : List Chunk}
    (hsplit : splitChunks rest = front ++ back)
    (hfull : capacity < (n + ((wires front).length + nextLength back)) % 2 ^ 32) :
    ∃ buffer, (encodeFrom payload capacity done rest ⟨UInt32.ofNat n, output⟩).Returns
      (.ok (.errFormat, buffer)) := by
  have hsum (n k : Nat) : (UInt32.ofNat n + UInt32.ofNat k).toNat = (n + k) % 2 ^ 32 := by
    rw [← UInt32.ofNat_add, UInt32.toNat_ofNat']
  induction h using Ahead.chunk_induction generalizing n output front with
  | last done h =>
    rw [splitChunks_nil] at hsplit
    obtain ⟨rfl, rfl⟩ := List.nil_eq_append_iff.mp hsplit
    exact ⟨_, encodeFrom_refused h (by rw [hsum, splitChunks_nil]; simpa using hfull)⟩
  | chunk done rest h hnil ih =>
    obtain ⟨c, hdigits, hdata, hnext⟩ := splitChunks_of_ne_nil hnil
    by_cases hroom : capacity < (n + c.wire.length) % 2 ^ 32
    · exact ⟨_, encodeFrom_refused h (by rw [hsum, hnext]; exact hroom)⟩
    · cases front with
      | nil =>
        rw [List.nil_append, hnext] at hsplit
        rw [← hsplit, wires_nil, List.length_nil, Nat.zero_add] at hfull
        exact absurd hfull hroom
      | cons c' front =>
        have hend := nextLength_le _ _ hsplit
        rw [hnext, List.cons_append, List.cons.injEq] at hsplit
        obtain ⟨rfl, hsplit⟩ := hsplit
        rw [wires_cons, List.length_append] at hfull hend
        have hwire := length_wire_le hdigits
        have hlength : c.data.length ≤ 1024 := hdata ▸ List.length_take_le 1024 rest
        by_cases hwrap : n + c.wire.length < 2 ^ 32
        · -- The chunk goes out; the rest is the induction hypothesis.
          have hencoding : (encoding rest).length =
              c.wire.length + (encoding (rest.drop 1024)).length := by
            rw [encoding, encoding, hnext, wires_cons, List.append_assoc, List.length_append]
          rw [Nat.mod_eq_of_lt hwrap] at hroom
          have hreach : reachFrom (UInt32.ofNat n) c.pieces ≤ capacity := by
            rw [reachFrom_eq_of_lt (by simp [Chunk.pieces]) (by rwa [c.flatten_pieces]),
              c.flatten_pieces]
            omega
          obtain ⟨⟨offset, output'⟩, -, hoffset, hgoes⟩ :=
            encodeFrom_goes (w := ⟨UInt32.ofNat n, output⟩) h hnil hdigits hdata hreach
          obtain rfl : offset = UInt32.ofNat (n + c.wire.length) := by
            rw [UInt32.ofNat_add]
            exact hoffset
          obtain ⟨buffer, hr⟩ := @ih (n + c.wire.length) output' hwrap (by omega) (by omega)
            front hsplit (by rwa [Nat.add_assoc, ← Nat.add_assoc c.wire.length])
          exact ⟨buffer, (hgoes _).mpr hr⟩
        · -- The output is so large that no position behind the wrap is refused.
          omega

theorem encodeFrom_total {payload done rest : Bytes} (h : Ahead payload done rest) (w : Writer) :
    ∃ r, (encodeFrom payload capacity done rest w).Returns r := by
  induction h using Ahead.chunk_induction generalizing w with
  | last done h =>
    exact ⟨_, (encodeFrom_last done w _).mpr rfl⟩
  | chunk done rest h hnil ih =>
    obtain ⟨c, hdigits, hdata, -⟩ := splitChunks_of_ne_nil hnil
    by_cases hroom : capacity < (w.offset + UInt32.ofNat c.wire.length).toNat
    · exact ⟨_, (encodeFrom_refuses h hnil hdigits hdata hroom _).mpr rfl⟩
    · by_cases hreach : reachFrom w.offset c.pieces ≤ capacity
      · obtain ⟨v, -, -, hgoes⟩ := encodeFrom_goes h hnil hdigits hdata hreach
        obtain ⟨r, hr⟩ := ih v
        exact ⟨r, (hgoes r).mpr hr⟩
      · obtain ⟨fault, hleaves⟩ :=
          encodeFrom_leaves h hnil hdigits hdata hroom (Nat.not_le.mp hreach)
        exact ⟨_, (hleaves _).mpr rfl⟩

/-- Some chunk of what the encoder sees, or the zero chunk, ends behind an output of this
capacity, as 32-bit positions count. -/
def EndsBehind (p : Bytes) (capacity : Nat) : Prop :=
  ∃ front back, splitChunks (seen p) = front ++ back ∧
    capacity < ((wires front).length + nextLength back) % 2 ^ 32

theorem chunkedEncode_total (p : Bytes) (output : Buffer) :
    ∃ r, (chunkedEncode p output).Returns r := by
  rw [chunkedEncode, ofNat_length_seen]
  exact encodeFrom_total (ahead_seen p) _

theorem endsBehind_of_error {p : Bytes} {output coded : Buffer} {code : ErrorCode}
    (hcode : code ≠ .ok) (h : (chunkedEncode p output).Returns (.ok (code, coded))) :
    EndsBehind p output.size := by
  rw [chunkedEncode, ofNat_length_seen] at h
  obtain ⟨front, back, hsplit, -, hfull, -⟩ := encodeFrom_error (ahead_seen p) hcode h
  rw [UInt32.zero_add, ← UInt32.ofNat_add, UInt32.toNat_ofNat'] at hfull
  exact ⟨front, back, hsplit, hfull⟩

theorem chunkedEncode_of_endsBehind {p : Bytes} (output : Buffer)
    (h : EndsBehind p output.size) :
    ∃ buffer, (chunkedEncode p output).Returns (.ok (.errFormat, buffer)) := by
  obtain ⟨front, back, hsplit, hfull⟩ := h
  have hseen := length_seen p
  have hlength := length_encoding_le (seen p)
  rw [chunkedEncode, ofNat_length_seen]
  exact encodeFrom_of_end (n := 0) (ahead_seen p) (by decide) (Nat.zero_le _) (by omega) hsplit
    (by rwa [Nat.zero_add])

/-! ## What a frame carries -/

/-- The encoder stays inside its buffers, and with `OK` it reports chunks whose sizes add up to
the length of the payload and which carry its bytes in order. -/
def CarriesPayload (p : Bytes) (output : Buffer) : Prop :=
  ∀ r, (chunkedEncode p output).Returns r → ∃ code coded, r = .ok (code, coded) ∧
    (code = .ok → ∃ cs, Body coded.bytes cs ∧
      (cs.map fun c => hexValue c.digits).sum = p.length ∧ payload cs = p)

theorem sum_hexValue (cs : List Chunk) :
    (cs.map fun c => hexValue c.digits).sum = (payload cs).length := by
  induction cs with
  | nil => rfl
  | cons c cs ih => rw [List.map_cons, List.sum_cons, ih, c.value, payload_cons, List.length_append]

/-- A frame is not shorter than what it carries. -/
theorem length_payload_le_size {coded : Buffer} {cs : List Chunk} (h : Body coded.bytes cs) :
    (payload cs).length ≤ coded.size := by
  obtain ⟨z, -, hbytes⟩ := h
  have hlen := congrArg List.length hbytes
  have hsize : coded.bytes.length ≤ coded.size := List.length_take_le _ _
  have hchunks := length_payload_le cs
  rw [List.length_append] at hlen
  omega

theorem reach_le_of_returns {p : Bytes} {output coded : Buffer}
    (h : (chunkedEncode p output).Returns (.ok (.ok, coded))) :
    reach p ≤ output.size ∧ coded.size = (encoding (seen p)).length % 2 ^ 32 :=
  (chunkedEncode_ok_iff p output coded.size).mp ⟨coded.data, h⟩

/-- A frame of 2^32 bytes or more is reported shorter than its payload. -/
theorem size_lt_of_long {p : Bytes} (h : 2 ^ 32 ≤ (encoding p).length) :
    (encoding (seen p)).length % 2 ^ 32 < p.length := by
  by_cases hp : p.length < 2 ^ 32
  · have hle := length_encoding_le p
    rw [seen_of_lt hp]
    omega
  · omega

theorem not_carriesPayload {p : Bytes} {output : Buffer} (hlong : 2 ^ 32 ≤ (encoding p).length)
    (hreach : reach p ≤ output.size) : ¬ CarriesPayload p output := by
  intro h
  obtain ⟨data, hr⟩ := (chunkedEncode_ok_iff p output _).mpr ⟨hreach, rfl⟩
  obtain ⟨code, coded, hcoded, hcarries⟩ := h _ hr
  cases hcoded
  obtain ⟨cs, hbody, -, hpayload⟩ := hcarries rfl
  have hcarried := length_payload_le_size hbody
  rw [hpayload] at hcarried
  exact absurd hcarried (Nat.not_le.mpr (size_lt_of_long hlong))

/-- A frame shorter than 2^32 bytes is written whole or refused. -/
theorem carriesPayload_of_lt {p : Bytes} (output : Buffer) (h : (encoding p).length < 2 ^ 32) :
    CarriesPayload p output := by
  intro r hr
  have hp : p.length < 2 ^ 32 := (length_le_encoding p).trans_lt h
  rw [← seen_of_lt hp] at h
  obtain ⟨r', hr', hencoded⟩ := chunkedEncode_returns output h
  obtain rfl := hr.unique hr'
  by_cases hfits : (encoding (seen p)).length ≤ output.size
  · obtain ⟨coded, rfl⟩ := hencoded.ok (by simpa using hfits)
    have hbytes := hencoded.bytes
    rw [seen_of_lt hp] at hbytes
    refine ⟨.ok, coded, rfl, fun _ => ⟨splitChunks p, hbytes ▸ body_encoding p, ?_,
      payload_splitChunks p⟩⟩
    rw [sum_hexValue, payload_splitChunks]
  · rw [Encoded, if_neg (by simpa using hfits)] at hencoded
    obtain ⟨buffer, rfl⟩ := hencoded
    exact ⟨.errFormat, buffer, rfl, by simp⟩

/-- The encoder stays inside its buffers and is right about `OK` exactly for frames shorter than
2^32 bytes, and where it refuses the output: as positions count, a chunk ends behind that. -/
theorem carriesPayload_iff (p : Bytes) (output : Buffer) : CarriesPayload p output ↔
    (encoding p).length < 2 ^ 32 ∨ EndsBehind p output.size := by
  constructor
  · intro h
    by_contra! hnot
    obtain ⟨hlong, hroom⟩ := hnot
    obtain ⟨r, hr⟩ := chunkedEncode_total p output
    obtain ⟨code, coded, rfl, -⟩ := h r hr
    by_cases hcode : code = .ok
    · subst hcode
      exact not_carriesPayload hlong (reach_le_of_returns hr).1 h
    · exact hroom (endsBehind_of_error hcode hr)
  · rintro (hshort | hroom)
    · exact carriesPayload_of_lt output hshort
    · intro r hr
      obtain ⟨buffer, hr'⟩ := chunkedEncode_of_endsBehind output hroom
      obtain rfl := hr.unique hr'
      exact ⟨.errFormat, buffer, rfl, by simp⟩

/-- A payload of 2^32 bytes is taken for an empty one, and the frame is a zero chunk. -/
theorem not_carriesPayload_of_length {p : Bytes} {output : Buffer} (hlen : p.length = 2 ^ 32)
    (hfits : 5 ≤ output.size) : ¬ CarriesPayload p output := by
  have hseen : seen p = [] := by rw [seen, hlen, Nat.mod_self, List.take_zero]
  have hempty : (encoding []).length = 5 := by rw [encoding, splitChunks_nil]; rfl
  refine not_carriesPayload (hlen ▸ length_le_encoding p) ?_
  rwa [reach_eq_of_lt (by rw [hseen, hempty]; decide), hseen, hempty]

theorem not_carriesPayload_zeros :
    ¬ CarriesPayload (List.replicate (2 ^ 32) 0) (Buffer.ofBlock (List.replicate 5 0)) :=
  not_carriesPayload_of_length List.length_replicate (Nat.le_refl 5)

end Federated.Framer
