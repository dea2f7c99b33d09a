import Federated.Crypto.ChaCha20
import Federated.Crypto.Rfc8439
import Mathlib.Logic.Function.Basic
import Mathlib.Tactic.FinCases

/-!
# ChaCha20 by position

The block function is that of RFC 8439, and each byte of a result depends on its
position alone: on the block its index falls into, counted from the counter of
the key buffer, and its place there. So decrypting undoes encrypting, and data
can be cut at any block.
-/

namespace Federated.Crypto

open Library Rfc8439

/-! ## Quarter rounds -/

/-- The words of `w` with those on a line of four places replaced by `q`. -/
structure Turned (line : Fin 4 → Fin stateWords) (w : State) (q : Fin 4 → UInt32) (v : State) :
    Prop where
  on_line : ∀ k, v.get (line k) = q k
  off_line : ∀ i, (∀ k, line k ≠ i) → v.get i = w.get i

variable {line : Fin 4 → Fin stateWords} {w v : State} {q : Fin 4 → UInt32}

theorem get_set (v : State) (i j : Fin stateWords) (x : UInt32) :
    (v.set i x i.isLt).get j = if i = j then x else v.get j := by
  change (v.set i x i.isLt)[j.val] = _
  rw [Vector.getElem_set]
  simp only [Fin.ext_iff]
  rfl

theorem Turned.set (h : Turned line w q v) (hline : Function.Injective line) (k : Fin 4)
    (x : UInt32) : Turned line w (Function.update q k x) (v.set (line k) x) where
  on_line j := by
    rw [get_set]
    by_cases hj : j = k
    · subst hj
      simp
    · have hne : line k ≠ line j := fun h => hj (hline h).symm
      rw [if_neg hne, Function.update_of_ne hj, h.on_line j]
  off_line i hi := by
    rw [get_set, if_neg (hi k), h.off_line i hi]

/-- Half a quarter round: two additions and two rotations. -/
def halfRound (a b c d : Fin stateWords) (m n : UInt32) (w : State) : State :=
  let w := w.set a (w.get a + w.get b) a.isLt
  let w := w.set d (rotl (w.get d ^^^ w.get a) m) d.isLt
  let w := w.set c (w.get c + w.get d) c.isLt
  w.set b (rotl (w.get b ^^^ w.get c) n) b.isLt

theorem Turned.write (h : Turned line w q v) (hline : Function.Injective line) (k : Fin 4)
    {x : UInt32} {q' : Fin 4 → UInt32} {v' : State} (hv : v' = v.set (line k) x)
    (hq : q' = Function.update q k x) : Turned line w q' v' := by
  rw [hv, hq]
  exact h.set hline k x

theorem Turned.halfRound (hline : Function.Injective line) {a b c d : UInt32} (m n : UInt32)
    (h : Turned line w ![a, b, c, d] v) :
    Turned line w ![a + b, rotl (b ^^^ (c + rotl (d ^^^ (a + b)) m)) n,
      c + rotl (d ^^^ (a + b)) m, rotl (d ^^^ (a + b)) m]
      (halfRound (line 0) (line 1) (line 2) (line 3) m n v) := by
  obtain ⟨v1, hv1⟩ : ∃ v1, v1 = v.set (line 0) (v.get (line 0) + v.get (line 1)) := ⟨_, rfl⟩
  have h1 : Turned line w ![a + b, b, c, d] v1 := by
    refine h.write hline 0 hv1 ?_
    rw [h.on_line 0, h.on_line 1]
    funext k
    fin_cases k <;> rfl
  obtain ⟨v2, hv2⟩ : ∃ v2, v2 = v1.set (line 3) (rotl (v1.get (line 3) ^^^ v1.get (line 0)) m) :=
    ⟨_, rfl⟩
  have h2 : Turned line w ![a + b, b, c, rotl (d ^^^ (a + b)) m] v2 := by
    refine h1.write hline 3 hv2 ?_
    rw [h1.on_line 3, h1.on_line 0]
    funext k
    fin_cases k <;> rfl
  obtain ⟨v3, hv3⟩ : ∃ v3, v3 = v2.set (line 2) (v2.get (line 2) + v2.get (line 3)) := ⟨_, rfl⟩
  have h3 : Turned line w
      ![a + b, b, c + rotl (d ^^^ (a + b)) m, rotl (d ^^^ (a + b)) m] v3 := by
    refine h2.write hline 2 hv3 ?_
    rw [h2.on_line 2, h2.on_line 3]
    funext k
    fin_cases k <;> rfl
  have hhalf : Crypto.halfRound (line 0) (line 1) (line 2) (line 3) m n v =
      v3.set (line 1) (rotl (v3.get (line 1) ^^^ v3.get (line 2)) n) := by
    rw [hv3, hv2, hv1]
    rfl
  refine h3.write hline 1 hhalf ?_
  rw [h3.on_line 1, h3.on_line 2]
  funext k
  fin_cases k <;> rfl

/-- The quarter round replaces the words on its line. -/
theorem turned_quarterRound (hline : Function.Injective line) (w : State) :
    Turned line w (Rfc8439.quarterRound fun k => w[line k])
      (Crypto.quarterRound w (line 0) (line 1) (line 2) (line 3)) := by
  have h0 : Turned line w ![w[line 0], w[line 1], w[line 2], w[line 3]] w := by
    refine ⟨fun k => ?_, fun _ _ => rfl⟩
    fin_cases k <;> rfl
  exact (h0.halfRound hline 16 12).halfRound hline 8 7

/-! ## Rounds -/

/-- The place of a word in the state. -/
def cell (r c : Fin 4) : Fin stateWords := ⟨4 * r.val + c.val, by unfold stateWords; omega⟩

/-- The words of a state in a square. -/
def toSquare (s : State) : Square := fun r c => s[cell r c]

theorem cell_inj {r c r' c' : Fin 4} : cell r c = cell r' c' ↔ r = r' ∧ c = c' := by
  simp only [cell, Fin.ext_iff]
  omega

/-- Quarter rounds on four lines, one after the other. -/
def roundOn (lines : Fin 4 → Fin 4 → Fin stateWords) (w : State) : State :=
  let turn (w : State) (c : Fin 4) : State :=
    Crypto.quarterRound w (lines c 0) (lines c 1) (lines c 2) (lines c 3)
  turn (turn (turn (turn w 0) 1) 2) 3

/-- On lines without a common place the quarter rounds do not disturb each other. -/
theorem getElem_roundOn {lines : Fin 4 → Fin 4 → Fin stateWords}
    (hlines : ∀ {c d j k}, lines c j = lines d k → c = d ∧ j = k) (w : State) (c k : Fin 4) :
    (roundOn lines w)[lines c k] = Rfc8439.quarterRound (fun j => w[lines c j]) k := by
  have hline (c : Fin 4) : Function.Injective (lines c) := fun _ _ h => (hlines h).2
  have hturn (c : Fin 4) (v : State) := turned_quarterRound (hline c) v
  have hon (c : Fin 4) (v : State) (k : Fin 4) :
      (Crypto.quarterRound v (lines c 0) (lines c 1) (lines c 2) (lines c 3))[lines c k] =
        Rfc8439.quarterRound (fun j => v[lines c j]) k :=
    (hturn c v).on_line k
  have hother {c d : Fin 4} (hcd : c ≠ d) (v : State) (k : Fin 4) :
      (Crypto.quarterRound v (lines d 0) (lines d 1) (lines d 2) (lines d 3))[lines c k] =
        v[lines c k] :=
    (hturn d v).off_line _ fun j h => hcd (hlines h).1.symm
  unfold roundOn
  match c with
  | 0 =>
    rw [hother (d := 3) (by decide), hother (d := 2) (by decide), hother (d := 1) (by decide)]
    exact hon 0 w k
  | 1 =>
    rw [hother (d := 3) (by decide), hother (d := 2) (by decide), hon 1]
    simp only [hother (show (1 : Fin 4) ≠ 0 by decide)]
  | 2 =>
    rw [hother (d := 3) (by decide), hon 2]
    simp only [hother (show (2 : Fin 4) ≠ 0 by decide), hother (show (2 : Fin 4) ≠ 1 by decide)]
  | 3 =>
    rw [hon 3]
    simp only [hother (show (3 : Fin 4) ≠ 0 by decide), hother (show (3 : Fin 4) ≠ 1 by decide),
      hother (show (3 : Fin 4) ≠ 2 by decide)]

theorem doubleRound_eq (w : State) : Crypto.doubleRound w =
    roundOn (fun c r => cell r (c + r)) (roundOn (fun c r => cell r c) w) :=
  rfl

theorem toSquare_doubleRound (w : State) :
    toSquare (Crypto.doubleRound w) = Rfc8439.doubleRound (toSquare w) := by
  have hcolumns (w : State) : toSquare (roundOn (fun c r => cell r c) w) =
      columnRound (toSquare w) := by
    funext r c
    exact getElem_roundOn (fun h => (cell_inj.mp h).symm) w c r
  have hdiagonals (w : State) : toSquare (roundOn (fun c r => cell r (c + r)) w) =
      diagonalRound (toSquare w) := by
    funext r c
    have hinj {c d j k : Fin 4} (h : cell j (c + j) = cell k (d + k)) : c = d ∧ j = k := by
      obtain ⟨rfl, h⟩ := cell_inj.mp h
      exact ⟨add_right_cancel h, rfl⟩
    have h := getElem_roundOn hinj w (c - r) r
    simp only [sub_add_cancel] at h
    exact h
  rw [doubleRound_eq, hdiagonals, hcolumns]
  rfl

/-! ## Words and bytes -/

theorem readLe32_eq_word (p : Bytes) (i : Nat) : readLe32 p (4 * i) = word p i := by
  have ha := (p.getD (4 * i) 0).toNat_lt
  have hb := (p.getD (4 * i + 1) 0).toNat_lt
  have hc := (p.getD (4 * i + 2) 0).toNat_lt
  have hd := (p.getD (4 * i + 3) 0).toNat_lt
  unfold readLe32 word
  generalize p.getD (4 * i) 0 = a at *
  generalize p.getD (4 * i + 1) 0 = b at *
  generalize p.getD (4 * i + 2) 0 = c at *
  generalize p.getD (4 * i + 3) 0 = d at *
  have hor {x y : Nat} (n : Nat) (hx : x < 2 ^ n) : x ||| y * 2 ^ n = x + 2 ^ n * y := by
    rw [Nat.or_comm, Nat.mul_comm, ← Nat.two_pow_add_eq_or_of_lt hx, Nat.add_comm]
  have hfit {x n : Nat} (h : x * 2 ^ n < 2 ^ 32) : x * 2 ^ n % 2 ^ 32 = x * 2 ^ n :=
    Nat.mod_eq_of_lt h
  apply UInt32.toNat_inj.mp
  simp only [UInt32.toNat_or, UInt32.toNat_shiftLeft, UInt8.toNat_toUInt32, UInt32.reduceToNat,
    Nat.reduceMod, Nat.shiftLeft_eq]
  rw [hfit (by omega), hfit (by omega), hfit (by omega), hor 8 ha, hor 16 (by omega),
    hor 24 (by omega), UInt32.toNat_ofNat', Nat.mod_eq_of_lt (by omega)]

theorem word_littleEndian (v : UInt32) : word (littleEndian v) 0 = v := by
  have hv := v.toNat_lt
  apply UInt32.toNat_inj.mp
  simp [word, littleEndian, List.range_succ]
  omega

theorem writeLe32_eq (v : UInt32) : writeLe32 v = littleEndian v := by
  have hv := v.toNat_lt
  simp [writeLe32, littleEndian, List.range_succ, ← UInt8.toNat_inj, Nat.shiftRight_eq_div_pow]

theorem word_append_left {a : Bytes} (b : Bytes) {i : Nat} (h : 4 * i + 4 ≤ a.length) :
    word (a ++ b) i = word a i := by
  have hget (j : Nat) (hj : j < a.length) : (a ++ b).getD j 0 = a.getD j 0 := by
    rw [List.getD_eq_getElem?_getD, List.getD_eq_getElem?_getD, List.getElem?_append_left hj]
  simp only [word, hget (4 * i) (by omega), hget (4 * i + 1) (by omega),
    hget (4 * i + 2) (by omega), hget (4 * i + 3) (by omega)]

theorem word_append_right {a : Bytes} (b : Bytes) {n i : Nat} (h : a.length = 4 * n) :
    word (a ++ b) (n + i) = word b i := by
  have hget (j : Nat) : (a ++ b).getD (4 * n + j) 0 = b.getD j 0 := by
    rw [List.getD_eq_getElem?_getD, List.getD_eq_getElem?_getD,
      List.getElem?_append_right (by omega), h, Nat.add_sub_cancel_left]
  simp only [word, Nat.mul_add, Nat.add_assoc, hget]

/-- The state of a key buffer, with any counter, is the input of the block. -/
theorem toSquare_initialState {key : Bytes} (hkey : 44 ≤ key.length) (counter : UInt32) :
    toSquare ((initialState key).set 12 counter) =
      input (key.take 32) ((key.drop 32).take 12) counter := by
  let text := ascii "expand 32-byte k" ++ key.take 32 ++ littleEndian counter ++
    (key.drop 32).take 12
  have hlen : (ascii "expand 32-byte k" ++ key.take 32).length = 4 * 12 := by
    rw [List.length_append, List.length_take_of_le (by omega)]
    rfl
  have hlen' : (ascii "expand 32-byte k" ++ key.take 32 ++ littleEndian counter).length =
      4 * 13 := by
    rw [List.length_append, hlen]
    rfl
  have hleft {i : Nat} (hi : i < 12) :
      word text i = word (ascii "expand 32-byte k" ++ key.take 32) i := by
    rw [word_append_left _ (by omega), word_append_left _ (by omega)]
  have hconst (i : Nat) (hi : i < 4) : word text i = word (ascii "expand 32-byte k") i := by
    rw [hleft (by omega), word_append_left]
    exact Nat.le_trans (by omega) (Nat.le_refl (4 * 4))
  have hkeyWord (j : Nat) (hj : j < 8) : word text (4 + j) = readLe32 key (4 * j) := by
    rw [hleft (by omega), word_append_right (key.take 32) rfl, ← readLe32_eq_word,
      readLe32_take (by omega)]
  have hcounter : word text 12 = counter := by
    rw [word_append_left _ (by omega), word_append_right (i := 0) _ hlen, word_littleEndian]
  have hnonce (j : Nat) (hj : j < 3) : word text (13 + j) = readLe32 (key.drop 32) (4 * j) := by
    rw [word_append_right _ hlen', ← readLe32_eq_word, readLe32_take (by omega)]
  funext r c
  rw [initialState_set]
  fin_cases r <;> fin_cases c
  exacts [(hconst 0 (by decide)).symm, (hconst 1 (by decide)).symm, (hconst 2 (by decide)).symm,
    (hconst 3 (by decide)).symm, (hkeyWord 0 (by decide)).symm, (hkeyWord 1 (by decide)).symm,
    (hkeyWord 2 (by decide)).symm, (hkeyWord 3 (by decide)).symm, (hkeyWord 4 (by decide)).symm,
    (hkeyWord 5 (by decide)).symm, (hkeyWord 6 (by decide)).symm, (hkeyWord 7 (by decide)).symm,
    hcounter.symm, (hnonce 0 (by decide)).symm, (hnonce 1 (by decide)).symm,
    (hnonce 2 (by decide)).symm]

/-- A byte of words that are written one behind the other. -/
theorem getD_flatMap_writeLe32 {n : Nat} (f : Fin n → UInt32) (l : List (Fin n)) {i : Nat}
    (h : i / 4 < l.length) :
    (l.flatMap fun j => writeLe32 (f j)).getD i 0 = (littleEndian (f l[i / 4])).getD (i % 4) 0 := by
  induction l generalizing i with
  | nil => cases h
  | cons j l ih =>
    have hlen : (writeLe32 (f j)).length = 4 := rfl
    rw [List.flatMap_cons, List.getD_eq_getElem?_getD]
    obtain hi | hi := Nat.lt_or_ge i 4
    · have hzero : i / 4 = 0 := by omega
      rw [List.getElem?_append_left (by omega), ← List.getD_eq_getElem?_getD, Nat.mod_eq_of_lt hi]
      simp only [hzero, List.getElem_cons_zero, writeLe32_eq]
    · have hdiv : i / 4 = (i - 4) / 4 + 1 := by omega
      have hmod : i % 4 = (i - 4) % 4 := by omega
      simp only [hdiv, List.length_cons] at h
      rw [List.getElem?_append_right (by omega), hlen, ← List.getD_eq_getElem?_getD,
        ih (by omega), hmod]
      simp only [hdiv, List.getElem_cons_succ]

theorem toSquare_rounds (state : State) (n : Nat) :
    toSquare ((List.range n).foldl (fun w _ => Crypto.doubleRound w) state) =
      Rfc8439.doubleRound^[n] (toSquare state) := by
  induction n with
  | zero => rfl
  | succ n ih =>
    rw [List.range_succ, List.foldl_append, List.foldl_cons, List.foldl_nil, toSquare_doubleRound,
      ih, Function.iterate_succ_apply']

/-- The block function of the source is that of the specification. -/
theorem getD_chacha20Block {key : Bytes} (hkey : 44 ≤ key.length) (counter : UInt32) (i : Fin 64) :
    (chacha20Block ((initialState key).set 12 counter)).getD i 0 =
      blockByte (key.take 32) ((key.drop 32).take 12) counter i := by
  have hi : i.val / 4 < (List.finRange stateWords).length := by
    rw [List.length_finRange]
    exact Nat.div_lt_of_lt_mul i.isLt
  have hcell : cell ⟨i.val / 16, by omega⟩ ⟨i.val / 4 % 4, by omega⟩ =
      (List.finRange stateWords)[i.val / 4] := by
    rw [List.getElem_finRange]
    apply Fin.ext
    simp [cell]
    omega
  have hget (s : State) : s[cell ⟨i.val / 16, by omega⟩ ⟨i.val / 4 % 4, by omega⟩] =
      s[(List.finRange stateWords)[i.val / 4]] :=
    congrArg (fun j : Fin stateWords => s[j]) hcell
  rw [chacha20Block, getD_flatMap_writeLe32 _ _ hi, blockByte, mixed,
    ← toSquare_initialState hkey counter, ← toSquare_rounds, toSquare, toSquare, hget, hget]

/-! ## The law of a position -/

/-- The counter a key buffer starts with. -/
def startCounter (key : Bytes) : UInt32 := if key.length = 48 then word (key.drop 44) 0 else 0

/-- The keystream of a key buffer from a counter on, by position. -/
def streamByte (key : Bytes) (counter : UInt32) (i : Nat) : UInt8 :=
  blockByte (key.take 32) ((key.drop 32).take 12) (counter + UInt32.ofNat (i / 64))
    ⟨i % 64, Nat.mod_lt _ (by decide)⟩

theorem initialState_counter {key : Bytes} (hkey : 44 ≤ key.length) (hkey' : key.length ≤ 48) :
    (initialState key)[12] = startCounter key := by
  have hread : readLe32 key 44 = word (key.drop 44) 0 := by
    have hlen : (key.take 44).length = 4 * 11 := List.length_take_of_le hkey
    rw [← word_append_right (key.drop 44) hlen, List.take_append_drop]
    exact readLe32_eq_word key 11
  rw [startCounter, ← hread]
  change (if key.length ≥ 48 then readLe32 key 44 else 0) = _
  simp only [ge_iff_le, show 48 ≤ key.length ↔ key.length = 48 by omega]

theorem keystream_eq {key : Bytes} (hkey : 44 ≤ key.length) (hkey' : key.length ≤ 48) (i : Nat) :
    keystream (initialState key) i = streamByte key (startCounter key) i := by
  rw [keystream, nextCounter_iterate, initialState_counter hkey hkey']
  exact getD_chacha20Block hkey _ ⟨i % 64, _⟩

/-- The module combines each byte with the keystream of its position. -/
theorem chacha20Crypt_ok {data key : Bytes} {output : Buffer} (hkey : 44 ≤ key.length)
    (hkey' : key.length ≤ 48) (hroom : data.length ≤ output.size) : ∃ result,
      chacha20Crypt data key output = .ok (.ok, result) ∧
        result.bytes = mask (streamByte key (startCounter key)) data := by
  refine ⟨_, chacha20Crypt_eq hkey hkey' hroom, ?_⟩
  rw [bytes_filled, funext (keystream_eq hkey hkey')]

/-- The key buffer for the blocks from a counter on. -/
def keyFrom (key : Bytes) (counter : UInt32) : Bytes := key.take 44 ++ littleEndian counter

theorem length_keyFrom {key : Bytes} (hkey : 44 ≤ key.length) (counter : UInt32) :
    (keyFrom key counter).length = 48 := by
  rw [keyFrom, List.length_append, List.length_take_of_le hkey]
  rfl

/-- Blocks that are counted from later on are those of the same key. -/
theorem streamByte_keyFrom {key : Bytes} (hkey : 44 ≤ key.length) {m : Nat} (i : Nat) :
    streamByte (keyFrom key (startCounter key + UInt32.ofNat m))
      (startCounter (keyFrom key (startCounter key + UInt32.ofNat m))) i =
    streamByte key (startCounter key) (64 * m + i) := by
  generalize hcounter : startCounter key + UInt32.ofNat m = counter
  have htake : (key.take 44).length = 44 := List.length_take_of_le hkey
  have hstart : startCounter (keyFrom key counter) = counter := by
    rw [startCounter, if_pos (length_keyFrom hkey _), keyFrom, List.drop_left' htake,
      word_littleEndian]
  have hfirst : (keyFrom key counter).take 32 = key.take 32 := by
    rw [keyFrom, List.take_append_of_le_length (by omega), List.take_take]
    rfl
  have hsecond : ((keyFrom key counter).drop 32).take 12 = (key.drop 32).take 12 := by
    rw [keyFrom, List.drop_append_of_le_length (by omega), List.drop_take,
      List.take_append_of_le_length (by simp; omega), List.take_take]
    rfl
  have hdiv : (64 * m + i) / 64 = m + i / 64 := by omega
  have hmod : (64 * m + i) % 64 = i % 64 := by omega
  rw [streamByte, hfirst, hsecond, hstart, ← hcounter]
  simp only [streamByte, hdiv, hmod, UInt32.ofNat_add, UInt32.add_assoc]

/-- Every byte of a result is its data byte combined with the byte at its place in the
block its index falls into; decrypting gives the data back; and data that is cut
behind whole blocks is encrypted piece by piece. -/
theorem chacha20Crypt_position {key data : Bytes} {output : Buffer} (hkey : 44 ≤ key.length)
    (hkey' : key.length ≤ 48) (hroom : data.length ≤ output.size) :
    ∃ result, chacha20Crypt data key output = .ok (.ok, result) ∧
      (result.bytes = data.mapIdx fun i b => b ^^^ blockByte (key.take 32) ((key.drop 32).take 12)
        (startCounter key + UInt32.ofNat (i / 64)) ⟨i % 64, Nat.mod_lt _ (by decide)⟩) ∧
      (∀ target : Buffer, data.length ≤ target.size → ∃ plain,
        chacha20Crypt result.bytes key target = .ok (.ok, plain) ∧ plain.bytes = data) ∧
      ∀ a b, data = a ++ b → a.length % 64 = 0 → ∀ outA outB : Buffer, a.length ≤ outA.size →
        b.length ≤ outB.size → ∃ first rest, chacha20Crypt a key outA = .ok (.ok, first) ∧
          chacha20Crypt b (keyFrom key (startCounter key + UInt32.ofNat (a.length / 64))) outB =
            .ok (.ok, rest) ∧ result.bytes = first.bytes ++ rest.bytes := by
  obtain ⟨result, hresult, hbytes⟩ := chacha20Crypt_ok hkey hkey' hroom
  refine ⟨result, hresult, hbytes, ?_, ?_⟩
  · intro target htarget
    have hlen : result.bytes.length ≤ target.size := by rwa [hbytes, length_mask]
    obtain ⟨plain, hplain, hback⟩ := chacha20Crypt_ok hkey hkey' hlen
    exact ⟨plain, hplain, by rw [hback, hbytes, mask_mask]⟩
  · rintro a b rfl hblocks outA outB hA hB
    obtain ⟨first, hfirst, hfirstBytes⟩ := chacha20Crypt_ok hkey hkey' hA
    have hlen := length_keyFrom hkey (startCounter key + UInt32.ofNat (a.length / 64))
    obtain ⟨rest, hrest, hrestBytes⟩ := chacha20Crypt_ok (hlen ▸ by decide) hlen.le hB
    refine ⟨first, rest, hfirst, hrest, ?_⟩
    have hwhole : 64 * (a.length / 64) = a.length := by omega
    rw [hbytes, hfirstBytes, hrestBytes, mask_append, funext (streamByte_keyFrom hkey), hwhole]

/-- Seventy bytes cut behind the first block, with a counter that wraps around between them. -/
theorem chacha20Crypt_position_wraps :
    ∃ first rest whole,
      chacha20Crypt (List.replicate 64 1) (List.replicate 48 255) ⟨[], 64⟩ = .ok (.ok, first) ∧
      chacha20Crypt (List.replicate 6 1) (keyFrom (List.replicate 48 255)
        (startCounter (List.replicate 48 255) + UInt32.ofNat (64 / 64))) ⟨[], 6⟩ =
        .ok (.ok, rest) ∧
      chacha20Crypt (List.replicate 70 1) (List.replicate 48 255) ⟨[], 70⟩ = .ok (.ok, whole) ∧
      whole.bytes = first.bytes ++ rest.bytes := by
  have hkey : 44 ≤ (List.replicate 48 255 : Bytes).length := by decide
  have hroom : (List.replicate 70 1 : Bytes).length ≤ (⟨[], 70⟩ : Buffer).size := by decide
  obtain ⟨whole, hwhole, -, -, hcut⟩ := chacha20Crypt_position hkey (by decide) hroom
  obtain ⟨first, rest, hfirst, hrest, hbytes⟩ := hcut (List.replicate 64 1) (List.replicate 6 1)
    (by decide) (by decide) ⟨[], 64⟩ ⟨[], 6⟩ (by decide) (by decide)
  exact ⟨first, rest, whole, hfirst, hrest, hwhole, hbytes⟩

end Federated.Crypto
