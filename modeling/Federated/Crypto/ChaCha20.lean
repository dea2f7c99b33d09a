import Federated.Crypto.Module
import Mathlib.Data.List.FinRange

/-!
# The ChaCha20 module

The block function on sixteen words, and the loop that combines the data with
one block after the other, counting up a word of the state. As a whole the
module masks the data with a keystream that is determined by the key, the nonce
and the counter.
-/

namespace Federated.Crypto

open Library

/-- The number of words in a state. -/
abbrev stateWords : Nat := 16

abbrev State := Vector UInt32 stateWords

/-- Read a little-endian word at an offset. -/
def readLe32 (p : Bytes) (offset : Nat) : UInt32 :=
  (p.getD offset 0).toUInt32 ||| ((p.getD (offset + 1) 0).toUInt32 <<< 8) |||
    ((p.getD (offset + 2) 0).toUInt32 <<< 16) ||| ((p.getD (offset + 3) 0).toUInt32 <<< 24)

/-- The bytes of a word, the low ones first. -/
def writeLe32 (v : UInt32) : Bytes :=
  [v.toUInt8, (v >>> 8).toUInt8, (v >>> 16).toUInt8, (v >>> 24).toUInt8]

def rotl (v : UInt32) (n : UInt32) : UInt32 := (v <<< n) ||| (v >>> (32 - n))

/-- The quarter round on the words `a`, `b`, `c` and `d` of the state. -/
def quarterRound (w : State) (a b c d : Fin stateWords) : State :=
  let w := w.set a (w[a] + w[b])
  let w := w.set d (rotl (w[d] ^^^ w[a]) 16)
  let w := w.set c (w[c] + w[d])
  let w := w.set b (rotl (w[b] ^^^ w[c]) 12)
  let w := w.set a (w[a] + w[b])
  let w := w.set d (rotl (w[d] ^^^ w[a]) 8)
  let w := w.set c (w[c] + w[d])
  w.set b (rotl (w[b] ^^^ w[c]) 7)

/-- A column round and a diagonal round. -/
def doubleRound (w : State) : State :=
  let w := quarterRound w 0 4 8 12
  let w := quarterRound w 1 5 9 13
  let w := quarterRound w 2 6 10 14
  let w := quarterRound w 3 7 11 15
  let w := quarterRound w 0 5 10 15
  let w := quarterRound w 1 6 11 12
  let w := quarterRound w 2 7 8 13
  quarterRound w 3 4 9 14

/-- A block of 64 keystream bytes. -/
def chacha20Block (state : State) : Bytes :=
  let working := (List.range 10).foldl (fun w _ => doubleRound w) state
  (List.finRange stateWords).flatMap fun i => writeLe32 (working[i] + state[i])

/-- The state a key buffer describes: constants, key, counter and nonce. -/
def initialState (key : Bytes) : State :=
  let counter := if key.length ≥ 48 then readLe32 key 44 else 0
  #v[0x61707865, 0x3320646e, 0x79622d32, 0x6b206574,
    readLe32 key 0, readLe32 key 4, readLe32 key 8, readLe32 key 12,
    readLe32 key 16, readLe32 key 20, readLe32 key 24, readLe32 key 28,
    counter, readLe32 (key.drop 32) 0, readLe32 (key.drop 32) 4, readLe32 (key.drop 32) 8]

def nextCounter (state : State) : State := state.set 12 (state[12] + 1)

/-- The loop over the blocks of the data. -/
def cryptLoop (state : State) (data : Bytes) : Bytes :=
  if _h : data = [] then []
  else xorBytes (data.take 64) (chacha20Block state) ++ cryptLoop (nextCounter state) (data.drop 64)
termination_by data.length
decreasing_by
  have := List.length_pos_iff.mpr _h
  simp
  omega

/-- Encrypt or decrypt `data` into `output`. -/
def chacha20Crypt (data key : Bytes) (output : Buffer) : CallResult :=
  if key.length < 44 ∨ key.length > 48 then .ok (.errCrypto, output)
  else if data.length > output.size then .ok (.errFormat, output)
  else .ok (.ok, filled output (cryptLoop (initialState key) data))

def chacha20Crypto : CryptoModule := ⟨chacha20Crypt, chacha20Crypt⟩

/-- The first block of a well-known key: all zeros. -/
example : (chacha20Block (initialState (List.replicate 44 0))).take 4 =
    [0x76, 0xb8, 0xe0, 0xad] := by
  decide +kernel

/-! ## The keystream -/

/-- The bytes the blocks of a state and the states after it give. -/
def keystream (state : State) (i : Nat) : UInt8 :=
  (chacha20Block (nextCounter^[i / 64] state)).getD (i % 64) 0

@[simp] theorem length_chacha20Block (state : State) : (chacha20Block state).length = 64 := by
  simp [chacha20Block, writeLe32, stateWords]

theorem map_keystream_range (state : State) :
    (List.range 64).map (keystream state) = chacha20Block state := by
  apply List.ext_getElem
  · simp
  · intro i hi _
    have hi : i < 64 := by simpa using hi
    simp [keystream, Nat.div_eq_of_lt hi, Nat.mod_eq_of_lt hi, hi]

theorem keystream_add (state : State) (i : Nat) :
    keystream state (64 + i) = keystream (nextCounter state) i := by
  have hdiv : (64 + i) / 64 = i / 64 + 1 := by omega
  have hmod : (64 + i) % 64 = i % 64 := by omega
  rw [keystream, hdiv, hmod, Function.iterate_succ_apply]
  rfl

/-- The module masks the data with its keystream. -/
theorem cryptLoop_eq (state : State) (data : Bytes) :
    cryptLoop state data = mask (keystream state) data := by
  induction state, data using cryptLoop.induct with
  | case1 state =>
    rw [cryptLoop]
    simp
  | case2 state data h ih =>
    rw [cryptLoop, dif_neg h, ih, mask_split (keystream state) 64 data, map_keystream_range]
    simp only [keystream_add]

theorem chacha20Crypt_eq {data key : Bytes} {output : Buffer} (hkey : 44 ≤ key.length)
    (hkey' : key.length ≤ 48) (hfits : data.length ≤ output.size) :
    chacha20Crypt data key output =
      .ok (.ok, filled output (mask (keystream (initialState key)) data)) := by
  rw [chacha20Crypt, if_neg (by omega), if_neg (by omega), cryptLoop_eq]

/-! ## What a call uses -/

/-- A key, a nonce and a block counter: what one keystream block is made from. -/
structure BlockUse where
  key : Bytes
  nonce : Bytes
  counter : UInt32
  deriving DecidableEq

/-- The state that is handed to the block function. -/
def BlockUse.state (u : BlockUse) : State := (initialState (u.key ++ u.nonce)).set 12 u.counter

/-- The blocks a call on `size` bytes makes, in order. The counter wraps. -/
def blockUses (key : Bytes) (size : Nat) : List BlockUse :=
  (List.range ((size + 63) / 64)).map fun j =>
    ⟨key.take 32, (key.drop 32).take 12, (initialState key)[12] + UInt32.ofNat j⟩

theorem nextCounter_iterate (state : State) (j : Nat) :
    nextCounter^[j] state = state.set 12 (state[12] + UInt32.ofNat j) := by
  induction j with
  | zero => simp
  | succ j ih =>
    rw [Function.iterate_succ_apply', ih, nextCounter]
    simp [UInt32.ofNat_add, UInt32.add_assoc]

theorem cryptLoop_blocks (state : State) (data : Bytes) :
    cryptLoop state data = xorBytes data
      ((List.range ((data.length + 63) / 64)).flatMap fun j =>
        chacha20Block (nextCounter^[j] state)) := by
  induction state, data using cryptLoop.induct with
  | case1 state => simp [cryptLoop, xorBytes]
  | case2 state data h ih =>
    have hpos := List.length_pos_iff.mpr h
    have hcount : (data.length + 63) / 64 = ((data.drop 64).length + 63) / 64 + 1 := by
      rw [List.length_drop]
      omega
    rw [cryptLoop, dif_neg h, ih, hcount, List.range_succ_eq_map, List.flatMap_cons,
      xorBytes_append, List.flatMap_map, Function.iterate_zero_apply, length_chacha20Block]
    rfl

theorem readLe32_take {p : Bytes} {n offset : Nat} (h : offset + 4 ≤ n) :
    readLe32 (p.take n) offset = readLe32 p offset := by
  have hget (i : Nat) (hi : i < n) : (p.take n).getD i 0 = p.getD i 0 := by
    rw [List.getD_eq_getElem?_getD, List.getD_eq_getElem?_getD, List.getElem?_take_of_lt hi]
  simp only [readLe32, hget offset (by omega), hget (offset + 1) (by omega),
    hget (offset + 2) (by omega), hget (offset + 3) (by omega)]

theorem initialState_set (key : Bytes) (counter : UInt32) :
    (initialState key).set 12 counter =
      #v[0x61707865, 0x3320646e, 0x79622d32, 0x6b206574,
        readLe32 key 0, readLe32 key 4, readLe32 key 8, readLe32 key 12,
        readLe32 key 16, readLe32 key 20, readLe32 key 24, readLe32 key 28,
        counter, readLe32 (key.drop 32) 0, readLe32 (key.drop 32) 4, readLe32 (key.drop 32) 8] :=
  rfl

/-- The key and the nonce of a key buffer describe its state up to the counter. -/
theorem initialState_key_nonce (key : Bytes) (counter : UInt32) :
    (initialState (key.take 32 ++ (key.drop 32).take 12)).set 12 counter =
      (initialState key).set 12 counter := by
  have htake : key.take 32 ++ (key.drop 32).take 12 = key.take 44 := by
    rw [← List.take_add]
  have hdrop : (key.take 44).drop 32 = (key.drop 32).take 12 := List.drop_take
  rw [htake, initialState_set, initialState_set, hdrop]
  simp (disch := omega) only [readLe32_take]

theorem map_blockUses (key : Bytes) (size : Nat) :
    (blockUses key size).map BlockUse.state =
      (List.range ((size + 63) / 64)).map fun j => nextCounter^[j] (initialState key) := by
  rw [blockUses, List.map_map]
  apply List.map_congr_left
  intro j _
  rw [nextCounter_iterate]
  exact initialState_key_nonce key _

/-- The data is combined with the blocks of its uses. -/
theorem cryptLoop_uses (key data : Bytes) : cryptLoop (initialState key) data =
    xorBytes data ((blockUses key data.length).flatMap fun u => chacha20Block u.state) := by
  rw [cryptLoop_blocks, ← List.flatMap_map BlockUse.state, map_blockUses, List.flatMap_map]

end Federated.Crypto
