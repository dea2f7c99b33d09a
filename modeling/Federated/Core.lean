import Federated.Library.Marks
import Mathlib.Data.UInt

/-!
# Error codes, buffers and memory blocks

The data every other module shares. A memory block is the list of its bytes. A
`Buffer` is the block behind the pointer together with the `size` field, which
is a capacity when a function is called and the length of its result when it
returns; the null pointer is the empty block. `load` and `store` are the two
directions of `memcpy`, with the bounds a caller is held to; leaving them is a
`Fault`, on which nothing that follows in the source is modelled.
-/

namespace Federated

abbrev Bytes := List UInt8

/-- Four places have a first one, from which their numerals count. -/
instance (priority := high) neZeroFour : NeZero 4 := ⟨by decide⟩

/-- Explicit error codes, no exceptions. -/
inductive ErrorCode where
  | ok
  | errIo
  | errFormat
  | errTimeout
  | errCrypto
  | errUnsupported
  | errAuth
  | errInternal
  | errInvalidArg
  | errOutOfMemory
  | errNotFound
  | errNotInitialized
  deriving DecidableEq, Repr

/-- A memory access outside the bytes the caller handed over. -/
inductive Fault where
  | read
  | write
  deriving DecidableEq, Repr

structure Buffer where
  data : Bytes
  size : Nat
  deriving DecidableEq, Repr

/-- The bytes a reader of the buffer sees. -/
def Buffer.bytes (b : Buffer) : Bytes := b.data.take b.size

/-- A buffer that owns a whole block. -/
def Buffer.ofBlock (block : Bytes) : Buffer := ⟨block, block.length⟩

@[simp] theorem Buffer.size_ofBlock (block : Bytes) : (ofBlock block).size = block.length := rfl
@[simp] theorem Buffer.data_ofBlock (block : Bytes) : (ofBlock block).data = block := rfl

@[simp] theorem Buffer.bytes_ofBlock (block : Bytes) : (ofBlock block).bytes = block :=
  List.take_length

/-- What a call that fills an output buffer leaves behind. -/
abbrev CallResult := Except Fault (ErrorCode × Buffer)

/-- A call that reports an error has left the output as it was. -/
def Kept (output : Buffer) (r : CallResult) : Prop :=
  ∀ code buffer, r = .ok (code, buffer) → code ≠ .ok → buffer = output

section Kept

variable {output : Buffer}

@[simp] theorem kept_unchanged (code : ErrorCode) : Kept output (.ok (code, output)) := by
  intro code' buffer h _
  cases h
  rfl

@[simp] theorem kept_ok (buffer : Buffer) : Kept output (.ok (.ok, buffer)) := by
  intro code' buffer' h hcode
  cases h
  exact absurd rfl hcode

@[simp] theorem kept_fault (f : Fault) : Kept output (.error f) := by
  intro code buffer h
  cases h

theorem kept_ite {c : Prop} [Decidable c] {r r' : CallResult} (h : Kept output r)
    (h' : Kept output r') : Kept output (if c then r else r') := by
  split <;> assumption

end Kept

/-- Overwrite the bytes of `block` from `offset` on. -/
def overwrite (block : Bytes) (offset : Nat) (src : Bytes) : Bytes :=
  block.take offset ++ src ++ block.drop (offset + src.length)

/-- Read `len` bytes at `offset`, all of which must lie in the block. -/
def load (block : Bytes) (offset len : Nat) : Except Fault Bytes :=
  if offset + len ≤ block.length then .ok ((block.drop offset).take len) else .error .read

/-- Write `src` at `offset` of a block of `capacity` bytes. -/
def store (capacity : Nat) (block : Bytes) (offset : Nat) (src : Bytes) : Except Fault Bytes :=
  if offset + src.length ≤ capacity then .ok (overwrite block offset src) else .error .write

/-- Go on with the value that a step returned. -/
@[simp] theorem ok_bind {ε α β : Type} (a : α) (f : α → Except ε β) : (Except.ok a >>= f) = f a :=
  rfl

theorem load_middle (a b c : Bytes) {offset len : Nat} (ha : a.length = offset)
    (hb : b.length = len) : load (a ++ b ++ c) offset len = .ok b := by
  subst ha hb
  rw [load, if_pos (by simp)]
  simp

/-- Overwriting right behind a prefix that was written before extends the prefix. -/
theorem overwrite_append (written block src : Bytes) :
    overwrite (written ++ block.drop written.length) written.length src =
      written ++ src ++ block.drop (written.length + src.length) := by
  simp [overwrite, List.drop_drop]

/-- A write behind what was written before stays inside a block that has room for it. -/
theorem store_written (capacity : Nat) (written src block : Bytes)
    (h : written.length + src.length ≤ capacity) :
    store capacity (written ++ block.drop written.length) written.length src =
      .ok (written ++ src ++ block.drop (written ++ src).length) := by
  rw [store, if_pos h, overwrite_append, List.length_append]

@[simp] theorem Buffer.bytes_written (written rest : Bytes) :
    (Buffer.mk (written ++ rest) written.length).bytes = written := by
  simp [Buffer.bytes]

/-- The output after a call that has written `result` at its front. -/
def filled (output : Buffer) (result : Bytes) : Buffer :=
  ⟨overwrite output.data 0 result, result.length⟩

@[simp] theorem bytes_filled (output : Buffer) (result : Bytes) :
    (filled output result).bytes = result := by
  simp [filled, overwrite, Buffer.bytes]

@[simp] theorem size_filled (output : Buffer) (result : Bytes) :
    (filled output result).size = result.length := rfl

/-- Check a statement about every byte. -/
theorem forall_byte {p : UInt8 → Prop} [DecidablePred p]
    (h : ((List.range 256).all fun n => p (UInt8.ofNat n)) = true) (c : UInt8) : p c := by
  have hc := List.all_eq_true.mp h c.toNat (List.mem_range.mpr c.toNat_lt)
  rw [UInt8.ofNat_toNat] at hc
  exact of_decide_eq_true hc

/-! ## Text -/

/-- ASCII text as bytes. -/
def ascii (text : String) : Bytes := text.toList.map fun c => c.toNat.toUInt8

/-- The C string that starts a character array: its bytes before the first NUL. -/
def cstr (chars : Bytes) : Bytes := chars.takeWhile (· ≠ 0)

theorem zero_notMem_cstr (s : Bytes) : 0 ∉ cstr s := Library.notMem_takeWhile_ne s

/-- Text without a NUL is a C string as it stands. -/
theorem cstr_eq_self {s : Bytes} (h : 0 ∉ s) : cstr s = s := Library.takeWhile_ne_self h

/-- An array of `n` characters: those written in front of a terminator. -/
structure CharArray (n : Nat) where
  chars : Bytes
  fits : chars.length ≤ n - 1
  deriving DecidableEq, Repr

namespace CharArray

variable {n : Nat}

/-- The C string in the array. -/
def str (a : CharArray n) : Bytes := cstr a.chars

theorem zero_notMem_str (a : CharArray n) : 0 ∉ a.str := zero_notMem_cstr _

theorem length_str_le (a : CharArray n) : a.str.length ≤ n - 1 :=
  ((List.takeWhile_sublist _).length_le).trans a.fits

variable (n)

/-- Write as many characters as the array holds with its terminator. -/
def fill (src : Bytes) : CharArray n where
  chars := src.take (n - 1)
  fits := List.length_take_le _ _

/-- Text without a NUL is read back as far as it fits. -/
theorem str_fill {src : Bytes} (h : 0 ∉ src) : (fill n src).str = src.take (n - 1) :=
  cstr_eq_self fun hmem => h (List.mem_of_mem_take hmem)

def empty : CharArray n := fill n []

/-- Copy as much of a C string as the array holds (`strncpy`, and a terminator behind it). -/
def copy (src : Bytes) : CharArray n := fill n (cstr src)

theorem str_copy {src : Bytes} (h : 0 ∉ src) : (copy n src).str = src.take (n - 1) := by
  rw [copy, cstr_eq_self h, str_fill n h]

end CharArray

/-- Format `text` into a block (`snprintf`): as much as fits, and a NUL. A text that an `int`
cannot count is an error, and nothing is promised of the block. -/
def snprintf (block text : Bytes) : Option Bytes :=
  if text.length < 2 ^ 31 then
    some (if block = [] then [] else overwrite block 0 (text.take (block.length - 1) ++ [0]))
  else none

end Federated
