import Federated.Service.Http
import Federated.Library.Traced
import Mathlib.Data.List.Find

/-!
# What handling a request reads

The request as memory behind a pointer, of which the first `size` bytes are its own.
Every index that is read is recorded. The bound of the loop that looks for the end of
the first line is one less than the size, as a 64-bit number.
-/

namespace Federated.Service

open Library

/-- The memory behind a pointer. -/
abbrev Memory := Nat → UInt8

variable {α : Type}

/-- The first bytes from an index on. -/
def Memory.slice (mem : Memory) (i n : Nat) : Bytes := (List.range' i n).map mem

def Memory.byteAt (mem : Memory) (i : Nat) : Traced Nat UInt8 := .read i (mem i)

/-- The loop that looks for the end of the first line, from `i` on. -/
def lineEndFrom (mem : Memory) : (left i : Nat) → Traced Nat (Option Nat)
  | 0, _ => pure none
  | left + 1, i => do
    let c ← mem.byteAt i
    if c = 13 then
      let d ← mem.byteAt (i + 1)
      if d = 10 then return some (i + 2)
      else lineEndFrom mem left (i + 1)
    else lineEndFrom mem left (i + 1)

/-- The characters up to the first that `stop` accepts, and the index of it. -/
def tokenFrom (stop : UInt8 → Bool) (mem : Memory) : (left i : Nat) → Traced Nat (Bytes × Nat)
  | 0, i => return ([], i)
  | left + 1, i => do
    let c ← mem.byteAt i
    if stop c then return ([], i)
    else
      let (rest, j) ← tokenFrom stop mem left (i + 1)
      return (c :: rest, j)

/-- Parse the request line in the first `size` bytes. -/
def parseRequestLineAt (mem : Memory) (size : Nat) (req : HttpRequest) :
    Traced Nat (Option HttpRequest) :=
  if size = 0 then return none
  else do
    let (method, i) ← tokenFrom isBlank mem size 0
    if i ≥ size then return none
    let (path, j) ← tokenFrom isBlank mem (size - (i + 1)) (i + 1)
    if j ≥ size then return none
    let (version, _) ← tokenFrom isLineEnd mem (size - (j + 1)) (j + 1)
    return some { req with
      method := .fill 16 method
      path := .fill 512 path
      version := .fill 16 version }

/-- Store the header bytes from an index on. -/
def parseHeadersAt (mem : Memory) (start size : Nat) (req : HttpRequest) :
    Traced Nat HttpRequest :=
  if size > 2048 - 1 then return req
  else .readAll (List.range' start size) (parseHttpHeaders (mem.slice start size) req).2

def blankRequest : HttpRequest := ⟨.empty 16, .empty 512, .empty 16, .empty 2048⟩

def readHttpRequestAt (mem : Memory) (size : UInt64) : Traced Nat (Option HttpRequest) := do
  let some lineEnd ← lineEndFrom mem (size - 1).toNat 0 | return none
  let some req ← parseRequestLineAt mem (lineEnd - 2) blankRequest | return none
  if lineEnd < size.toNat then
    let req ← parseHeadersAt mem lineEnd (size.toNat - lineEnd) req
    return some req
  else return some req

/-- Handle the request in the first `size` bytes. -/
def handleRequestAt (fs : FileSystem) (config : HttpServerConfig) (mem : Memory) (size : UInt64)
    (response : Buffer) : Traced Nat (ErrorCode × Buffer × Option Bytes) := do
  let some req ← readHttpRequestAt mem size | return (.errFormat, response, none)
  let (resp, opened) := httpServe fs config req
  let (code, response) := buildHttpResponse resp response
  return (code, response, opened)

/-! ## The loops -/

variable {mem : Memory} {size : Nat}

/-- The loop reads no further than one byte behind its last pass. -/
theorem within_lineEndFrom (left i : Nat) (h : i + left < size) :
    (lineEndFrom mem left i).Within (· < size) := by
  induction left generalizing i with
  | zero => exact Traced.within_pure none
  | succ left ih =>
    have hrest := ih (i + 1) (by omega)
    rw [lineEndFrom, Traced.within_bind]
    refine ⟨Traced.within_read.mpr (by omega), ?_⟩
    split
    · rw [Traced.within_bind]
      refine ⟨Traced.within_read.mpr (by omega), ?_⟩
      split
      · exact Traced.within_pure _
      · exact hrest
    · exact hrest

theorem within_tokenFrom (stop : UInt8 → Bool) (left i : Nat) (h : i + left ≤ size) :
    (tokenFrom stop mem left i).Within (· < size) := by
  induction left generalizing i with
  | zero => exact Traced.within_pure _
  | succ left ih =>
    rw [tokenFrom, Traced.within_bind]
    refine ⟨Traced.within_read.mpr (by omega), ?_⟩
    split
    · exact Traced.within_pure _
    · rw [Traced.within_bind]
      exact ⟨ih (i + 1) (by omega), Traced.within_pure _⟩

/-- The loop finds the first line end. -/
theorem value_lineEndFrom (left i : Nat) : (lineEndFrom mem left i).value =
    ((List.range' i left).find? fun i => mem i = 13 ∧ mem (i + 1) = 10).map (· + 2) := by
  induction left generalizing i with
  | zero => rfl
  | succ left ih =>
    rw [lineEndFrom, List.range'_succ, List.find?_cons]
    simp only [Traced.value_bind, Memory.byteAt, Traced.value_read]
    by_cases hc : mem i = 13
    · by_cases hd : mem (i + 1) = 10
      · simp [hc, hd]
      · simp [hc, hd, ih]
    · simp [hc, ih]

/-- The loop finds what `token` does, and stays within what is left. -/
theorem value_tokenFrom (stop : UInt8 → Bool) (left i : Nat) :
    (tokenFrom stop mem left i).value =
      ((token stop (mem.slice i left)).1, i + (token stop (mem.slice i left)).1.length) := by
  induction left generalizing i with
  | zero => rfl
  | succ left ih =>
    rw [tokenFrom, Memory.slice, List.range'_succ, List.map_cons]
    simp only [Traced.value_bind, Memory.byteAt, Traced.value_read, token]
    by_cases hstop : stop (mem i) = true
    · simp [List.span_eq_takeWhile_dropWhile, hstop]
    · have hrest := ih (i + 1)
      simp only [Memory.slice, token] at hrest
      simp [List.span_eq_takeWhile_dropWhile, hstop, hrest]
      omega

/-! ## Slices -/

namespace Memory

@[simp] theorem length_slice (i n : Nat) : (mem.slice i n).length = n := by
  simp [slice]

@[simp] theorem slice_zero (i : Nat) : mem.slice i 0 = [] := rfl

theorem slice_succ (i n : Nat) : mem.slice i (n + 1) = mem i :: mem.slice (i + 1) n := rfl

@[simp] theorem getElem_slice {i n k : Nat} (h : k < (mem.slice i n).length) :
    (mem.slice i n)[k] = mem (i + k) := by
  simp [slice]

theorem drop_slice (i n k : Nat) : (mem.slice i n).drop k = mem.slice (i + k) (n - k) :=
  List.ext_getElem (by simp) fun j _ _ => by simp [Nat.add_assoc]

theorem take_slice (i : Nat) {n k : Nat} (h : k ≤ n) : (mem.slice i n).take k = mem.slice i k :=
  List.ext_getElem (by simp [h]) fun j _ _ => by simp

/-- A token is a front of the slice, and leaves the slice behind it. -/
theorem token_slice (stop : UInt8 → Bool) (i n : Nat) : ∃ t : Bytes, t.length ≤ n ∧
    token stop (mem.slice i n) = (t, mem.slice (i + t.length) (n - t.length)) := by
  have happend : (token stop (mem.slice i n)).1 ++ (token stop (mem.slice i n)).2 =
      mem.slice i n := by
    rw [token, List.span_eq_takeWhile_dropWhile, List.takeWhile_append_dropWhile]
  refine ⟨(token stop (mem.slice i n)).1, ?_, Prod.ext rfl ?_⟩
  · have hlength := congrArg List.length happend
    rw [List.length_append, length_slice] at hlength
    omega
  · have hdrop := congrArg (List.drop (token stop (mem.slice i n)).1.length) happend
    rwa [List.drop_left, drop_slice] at hdrop

end Memory

/-! ## Parsing -/

/-- A token that is read lies in what is left, and is the one of the slice. -/
theorem tokenFrom_spec (mem : Memory) (stop : UInt8 → Bool) {i n : Nat} (h : i + n ≤ size) :
    ∃ t : Bytes, t.length ≤ n ∧ (tokenFrom stop mem n i).Within (· < size) ∧
      (tokenFrom stop mem n i).value = (t, i + t.length) ∧
      token stop (mem.slice i n) = (t, mem.slice (i + t.length) (n - t.length)) := by
  obtain ⟨t, hlength, htoken⟩ := mem.token_slice stop i n
  refine ⟨t, hlength, within_tokenFrom stop n i h, ?_, htoken⟩
  rw [value_tokenFrom, htoken]

/-- Behind a token there is nothing, or the character that stopped it. -/
theorem Memory.slice_behind (mem : Memory) (i size : Nat) :
    (i ≥ size ∧ mem.slice i (size - i) = []) ∨
      (i + 1 ≤ size ∧ mem.slice i (size - i) = mem i :: mem.slice (i + 1) (size - (i + 1))) := by
  by_cases hend : i ≥ size
  · exact .inl ⟨hend, by rw [Nat.sub_eq_zero_of_le hend]; rfl⟩
  · obtain ⟨k, hk⟩ : ∃ k, size - i = k + 1 := ⟨size - i - 1, by omega⟩
    have hk' : size - (i + 1) = k := by omega
    exact .inr ⟨by omega, by rw [hk, hk', slice_succ]⟩

/-- Parsing the request line reads only the line, and is parsing its bytes. -/
theorem parseRequestLineAt_spec (mem : Memory) (size : Nat) (req : HttpRequest) :
    (parseRequestLineAt mem size req).Within (· < size) ∧
      (parseRequestLineAt mem size req).value = parseHttpRequestLine (mem.slice 0 size) req := by
  rw [parseRequestLineAt, parseHttpRequestLine, Memory.length_slice]
  split_ifs with hsize
  · exact ⟨Traced.within_pure _, rfl⟩
  · obtain ⟨method, hmethod, hwithin, hvalue, htoken⟩ :=
      tokenFrom_spec mem isBlank (Nat.le_of_eq (Nat.zero_add size))
    rw [Nat.zero_add] at hvalue htoken
    simp only [Traced.within_bind, Traced.value_bind, hwithin, hvalue, htoken, true_and]
    rcases mem.slice_behind method.length size with ⟨hend, hnil⟩ | ⟨hmore, hcons⟩
    · rw [if_pos hend, hnil]
      exact ⟨Traced.within_pure _, rfl⟩
    · obtain ⟨path, hpath, hwithin, hvalue, htoken⟩ :=
        tokenFrom_spec mem isBlank (Nat.le_of_eq (Nat.add_sub_cancel' hmore))
      have hleft : size - (method.length + 1) - path.length =
          size - (method.length + 1 + path.length) := by omega
      rw [hleft] at htoken
      rw [if_neg (by omega), hcons]
      simp only [Traced.within_bind, Traced.value_bind, hwithin, hvalue, htoken, true_and]
      rcases mem.slice_behind (method.length + 1 + path.length) size with
        ⟨hend, hnil⟩ | ⟨hmore, hcons⟩
      · rw [if_pos hend, hnil]
        exact ⟨Traced.within_pure _, rfl⟩
      · obtain ⟨version, hversion, hwithin, hvalue, htoken⟩ :=
          tokenFrom_spec mem isLineEnd (Nat.le_of_eq (Nat.add_sub_cancel' hmore))
        rw [if_neg (by omega), hcons]
        simp only [Traced.within_bind, Traced.value_bind, hwithin, hvalue, htoken, true_and]
        exact ⟨Traced.within_pure _, rfl⟩

theorem parseHeadersAt_spec (mem : Memory) (start n : Nat) (req : HttpRequest) :
    (parseHeadersAt mem start n req).Within (· < start + n) ∧
      (parseHeadersAt mem start n req).value = (parseHttpHeaders (mem.slice start n) req).2 := by
  rw [parseHeadersAt]
  split_ifs with hlong
  · have hlength : (mem.slice start n).length > 2048 - 1 := by rwa [Memory.length_slice]
    exact ⟨Traced.within_pure _, by rw [parseHttpHeaders, dif_pos hlength]; rfl⟩
  · refine ⟨Traced.within_readAll.mpr fun i hi => ?_, rfl⟩
    rw [List.mem_range'_1] at hi
    exact hi.2

/-! ## Requests -/

theorem Memory.getElem?_slice_zero (mem : Memory) {i n : Nat} (h : i < n) :
    (mem.slice 0 n)[i]? = some (mem i) := by
  rw [List.getElem?_eq_getElem (by simpa using h), getElem_slice, Nat.zero_add]

/-- The first line end of a request that is not empty. -/
theorem requestLineEnd_slice (mem : Memory) {size : Nat} (hsize : size ≠ 0) :
    requestLineEnd (mem.slice 0 size) = .ok (lineEndFrom mem (size - 1) 0).value := by
  have hne : mem.slice 0 size ≠ [] := by
    rw [← List.length_pos_iff, Memory.length_slice]
    omega
  rw [requestLineEnd, if_neg hne, value_lineEndFrom, Memory.length_slice, List.range_eq_range']
  congr 2
  refine List.find?_congr fun i hi => ?_
  rw [List.mem_range'_1] at hi
  rw [mem.getElem?_slice_zero (by omega), mem.getElem?_slice_zero (by omega)]
  simp

theorem lineEnd_le {left lineEnd : Nat} (h : (lineEndFrom mem left 0).value = some lineEnd) :
    2 ≤ lineEnd ∧ lineEnd ≤ left + 1 := by
  rw [value_lineEndFrom, Option.map_eq_some_iff] at h
  obtain ⟨i, hfind, rfl⟩ := h
  have hi := List.mem_range'_1.mp (List.mem_of_find?_eq_some hfind)
  omega

/-- The bound of the loop does not wrap around where there is a byte. -/
theorem toNat_sub_one {size : UInt64} (h : size ≠ 0) :
    size.toNat ≠ 0 ∧ (size - 1).toNat = size.toNat - 1 := by
  have hpos : size.toNat ≠ 0 := fun hzero => h (UInt64.toNat_inj.mp hzero)
  have hle : 1 ≤ size := UInt64.le_iff_toNat_le.mpr (Nat.pos_of_ne_zero hpos)
  exact ⟨hpos, UInt64.toNat_sub_of_le _ _ hle⟩

/-- A request that is not empty is read within its bounds, as the request that its bytes
stand for. -/
theorem readHttpRequestAt_spec (mem : Memory) {size : UInt64} (hsize : size ≠ 0) :
    (readHttpRequestAt mem size).Within (· < size.toNat) ∧
      readHttpRequest (mem.slice 0 size.toNat) = .ok (readHttpRequestAt mem size).value := by
  obtain ⟨hpos, hbound⟩ := toNat_sub_one hsize
  have hscan : (lineEndFrom mem (size.toNat - 1) 0).Within (· < size.toNat) :=
    within_lineEndFrom (size.toNat - 1) 0 (by omega)
  rw [readHttpRequestAt, readHttpRequest, requestLineEnd_slice mem hpos, hbound, ok_bind]
  simp only [Traced.within_bind, Traced.value_bind, hscan, true_and]
  cases hend : (lineEndFrom mem (size.toNat - 1) 0).value with
  | none => exact ⟨Traced.within_pure _, rfl⟩
  | some lineEnd =>
    obtain ⟨htwo, hle⟩ := lineEnd_le hend
    obtain ⟨hwithin, hvalue⟩ := parseRequestLineAt_spec mem (lineEnd - 2) blankRequest
    have hline : (parseRequestLineAt mem (lineEnd - 2) blankRequest).Within (· < size.toNat) :=
      fun i hi => Nat.lt_of_lt_of_le (hwithin i hi) (by omega)
    simp only [Traced.within_bind, Traced.value_bind, hline, true_and, hvalue]
    rw [mem.take_slice 0 (by omega), Memory.length_slice, mem.drop_slice, Nat.zero_add]
    have hblank : (⟨.empty 16, .empty 512, .empty 16, .empty 2048⟩ : HttpRequest) = blankRequest :=
      rfl
    rw [hblank]
    cases hparse : parseHttpRequestLine (mem.slice 0 (lineEnd - 2)) blankRequest with
    | none => exact ⟨Traced.within_pure _, rfl⟩
    | some req =>
      obtain ⟨hheaders, hheaders'⟩ :=
        parseHeadersAt_spec mem lineEnd (size.toNat - lineEnd) req
      rw [Nat.add_sub_cancel' (by omega)] at hheaders
      dsimp only
      split_ifs with hmore
      · simp only [Traced.within_bind, Traced.value_bind, hheaders, hheaders', true_and]
        exact ⟨Traced.within_pure _, rfl⟩
      · exact ⟨Traced.within_pure _, rfl⟩

/-- A request that is not empty is handled as its bytes are. -/
theorem handleRequestAt_spec (fs : FileSystem) (config : HttpServerConfig) (mem : Memory)
    {size : UInt64} (hsize : size ≠ 0) (response : Buffer) :
    (handleRequestAt fs config mem size response).Within (· < size.toNat) ∧
      handleRequest fs config (mem.slice 0 size.toNat) response =
        .ok (handleRequestAt fs config mem size response).value := by
  obtain ⟨hwithin, hread⟩ := readHttpRequestAt_spec mem hsize
  rw [handleRequestAt, handleRequest, hread, ok_bind]
  simp only [Traced.within_bind, Traced.value_bind, hwithin, true_and]
  cases (readHttpRequestAt mem size).value with
  | none => exact ⟨Traced.within_pure _, rfl⟩
  | some req => exact ⟨Traced.within_pure _, rfl⟩

/-- An empty request is read from its first index on. -/
theorem not_within_handleRequestAt_zero (fs : FileSystem) (config : HttpServerConfig)
    (mem : Memory) (response : Buffer) :
    ¬ (handleRequestAt fs config mem 0 response).Within (· < 0) := by
  intro h
  have hbound : ((0 : UInt64) - 1).toNat = (2 ^ 64 - 2) + 1 := rfl
  rw [handleRequestAt, readHttpRequestAt, hbound, lineEndFrom] at h
  simp only [Traced.within_bind, Memory.byteAt, Traced.within_read] at h
  omega

/-! ## Which requests are read within their bounds -/

/-- There is no line end among the first `size` bytes. -/
def NoLineEnd (mem : Memory) (size : Nat) : Prop :=
  ∀ i, i + 1 < size → ¬ (mem i = 13 ∧ mem (i + 1) = 10)

/-- No byte is read from the size on, and without a line end the request is refused with the
response as it was. -/
structure ReadsSafely (fs : FileSystem) (config : HttpServerConfig) (mem : Memory) (size : UInt64)
    (response : Buffer) : Prop where
  within : (handleRequestAt fs config mem size response).Within (· < size.toNat)
  refused : NoLineEnd mem size.toNat →
    (handleRequestAt fs config mem size response).value = (.errFormat, response, none)

theorem value_of_noLineEnd (fs : FileSystem) (config : HttpServerConfig) {size : UInt64}
    (hsize : size ≠ 0) (hno : NoLineEnd mem size.toNat) (response : Buffer) :
    (handleRequestAt fs config mem size response).value = (.errFormat, response, none) := by
  obtain ⟨hpos, hbound⟩ := toNat_sub_one hsize
  have hnone : (lineEndFrom mem (size - 1).toNat 0).value = none := by
    rw [value_lineEndFrom, Option.map_eq_none_iff, List.find?_eq_none]
    intro i hi
    rw [List.mem_range'_1, hbound] at hi
    simpa using not_and.mp (hno i (by omega))
  rw [handleRequestAt, readHttpRequestAt]
  simp only [Traced.value_bind, hnone]
  rfl

/-- A request is read within its bounds exactly if it is not empty. -/
theorem readsSafely_iff (fs : FileSystem) (config : HttpServerConfig) (mem : Memory)
    (size : UInt64) (response : Buffer) :
    ReadsSafely fs config mem size response ↔ size ≠ 0 := by
  constructor
  · rintro ⟨hwithin, -⟩ rfl
    exact not_within_handleRequestAt_zero fs config mem response hwithin
  · intro hsize
    exact ⟨(handleRequestAt_spec fs config mem hsize response).1,
      fun hno => value_of_noLineEnd fs config hsize hno response⟩

/-- The empty request in front of memory without a line end. -/
theorem not_readsSafely_empty : ¬ ReadsSafely ⟨fun _ => false, fun _ => none⟩
    ⟨.fill 512 (ascii "./www")⟩ (fun _ => 0) 0 (.ofBlock []) := fun h =>
  not_within_handleRequestAt_zero _ _ _ _ h.within

end Federated.Service
