import Federated.Tool.EnvFile

/-!
# Long lines of environment files

A line with more than 511 bytes in front of its newline comes in several pieces. What it
says is what is read from it if the first piece says it already and the others say
nothing, and that depends on where `#`, `=`, the quotes and the newline stand.
-/

namespace Federated.Tool

open Library

/-- The line does not fit the buffer. -/
def IsLong (line : Bytes) : Prop := 511 < (beforeNewline line).length

instance (line : Bytes) : Decidable (IsLong line) := inferInstanceAs (Decidable (_ < _))

/-- The value that a line assigns, without blanks at the front, as far as the first 511 bytes go. -/
def firstValue (line : Bytes) : Bytes :=
  (((line.take 511).dropWhile (· ≠ equalsSign)).drop 1).dropWhile isBlank

/-- An `=` stands in the first 511 bytes, and so much of the value that the array of 256 bytes
is full with it, even without quotes. -/
def FillsValue (line : Bytes) : Prop :=
  equalsSign ∈ line.take 511 ∧
    (if (firstValue line).head?.any isQuote then 257 else 255) ≤ (firstValue line).length

/-- The first 511 bytes say what the line says: it is a comment or no assignment, or they fill
the value. -/
def BeginsRight (line : Bytes) : Prop :=
  line.head? = some hashSign ∨ equalsSign ∉ line ∨ FillsValue line

/-- Of the pieces behind the first 511 bytes, those with an `=` begin with a `#`. -/
def EndsQuietly (line : Bytes) : Prop :=
  ∀ piece ∈ bufferCutter.pieces (line.drop 511), equalsSign ∈ piece → piece.head? = some hashSign

variable {line text : Bytes}

/-! ## The first piece -/

theorem newline_notMem_take (h : IsLong line) : newline ∉ line.take 511 := by
  have hfront : beforeNewline line <+: line := List.takeWhile_prefix _
  rw [← List.prefix_iff_eq_append.mp hfront, List.take_append_of_le_length (Nat.le_of_lt h)]
  exact fun hmem => notMem_takeWhile_ne line (List.mem_of_mem_take hmem)

theorem length_of_isLong (h : IsLong line) : 511 < line.length :=
  h.trans_le (List.takeWhile_prefix _).length_le

theorem pieces_of_isLong (h : IsLong line) :
    bufferCutter.pieces line = line.take 511 :: bufferCutter.pieces (line.drop 511) := by
  have hlength := length_of_isLong h
  have hfront : bufferCutter.front line = line.take 511 :=
    firstLine_of_notMem (newline_notMem_take h)
  have htake : (line.take 511).length = 511 := List.length_take_of_le (Nat.le_of_lt hlength)
  rw [bufferCutter.pieces_of_ne_nil (List.ne_nil_of_length_pos (by omega)), hfront, htake]

theorem parseLine_eq_none_iff : parseLine line = none ↔
    line.head? = some hashSign ∨ line.head? = some newline ∨ equalsSign ∉ line := by
  unfold parseLine
  split_ifs <;> grind

theorem unquote_of_not {c : UInt8} (h : ¬ isQuote c) (value : Bytes) :
    unquote (c :: value) = c :: value :=
  if_neg h

/-- A closing quote behind what the array takes does not count. -/
theorem take_unquote_quote {c : UInt8} {value : Bytes} (h : isQuote c)
    (hlong : 256 ≤ value.length) :
    (unquote (c :: value)).take 255 = value.take 255 := by
  have hunquote : unquote (c :: value) =
      if value.getLast?.any isQuote then value.dropLast else value := if_pos h
  rw [hunquote]
  split
  · rw [List.dropLast_eq_take, List.take_take, Nat.min_eq_left (by omega)]
  · rfl

/-- What stands behind a value that fills the array does not count. -/
theorem fill_unquote_append {value : Bytes}
    (h : (if value.head?.any isQuote then 257 else 255) ≤ value.length) (rest : Bytes) :
    CharArray.fill 256 (unquote (value ++ rest)) = CharArray.fill 256 (unquote value) := by
  have htake : (unquote (value ++ rest)).take 255 = (unquote value).take 255 := by
    cases value with
    | nil => simp at h
    | cons c value =>
      rw [List.head?_cons, Option.any_some, List.length_cons] at h
      rw [List.cons_append]
      by_cases hc : isQuote c
      · rw [if_pos hc] at h
        have hlength : 256 ≤ (value ++ rest).length := by rw [List.length_append]; omega
        rw [take_unquote_quote hc hlength, take_unquote_quote hc (by omega),
          List.take_append_of_le_length (by omega)]
      · rw [if_neg hc] at h
        rw [unquote_of_not hc, unquote_of_not hc]
        have hfull : 255 ≤ (c :: value).length := h
        exact List.take_append_of_le_length hfull
  simp only [CharArray.fill, htake]

theorem parseLine_take_of_fillsValue (h : FillsValue line) (hnew : newline ∉ line.take 511) :
    parseLine (line.take 511) = parseLine line := by
  obtain ⟨heq, hfills⟩ := h
  obtain ⟨key, value, hsplit, hkey⟩ := List.eq_append_cons_of_mem heq
  have hline : line = key ++ equalsSign :: (value ++ line.drop 511) := by
    have hwhole := List.take_append_drop 511 line
    rw [hsplit, List.append_assoc, List.cons_append] at hwhole
    exact hwhole.symm
  have hvalue : firstValue line = value.dropWhile isBlank := by
    rw [firstValue, hsplit, dropWhile_ne_append hkey]
    rfl
  rw [hvalue] at hfills
  rw [hsplit] at hnew
  have hnewKey : newline ∉ key := fun hmem => hnew (List.mem_append_left _ hmem)
  have hnewValue : newline ∉ value.dropWhile isBlank := fun hmem =>
    hnew (by simp [(List.dropWhile_sublist _).mem hmem])
  have hblank : (value ++ line.drop 511).dropWhile isBlank =
      value.dropWhile isBlank ++ line.drop 511 := by
    rw [List.dropWhile_append, if_neg]
    rw [List.isEmpty_iff]
    intro hnil
    simp [hnil] at hfills
  have hbefore (rest : Bytes) : beforeNewline (value.dropWhile isBlank ++ rest) =
      value.dropWhile isBlank ++ beforeNewline rest :=
    List.takeWhile_append_of_pos (forall_ne_of_notMem hnewValue)
  by_cases hcomment : key.head? = some hashSign
  · have hhead (rest : Bytes) : parseLine (key ++ equalsSign :: rest) = none := by
      rw [parseLine_eq_none_iff]
      exact .inl (by simp [hcomment])
    rw [hsplit, hhead]
    conv_rhs => rw [hline, hhead]
  · rw [hsplit, parseLine_assignment hkey hcomment hnewKey]
    conv_rhs => rw [hline, parseLine_assignment hkey hcomment hnewKey, hblank, hbefore]
    rw [beforeNewline_eq_self hnewValue, fill_unquote_append hfills]

/-- The first piece of a line that begins right is read as the line. -/
theorem parseLine_take (h : IsLong line) (hbegins : BeginsRight line) :
    parseLine (line.take 511) = parseLine line := by
  have hnew := newline_notMem_take h
  rcases hbegins with hcomment | hnone | hfills
  · have htake : (line.take 511).head? = some hashSign := by simpa [List.head?_take] using hcomment
    rw [parseLine_eq_none_iff.mpr (.inl htake), parseLine_eq_none_iff.mpr (.inl hcomment)]
  · have htake : equalsSign ∉ line.take 511 := fun hmem => hnone (List.mem_of_mem_take hmem)
    rw [parseLine_eq_none_iff.mpr (.inr (.inr htake)),
      parseLine_eq_none_iff.mpr (.inr (.inr hnone))]
  · exact parseLine_take_of_fillsValue hfills hnew

/-! ## The other pieces -/

/-- A piece that begins with a newline is nothing else. -/
theorem parseLine_piece_eq_none_iff {piece : Bytes} (h : piece ∈ bufferCutter.pieces text) :
    parseLine piece = none ↔ (equalsSign ∈ piece → piece.head? = some hashSign) := by
  have hempty : piece.head? = some newline → equalsSign ∉ piece := by
    intro hhead
    obtain ⟨left, -, rfl⟩ := bufferCutter.exists_front h
    obtain ⟨body, hbody, ⟨hfirst, -⟩ | ⟨rest, hfirst, -⟩⟩ := firstLine_cases (left.take 511)
    · change bufferCutter.front left = body at hfirst
      rw [hfirst] at hhead
      exact absurd (List.mem_of_mem_head? hhead) hbody
    · change bufferCutter.front left = body ++ [newline] at hfirst
      rw [hfirst] at hhead ⊢
      cases body with
      | nil => decide
      | cons c body =>
        obtain rfl : c = newline := by simpa using hhead
        exact absurd List.mem_cons_self hbody
  rw [parseLine_eq_none_iff]
  grind

/-- What is read from a line behind its first piece. -/
def tailVars (line : Bytes) : List EnvVar :=
  if IsLong line then (bufferCutter.pieces (line.drop 511)).filterMap parseLine else []

theorem tailVars_eq_nil_iff : tailVars line = [] ↔ (IsLong line → EndsQuietly line) := by
  unfold tailVars
  split_ifs with hlong
  · rw [List.filterMap_eq_nil_iff]
    simp only [hlong, true_imp_iff, EndsQuietly]
    exact forall₂_congr fun piece hpiece => parseLine_piece_eq_none_iff hpiece
  · simp [hlong]

/-- From a line that begins right its variable is read, and what the other pieces say. -/
theorem pieceVars_eq_append (h : line ∈ lines text) (hbegins : IsLong line → BeginsRight line) :
    pieceVars line = (parseLine line).toList ++ tailVars line := by
  unfold tailVars
  split_ifs with hlong
  · rw [pieceVars, pieces_of_isLong hlong, List.filterMap_cons,
      parseLine_take hlong (hbegins hlong)]
    cases parseLine line <;> rfl
  · rw [pieceVars_of_short h (Nat.le_of_not_lt hlong), List.append_nil]

/-! ## Files -/

theorem flatMap_eq_filterMap {α β : Type*} {f : α → List β} {g : α → Option β} {e : α → List β}
    {l : List α} (h : ∀ x ∈ l, f x = (g x).toList ++ e x) (hnone : ∀ x ∈ l, e x = []) :
    l.flatMap f = l.filterMap g := by
  rw [List.filterMap_eq_flatMap_toList]
  exact List.flatMap_congr fun x hx => by rw [h x hx, hnone x hx, List.append_nil]

/-- Lists that are put together from single members and extras. -/
theorem length_flatMap_eq {α β : Type*} {f : α → List β} {g : α → Option β} {e : α → List β}
    {l : List α} (h : ∀ x ∈ l, f x = (g x).toList ++ e x) :
    (l.flatMap f).length = (l.filterMap g).length + (l.flatMap e).length := by
  induction l with
  | nil => rfl
  | cons x l ih =>
    rw [List.forall_mem_cons] at h
    rw [List.flatMap_cons, List.flatMap_cons, List.length_append, List.length_append, ih h.2, h.1,
      List.length_append]
    cases hx : g x with
    | none => rw [List.filterMap_cons_none hx, Option.toList_none, List.length_nil]; omega
    | some y =>
      rw [List.filterMap_cons_some hx, Option.toList_some, List.length_singleton, List.length_cons]
      omega

/-- What is read from the file, where each long line begins right. -/
theorem pieceVars_lines {content : Bytes}
    (hbegins : ∀ line ∈ lines content, IsLong line → BeginsRight line) : ∀ line ∈ lines content,
      pieceVars line = (parseLine line).toList ++ tailVars line :=
  fun line hline => pieceVars_eq_append hline (hbegins line hline)

/-- A file defines what its lines say if each long line begins right and ends quietly. Where the
long lines begin right and the table does not get full, it does so only then. -/
theorem definesLines_of_long {content : Bytes} (hnul : 0 ∉ content)
    (hfew : ((lines content).filterMap parseLine).length ≤ maxEnvVars) :
    ((∀ line ∈ lines content, IsLong line → BeginsRight line ∧ EndsQuietly line) →
      DefinesLines content) ∧
    (((lines content).filterMap parseLine).length < maxEnvVars →
      (∀ line ∈ lines content, IsLong line → BeginsRight line) →
      (DefinesLines content ↔ ∀ line ∈ lines content, IsLong line → EndsQuietly line)) := by
  have henough (hbegins : ∀ line ∈ lines content, IsLong line → BeginsRight line)
      (hends : ∀ line ∈ lines content, IsLong line → EndsQuietly line) : DefinesLines content := by
    rw [definesLines_iff_pieces hnul, flatMap_eq_filterMap (pieceVars_lines hbegins)
      fun line hline => tailVars_eq_nil_iff.mpr (hends line hline)]
    exact List.take_of_length_le hfew
  refine ⟨fun h => henough (fun line hline hlong => (h line hline hlong).1)
    fun line hline hlong => (h line hline hlong).2, fun hroom hbegins => ⟨?_, henough hbegins⟩⟩
  -- a variable too many would be seen, since the table has room for one more
  intro hdefines line hline
  have hlength := congrArg List.length ((definesLines_iff_pieces hnul).mp hdefines)
  rw [List.length_take, length_flatMap_eq (pieceVars_lines hbegins)] at hlength
  have hnil : (lines content).flatMap tailVars = [] := List.length_eq_zero_iff.mp (by omega)
  exact tailVars_eq_nil_iff.mp (List.flatMap_eq_nil_iff.mp hnil line hline)

/-- An assignment that is longer than the buffer, and whose value is longer than its array. -/
def longValue : Bytes := ascii "A=" ++ List.replicate 600 98

theorem mem_of_mem_longValue {c : UInt8} (h : c ∈ longValue) : c ∈ ascii "A=b" := by
  obtain hfront | hback := List.mem_append.mp h
  · exact List.mem_append_left (ascii "b") hfront
  · rw [List.eq_of_mem_replicate hback]
    decide

theorem definesLines_longValue : DefinesLines longValue := by
  have hne : longValue ≠ [] := List.append_ne_nil_of_left_ne_nil (by decide) _
  have hline : newline ∉ longValue := fun hmem => absurd (mem_of_mem_longValue hmem) (by decide)
  have hlines : lines longValue = [longValue] :=
    lineCutter.pieces_eq_singleton hne (firstLine_of_notMem hline)
  have hnul : 0 ∉ longValue := fun hmem => absurd (mem_of_mem_longValue hmem) (by decide)
  have htake : longValue.take 511 = ascii "A=" ++ List.replicate 509 98 := by
    rw [longValue, List.take_append, List.take_of_length_le (by decide), List.take_replicate]
    rfl
  have htail : longValue.drop 511 = List.replicate 91 98 := by
    rw [longValue, List.drop_append, List.drop_of_length_le (by decide), List.drop_replicate]
    rfl
  have hvalue : firstValue longValue = List.replicate 509 98 := by
    rw [firstValue, htake]
    exact List.dropWhile_cons_of_neg (by decide)
  refine (definesLines_of_long hnul ?_).1 ?_
  · rw [hlines]
    exact (List.length_filterMap_le _ _).trans (by decide)
  rw [hlines, List.forall_mem_singleton]
  refine fun _ => ⟨.inr (.inr ⟨?_, ?_⟩), fun piece hpiece heq => ?_⟩
  · rw [htake]
    exact List.mem_append_left _ (by decide)
  · rw [hvalue, List.length_replicate]
    split <;> decide
  · -- no `=` is left for the second piece
    have hmem : equalsSign ∈ longValue.drop 511 := by
      rw [← bufferCutter.flatten_pieces (longValue.drop 511)]
      exact List.mem_flatten_of_mem hpiece heq
    rw [htail] at hmem
    exact absurd (List.eq_of_mem_replicate hmem) (by decide)

/-- A comment that is longer than the buffer. -/
def longComment : Bytes := List.replicate 511 hashSign ++ ascii "A=1"

/-- Its tail is taken for a line. -/
theorem comment_defines : ¬∀ content : Bytes, 0 ∉ content →
    ((lines content).filterMap parseLine).length ≤ maxEnvVars → DefinesLines content := by
  intro h
  have hfront : newline ∉ List.replicate 511 hashSign := fun hmem =>
    absurd (List.eq_of_mem_replicate hmem) (by decide)
  have hline : newline ∉ longComment := fun hmem =>
    (List.mem_append.mp hmem).elim hfront (by decide)
  have hnul : 0 ∉ longComment := fun hmem => (List.mem_append.mp hmem).elim
    (fun hzero => absurd (List.eq_of_mem_replicate hzero) (by decide)) (by decide)
  have hlength : longComment.length = 514 := by
    rw [longComment, List.length_append, List.length_replicate]
    rfl
  have hne : longComment ≠ [] := List.ne_nil_of_length_pos (by omega)
  have hlines : lines longComment = [longComment] :=
    lineCutter.pieces_eq_singleton hne (firstLine_of_notMem hline)
  have hnone : (lines longComment).filterMap parseLine = [] := by
    rw [hlines]
    rfl
  have hlong : IsLong longComment := by rw [IsLong, beforeNewline_eq_self hline]; omega
  have hdrop : longComment.drop 511 = ascii "A=1" :=
    List.drop_left' List.length_replicate
  have hpieces : pieceVars longComment = (parseLine (ascii "A=1")).toList := by
    have hcomment : parseLine (longComment.take 511) = none :=
      parseLine_eq_none_iff.mpr (.inl rfl)
    rw [pieceVars, pieces_of_isLong hlong, hdrop,
      bufferCutter.pieces_eq_singleton (by decide) (by decide), List.filterMap_cons, hcomment]
    rfl
  have hloaded := (definesLines_iff_pieces hnul).mp (h longComment hnul (by simp [hnone]))
  rw [hlines, List.flatMap_singleton, hpieces, ← hlines, hnone] at hloaded
  exact absurd (congrArg List.length hloaded) (by decide)

end Federated.Tool
