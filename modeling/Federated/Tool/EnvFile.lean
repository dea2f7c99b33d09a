import Federated.Library.Cutting
import Federated.Tool.ParseArgs

/-!
# Environment files

A file is read through a line buffer of 512 bytes, so a line comes in pieces of at
most 511 bytes and each piece is taken for a line of its own. Lines that fit the
buffer define what they say; a longer one defines what its pieces say.
-/

namespace Federated.Tool

open Library

def newline : UInt8 := 10
def hashSign : UInt8 := '#'.toUInt8

/-- A blank or a tab. -/
def isBlank (c : UInt8) : Bool := c = 32 || c = 9

/-- A double or a single quote. -/
def isQuote (c : UInt8) : Bool := c = 34 || c = 39

/-! ## The loader -/

/-- A text up to and including its first newline. -/
def firstLine (text : Bytes) : Bytes :=
  text.takeWhile (· ≠ newline) ++ (text.dropWhile (· ≠ newline)).take 1

/-- What `fgets` puts into the line buffer, without the terminator. -/
def fgets (content : Bytes) : Bytes := firstLine (content.take 511)

/-- Take off a quote at the front, and then one at the end. -/
def unquote (value : Bytes) : Bytes :=
  if value.head?.any isQuote then
    let rest := value.tail
    if rest.getLast?.any isQuote then rest.dropLast else rest
  else value

/-- The variable that the string in the line buffer defines. -/
def parseLine (line : Bytes) : Option EnvVar :=
  if line.head? = some hashSign ∨ line.head? = some newline then none
  else if equalsSign ∉ line then none
  else
    let key := (line.takeWhile (· ≠ equalsSign)).dropWhile isBlank
    let value := ((line.dropWhile (· ≠ equalsSign)).drop 1).dropWhile isBlank
    let value := value.takeWhile (· ≠ newline)
    some ⟨.fill 64 key, .fill 256 (unquote value)⟩

/-- Store a variable while there is room. -/
def Cli.storeVar (cli : Cli) (var : EnvVar) : Cli :=
  if h : cli.envVars.length < maxEnvVars then { cli with
    envVars := cli.envVars ++ [var]
    envFits := by rw [List.length_append]; exact h }
  else cli

theorem firstLine_ne_nil {text : Bytes} (h : text ≠ []) : firstLine text ≠ [] := by
  obtain ⟨c, rest, rfl⟩ := List.exists_cons_of_ne_nil h
  by_cases hc : c = newline <;> simp [firstLine, hc]

theorem fgets_ne_nil {content : Bytes} (h : content ≠ []) : fgets content ≠ [] :=
  firstLine_ne_nil (by simp [h])

/-- The loop over the buffered pieces of the file. -/
def loadLines (content : Bytes) (cli : Cli) : Cli :=
  if _h : content = [] then cli
  else
    let line := fgets content
    loadLines (content.drop line.length) ((parseLine (cstr line)).elim cli cli.storeVar)
termination_by content.length
decreasing_by
  have := List.length_pos_iff.mpr (fgets_ne_nil _h)
  have := List.length_pos_iff.mpr _h
  simp only [List.length_drop]
  omega

/-- Load a file; `none` is a file that cannot be opened. -/
def loadEnvFile (file : Option Bytes) (cli : Cli) : ErrorCode × Cli :=
  match file with
  | none => (.errIo, cli)
  | some content => (.ok, loadLines content cli)

/-! ## Lines and buffered pieces -/

variable {text a b : Bytes}

theorem firstLine_isPrefix (text : Bytes) : firstLine text <+: text := by
  have hsplit := List.takeWhile_append_dropWhile (p := (· ≠ newline)) (l := text)
  conv_rhs => rw [← hsplit]
  exact (List.prefix_append_right_inj _).mpr (List.take_prefix _ _)

/-- The lines of a text, each with its newline. -/
def lineCutter : Cutter UInt8 := ⟨firstLine, firstLine_isPrefix, firstLine_ne_nil⟩

/-- The pieces of a text that come into the line buffer. -/
def bufferCutter : Cutter UInt8 where
  front := fgets
  isPrefix _ := (firstLine_isPrefix _).trans (List.take_prefix _ _)
  nonempty := fgets_ne_nil

def lines (text : Bytes) : List Bytes := lineCutter.pieces text

theorem firstLine_of_newline {body : Bytes} (h : newline ∉ body) (rest : Bytes) :
    firstLine (body ++ newline :: rest) = body ++ [newline] := by
  rw [firstLine, takeWhile_ne_append h, dropWhile_ne_append h]
  rfl

theorem firstLine_of_notMem (h : newline ∉ text) : firstLine text = text := by
  rw [firstLine, takeWhile_ne_self h, dropWhile_ne_self h, List.take_nil, List.append_nil]

/-- A first line is the characters in front of a newline, with the newline if there is one. -/
theorem firstLine_cases (text : Bytes) : ∃ body, newline ∉ body ∧
    (firstLine text = body ∧ text = body ∨ ∃ rest, firstLine text = body ++ [newline] ∧
      text = body ++ newline :: rest) := by
  by_cases h : newline ∈ text
  · obtain ⟨body, rest, rfl, hbody⟩ := List.eq_append_cons_of_mem h
    exact ⟨body, hbody, .inr ⟨rest, firstLine_of_newline hbody rest, rfl⟩⟩
  · exact ⟨text, h, .inl ⟨firstLine_of_notMem h, rfl⟩⟩

theorem firstLine_append (h : newline ∈ a) (b : Bytes) : firstLine (a ++ b) = firstLine a := by
  obtain ⟨body, hbody, ⟨-, rfl⟩ | ⟨rest, hfirst, rfl⟩⟩ := firstLine_cases a
  · exact absurd h hbody
  · rw [hfirst, List.append_assoc, List.cons_append, firstLine_of_newline hbody]

theorem newline_mem_of_closed (hne : a ≠ []) (h : Cutter.Closed newline a) : newline ∈ a := by
  have hlast := List.getLast?_eq_some_getLast hne
  rw [← h _ hlast]
  exact List.getLast_mem hne

/-- The end of a line is the end of a buffered piece. -/
theorem bufferCutter_cutsAt : bufferCutter.CutsAt newline := by
  intro a b hne hclosed
  have hmem := newline_mem_of_closed hne hclosed
  change firstLine ((a ++ b).take 511) = firstLine (a.take 511)
  by_cases hlong : 511 ≤ a.length
  · rw [List.take_append_of_le_length hlong]
  · rw [List.take_append, List.take_of_length_le (by omega), firstLine_append hmem]

theorem lineCutter_closed (text : Bytes) :
    lineCutter.front text = text ∨ Cutter.Closed newline (lineCutter.front text) := by
  obtain ⟨body, -, ⟨hfirst, rfl⟩ | ⟨rest, hfirst, -⟩⟩ := firstLine_cases text
  · exact .inl hfirst
  · refine .inr ?_
    change Cutter.Closed newline (firstLine text)
    simp [hfirst, Cutter.Closed]

/-! ## What is loaded -/

theorem envVars_storeVar (cli : Cli) (var : EnvVar) :
    (cli.storeVar var).envVars = (cli.envVars ++ [var]).take maxEnvVars := by
  have hfits := cli.envFits
  unfold Cli.storeVar
  split
  case isTrue h => rw [List.take_of_length_le (by simp; omega)]
  case isFalse h =>
    rw [List.take_append_of_le_length (by omega), List.take_of_length_le hfits]

/-- The variables that are read from the buffered pieces of a text. -/
def readVars (text : Bytes) : List EnvVar :=
  (bufferCutter.pieces text).filterMap fun piece => parseLine (cstr piece)

theorem take_take_append (n : Nat) (l r : List EnvVar) :
    (l.take n ++ r).take n = (l ++ r).take n := by
  have hroom : n - min n l.length = n - l.length := by omega
  rw [List.take_append, List.take_append, List.take_take, List.length_take, Nat.min_self, hroom]

theorem envVars_loadLines (content : Bytes) (cli : Cli) : (loadLines content cli).envVars =
    (cli.envVars ++ readVars content).take maxEnvVars := by
  induction content, cli using loadLines.induct with
  | case1 cli =>
    rw [loadLines, dif_pos rfl, readVars, Cutter.pieces_nil, List.filterMap_nil, List.append_nil,
      List.take_of_length_le cli.envFits]
  | case2 content cli h line ih =>
    have hpieces : bufferCutter.pieces content = line :: bufferCutter.pieces _ :=
      bufferCutter.pieces_of_ne_nil h
    rw [loadLines, dif_neg h, ih, readVars, readVars, hpieces, List.filterMap_cons]
    cases parseLine (cstr line) with
    | none => rfl
    | some var =>
      rw [Option.elim_some, envVars_storeVar, take_take_append, List.append_assoc]
      rfl

/-! ## What a line defines -/

/-- The characters of a line in front of its newline. -/
def beforeNewline (line : Bytes) : Bytes := line.takeWhile (· ≠ newline)

theorem beforeNewline_append {body : Bytes} (h : newline ∉ body) (rest : Bytes) :
    beforeNewline (body ++ newline :: rest) = body :=
  takeWhile_ne_append h rest

theorem beforeNewline_eq_self {body : Bytes} (h : newline ∉ body) : beforeNewline body = body :=
  takeWhile_ne_self h

/-- Behind the first `=` stands the value, in front of it the key. -/
theorem parseLine_assignment {key value : Bytes} (hkey : equalsSign ∉ key)
    (hcomment : key.head? ≠ some hashSign) (hline : newline ∉ key) :
    parseLine (key ++ equalsSign :: value) = some ⟨.fill 64 (key.dropWhile isBlank),
      .fill 256 (unquote (beforeNewline (value.dropWhile isBlank)))⟩ := by
  have hhead : ¬((key ++ equalsSign :: value).head? = some hashSign ∨
      (key ++ equalsSign :: value).head? = some newline) := by
    have hmarks : equalsSign ≠ hashSign ∧ equalsSign ≠ newline := by decide
    cases key with
    | nil => simp [hmarks]
    | cons c key => grind
  rw [parseLine, if_neg hhead, if_neg (by simp), takeWhile_ne_append hkey,
    dropWhile_ne_append hkey]
  rfl

theorem dropWhile_isBlank_newline (value : Bytes) :
    (value ++ [newline]).dropWhile isBlank = value.dropWhile isBlank ++ [newline] := by
  rw [List.dropWhile_append]
  split
  case isTrue hblank =>
    rw [List.isEmpty_iff.mp hblank]
    rfl
  case isFalse => rfl

/-- The newline at the end of a line does not count. -/
theorem parseLine_newline {body : Bytes} (h : newline ∉ body) :
    parseLine (body ++ [newline]) = parseLine body := by
  by_cases hnone : body.head? = some hashSign ∨ equalsSign ∉ body
  · have hbody : parseLine body = none := by
      unfold parseLine
      grind
    have hline : parseLine (body ++ [newline]) = none := by
      have hne : equalsSign ≠ newline := by decide
      unfold parseLine
      grind
    rw [hbody, hline]
  · rw [not_or, not_not] at hnone
    obtain ⟨key, value, rfl, hkey⟩ := List.eq_append_cons_of_mem hnone.2
    have hcomment : key.head? ≠ some hashSign := by grind
    have hnewline : newline ∉ key := fun hmem => h (List.mem_append_left _ hmem)
    have hvalue : newline ∉ value.dropWhile isBlank := fun hmem =>
      h (by simp [(List.dropWhile_sublist _).mem hmem])
    rw [List.append_assoc, List.cons_append, parseLine_assignment hkey hcomment hnewline,
      parseLine_assignment hkey hcomment hnewline, dropWhile_isBlank_newline,
      beforeNewline_append hvalue, beforeNewline_eq_self hvalue]

/-! ## Lines that fit the buffer -/

theorem fgets_of_short {line : Bytes} (h : line.length ≤ 511) : fgets line = firstLine line := by
  rw [fgets, List.take_of_length_le h]

/-- A buffer that is full before the newline comes cuts the line. -/
theorem fgets_of_full {front : Bytes} (hfull : front.length = 511) (h : newline ∉ front)
    (rest : Bytes) : fgets (front ++ rest) = front := by
  rw [fgets, ← hfull, List.take_left, firstLine_of_notMem h]

/-- What a line defines when its buffered pieces are read as lines. -/
def pieceVars (line : Bytes) : List EnvVar := (bufferCutter.pieces line).filterMap parseLine

theorem pieceVars_of_fgets {line : Bytes} (h : fgets line = line) :
    pieceVars line = (parseLine line).toList := by
  by_cases hne : line = []
  · simp [hne, pieceVars, parseLine]
  · rw [pieceVars, bufferCutter.pieces_eq_singleton hne h, List.filterMap_eq_flatMap_toList,
      List.flatMap_singleton]

/-- A line of at most 511 characters in front of its newline defines what it says. Only the
newline can be left for a second piece, which then is an empty line. -/
theorem pieceVars_of_short {line : Bytes} (h : line ∈ lines text)
    (hshort : (beforeNewline line).length ≤ 511) : pieceVars line = (parseLine line).toList := by
  obtain ⟨left, -, rfl⟩ := lineCutter.exists_front h
  obtain ⟨body, hbody, ⟨hfirst, -⟩ | ⟨rest, hfirst, -⟩⟩ := firstLine_cases left
  · change lineCutter.front left = body at hfirst
    rw [hfirst, beforeNewline_eq_self hbody] at hshort
    rw [hfirst]
    exact pieceVars_of_fgets (by rw [fgets_of_short hshort, firstLine_of_notMem hbody])
  · change lineCutter.front left = body ++ [newline] at hfirst
    rw [hfirst, beforeNewline_append hbody] at hshort
    rw [hfirst]
    have hline : firstLine (body ++ [newline]) = body ++ [newline] := firstLine_of_newline hbody []
    rcases Nat.lt_or_eq_of_le hshort with hfits | hfull
    · have hlength : (body ++ [newline]).length ≤ 511 := by
        rw [List.length_append]
        exact hfits
      exact pieceVars_of_fgets (by rw [fgets_of_short hlength, hline])
    · have hfront : bufferCutter.front (body ++ [newline]) = body :=
        fgets_of_full hfull hbody _
      have hend : bufferCutter.pieces [newline] = [[newline]] :=
        bufferCutter.pieces_eq_singleton (List.cons_ne_nil _ _) (by decide)
      have hempty : parseLine [newline] = none := by decide
      rw [pieceVars, bufferCutter.pieces_of_ne_nil (by simp), hfront, List.drop_left, hend,
        parseLine_newline hbody, List.filterMap_eq_flatMap_toList, List.flatMap_cons,
        List.flatMap_singleton, hempty, Option.toList_none, List.append_nil]

/-! ## Files -/

/-- Without a NUL in the text, what is read from it is what the pieces of its lines define. -/
theorem readVars_eq (hnul : 0 ∉ text) : readVars text = (lines text).flatMap pieceVars := by
  have hcstr : ∀ piece ∈ bufferCutter.pieces text, cstr piece = piece := by
    intro piece hpiece
    refine cstr_eq_self fun hmem => hnul ?_
    rw [← bufferCutter.flatten_pieces text]
    exact List.mem_flatten_of_mem hpiece hmem
  have hread : readVars text = (bufferCutter.pieces text).filterMap parseLine :=
    List.filterMap_congr fun piece hpiece => by rw [hcstr piece hpiece]
  have hlines : bufferCutter.pieces text = (lines text).flatMap bufferCutter.pieces :=
    Cutter.pieces_eq_flatMap bufferCutter_cutsAt lineCutter_closed text
  rw [hread, hlines, List.filterMap_flatMap]
  rfl

/-- Loaded into an empty table, a file adds the variables that its lines define. -/
def DefinesLines (content : Bytes) : Prop :=
  ∀ cli : Cli, cli.envVars = [] →
    (loadEnvFile (some content) cli).2.envVars = (lines content).filterMap parseLine

theorem definesLines_iff_pieces (hnul : 0 ∉ text) : DefinesLines text ↔
    ((lines text).flatMap pieceVars).take maxEnvVars = (lines text).filterMap parseLine := by
  have hload (cli : Cli) (h : cli.envVars = []) : (loadEnvFile (some text) cli).2.envVars =
      ((lines text).flatMap pieceVars).take maxEnvVars := by
    rw [← readVars_eq hnul, ← List.nil_append (readVars text), ← h]
    exact envVars_loadLines text cli
  constructor
  · intro h
    rw [← hload .start rfl]
    exact h .start rfl
  · intro h cli hcli
    rw [hload cli hcli, h]

end Federated.Tool
