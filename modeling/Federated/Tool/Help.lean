import Federated.Library.Clipped
import Federated.Tool.Cli

/-!
# Generated texts

The help of a command and the completion scripts are printed piece by piece into an array of the
caller. Whatever its size, they leave the front of their text in it that the array has room for,
in front of a terminator. A piece that an `int` cannot count does not get printed.
-/

namespace Federated.Tool

open Library

/-! ## Descriptions -/

/-- An option with what the help says about it. -/
structure DescribedOption extends CliOption where
  description : Option Bytes
  required : Bool

structure DescribedCommand where
  name : Bytes
  description : Option Bytes
  usage : Option Bytes
  options : List DescribedOption
  fits : options.length ≤ maxOptions

/-- The command behind its description. -/
def DescribedCommand.command (cmd : DescribedCommand) : Command where
  name := cmd.name
  options := cmd.options.map DescribedOption.toCliOption
  fits := by rw [List.length_map]; exact cmd.fits

/-! ## Printing into an array -/

/-- The array of a text as far as it is known, where its next piece goes, and the room that is left
for it. -/
structure Page where
  block : Bytes
  pos : Nat
  remaining : Nat

/-- The array of `size` bytes, with anything in it. -/
def Page.start (size : Nat) (garbage : Bytes) : Page := ⟨garbage, 0, size⟩

/-- `SAFE_SNPRINTF`: nothing is printed any more behind a piece that does not fit, or that an `int`
cannot count. Of the room for the latter nothing is known then. -/
def safeSnprintf (size : Nat) (text : Bytes) (p : Page) : Except Fault Page :=
  if text.length ≥ 2 ^ 31 then
    return ⟨if p.remaining = 0 then p.block else p.block.take p.pos, p.pos, 0⟩
  else do
    let block ← if p.remaining = 0 then .ok p.block
      else store size p.block p.pos (text.take (p.remaining - 1) ++ [0])
    if 0 < text.length ∧ text.length < p.remaining then
      return ⟨block, p.pos + text.length, p.remaining - text.length⟩
    else return ⟨block, p.pos, 0⟩

/-- Some calls of `SAFE_SNPRINTF` after each other. -/
def safePrint (size : Nat) : List Bytes → Page → Except Fault Page
  | [], p => return p
  | text :: texts, p => do
    let p ← safeSnprintf size text p
    safePrint size texts p

/-- The loops, which end early when there is no room left. -/
def whileRoom {α : Type} (size : Nat) (texts : α → List Bytes) : List α → Page → Except Fault Page
  | [], p => return p
  | a :: rest, p =>
    if p.remaining > 0 then do
      let p ← safePrint size (texts a) p
      whileRoom size texts rest p
    else return p

/-- A text in a column of some width (`%-20s`). -/
def column (width : Nat) (text : Bytes) : Bytes :=
  text ++ List.replicate (width - text.length) 32

/-! ## The texts -/

/-- The pieces of the line of an option. -/
def optionTexts (opt : DescribedOption) : List Bytes :=
  [if opt.shortName ≠ 0
    then ascii "  -" ++ [opt.shortName] ++ ascii ", --" ++ column 20 opt.name
    else ascii "      --" ++ column 20 opt.name] ++
  (opt.description.map fun text => ascii " " ++ text).toList ++
  (opt.defaultValue.map fun text => ascii " (default: " ++ text ++ ascii ")").toList ++
  (opt.envVar.map fun text => ascii " [env: " ++ text ++ ascii "]").toList ++
  (if opt.required then [ascii " [required]"] else []) ++
  [[10]]

def generateHelp (cmd : DescribedCommand) (size : Nat) (p : Page) : Except Fault Page := do
  let p ← safePrint size [ascii "Usage: " ++ cmd.usage.getD cmd.name ++ [10, 10]] p
  let p ← safePrint size (cmd.description.map fun text => text ++ [10, 10]).toList p
  if cmd.options.length > 0 then do
    let p ← safePrint size [ascii "Options:" ++ [10]] p
    whileRoom size optionTexts cmd.options p
  else return p

/-- A line of a script. -/
def line (text : String) : Bytes := ascii text ++ [10]

def bashFront : List Bytes := [
  line "# Bash completion for federated",
  line "_federated_completions() \x7b",
  line "    local cur=\x22$\x7bCOMP_WORDS[COMP_CWORD]\x7d\x22",
  line "    local cmd=\x22$\x7bCOMP_WORDS[1]\x7d\x22",
  line "    ",
  line "    if [ $COMP_CWORD -eq 1 ]; then",
  ascii "        COMPREPLY=($(compgen -W \x22"]

def bashBack : List Bytes := [
  line "\x22 -- \x22$cur\x22))",
  line "    else",
  ascii "        COMPREPLY=($(compgen -W \x22",
  ascii "--help --version --config --env-file ",
  line "\x22 -- \x22$cur\x22))",
  line "    fi",
  line "\x7d" ++ [10],
  line "complete -F _federated_completions federated"]

def bashTexts (cmd : DescribedCommand) : List Bytes := [cmd.name ++ ascii " "]

def generateBashCompletion (commands : List DescribedCommand) (size : Nat) (p : Page) :
    Except Fault Page := do
  let p ← safePrint size bashFront p
  let p ← whileRoom size bashTexts commands p
  safePrint size bashBack p

def zshFront : List Bytes := [
  line "#compdef federated" ++ [10],
  line "_federated() \x7b",
  line "    local -a commands",
  line "    commands=("]

def zshBack : List Bytes := [
  line "    )",
  line "    _describe 'command' commands",
  line "\x7d" ++ [10],
  line "_federated"]

def zshTexts (cmd : DescribedCommand) : List Bytes :=
  [ascii "        '" ++ cmd.name ++ ascii ":" ++ cmd.description.getD [] ++ line "'"]

def generateZshCompletion (commands : List DescribedCommand) (size : Nat) (p : Page) :
    Except Fault Page := do
  let p ← safePrint size zshFront p
  let p ← whileRoom size zshTexts commands p
  safePrint size zshBack p

/-- The texts that the program generates. -/
inductive Generated where
  | help (cmd : DescribedCommand)
  | bashCompletion (commands : List DescribedCommand)
  | zshCompletion (commands : List DescribedCommand)

/-- Generate a text into an array. -/
def Generated.print (size : Nat) : Generated → Page → Except Fault Page
  | help cmd => generateHelp cmd size
  | bashCompletion commands => generateBashCompletion commands size
  | zshCompletion commands => generateZshCompletion commands size

/-- The pieces of a text. -/
def Generated.pieces : Generated → List Bytes
  | help cmd => [ascii "Usage: " ++ cmd.usage.getD cmd.name ++ [10, 10]] ++
    (cmd.description.map fun text => text ++ [10, 10]).toList ++
    if cmd.options = [] then [] else [ascii "Options:" ++ [10]] ++ cmd.options.flatMap optionTexts
  | bashCompletion commands => bashFront ++ commands.flatMap bashTexts ++ bashBack
  | zshCompletion commands => zshFront ++ commands.flatMap zshTexts ++ zshBack

/-- The whole of a text. -/
def Generated.text (g : Generated) : Bytes := g.pieces.flatten

/-! ## What is left in the array -/

variable {size : Nat} {garbage text front back : Bytes} {texts : List Bytes}
  {f g : Page → Except Fault Page}

/-- The front of a text that there is room for is in the array, and a terminator behind it. -/
structure Page.Shows (size : Nat) (garbage text : Bytes) (p : Page) : Prop where
  holds : ∃ c : Clipped UInt8, c.Holds size text ∧ p.remaining = c.room ∧
    (c.room ≠ 0 → p.pos = c.written.length ∧ p.block.take p.pos = c.written)
  ended : text ≠ [] → 0 < size → ∃ rest, p.block = text.take (size - 1) ++ 0 :: rest
  untouched : size = 0 → p.block = garbage

theorem Page.shows_start (size : Nat) (garbage : Bytes) :
    (Page.start size garbage).Shows size garbage [] where
  holds := ⟨_, Clipped.holds_start size, rfl, fun _ => ⟨rfl, rfl⟩⟩
  ended h := absurd rfl h
  untouched _ := rfl

/-- Without room for more, more makes no difference. -/
theorem Page.Shows.append_of_full {p : Page} (h : p.Shows size garbage text)
    (hfull : p.remaining = 0) (more : Bytes) : p.Shows size garbage (text ++ more) := by
  obtain ⟨c, hc, hroom, -⟩ := h.holds
  have hnone : c.room = 0 := by omega
  refine ⟨⟨c, hc.append_of_full hnone more, hroom, fun hne => absurd hnone hne⟩, ?_, h.untouched⟩
  intro _ hsize
  obtain ⟨-, ⟨hfits, hleft⟩ | ⟨hlong, -⟩⟩ := hc
  · omega
  · obtain ⟨rest, hrest⟩ := h.ended (List.ne_nil_of_length_pos (by omega)) hsize
    exact ⟨rest, by rw [List.take_append_of_le_length (by omega), hrest]⟩

theorem safeSnprintf_of_full {p : Page} (hfull : p.remaining = 0) (text : Bytes) :
    safeSnprintf size text p = .ok p := by
  obtain ⟨block, pos, remaining⟩ := p
  obtain rfl : remaining = 0 := hfull
  by_cases hlong : text.length ≥ 2 ^ 31
  · rw [safeSnprintf, if_pos hlong, if_pos rfl]
    rfl
  · rw [safeSnprintf, if_neg hlong]
    simp

theorem safeSnprintf_of_room {p : Page} {block : Bytes} (hint : text.length < 2 ^ 31)
    (hroom : p.remaining ≠ 0)
    (hstore : store size p.block p.pos (text.take (p.remaining - 1) ++ [0]) = .ok block) :
    safeSnprintf size text p = .ok (if 0 < text.length ∧ text.length < p.remaining
      then ⟨block, p.pos + text.length, p.remaining - text.length⟩ else ⟨block, p.pos, 0⟩) := by
  rw [safeSnprintf, if_neg (Nat.not_le.mpr hint), if_neg hroom, hstore, ok_bind]
  split_ifs <;> rfl

/-- Where a piece goes, it follows what is there. -/
theorem Page.Shows.store_eq {p : Page} (h : p.Shows size garbage front) (hroom : p.remaining ≠ 0)
    (text : Bytes) : ∃ rest, store size p.block p.pos (text.take (p.remaining - 1) ++ [0]) =
      .ok ((front ++ text).take (size - 1) ++ 0 :: rest) := by
  obtain ⟨c, hc, hleft, hpos⟩ := h.holds
  rw [hleft] at hroom ⊢
  obtain ⟨hwritten, hsize⟩ := hc.written_of_room hroom
  obtain ⟨hp, hfront⟩ := hpos hroom
  have hends : p.pos = front.length := by rw [hp, hwritten]
  have hlength : (text.take (c.room - 1)).length ≤ c.room - 1 := List.length_take_le _ _
  have hrest : size - 1 - front.length = c.room - 1 := by omega
  refine ⟨p.block.drop (p.pos + (text.take (c.room - 1) ++ [0]).length), ?_⟩
  rw [store, if_pos (by rw [List.length_append, List.length_singleton]; omega), overwrite,
    hfront, hwritten, List.take_append, List.take_of_length_le (l := front) (by omega), hrest,
    List.append_assoc, List.append_assoc, List.append_assoc, List.singleton_append]

/-- From a part of a text, a step goes on to print what comes next. -/
def Prints (size : Nat) (garbage : Bytes) (f : Page → Except Fault Page) (text : Bytes) : Prop :=
  ∀ front p, p.Shows size garbage front → ∃ p', f p = .ok p' ∧ p'.Shows size garbage (front ++ text)

theorem Prints.done : Prints size garbage (fun p => .ok p) [] := by
  intro front p h
  exact ⟨p, rfl, by rwa [List.append_nil]⟩

theorem Prints.bind (hf : Prints size garbage f front) (hg : Prints size garbage g back) :
    Prints size garbage (fun p => f p >>= g) (front ++ back) := by
  intro before p h
  obtain ⟨p₁, hp₁, h₁⟩ := hf before p h
  obtain ⟨p₂, hp₂, h₂⟩ := hg _ p₁ h₁
  exact ⟨p₂, by simp only [hp₁, ok_bind, hp₂], by rwa [← List.append_assoc]⟩

theorem Prints.snprintf (hne : text ≠ []) (hint : text.length < 2 ^ 31) :
    Prints size garbage (safeSnprintf size text) text := by
  intro front p h
  by_cases hroom : p.remaining = 0
  · exact ⟨p, safeSnprintf_of_full hroom text, h.append_of_full hroom text⟩
  obtain ⟨rest, hstore⟩ := h.store_eq hroom text
  refine ⟨_, safeSnprintf_of_room hint hroom hstore, ?_⟩
  obtain ⟨c, hc, hleft, hpos⟩ := h.holds
  obtain ⟨hwritten, hsize⟩ := hc.written_of_room (hleft ▸ hroom)
  have hends := (hpos (hleft ▸ hroom)).1
  have hlen := List.length_pos_iff.mpr hne
  have hstep := hc.write text
  rw [Clipped.write, ← hleft] at hstep
  by_cases hlt : text.length < p.remaining
  · rw [if_pos hlt] at hstep
    rw [if_pos ⟨hlen, hlt⟩]
    refine ⟨⟨_, hstep, rfl, fun _ => ?_⟩, fun _ _ => ⟨rest, rfl⟩, fun _ => by omega⟩
    have hall : (front ++ text).take (size - 1) = front ++ text :=
      List.take_of_length_le (by rw [List.length_append]; omega)
    have hpos : p.pos + text.length = (front ++ text).length := by
      rw [List.length_append, hends, hwritten]
    refine ⟨by rw [hpos, hwritten], ?_⟩
    rw [hall, hpos, List.take_left, hwritten]
  · rw [if_neg hlt] at hstep
    rw [if_neg fun hboth => hlt hboth.2]
    exact ⟨⟨_, hstep, rfl, fun hne => absurd rfl hne⟩, fun _ _ => ⟨rest, rfl⟩, fun _ => by omega⟩

theorem Prints.safePrint (hne : ∀ text ∈ texts, text ≠ [])
    (hint : ∀ text ∈ texts, text.length < 2 ^ 31) :
    Prints size garbage (safePrint size texts) texts.flatten := by
  induction texts with
  | nil => exact .done
  | cons text texts ih =>
    rw [List.forall_mem_cons] at hne hint
    exact (Prints.snprintf hne.1 hint.1).bind (ih hne.2 hint.2)

/-- A loop that ends early has printed what fits all the same. -/
theorem Prints.whileRoom {α : Type} (lines : α → List Bytes) (as : List α)
    (hne : ∀ a, ∀ text ∈ lines a, text ≠ [])
    (hint : ∀ text ∈ as.flatMap lines, text.length < 2 ^ 31) :
    Prints size garbage (whileRoom size lines as) (as.flatMap lines).flatten := by
  induction as with
  | nil => exact .done
  | cons a as ih =>
    intro front p h
    rw [List.flatMap_cons, List.forall_mem_append] at hint
    rw [List.flatMap_cons, List.flatten_append]
    by_cases hroom : p.remaining > 0
    · obtain ⟨p', hp', hshows⟩ := (Prints.safePrint (hne a) hint.1).bind (ih hint.2) front p h
      exact ⟨p', by rw [Tool.whileRoom, if_pos hroom]; exact hp', hshows⟩
    · exact ⟨p, by rw [Tool.whileRoom, if_neg hroom]; rfl, h.append_of_full (by omega) _⟩

/-! ## The texts as a whole -/

theorem optionTexts_ne_nil (opt : DescribedOption) : ∀ text ∈ optionTexts opt, text ≠ [] := by
  rintro _ htext rfl
  have hhead : ∀ short, (if short ≠ 0
      then ascii "  -" ++ [short] ++ ascii ", --" ++ column 20 opt.name
      else ascii "      --" ++ column 20 opt.name) ≠ [] := by
    intro short
    split_ifs <;> simp [ascii]
  simp only [optionTexts, List.mem_append, List.mem_singleton, Option.mem_toList,
    Option.map_eq_some_iff] at htext
  obtain ((((htext | htext) | htext) | htext) | htext) | htext := htext
  · exact hhead _ htext.symm
  · simp [ascii] at htext
  · simp [ascii] at htext
  · simp [ascii] at htext
  · split_ifs at htext <;> simp [ascii] at htext
  · simp at htext

/-- A fixed front, a loop and a fixed back are printed after each other. -/
theorem Prints.script {fronts backs : List Bytes} {α : Type} {lines : α → List Bytes} {as : List α}
    (hfronts : ∀ text ∈ fronts, text ≠ []) (hlines : ∀ a, ∀ text ∈ lines a, text ≠ [])
    (hbacks : ∀ text ∈ backs, text ≠ [])
    (hint : ∀ text ∈ fronts ++ as.flatMap lines ++ backs, text.length < 2 ^ 31) :
    Prints size garbage
      (fun p => Tool.safePrint size fronts p >>= fun p => Tool.whileRoom size lines as p >>=
        Tool.safePrint size backs)
      (fronts ++ as.flatMap lines ++ backs).flatten := by
  simp only [List.forall_mem_append] at hint
  rw [List.flatten_append, List.flatten_append, List.append_assoc]
  exact (Prints.safePrint hfronts hint.1.1).bind
    ((Prints.whileRoom lines as hlines hint.1.2).bind (Prints.safePrint hbacks hint.2))

theorem prints_help (cmd : DescribedCommand)
    (hint : ∀ text ∈ (Generated.help cmd).pieces, text.length < 2 ^ 31) :
    Prints size garbage (generateHelp cmd size) (Generated.help cmd).text := by
  simp only [Generated.pieces, List.forall_mem_append] at hint
  rw [Generated.text, Generated.pieces, List.flatten_append, List.flatten_append,
    List.append_assoc]
  have hdescription : ∀ text ∈ (cmd.description.map fun text => text ++ [10, 10]).toList,
      text ≠ [] := by
    cases cmd.description <;> simp
  refine (Prints.safePrint (by simp) hint.1.1).bind
    ((Prints.safePrint hdescription hint.1.2).bind ?_)
  have hlast := hint.2
  by_cases hnone : cmd.options = []
  · simp only [hnone, List.length_nil, if_true, gt_iff_lt, Nat.lt_irrefl, if_false]
    exact .done
  · rw [if_neg hnone, List.forall_mem_append] at hlast
    simp only [if_neg hnone, gt_iff_lt, List.length_pos_iff.mpr hnone, if_true,
      List.flatten_append]
    exact (Prints.safePrint (by simp) hlast.1).bind
      (Prints.whileRoom _ cmd.options optionTexts_ne_nil hlast.2)

theorem Generated.prints (g : Generated) (hint : ∀ text ∈ g.pieces, text.length < 2 ^ 31)
    (size : Nat) (garbage : Bytes) : Prints size garbage (g.print size) g.text := by
  cases g with
  | help cmd => exact prints_help cmd hint
  | bashCompletion commands =>
    exact Prints.script (by decide) (by simp [bashTexts, ascii]) (by decide) hint
  | zshCompletion commands =>
    exact Prints.script (by decide) (by simp [zshTexts, ascii]) (by decide) hint

theorem flatten_script_ne_nil {fronts : List Bytes} (h : fronts.flatten ≠ [])
    (middle backs : List Bytes) : (fronts ++ middle ++ backs).flatten ≠ [] := by
  rw [List.flatten_append, List.flatten_append]
  exact List.append_ne_nil_of_left_ne_nil (List.append_ne_nil_of_left_ne_nil h _) _

theorem Generated.text_ne_nil (g : Generated) : g.text ≠ [] := by
  cases g with
  | help cmd => simp [Generated.text, Generated.pieces, ascii]
  | bashCompletion commands => exact flatten_script_ne_nil (by decide) _ _
  | zshCompletion commands => exact flatten_script_ne_nil (by decide) _ _

/-- Whatever an array holds and whatever its size, a generated text whose pieces `int`s can count
stays inside it, and its front is there in front of a terminator. An array without room is left
as it was. -/
theorem print_generated (g : Generated) (hint : ∀ text ∈ g.pieces, text.length < 2 ^ 31)
    (size : Nat) (garbage : Bytes) :
    ∃ p, g.print size (.start size garbage) = .ok p ∧
      (0 < size → ∃ rest, p.block = g.text.take (size - 1) ++ 0 :: rest) ∧
      (size = 0 → p.block = garbage) := by
  obtain ⟨p, hp, hshows⟩ := g.prints hint size garbage [] _ (Page.shows_start size garbage)
  exact ⟨p, hp, hshows.ended g.text_ne_nil, hshows.untouched⟩

/-- A help text is cut off behind the front of its first line. -/
theorem print_generated_smtp : ∃ p,
    (Generated.help ⟨ascii "smtp", none, none, [], Nat.zero_le _⟩).print 10 (.start 10 []) = .ok p ∧
      ∃ rest, p.block = ascii "Usage: sm" ++ 0 :: rest := by
  obtain ⟨p, hp, hfront, -⟩ := print_generated (.help ⟨ascii "smtp", none, none, [], Nat.zero_le _⟩)
    (by decide) 10 []
  exact ⟨p, hp, hfront (by decide)⟩

end Federated.Tool
