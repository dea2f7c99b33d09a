import Federated.Library.Computation
import Federated.Tool.Cli

/-!
# The arguments of a command

The loop over `argv`. An argument is the string up to its terminator, and reading
behind the terminator or past the end of `argv` is a fault. An option that stands
alone takes the next argument for its value, so a pass of the loop takes one
argument or two.
-/

namespace Federated.Tool

open Library

def dash : UInt8 := '-'.toUInt8
def equalsSign : UInt8 := '='.toUInt8

/-- A string of `argv`: its characters in front of the terminator. -/
structure Argument where
  text : Bytes
  noNul : 0 ∉ text
  deriving DecidableEq

/-- `arg[i]`: a character or the terminator. -/
def Argument.charAt (arg : Argument) (i : Nat) : Except Fault UInt8 :=
  if i < arg.text.length then .ok (arg.text.getD i 0)
  else if i = arg.text.length then .ok 0
  else .error .read

/-- The string that starts at `arg + i`. -/
def Argument.behind (arg : Argument) (i : Nat) : Except Fault Bytes :=
  if i ≤ arg.text.length then .ok (arg.text.drop i) else .error .read

/-- `argv[i]`. -/
def argAt (argv : List Argument) (i : Nat) : Except Fault Argument :=
  match argv[i]? with
  | some arg => .ok arg
  | none => .error .read

/-! ## The table of values -/

/-- The variables of the program with nothing registered, stored or loaded. -/
def Cli.start : Cli := ⟨.empty, [], Nat.zero_le _, [], Nat.zero_le _, fun _ => none⟩

/-- Forget the values of an earlier call. -/
def Cli.resetOptions (cli : Cli) : Cli := { cli with
  optionValues := []
  optionsFit := Nat.zero_le _ }

/-- Overwrite the value that is stored under a name, or store it behind the others. -/
def Cli.setOptionValue (name value : Bytes) (cli : Cli) : Cli :=
  match cli.optionValues.findIdx? fun o => o.name.str = name with
  | some i => { cli with
      optionValues := cli.optionValues.modify i fun o => { o with value := .copy 256 value }
      optionsFit := by rw [List.length_modify]; exact cli.optionsFit }
  | none =>
    if h : cli.optionValues.length < maxOptions then { cli with
      optionValues := cli.optionValues ++ [⟨.copy 64 name, .copy 256 value⟩]
      optionsFit := by rw [List.length_append]; exact h }
    else cli

/-! ## The loop -/

/-- The command declares a flag of this long name. -/
def isFlag (cmd : Command) (name : Bytes) : Bool :=
  cmd.options.any fun o => o.name = name && o.type = .flag

/-- The first option of this short name. -/
def shortOption (cmd : Command) (shortOpt : UInt8) : Option CliOption :=
  cmd.options.find? fun o => o.shortName = shortOpt

/-- The flag test by short name, which copies the long name into 64 bytes. Of a longer one
bytes go behind them, and nothing is known of the call from there on. -/
def isShortFlag (cmd : Command) (shortOpt : UInt8) : Except Fault Bool :=
  match shortOption cmd shortOpt with
  | none => .ok false
  | some o => if o.name.length ≥ 64 then .error .write else .ok (o.type = .flag)

/-- The value of an option that stands alone and how many arguments it takes: `true` for a flag,
else the next argument, if there is one. -/
def aloneValue (argv : List Argument) (i : Nat) (flag : Bool) :
    Except Fault (Option (Bytes × Nat)) :=
  if flag then .ok (some (ascii "true", 0))
  else if i + 1 ≥ argv.length then .ok none
  else do
    let next ← argAt argv (i + 1)
    return some (next.text, 1)

/-- A pass goes on behind the arguments that it has taken, or leaves with an error. -/
abbrev ArgPass := Pass (Nat × Cli) (ErrorCode × Cli)

/-- An option that is given by its long name: `--name=value`, or `--name` alone. -/
def parseLong (argv : List Argument) (cmd : Command) (i : Nat) (arg : Argument) (cli : Cli) :
    Except Fault ArgPass := do
  let name ← arg.behind 2
  if equalsSign ∈ name then
    let optName := (name.takeWhile (· ≠ equalsSign)).take 63
    let value := (name.dropWhile (· ≠ equalsSign)).drop 1
    return .next (0, cli.setOptionValue optName value)
  else
    let optName := name.take 63
    match ← aloneValue argv i (isFlag cmd optName) with
    | none => return .exit (.errFormat, cli)
    | some (value, taken) => return .next (taken, cli.setOptionValue optName value)

/-- Store a value under the long name that goes with a short one. -/
def storeShort (cmd : Command) (shortOpt : UInt8) (value : Bytes) (cli : Cli) : Cli :=
  match shortOption cmd shortOpt with
  | none => cli
  | some o => cli.setOptionValue o.name value

/-- An option that is given by its short name: `-c=value`, `-cvalue`, or `-c` alone. -/
def parseShort (argv : List Argument) (cmd : Command) (i : Nat) (arg : Argument) (cli : Cli) :
    Except Fault ArgPass := do
  let shortOpt ← arg.charAt 1
  let c ← arg.charAt 2
  if c = equalsSign then
    let value ← arg.behind 3
    return .next (0, storeShort cmd shortOpt value cli)
  else if c = 0 then
    let flag ← isShortFlag cmd shortOpt
    match ← aloneValue argv i flag with
    | none => return .exit (.errFormat, cli)
    | some (value, taken) => return .next (taken, storeShort cmd shortOpt value cli)
  else
    let value ← arg.behind 2
    return .next (0, storeShort cmd shortOpt value cli)

/-- The pass at `argv[i]`; an argument that does not start with a dash is passed over. -/
def parseArg (argv : List Argument) (cmd : Command) (i : Nat) (cli : Cli) :
    Except Fault ArgPass := do
  let arg ← argAt argv i
  let c ← arg.charAt 0
  if c = dash then
    let d ← arg.charAt 1
    if d = dash then parseLong argv cmd i arg cli else parseShort argv cmd i arg cli
  else return .next (0, cli)

def parseLoop (argv : List Argument) (cmd : Command) (i : Nat) (cli : Cli) :
    Except Fault (ErrorCode × Cli) :=
  if _h : i < argv.length then
    match parseArg argv cmd i cli with
    | .error fault => .error fault
    | .ok (.exit r) => .ok r
    | .ok (.next (taken, cli)) => parseLoop argv cmd (i + taken + 1) cli
  else .ok (.ok, cli)
termination_by argv.length - i

def parseArgs (argv : List Argument) (cmd : Command) (cli : Cli) :
    Except Fault (ErrorCode × Cli) :=
  parseLoop argv cmd 1 cli.resetOptions

/-! ## One pass -/

variable {argv rest : List Argument} {cmd : Command} {i : Nat} {arg : Argument} {cli : Cli}

theorem argAt_of_drop (h : argv.drop i = arg :: rest) : argAt argv i = .ok arg := by
  have hget : argv[i]? = some arg := by
    rw [← Nat.add_zero i, ← List.getElem?_drop, h]
    rfl
  rw [argAt, hget]

theorem lt_of_drop (h : argv.drop i = arg :: rest) : i < argv.length := by
  have hlen : argv.length - i = rest.length + 1 := by rw [← List.length_drop, h, List.length_cons]
  omega

theorem parseLoop_of_fault {fault : Fault} (h : argv.drop i = arg :: rest)
    (hpass : parseArg argv cmd i cli = .error fault) :
    parseLoop argv cmd i cli = .error fault := by
  rw [parseLoop, dif_pos (lt_of_drop h), hpass]

theorem parseLoop_of_exit {r : ErrorCode × Cli} (h : argv.drop i = arg :: rest)
    (hpass : parseArg argv cmd i cli = .ok (.exit r)) : parseLoop argv cmd i cli = .ok r := by
  rw [parseLoop, dif_pos (lt_of_drop h), hpass]

theorem parseLoop_of_next {taken : Nat} {cli' : Cli} (h : argv.drop i = arg :: rest)
    (hpass : parseArg argv cmd i cli = .ok (.next (taken, cli'))) :
    parseLoop argv cmd i cli = parseLoop argv cmd (i + taken + 1) cli' := by
  rw [parseLoop, dif_pos (lt_of_drop h), hpass]

theorem parseLoop_of_end (h : argv.drop i = []) : parseLoop argv cmd i cli = .ok (.ok, cli) := by
  rw [parseLoop, dif_neg (Nat.not_lt.mpr (List.drop_eq_nil_iff.mp h))]

/-- What a pass does at an option that stands alone, in front of `rest`. -/
def alonePass (rest : List Argument) (flag : Bool) (cli : Cli) (store : Bytes → Cli) : ArgPass :=
  if flag then .next (0, store (ascii "true"))
  else rest.head?.elim (.exit (.errFormat, cli)) fun next => .next (1, store next.text)

theorem aloneValue_of_drop (h : argv.drop i = arg :: rest) (flag : Bool) :
    aloneValue argv i flag = .ok (if flag then some (ascii "true", 0)
      else rest.head?.map fun next => (next.text, 1)) := by
  have hlen : argv.length - i = rest.length + 1 := by rw [← List.length_drop, h, List.length_cons]
  cases flag with
  | true => rfl
  | false =>
    simp only [aloneValue, Bool.false_eq_true, if_false]
    cases rest with
    | nil =>
      rw [List.length_nil] at hlen
      rw [if_pos (by omega)]
      rfl
    | cons next rest =>
      have hnext : argv.drop (i + 1) = next :: rest := by rw [← List.drop_drop, h]; rfl
      rw [List.length_cons] at hlen
      rw [if_neg (by omega), argAt_of_drop hnext]
      rfl

/-- An argument that is no option is passed over. -/
theorem parseArg_other (h : argv.drop i = arg :: rest) (htext : arg.text.head? ≠ some dash) :
    parseArg argv cmd i cli = .ok (.next (0, cli)) := by
  have hfirst : ∃ c, arg.charAt 0 = .ok c ∧ c ≠ dash := by
    cases htail : arg.text with
    | nil => exact ⟨0, by simp [Argument.charAt, htail], by decide⟩
    | cons c tail => exact ⟨c, by simp [Argument.charAt, htail], by simpa [htail] using htext⟩
  obtain ⟨c, hc, hne⟩ := hfirst
  simp only [parseArg, argAt_of_drop h, ok_bind, hc, if_neg hne]
  rfl

/-- Behind a dash that is the whole argument, the terminator is passed. -/
theorem parseArg_lone (h : argv.drop i = arg :: rest) (htext : arg.text = [dash]) :
    parseArg argv cmd i cli = .error .read := by
  have hne : (0 : UInt8) ≠ dash := by decide
  simp [parseArg, argAt_of_drop h, Argument.charAt, htext, hne, parseShort, bind, Except.bind]

section Long

variable {name : Bytes}

theorem parseArg_long (h : argv.drop i = arg :: rest) (htext : arg.text = dash :: dash :: name) :
    parseArg argv cmd i cli = parseLong argv cmd i arg cli := by
  simp [parseArg, argAt_of_drop h, Argument.charAt, htext]

/-- `--name=value` -/
theorem parseArg_long_value (h : argv.drop i = arg :: rest)
    (htext : arg.text = dash :: dash :: name) (heq : equalsSign ∈ name) :
    parseArg argv cmd i cli = .ok (.next (0, cli.setOptionValue
      ((name.takeWhile (· ≠ equalsSign)).take 63)
      ((name.dropWhile (· ≠ equalsSign)).drop 1))) := by
  have hname : arg.behind 2 = .ok name := by simp [Argument.behind, htext]
  simp only [parseArg_long h htext, parseLong, hname, ok_bind, if_pos heq]
  rfl

/-- `--name` -/
theorem parseArg_long_alone (h : argv.drop i = arg :: rest)
    (htext : arg.text = dash :: dash :: name) (heq : equalsSign ∉ name) :
    parseArg argv cmd i cli = .ok (alonePass rest (isFlag cmd (name.take 63)) cli
      fun value => cli.setOptionValue (name.take 63) value) := by
  have hname : arg.behind 2 = .ok name := by simp [Argument.behind, htext]
  simp only [parseArg_long h htext, parseLong, hname, ok_bind, if_neg heq, aloneValue_of_drop h,
    alonePass]
  cases isFlag cmd (name.take 63) with
  | true => rfl
  | false => cases rest <;> rfl

end Long

section Short

variable {c : UInt8} {tail : Bytes}

theorem parseArg_short (h : argv.drop i = arg :: rest) (htext : arg.text = dash :: c :: tail)
    (hc : c ≠ dash) : parseArg argv cmd i cli = parseShort argv cmd i arg cli := by
  simp [parseArg, argAt_of_drop h, Argument.charAt, htext, hc]

/-- `-c=value` -/
theorem parseArg_short_value (h : argv.drop i = arg :: rest)
    (htext : arg.text = dash :: c :: equalsSign :: tail) (hc : c ≠ dash) :
    parseArg argv cmd i cli = .ok (.next (0, storeShort cmd c tail cli)) := by
  have hvalue : arg.behind 3 = .ok tail := by simp [Argument.behind, htext]
  have hfirst : arg.charAt 1 = .ok c := by simp [Argument.charAt, htext]
  have hsecond : arg.charAt 2 = .ok equalsSign := by simp [Argument.charAt, htext]
  simp only [parseArg_short h htext hc, parseShort, hfirst, hsecond, ok_bind, if_true, hvalue]
  rfl

/-- `-cvalue` -/
theorem parseArg_short_joined {d : UInt8} (h : argv.drop i = arg :: rest)
    (htext : arg.text = dash :: c :: d :: tail) (hc : c ≠ dash) (hd : d ≠ equalsSign) :
    parseArg argv cmd i cli = .ok (.next (0, storeShort cmd c (d :: tail) cli)) := by
  have hvalue : arg.behind 2 = .ok (d :: tail) := by simp [Argument.behind, htext]
  have hfirst : arg.charAt 1 = .ok c := by simp [Argument.charAt, htext]
  have hsecond : arg.charAt 2 = .ok d := by simp [Argument.charAt, htext]
  have hzero : d ≠ 0 := by
    rintro rfl
    exact arg.noNul (by simp [htext])
  simp only [parseArg_short h htext hc, parseShort, hfirst, hsecond, ok_bind, if_neg hd,
    if_neg hzero, hvalue]
  rfl

/-- `-c` -/
theorem parseArg_short_alone (h : argv.drop i = arg :: rest) (htext : arg.text = [dash, c])
    (hc : c ≠ dash) : parseArg argv cmd i cli = (isShortFlag cmd c).map fun flag =>
      alonePass rest flag cli fun value => storeShort cmd c value cli := by
  have hfirst : arg.charAt 1 = .ok c := by simp [Argument.charAt, htext]
  have hsecond : arg.charAt 2 = .ok 0 := by simp [Argument.charAt, htext]
  have hne : (0 : UInt8) ≠ equalsSign := by decide
  simp only [parseArg_short h htext hc, parseShort, hfirst, hsecond, ok_bind, if_neg hne, if_true]
  cases isShortFlag cmd c with
  | error fault => rfl
  | ok flag =>
    simp only [ok_bind, aloneValue_of_drop h, Except.map, alonePass]
    cases flag with
    | true => rfl
    | false => cases rest <;> rfl

end Short

end Federated.Tool
