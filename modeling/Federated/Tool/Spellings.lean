import Federated.Tool.ParseArgs
import Mathlib.Data.List.Nodup

/-!
# The spellings of an option

However the values of a command's options are spelled, each option ends up with
the value that it was given last. Each spelling is a branch of the loop of its
own; behind them stands a table that a value of a known name is written over in.
-/

namespace Federated.Tool

open Library

/-! ## The table -/

namespace Cli

variable {cli : Cli} {name value : Bytes}

/-- The names that values are stored under. -/
def storedNames (cli : Cli) : List Bytes := cli.optionValues.map fun o => o.name.str

/-- The two things that storing a value does to the table, if it has room for the name. -/
theorem setOptionValue_cases (hroom : name ∉ cli.storedNames → cli.optionValues.length < maxOptions)
    (value : Bytes) :
    (∃ pre o post, cli.optionValues = pre ++ o :: post ∧ (∀ q ∈ pre, q.name.str ≠ name) ∧
      o.name.str = name ∧ (cli.setOptionValue name value).optionValues =
        pre ++ { o with value := .copy 256 value } :: post) ∨
    (name ∉ cli.storedNames ∧ (cli.setOptionValue name value).optionValues =
      cli.optionValues ++ [⟨.copy 64 name, .copy 256 value⟩]) := by
  cases hfind : cli.optionValues.findIdx? fun o => o.name.str = name with
  | some i =>
    obtain ⟨hi, hname, hpre⟩ := List.findIdx?_eq_some_iff_getElem.mp hfind
    refine .inl ⟨cli.optionValues.take i, cli.optionValues[i], cli.optionValues.drop (i + 1),
      by simp, fun q hq => ?_, by simpa using hname, ?_⟩
    · obtain ⟨j, hj, rfl⟩ := List.mem_take_iff_getElem.mp hq
      simpa using hpre j (by omega)
    · simp [setOptionValue, hfind, List.modify_eq_take_cons_drop hi]
  | none =>
    have hnew : name ∉ cli.storedNames := by
      rw [List.findIdx?_eq_none_iff] at hfind
      intro hmem
      obtain ⟨o, ho, hname⟩ := List.mem_map.mp hmem
      simpa [hname] using hfind o ho
    refine .inr ⟨hnew, ?_⟩
    simp [setOptionValue, hfind, hroom hnew]

theorem storedNames_setOptionValue (hname : 0 ∉ name) (hlen : name.length ≤ 63)
    (hroom : name ∉ cli.storedNames → cli.optionValues.length < maxOptions) (value : Bytes) :
    (cli.setOptionValue name value).storedNames =
      if name ∈ cli.storedNames then cli.storedNames else cli.storedNames ++ [name] := by
  obtain ⟨pre, o, post, hold, -, ho, hnew⟩ | ⟨hfresh, hnew⟩ := setOptionValue_cases hroom value
  · have hmem : name ∈ cli.storedNames := by simp [storedNames, hold, ho]
    rw [if_pos hmem, storedNames, storedNames, hnew, hold]
    simp
  · rw [if_neg hfresh, storedNames, hnew, List.map_append, List.map_singleton,
      CharArray.str_copy 64 hname, List.take_of_length_le hlen]
    rfl

theorem getStoredOption_setOptionValue (hname : 0 ∉ name) (hlen : name.length ≤ 63)
    (hvalue : 0 ∉ value)
    (hroom : name ∉ cli.storedNames → cli.optionValues.length < maxOptions) (n : Bytes) :
    (cli.setOptionValue name value).getStoredOption n =
      if n = name then some ⟨.arguments, value.take 255⟩ else cli.getStoredOption n := by
  have htext : (CharArray.copy 256 value).str = value.take 255 := CharArray.str_copy 256 hvalue
  obtain ⟨pre, o, post, hold, hpre, ho, hnew⟩ | ⟨hfresh, hnew⟩ := setOptionValue_cases hroom value
  · rw [getStoredOption, getStoredOption, hnew, hold, List.find?_append, List.find?_append]
    by_cases hn : n = name
    · subst hn
      have hnone : pre.find? (fun q => q.name.str = n) = none := by simpa using hpre
      simp [hnone, ho, htext]
    · have hother : ¬ o.name.str = n := fun h => hn (h.symm.trans ho)
      simp [hother, hn]
  · have hstored : (CharArray.copy 64 name).str = name := by
      rw [CharArray.str_copy 64 hname, List.take_of_length_le hlen]
    rw [getStoredOption, getStoredOption, hnew, List.find?_append]
    by_cases hn : n = name
    · subst hn
      have hnone : cli.optionValues.find? (fun q => q.name.str = n) = none := by
        rw [List.find?_eq_none]
        intro q hq hqn
        exact hfresh (List.mem_map.mpr ⟨q, hq, by simpa using hqn⟩)
      simp [hnone, hstored, htext]
    · have hother : ¬ name = n := fun h => hn h.symm
      simp [hstored, hother, hn]

end Cli

/-! ## Commands and groups of arguments -/

/-- The options of a command have long names of their own, and short ones where they have any. -/
structure WellNamed (cmd : Command) : Prop where
  names : (cmd.options.map CliOption.name).Nodup
  shorts : ∀ o ∈ cmd.options, ∀ o' ∈ cmd.options,
    o.shortName ≠ 0 → o.shortName = o'.shortName → o = o'
  nonempty : ∀ o ∈ cmd.options, 1 ≤ o.name.length
  fits : ∀ o ∈ cmd.options, o.name.length ≤ 63
  no_equals : ∀ o ∈ cmd.options, equalsSign ∉ o.name
  no_nul : ∀ o ∈ cmd.options, 0 ∉ o.name
  no_dash : ∀ o ∈ cmd.options, o.shortName ≠ dash

/-- The ways to give an option a value. -/
inductive Spelling where
  /-- `--name=v` -/
  | longEquals
  /-- `--name v` -/
  | longNext
  /-- `-c v` -/
  | shortNext
  /-- `-c=v` -/
  | shortEquals
  /-- `-cv` -/
  | shortJoined
  deriving DecidableEq, Repr

/-- The arguments that give an option a value. -/
def Spelling.words (o : CliOption) (v : Bytes) : Spelling → List Bytes
  | longEquals => [dash :: dash :: (o.name ++ equalsSign :: v)]
  | longNext => [dash :: dash :: o.name, v]
  | shortNext => [[dash, o.shortName], v]
  | shortEquals => [dash :: o.shortName :: equalsSign :: v]
  | shortJoined => [dash :: o.shortName :: v]

/-- The option and the value can be spelled so. -/
def Spelling.Allows (o : CliOption) (v : Bytes) : Spelling → Prop
  | longEquals => True
  | longNext => True
  | shortNext => o.shortName ≠ 0
  | shortEquals => o.shortName ≠ 0
  | shortJoined => o.shortName ≠ 0 ∧ v ≠ [] ∧ v.head? ≠ some equalsSign

/-- An option with its value in one of the spellings, or a flag by itself. -/
inductive Group (cmd : Command) where
  | value (o : CliOption) (mem : o ∈ cmd.options) (type : o.type ≠ .flag) (s : Spelling)
    (v : Bytes) (allows : s.Allows o v)
  | longFlag (o : CliOption) (mem : o ∈ cmd.options) (type : o.type = .flag)
  | shortFlag (o : CliOption) (mem : o ∈ cmd.options) (type : o.type = .flag)
    (short : o.shortName ≠ 0)

namespace Group

variable {cmd : Command}

def option : Group cmd → CliOption
  | value o _ _ _ _ _ => o
  | longFlag o _ _ => o
  | shortFlag o _ _ _ => o

/-- The value that a group gives its option. -/
def given : Group cmd → Bytes
  | value _ _ _ _ v _ => v
  | longFlag _ _ _ => ascii "true"
  | shortFlag _ _ _ _ => ascii "true"

/-- The arguments of a group. -/
def words : Group cmd → List Bytes
  | value o _ _ s v _ => s.words o v
  | longFlag o _ _ => [dash :: dash :: o.name]
  | shortFlag o _ _ _ => [[dash, o.shortName]]

theorem option_mem (g : Group cmd) : g.option ∈ cmd.options := by
  cases g <;> assumption

/-- The value that an option is given last. -/
def last (groups : List (Group cmd)) (o : CliOption) : Option Bytes :=
  ((groups.filter fun g => g.option = o).getLast?).map given

end Group

/-! ## One group -/

namespace WellNamed

variable {cmd : Command} {o : CliOption}

theorem isFlag_eq (h : WellNamed cmd) (ho : o ∈ cmd.options) :
    isFlag cmd o.name = decide (o.type = .flag) := by
  have hsame : ∀ o' ∈ cmd.options, o'.name = o.name → o' = o :=
    fun o' ho' hname => List.inj_on_of_nodup_map h.names ho' ho hname
  rw [Bool.eq_iff_iff, isFlag, List.any_eq_true]
  constructor
  · rintro ⟨o', ho', hflag⟩
    simp only [Bool.and_eq_true, decide_eq_true_eq] at hflag
    obtain rfl := hsame o' ho' hflag.1
    simpa using hflag.2
  · intro hflag
    exact ⟨o, ho, by simpa using hflag⟩

theorem shortOption_eq (h : WellNamed cmd) (ho : o ∈ cmd.options) (hshort : o.shortName ≠ 0) :
    shortOption cmd o.shortName = some o := by
  cases hfind : shortOption cmd o.shortName with
  | none =>
    rw [shortOption, List.find?_eq_none] at hfind
    exact absurd (hfind o ho) (by simp)
  | some o' =>
    have hname : o'.shortName = o.shortName := by simpa using List.find?_some hfind
    rw [h.shorts o ho o' (List.mem_of_find?_eq_some hfind) hshort hname.symm]

theorem isShortFlag_eq (h : WellNamed cmd) (ho : o ∈ cmd.options) (hshort : o.shortName ≠ 0) :
    isShortFlag cmd o.shortName = .ok (decide (o.type = .flag)) := by
  have hlen := h.fits o ho
  rw [isShortFlag, h.shortOption_eq ho hshort]
  exact if_neg (by omega)

theorem storeShort_eq (h : WellNamed cmd) (ho : o ∈ cmd.options) (hshort : o.shortName ≠ 0)
    (value : Bytes) (cli : Cli) :
    storeShort cmd o.shortName value cli = cli.setOptionValue o.name value := by
  rw [storeShort, h.shortOption_eq ho hshort]

end WellNamed

variable {cmd : Command} {argv : List Argument} {i : Nat} {cli : Cli}

section

variable {o : CliOption} {more : List Bytes} (h : WellNamed cmd) (mem : o ∈ cmd.options)

include h mem

/-- Each spelling of a value comes to the same table. -/
theorem parseLoop_value (type : o.type ≠ .flag) {s : Spelling} {v : Bytes} (allows : s.Allows o v)
    (hargs : (argv.drop i).map Argument.text = s.words o v ++ more) :
    parseLoop argv cmd i cli =
      parseLoop argv cmd (i + (s.words o v).length) (cli.setOptionValue o.name v) := by
  have heq := h.no_equals o mem
  have hdash := h.no_dash o mem
  have hcut : o.name.take 63 = o.name := List.take_of_length_le (h.fits o mem)
  cases s with
  | longEquals =>
    obtain ⟨arg, rest, hdrop, htext, -⟩ := List.map_eq_cons_iff.mp hargs
    have hpass : parseArg argv cmd i cli = _ := parseArg_long_value hdrop htext (by simp)
    rw [takeWhile_ne_append heq, dropWhile_ne_append heq, hcut] at hpass
    exact parseLoop_of_next hdrop hpass
  | longNext =>
    obtain ⟨arg, rest, hdrop, htext, hrest⟩ := List.map_eq_cons_iff.mp hargs
    obtain ⟨next, rest, rfl, rfl, -⟩ := List.map_eq_cons_iff.mp hrest
    have hpass : parseArg argv cmd i cli = _ := parseArg_long_alone hdrop htext heq
    have hflag : isFlag cmd o.name = false := by simpa [h.isFlag_eq mem] using type
    rw [hcut, hflag] at hpass
    exact parseLoop_of_next hdrop hpass
  | shortNext =>
    obtain ⟨arg, rest, hdrop, htext, hrest⟩ := List.map_eq_cons_iff.mp hargs
    obtain ⟨next, rest, rfl, rfl, -⟩ := List.map_eq_cons_iff.mp hrest
    have hpass : parseArg argv cmd i cli = _ := parseArg_short_alone hdrop htext hdash
    rw [h.isShortFlag_eq mem allows, decide_eq_false type] at hpass
    simp only [h.storeShort_eq mem allows] at hpass
    exact parseLoop_of_next hdrop hpass
  | shortEquals =>
    obtain ⟨arg, rest, hdrop, htext, -⟩ := List.map_eq_cons_iff.mp hargs
    have hpass : parseArg argv cmd i cli = _ := parseArg_short_value hdrop htext hdash
    rw [h.storeShort_eq mem allows] at hpass
    exact parseLoop_of_next hdrop hpass
  | shortJoined =>
    obtain ⟨hshort, hne, hhead⟩ := allows
    obtain ⟨d, v, rfl⟩ := List.exists_cons_of_ne_nil hne
    obtain ⟨arg, rest, hdrop, htext, -⟩ := List.map_eq_cons_iff.mp hargs
    have hpass : parseArg argv cmd i cli = _ :=
      parseArg_short_joined hdrop htext hdash (by simpa using hhead)
    rw [h.storeShort_eq mem hshort] at hpass
    exact parseLoop_of_next hdrop hpass

theorem parseLoop_longFlag (type : o.type = .flag)
    (hargs : (argv.drop i).map Argument.text = (dash :: dash :: o.name) :: more) :
    parseLoop argv cmd i cli =
      parseLoop argv cmd (i + 1) (cli.setOptionValue o.name (ascii "true")) := by
  have hcut : o.name.take 63 = o.name := List.take_of_length_le (h.fits o mem)
  obtain ⟨arg, rest, hdrop, htext, -⟩ := List.map_eq_cons_iff.mp hargs
  have hpass : parseArg argv cmd i cli = _ :=
    parseArg_long_alone hdrop htext (h.no_equals o mem)
  rw [hcut, h.isFlag_eq mem, decide_eq_true type] at hpass
  exact parseLoop_of_next hdrop hpass

theorem parseLoop_shortFlag (type : o.type = .flag) (short : o.shortName ≠ 0)
    (hargs : (argv.drop i).map Argument.text = [dash, o.shortName] :: more) :
    parseLoop argv cmd i cli =
      parseLoop argv cmd (i + 1) (cli.setOptionValue o.name (ascii "true")) := by
  obtain ⟨arg, rest, hdrop, htext, -⟩ := List.map_eq_cons_iff.mp hargs
  have hpass : parseArg argv cmd i cli = _ :=
    parseArg_short_alone hdrop htext (h.no_dash o mem)
  rw [h.isShortFlag_eq mem short, decide_eq_true type] at hpass
  simp only [h.storeShort_eq mem short] at hpass
  exact parseLoop_of_next hdrop hpass

end

/-! ## All groups -/

/-- What a group does to the table. -/
def storeGroup (cli : Cli) (g : Group cmd) : Cli := cli.setOptionValue g.option.name g.given

/-- The loop takes the arguments of a group and stores what it gives. -/
theorem parseLoop_group (h : WellNamed cmd) (g : Group cmd) {more : List Bytes}
    (hargs : (argv.drop i).map Argument.text = g.words ++ more) :
    parseLoop argv cmd i cli = parseLoop argv cmd (i + g.words.length) (storeGroup cli g) := by
  cases g with
  | value o mem type s v allows => exact parseLoop_value h mem type allows hargs
  | longFlag o mem type => exact parseLoop_longFlag h mem type hargs
  | shortFlag o mem type short => exact parseLoop_shortFlag h mem type short hargs

theorem parseLoop_groups (h : WellNamed cmd) {groups : List (Group cmd)}
    (hargs : (argv.drop i).map Argument.text = groups.flatMap Group.words) :
    parseLoop argv cmd i cli = .ok (.ok, groups.foldl storeGroup cli) := by
  induction groups generalizing i cli with
  | nil => exact parseLoop_of_end (List.map_eq_nil_iff.mp hargs)
  | cons g groups ih =>
    rw [List.flatMap_cons] at hargs
    have hrest : (argv.drop (i + g.words.length)).map Argument.text =
        groups.flatMap Group.words := by
      rw [← List.drop_drop, List.map_drop, hargs, List.drop_left]
    rw [parseLoop_group h g hargs, ih hrest, List.foldl_cons]

/-- A value that is given in arguments has no NUL. -/
theorem Group.noNul_given {g : Group cmd} (h : ∀ w ∈ g.words, 0 ∉ w) : 0 ∉ g.given := by
  cases g with
  | value o mem type s v allows =>
    intro hv
    cases s <;> simp [words, Spelling.words, given] at h hv <;> grind
  | longFlag o mem type => simp only [given]; decide
  | shortFlag o mem type short => simp only [given]; decide

theorem Group.last_append (groups : List (Group cmd)) (g : Group cmd) (o : CliOption) :
    last (groups ++ [g]) o = if g.option = o then some g.given else last groups o := by
  by_cases ho : g.option = o <;> simp [last, ho]

/-- The table holds the last values of the options, under their names. -/
structure TableOf (groups : List (Group cmd)) (cli : Cli) : Prop where
  nodup : cli.storedNames.Nodup
  names : ∀ n ∈ cli.storedNames, n ∈ cmd.options.map CliOption.name
  stored : ∀ o ∈ cmd.options, cli.getStoredOption o.name =
    (Group.last groups o).map fun v => ⟨.arguments, v.take 255⟩

theorem tableOf_reset (cli : Cli) : TableOf ([] : List (Group cmd)) cli.resetOptions where
  nodup := List.nodup_nil
  names := by simp [Cli.storedNames, Cli.resetOptions]
  stored := by simp [Cli.getStoredOption, Cli.resetOptions, Group.last]

theorem TableOf.storeGroup (h : WellNamed cmd) {groups : List (Group cmd)}
    (ht : TableOf groups cli) {g : Group cmd} (hg : 0 ∉ g.given) :
    TableOf (groups ++ [g]) (storeGroup cli g) := by
  have hmem := g.option_mem
  have hname := h.no_nul _ hmem
  have hlen := h.fits _ hmem
  have hlisted : g.option.name ∈ cmd.options.map CliOption.name := List.mem_map_of_mem hmem
  -- A table with all names of the command has room for each of them.
  have hroom : g.option.name ∉ cli.storedNames → cli.optionValues.length < maxOptions := by
    intro hnew
    have hsub : g.option.name :: cli.storedNames ⊆ cmd.options.map CliOption.name :=
      List.cons_subset.mpr ⟨hlisted, ht.names⟩
    have hle := (List.subperm_of_subset (List.nodup_cons.mpr ⟨hnew, ht.nodup⟩) hsub).length_le
    have := cmd.fits
    simp only [List.length_cons, Cli.storedNames, List.length_map] at hle
    omega
  have hnames := Cli.storedNames_setOptionValue hname hlen hroom g.given
  constructor
  · rw [Tool.storeGroup, hnames]
    split
    case isTrue => exact ht.nodup
    case isFalse hnew => exact List.nodup_append_comm.mp (List.nodup_cons.mpr ⟨hnew, ht.nodup⟩)
  · intro n hn
    rw [Tool.storeGroup, hnames] at hn
    split at hn
    case isTrue => exact ht.names n hn
    case isFalse =>
      rcases List.mem_append.mp hn with hn | hn
      · exact ht.names n hn
      · rw [List.mem_singleton.mp hn]
        exact hlisted
  · intro o ho
    rw [Tool.storeGroup, Cli.getStoredOption_setOptionValue hname hlen hg hroom,
      Group.last_append, ht.stored o ho]
    by_cases hsame : g.option = o
    · simp [hsame]
    · have hother : ¬ o.name = g.option.name := fun heq =>
        hsame (List.inj_on_of_nodup_map h.names hmem ho heq.symm)
      rw [if_neg hother, if_neg hsame]

theorem tableOf_foldl (h : WellNamed cmd) (cli : Cli) {groups : List (Group cmd)}
    (hgiven : ∀ g ∈ groups, 0 ∉ g.given) :
    TableOf groups (groups.foldl storeGroup cli.resetOptions) := by
  induction groups using List.reverseRecOn with
  | nil => exact tableOf_reset cli
  | append_singleton groups g ih =>
    rw [List.forall_mem_append] at hgiven
    rw [List.foldl_append]
    exact (ih hgiven.1).storeGroup h (hgiven.2 g List.mem_cons_self)

/-- Every option has the value that it was given last, however that was spelled. -/
theorem parseArgs_groups (h : WellNamed cmd) (groups : List (Group cmd)) {argv : List Argument}
    (hargs : argv.tail.map Argument.text = groups.flatMap Group.words) (cli : Cli) :
    ∃ result, parseArgs argv cmd cli = .ok (.ok, result) ∧
      ∀ o ∈ cmd.options, result.getStoredOption o.name =
        (Group.last groups o).map fun v => ⟨.arguments, v.take 255⟩ := by
  have hgiven : ∀ g ∈ groups, 0 ∉ g.given := by
    intro g hg
    refine Group.noNul_given fun w hw => ?_
    have hmem : w ∈ argv.tail.map Argument.text := by
      rw [hargs]
      exact List.mem_flatMap.mpr ⟨g, hg, hw⟩
    obtain ⟨arg, -, rfl⟩ := List.mem_map.mp hmem
    exact arg.noNul
  refine ⟨_, parseLoop_groups h (by rw [List.drop_one, hargs]), ?_⟩
  exact (tableOf_foldl h cli hgiven).stored

theorem wellNamed_serviceCmd : WellNamed serviceCmd where
  names := by decide
  shorts := by decide
  nonempty := by decide
  fits := by decide
  no_equals := by decide
  no_nul := by decide
  no_dash := by decide

def servicePort : CliOption :=
  ⟨ascii "port", 'p'.toUInt8, .int, none, some (ascii "FEDERATED_PORT")⟩

def serviceNoColor : CliOption := ⟨ascii "no-color", 0, .flag, none, none⟩

/-- A port that is given twice, with a flag between. -/
def portTwice : List (Group serviceCmd) :=
  [.value servicePort (by decide) (by decide) .longEquals (ascii "25") trivial,
    .longFlag serviceNoColor (by decide) rfl,
    .value servicePort (by decide) (by decide) .shortNext (ascii "143")
      (by change servicePort.shortName ≠ 0; decide)]

def portTwiceArgs : List Argument :=
  [⟨ascii "service", by decide⟩, ⟨ascii "--port=25", by decide⟩, ⟨ascii "--no-color", by decide⟩,
    ⟨ascii "-p", by decide⟩, ⟨ascii "143", by decide⟩]

theorem parseArgs_groups_port : ∃ result,
    parseArgs portTwiceArgs serviceCmd .start = .ok (.ok, result) ∧
      result.getStoredOption (ascii "port") = some ⟨.arguments, ascii "143"⟩ := by
  have hargs : portTwiceArgs.tail.map Argument.text = portTwice.flatMap Group.words := by decide
  obtain ⟨result, hr, hstored⟩ := parseArgs_groups wellNamed_serviceCmd portTwice hargs .start
  exact ⟨result, hr, hstored servicePort (by decide)⟩

end Federated.Tool
