import Federated.Tool.ParseArgs

/-!
# What the loop over the arguments reads

Every lookahead of the loop is covered by a test in front of it, but for one: a
dash that is the whole argument is taken for a short option, and the character
behind its terminator is read. So the loop stays inside the arguments as long as
it comes to no such dash; one that is the value of an option is not looked at.
Long names must have room in the array that the loop copies them to.
-/

namespace Federated.Tool

/-! ## The arguments that are looked at -/

/-- The short name of an option that stands alone. -/
def aloneShort (arg : Argument) : Option UInt8 :=
  if arg.text.length = 2 ∧ arg.text.head? = some dash ∧ arg.text.getD 1 0 ≠ dash then
    some (arg.text.getD 1 0)
  else none

/-- The long name of an option that stands alone. -/
def aloneLong (arg : Argument) : Option Bytes :=
  if arg.text.take 2 = [dash, dash] ∧ equalsSign ∉ arg.text.drop 2 then some (arg.text.drop 2)
  else none

/-- The option takes the next argument for its value. -/
def takesNext (cmd : Command) (arg : Argument) : Bool :=
  ((aloneLong arg).any fun name => !isFlag cmd (name.take 63)) ||
    (aloneShort arg).any fun c => !(shortOption cmd c).any fun o => o.type = .flag

/-- The arguments that the loop looks for options in: not the values that options take. -/
def optionArgs (cmd : Command) : List Argument → List Argument
  | [] => []
  | arg :: rest =>
    if takesNext cmd arg then arg :: optionArgs cmd rest.tail
    else arg :: optionArgs cmd rest
termination_by args => args.length
decreasing_by
  · simp only [List.length_tail, List.length_cons]
    omega
  · simp

/-! ## Kinds of arguments -/

/-- How an argument is written. -/
inductive Written : Bytes → Prop where
  | other {text : Bytes} (h : text.head? ≠ some dash) : Written text
  | lone : Written [dash]
  | longValue {name : Bytes} (h : equalsSign ∈ name) : Written (dash :: dash :: name)
  | longAlone {name : Bytes} (h : equalsSign ∉ name) : Written (dash :: dash :: name)
  | shortAlone {c : UInt8} (hc : c ≠ dash) : Written [dash, c]
  | shortValue {c : UInt8} {value : Bytes} (hc : c ≠ dash) :
    Written (dash :: c :: equalsSign :: value)
  | shortJoined {c d : UInt8} {value : Bytes} (hc : c ≠ dash) (hd : d ≠ equalsSign) :
    Written (dash :: c :: d :: value)

theorem written (text : Bytes) : Written text := by
  by_cases hhead : text.head? = some dash
  · obtain ⟨tail, rfl⟩ : ∃ tail, text = dash :: tail := List.head?_eq_some_iff.mp hhead
    rcases tail with - | ⟨c, tail⟩
    · exact .lone
    · by_cases hc : c = dash
      · subst hc
        by_cases heq : equalsSign ∈ tail
        · exact .longValue heq
        · exact .longAlone heq
      · rcases tail with - | ⟨d, value⟩
        · exact .shortAlone hc
        · by_cases hd : d = equalsSign
          · subst hd
            exact .shortValue hc
          · exact .shortJoined hc hd
  · exact .other hhead

variable {argv rest : List Argument} {cmd : Command} {i : Nat} {arg : Argument} {cli : Cli}

/-- The ways out of a pass at an argument. -/
inductive ArgOutcome (cmd : Command) (arg : Argument) (rest : List Argument) (cli : Cli) :
    Except Fault ArgPass → Prop where
  | lone (htext : arg.text = [dash]) : ArgOutcome cmd arg rest cli (.error .read)
  | missing (htext : arg.text ≠ [dash]) (htakes : takesNext cmd arg = true) (hrest : rest = []) :
    ArgOutcome cmd arg rest cli (.ok (.exit (.errFormat, cli)))
  | pair (htext : arg.text ≠ [dash]) (htakes : takesNext cmd arg = true) (hrest : rest ≠ [])
    (cli' : Cli) : ArgOutcome cmd arg rest cli (.ok (.next (1, cli')))
  | single (htext : arg.text ≠ [dash]) (htakes : takesNext cmd arg = false) (cli' : Cli) :
    ArgOutcome cmd arg rest cli (.ok (.next (0, cli')))

theorem argOutcome_long {name : Bytes} (h : argv.drop i = arg :: rest)
    (htext : arg.text = dash :: dash :: name) (heq : equalsSign ∉ name) :
    ArgOutcome cmd arg rest cli (parseArg argv cmd i cli) := by
  have hlong : aloneLong arg = some name := by simp [aloneLong, htext, heq]
  have hshort : aloneShort arg = none := by simp [aloneShort, htext]
  have hne : arg.text ≠ [dash] := by simp [htext]
  have htakes : takesNext cmd arg = !isFlag cmd (name.take 63) := by
    simp [takesNext, hlong, hshort]
  rw [parseArg_long_alone h htext heq]
  cases hflag : isFlag cmd (name.take 63) with
  | true => exact .single hne (by simp [htakes, hflag]) _
  | false =>
    have htakes : takesNext cmd arg = true := by rw [htakes, hflag]; rfl
    cases rest with
    | nil => exact .missing hne htakes rfl
    | cons next rest => exact .pair hne htakes (List.cons_ne_nil _ _) _

theorem argOutcome_short {c : UInt8} (hroom : ∀ o ∈ cmd.options, o.name.length < 64)
    (h : argv.drop i = arg :: rest) (htext : arg.text = [dash, c]) (hc : c ≠ dash) :
    ArgOutcome cmd arg rest cli (parseArg argv cmd i cli) := by
  have hlong : aloneLong arg = none := by simp [aloneLong, htext, hc]
  have hshort : aloneShort arg = some c := by simp [aloneShort, htext, hc]
  have hne : arg.text ≠ [dash] := by simp [htext]
  have htakes : takesNext cmd arg = !(shortOption cmd c).any fun o => o.type = .flag := by
    simp [takesNext, hlong, hshort]
  rw [parseArg_short_alone h htext hc, isShortFlag]
  cases hoption : shortOption cmd c with
  | none =>
    rw [hoption] at htakes
    cases rest with
    | nil => exact .missing hne htakes rfl
    | cons next rest => exact .pair hne htakes (List.cons_ne_nil _ _) _
  | some o =>
    have hlen : ¬ o.name.length ≥ 64 :=
      Nat.not_le_of_lt (hroom o (List.mem_of_find?_eq_some hoption))
    rw [hoption, Option.any_some] at htakes
    simp only [hlen, if_false, Except.map]
    by_cases hflag : o.type = .flag
    · rw [decide_eq_true hflag] at htakes ⊢
      exact .single hne htakes _
    · rw [decide_eq_false hflag] at htakes ⊢
      cases rest with
      | nil => exact .missing hne htakes rfl
      | cons next rest => exact .pair hne htakes (List.cons_ne_nil _ _) _

/-- A pass goes one of these ways. -/
theorem parseArg_cases (hroom : ∀ o ∈ cmd.options, o.name.length < 64)
    (h : argv.drop i = arg :: rest) :
    ArgOutcome cmd arg rest cli (parseArg argv cmd i cli) := by
  -- An argument with its value in it takes nothing else.
  have whole : aloneLong arg = none → aloneShort arg = none → arg.text ≠ [dash] → ∀ cli',
      parseArg argv cmd i cli = .ok (.next (0, cli')) →
        ArgOutcome cmd arg rest cli (parseArg argv cmd i cli) := by
    intro hlong hshort hne cli' hpass
    rw [hpass]
    exact .single hne (by simp [takesNext, hlong, hshort]) cli'
  generalize htext : arg.text = text
  have hzero : dash ≠ equalsSign := by decide
  cases written text with
  | other hother =>
    rw [← htext] at hother
    have htake : arg.text.take 2 ≠ [dash, dash] := by
      intro htake
      have hhead := congrArg List.head? htake
      rw [List.head?_take, if_neg (by decide)] at hhead
      exact hother hhead
    refine whole ?_ ?_ ?_ _ (parseArg_other h hother)
    · simp [aloneLong, htake]
    · simp [aloneShort, hother]
    · intro hlone
      simp [hlone] at hother
  | lone =>
    rw [parseArg_lone h htext]
    exact .lone htext
  | longValue heq =>
    refine whole ?_ ?_ (by simp [htext]) _ (parseArg_long_value h htext heq)
    · simp [aloneLong, htext, heq]
    · simp [aloneShort, htext]
  | longAlone heq => exact argOutcome_long h htext heq
  | shortAlone hc => exact argOutcome_short hroom h htext hc
  | shortValue hc =>
    refine whole ?_ ?_ (by simp [htext]) _ (parseArg_short_value h htext hc)
    · simp [aloneLong, htext, hc]
    · simp [aloneShort, htext]
  | shortJoined hc hd =>
    refine whole ?_ ?_ (by simp [htext]) _ (parseArg_short_joined h htext hc hd)
    · simp [aloneLong, htext, hc]
    · simp [aloneShort, htext]

/-! ## The loop -/

theorem optionArgs_cons (cmd : Command) (arg : Argument) (rest : List Argument) :
    optionArgs cmd (arg :: rest) =
      if takesNext cmd arg then arg :: optionArgs cmd rest.tail
      else arg :: optionArgs cmd rest := by
  rw [optionArgs]

/-- The loop reads outside an argument or outside `argv` exactly if it comes to a lone dash. -/
theorem parseLoop_read_iff (hroom : ∀ o ∈ cmd.options, o.name.length < 64)
    (argv : List Argument) (i : Nat) (cli : Cli) :
    parseLoop argv cmd i cli = .error .read ↔
      ∃ arg ∈ optionArgs cmd (argv.drop i), arg.text = [dash] := by
  induction hn : argv.length - i using Nat.strong_induction_on generalizing i cli with
  | _ n ih =>
    subst hn
    cases h : argv.drop i with
    | nil =>
      rw [parseLoop_of_end h, optionArgs]
      simp
    | cons arg rest =>
      have hi := lt_of_drop h
      have hdrop (k : Nat) : argv.drop (i + k + 1) = rest.drop k := by
        rw [Nat.add_assoc, ← List.drop_drop, h, List.drop_succ_cons]
      rw [optionArgs_cons]
      have hcases : ArgOutcome cmd arg rest cli (parseArg argv cmd i cli) := parseArg_cases hroom h
      generalize hpass : parseArg argv cmd i cli = pass at hcases
      cases hcases with
      | lone htext =>
        rw [parseLoop_of_fault h hpass]
        refine iff_of_true rfl ⟨arg, ?_, htext⟩
        split_ifs <;> simp
      | missing htext htakes hrest =>
        rw [parseLoop_of_exit h hpass]
        simp [htakes, htext, hrest, optionArgs]
      | pair htext htakes _ cli' =>
        rw [parseLoop_of_next h hpass, ih _ (by omega) _ cli' rfl, hdrop 1, List.drop_one]
        simp [htakes, htext]
      | single htext htakes cli' =>
        rw [parseLoop_of_next h hpass, ih _ (by omega) _ cli' rfl, hdrop 0, List.drop_zero]
        simp [htakes, htext]

/-- No read leaves `argv` or one of its strings. -/
def ReadsInside (argv : List Argument) (cmd : Command) : Prop :=
  ∀ cli, parseArgs argv cmd cli ≠ .error .read

/-- The loop stays inside the arguments unless it comes to a lone dash. The long names of the
command have room in the 64 bytes that they are copied to. -/
theorem readsInside_iff (argv : List Argument) (cmd : Command)
    (hroom : ∀ o ∈ cmd.options, o.name.length < 64) :
    ReadsInside argv cmd ↔ ∀ arg ∈ optionArgs cmd argv.tail, arg.text ≠ [dash] := by
  have hread (cli : Cli) := parseLoop_read_iff hroom argv 1 cli.resetOptions
  rw [List.drop_one] at hread
  constructor
  · intro h arg harg htext
    exact h .start ((hread _).mpr ⟨arg, harg, htext⟩)
  · intro h cli hfault
    obtain ⟨arg, harg, htext⟩ := (hread cli).mp hfault
    exact h arg harg htext

/-- A dash that is the value of an option. -/
theorem readsInside_value : ReadsInside [⟨ascii "service", by decide⟩, ⟨ascii "--port", by decide⟩,
    ⟨[dash], by decide⟩] serviceCmd := by
  refine (readsInside_iff _ _ (by decide)).mpr ?_
  have htakes : takesNext serviceCmd ⟨ascii "--port", by decide⟩ = true := by decide
  have hport : ascii "--port" ≠ [dash] := by decide
  simpa [optionArgs_cons, htakes, optionArgs] using hport

/-- A dash behind the name of the command. -/
theorem not_readsInside_dash :
    ¬ ∀ (argv : List Argument) (cmd : Command), ReadsInside argv cmd := by
  intro h
  have hlone : ([⟨ascii "version", by decide⟩, ⟨[dash], by decide⟩] : List Argument).drop 1 =
    ⟨[dash], by decide⟩ :: [] := rfl
  exact h _ versionCmd .start (parseLoop_of_fault hlone (parseArg_lone hlone rfl))

end Federated.Tool
