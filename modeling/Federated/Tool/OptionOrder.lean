import Federated.Tool.Cli
import Federated.Library.Search

/-!
# The order of option values

A value given on the command line comes before one of the environment file, that
before one of the environment, and that before a default. The search goes through
the options of a name and takes the first that has any of the last three, so a
default can come before a variable that an option behind it maps to.
-/

namespace Federated.Tool

open Library

namespace Cli

variable {cli : Cli} {name : Bytes}

/-- The registered options of a name, in the order of the search. -/
def candidates (cli : Cli) (name : Bytes) : List CliOption :=
  (cli.registry.commands.flatMap Command.options ++
    cli.registry.services.flatMap ServiceDef.options).filter fun o => o.name = name

/-- The variable an option maps to, as the environment file sets it. -/
def fileValue (cli : Cli) (o : CliOption) : Option OptionValue := o.envVar.bind cli.fileVar

/-- The variable an option maps to, as the environment of the process sets it. -/
def processValue (cli : Cli) (o : CliOption) : Option OptionValue := o.envVar.bind cli.processVar

/-- The default of an option as a value. -/
def defaultAt (o : CliOption) : Option OptionValue :=
  o.defaultValue.map fun text => ⟨.default, text⟩

/-- A result of a lookup that follows the documented order. -/
structure FollowsOrder (cli : Cli) (name : Bytes) (result : Option OptionValue) : Prop where
  arguments : ∀ v ∈ cli.getStoredOption name, result = some v
  envFile : cli.getStoredOption name = none →
    (∃ o ∈ cli.candidates name, (cli.fileValue o).isSome) →
    ∃ o ∈ cli.candidates name, ∃ v ∈ cli.fileValue o, result = some v
  environment : cli.getStoredOption name = none →
    (∀ o ∈ cli.candidates name, cli.fileValue o = none) →
    (∃ o ∈ cli.candidates name, (cli.processValue o).isSome) →
    ∃ o ∈ cli.candidates name, ∃ v ∈ cli.processValue o, result = some v
  default : cli.getStoredOption name = none →
    (∀ o ∈ cli.candidates name, cli.fileValue o = none ∧ cli.processValue o = none) →
    (∃ o ∈ cli.candidates name, (defaultAt o).isSome) →
    ∃ o ∈ cli.candidates name, ∃ v ∈ defaultAt o, result = some v

/-- The options of a name come in an order in which the search meets the right one first. -/
structure Orderly (cli : Cli) (name : Bytes) : Prop where
  /-- In front of the first option whose variable is set in the environment file, every option
  that maps to a variable has it set nowhere, and no default. -/
  envFile : ∀ pre o post, cli.candidates name = pre ++ o :: post → (cli.fileValue o).isSome →
    (∀ q ∈ pre, cli.fileValue q = none) →
    ∀ q ∈ pre, q.envVar.isSome → cli.processValue q = none ∧ q.defaultValue = none
  /-- Where the file sets none, every option that maps to a variable in front of the first whose
  variable is set has no default. -/
  environment : (∀ o ∈ cli.candidates name, cli.fileValue o = none) →
    ∀ pre o post, cli.candidates name = pre ++ o :: post → (cli.processValue o).isSome →
    (∀ q ∈ pre, cli.processValue q = none) →
    ∀ q ∈ pre, q.envVar.isSome → q.defaultValue = none
  /-- Where no variable is set, an option that has a default maps to one, if any has a default. -/
  default : (∀ o ∈ cli.candidates name, cli.fileValue o = none ∧ cli.processValue o = none) →
    (∃ o ∈ cli.candidates name, o.defaultValue.isSome) →
    ∃ o ∈ cli.candidates name, o.envVar.isSome ∧ o.defaultValue.isSome

/-! ## The search -/

theorem getOptionValue_of_stored {v : OptionValue} (h : cli.getStoredOption name = some v) :
    cli.getOptionValue name = some v := by
  simp [getOptionValue, h]

/-- Without a value of the command line, the value of the first option of the name that has
one. -/
theorem getOptionValue_of_not_stored (h : cli.getStoredOption name = none) :
    cli.getOptionValue name = (cli.candidates name).findSome? cli.valueAt := by
  rw [candidates, findSome?_filter, List.findSome?_append, findSome?_flatMap, findSome?_flatMap]
  simp only [getOptionValue, h, searchOptions, decide_eq_true_eq]
  split <;> rename_i hcommands <;> rw [hcommands] <;> rfl

theorem valueAt_eq (o : CliOption) : cli.valueAt o = (cli.fileValue o).or
    ((cli.processValue o).or (if o.envVar.isSome then defaultAt o else none)) := by
  unfold valueAt fileValue processValue getEnvVar defaultAt
  cases o.envVar with
  | none => rfl
  | some var => simp [Option.or_assoc]

/-- The kinds of values do not overlap. -/
theorem source_fileValue {o : CliOption} {v : OptionValue} (h : v ∈ cli.fileValue o) :
    v.source = .envFile := by
  simp only [fileValue, fileVar, Option.mem_def, Option.bind_eq_some_iff,
    Option.map_eq_some_iff] at h
  obtain ⟨_, _, _, _, rfl⟩ := h
  rfl

theorem source_processValue {o : CliOption} {v : OptionValue} (h : v ∈ cli.processValue o) :
    v.source = .environment := by
  simp only [processValue, processVar, Option.mem_def, Option.bind_eq_some_iff,
    Option.map_eq_some_iff] at h
  obtain ⟨_, _, _, _, rfl⟩ := h
  rfl

theorem source_defaultAt {o : CliOption} {v : OptionValue} (h : v ∈ defaultAt o) :
    v.source = .default := by
  simp only [defaultAt, Option.mem_def, Option.map_eq_some_iff] at h
  obtain ⟨_, _, rfl⟩ := h
  rfl

theorem valueAt_eq_none_iff {o : CliOption} : cli.valueAt o = none ↔
    (o.envVar.isSome →
      cli.fileValue o = none ∧ cli.processValue o = none ∧ o.defaultValue = none) := by
  rw [valueAt_eq]
  cases hvar : o.envVar <;> simp [fileValue, processValue, defaultAt, hvar]

/-! ## When the order is kept -/

/-- The search gives a variable of the environment file if nothing of another kind is met in
front of the first of them. -/
theorem envFile_iff (hex : ∃ o ∈ cli.candidates name, (cli.fileValue o).isSome) :
    (∃ o ∈ cli.candidates name, ∃ v ∈ cli.fileValue o,
      (cli.candidates name).findSome? cli.valueAt = some v) ↔
    ∀ pre o post, cli.candidates name = pre ++ o :: post → (cli.fileValue o).isSome →
      (∀ q ∈ pre, cli.fileValue q = none) →
      ∀ q ∈ pre, q.envVar.isSome → cli.processValue q = none ∧ q.defaultValue = none := by
  rw [findSome?_preferred_iff (g := cli.fileValue) ?_ ?_ hex]
  · refine forall_congr' fun pre => forall₄_congr fun o post _ _ => forall_congr' fun hpre =>
      forall₂_congr fun q hq => ?_
    simp [valueAt_eq_none_iff, hpre q hq]
  · intro o _ v hv
    simp [valueAt_eq, Option.mem_def.mp hv]
  · intro o b _ v hv hvalue
    have hsource := source_fileValue hv
    rw [valueAt_eq] at hvalue
    cases hfile : cli.fileValue b with
    | some w => simpa [hfile] using hvalue
    | none =>
      rw [hfile, Option.none_or, Option.or_eq_some_iff] at hvalue
      obtain hprocess | ⟨-, hdefault⟩ := hvalue
      · rw [source_processValue hprocess] at hsource
        cases hsource
      · split at hdefault
        · rw [source_defaultAt hdefault] at hsource
          cases hsource
        · cases hdefault

/-- Where the file sets none, the search gives a variable of the process if no default is met
in front of the first of them. -/
theorem environment_iff (hfile : ∀ o ∈ cli.candidates name, cli.fileValue o = none)
    (hex : ∃ o ∈ cli.candidates name, (cli.processValue o).isSome) :
    (∃ o ∈ cli.candidates name, ∃ v ∈ cli.processValue o,
      (cli.candidates name).findSome? cli.valueAt = some v) ↔
    ∀ pre o post, cli.candidates name = pre ++ o :: post → (cli.processValue o).isSome →
      (∀ q ∈ pre, cli.processValue q = none) →
      ∀ q ∈ pre, q.envVar.isSome → q.defaultValue = none := by
  rw [findSome?_preferred_iff (g := cli.processValue) ?_ ?_ hex]
  · refine forall₄_congr fun pre o post hsplit => forall_congr' fun _ => forall_congr' fun hpre =>
      forall₂_congr fun q hq => ?_
    have hfileq := hfile q (by simp [hsplit, hq])
    simp [valueAt_eq_none_iff, hpre q hq, hfileq]
  · intro o ho v hv
    simp [valueAt_eq, hfile o ho, Option.mem_def.mp hv]
  · intro o b hb v hv hvalue
    have hsource := source_processValue hv
    rw [valueAt_eq, hfile b hb, Option.none_or, Option.or_eq_some_iff] at hvalue
    obtain hprocess | ⟨-, hdefault⟩ := hvalue
    · exact hprocess
    · split at hdefault
      · rw [source_defaultAt hdefault] at hsource
        cases hsource
      · cases hdefault

/-- Where no variable is set, the search gives a default if one belongs to an option that maps
to a variable. -/
theorem default_iff (hunset : ∀ o ∈ cli.candidates name,
      cli.fileValue o = none ∧ cli.processValue o = none) :
    (∃ o ∈ cli.candidates name, ∃ v ∈ defaultAt o,
      (cli.candidates name).findSome? cli.valueAt = some v) ↔
    ∃ o ∈ cli.candidates name, o.envVar.isSome ∧ o.defaultValue.isSome := by
  have hvalue : ∀ o ∈ cli.candidates name,
      cli.valueAt o = if o.envVar.isSome then defaultAt o else none := by
    intro o ho
    obtain ⟨hfile, hprocess⟩ := hunset o ho
    rw [valueAt_eq, hfile, hprocess, Option.none_or, Option.none_or]
  constructor
  · rintro ⟨-, -, v, -, hfind⟩
    obtain ⟨o, ho, hv⟩ := List.exists_of_findSome?_eq_some hfind
    rw [hvalue o ho] at hv
    refine ⟨o, ho, ?_⟩
    cases hvar : o.envVar <;> cases hdefault : o.defaultValue <;> simp_all [defaultAt]
  · rintro ⟨o, ho, hvar, hdefault⟩
    have hsome : ((cli.candidates name).findSome? cli.valueAt).isSome := by
      refine List.findSome?_isSome_iff.mpr ⟨o, ho, ?_⟩
      simpa [hvalue o ho, hvar, defaultAt] using hdefault
    obtain ⟨v, hv⟩ := Option.isSome_iff_exists.mp hsome
    obtain ⟨q, hq, hqv⟩ := List.exists_of_findSome?_eq_some hv
    rw [hvalue q hq] at hqv
    split at hqv
    · exact ⟨q, hq, v, hqv, hv⟩
    · cases hqv

/-- A lookup follows the documented order if and only if it finds a value of the command line or
meets the options of the name in an order in which the right one comes first. -/
theorem getOptionValue_followsOrder_iff (cli : Cli) (name : Bytes) :
    FollowsOrder cli name (cli.getOptionValue name) ↔
      (cli.getStoredOption name = none → Orderly cli name) := by
  cases hstored : cli.getStoredOption name with
  | some v =>
    refine iff_of_true ⟨?_, ?_, ?_, ?_⟩ nofun
    · intro w hw
      rw [getOptionValue_of_stored hstored, ← hstored]
      exact hw
    all_goals
      intro hnone
      rw [hstored] at hnone
      cases hnone
  | none =>
    rw [getOptionValue_of_not_stored hstored]
    constructor
    · intro h _
      refine ⟨?_, ?_, fun hunset hex => ?_⟩
      · intro pre o post hsplit ho
        exact (envFile_iff ⟨o, by simp [hsplit], ho⟩).mp
          (h.envFile hstored ⟨o, by simp [hsplit], ho⟩) pre o post hsplit ho
      · intro hfile pre o post hsplit ho
        exact (environment_iff hfile ⟨o, by simp [hsplit], ho⟩).mp
          (h.environment hstored hfile ⟨o, by simp [hsplit], ho⟩) pre o post hsplit ho
      · exact (default_iff hunset).mp (h.default hstored hunset (by simpa [defaultAt] using hex))
    · intro h
      have h := h rfl
      refine ⟨fun v hv => ?_, fun _ hex => ?_, fun _ hfile hex => ?_, fun _ hunset hex => ?_⟩
      · rw [hstored] at hv
        cases hv
      · exact (envFile_iff hex).mpr h.envFile
      · exact (environment_iff hfile hex).mpr (h.environment hfile)
      · exact (default_iff hunset).mpr (h.default hunset (by simpa [defaultAt] using hex))

/-- The program without arguments or an environment file. -/
def launched (getenv : Bytes → Option Bytes) : Cli :=
  ⟨initCli .empty, [], Nat.zero_le _, [], Nat.zero_le _, getenv⟩

/-- The address for the SMTP service is set in the environment, and a default comes first. -/
theorem not_followsOrder_smtpHost :
    let cli := launched fun name =>
      if name = ascii "FEDERATED_SMTP_HOST" then some (ascii "127.0.0.1") else none
    ¬ FollowsOrder cli (ascii "host") (cli.getOptionValue (ascii "host")) := by
  intro cli h
  obtain ⟨o, ho, v, hv, hresult⟩ := h.environment (by decide) (by decide) (by decide)
  have hsource := source_processValue hv
  have hdefault : cli.getOptionValue (ascii "host") = some ⟨.default, ascii "0.0.0.0"⟩ := by decide
  rw [hdefault] at hresult
  cases hresult
  cases hsource

end Cli

end Federated.Tool
