import Federated.Tool.OptionOrder

/-!
# The defaults of a service

A service reads its options by name, and all registered options of that name answer.
Without any value or variable, a service reads its own default exactly if the first
default that the search meets is the same.
-/

namespace Federated.Tool

open Library

namespace Cli

/-- An option of a registered service, and the default it has. -/
structure OwnDefault (cli : Cli) where
  service : ServiceDef
  registered : service ∈ cli.registry.services
  option : CliOption
  owned : option ∈ service.options
  text : Bytes
  isDefault : option.defaultValue = some text

variable {cli : Cli}

/-- No value of the name is given on the command line, and no variable that an option of the name
maps to is set. -/
structure Unset (cli : Cli) (name : Bytes) : Prop where
  arguments : cli.getStoredOption name = none
  environment : ∀ o ∈ cli.candidates name, ∀ var ∈ o.envVar, cli.getEnvVar var = none

/-- The service reads its own default. -/
def OwnDefault.Resolves (own : cli.OwnDefault) : Prop :=
  (cli.getOptionValue own.option.name).map OptionValue.text = some own.text

/-- Among the options of the name, the commands' before the services' and each in the order of
registration, the first that maps to a variable and has a default has the same default. -/
def OwnDefault.IsFirst (own : cli.OwnDefault) : Prop :=
  ∃ pre o post, cli.candidates own.option.name = pre ++ o :: post ∧ o.envVar.isSome ∧
    o.defaultValue = some own.text ∧ ∀ q ∈ pre, q.envVar.isSome → q.defaultValue = none

/-- Where nothing is set, an option that maps to a variable has its default as value. -/
theorem valueAt_of_unset {name : Bytes} (h : cli.Unset name) {o : CliOption}
    (ho : o ∈ cli.candidates name) {v : OptionValue} :
    cli.valueAt o = some v ↔ o.envVar.isSome ∧ v.source = .default ∧
      o.defaultValue = some v.text := by
  unfold valueAt
  cases hvar : o.envVar with
  | none => simp
  | some var =>
    simp only [h.environment o ho var hvar, Option.none_or, Option.map_eq_some_iff]
    cases v
    grind

/-- A service reads its own default if and only if that is the first default of the name. -/
theorem OwnDefault.resolves_iff (own : cli.OwnDefault) (h : cli.Unset own.option.name) :
    own.Resolves ↔ own.IsFirst := by
  rw [Resolves, getOptionValue_of_not_stored h.arguments, Option.map_eq_some_iff]
  constructor
  · rintro ⟨v, hfind, htext⟩
    obtain ⟨pre, o, post, hsplit, hv, hpre⟩ := List.findSome?_eq_some_iff.mp hfind
    obtain ⟨hvar, -, hdefault⟩ := (valueAt_of_unset h (by simp [hsplit])).mp hv
    refine ⟨pre, o, post, hsplit, hvar, htext ▸ hdefault, fun q hq hqvar => ?_⟩
    exact (valueAt_eq_none_iff.mp (hpre q hq) hqvar).2.2
  · rintro ⟨pre, o, post, hsplit, hvar, hdefault, hpre⟩
    refine ⟨⟨.default, own.text⟩, List.findSome?_eq_some_iff.mpr ?_, rfl⟩
    refine ⟨pre, o, post, hsplit, (valueAt_of_unset h (by simp [hsplit])).mpr ?_, fun q hq => ?_⟩
    · exact ⟨hvar, rfl, hdefault⟩
    · refine Option.eq_none_iff_forall_ne_some.mpr fun v hv => ?_
      obtain ⟨hqvar, -, hqdefault⟩ := (valueAt_of_unset h (by simp [hsplit, hq])).mp hv
      rw [hpre q hq hqvar] at hqdefault
      cases hqdefault

/-- The program, started without any value. -/
def bare : Cli := launched fun _ => none

/-- The ports of two of its services. -/
def smtpPort : bare.OwnDefault where
  service := smtpSvc
  registered := List.mem_cons_self
  option := ⟨ascii "port", 'p'.toUInt8, .int, some (ascii "25"), some (ascii "FEDERATED_SMTP_PORT")⟩
  owned := List.mem_cons_self
  text := ascii "25"
  isDefault := rfl

def imapPort : bare.OwnDefault where
  service := imapSvc
  registered := List.mem_cons_of_mem _ List.mem_cons_self
  option :=
    ⟨ascii "port", 'p'.toUInt8, .int, some (ascii "143"), some (ascii "FEDERATED_IMAP_PORT")⟩
  owned := List.mem_cons_self
  text := ascii "143"
  isDefault := rfl

theorem unset_port : bare.Unset (ascii "port") := ⟨by decide, by decide⟩

/-- The SMTP service reads its own port, which the search meets first. -/
theorem resolves_smtpPort : smtpPort.Resolves := by
  refine (OwnDefault.resolves_iff smtpPort unset_port).mpr ?_
  refine ⟨(bare.candidates (ascii "port")).take 1, smtpPort.option,
    (bare.candidates (ascii "port")).drop 2, ?_, rfl, rfl, ?_⟩ <;> decide

/-- The IMAP service reads the port of the SMTP service. -/
theorem not_resolves_imapPort : bare.Unset imapPort.option.name ∧ ¬ imapPort.Resolves := by
  refine ⟨unset_port, ?_⟩
  unfold OwnDefault.Resolves
  decide

end Cli

end Federated.Tool
