import Federated.Core

/-!
# Command line options

The registry of commands and services with their options, and the lookup of an
option's value. A value is the text behind the pointer that the lookup returns, and
the table that pointer leads into. The option values and the variables of an
environment file lie in tables of fixed size; `getenv` is the environment of the
process.
-/

namespace Federated.Tool

def maxCommands : Nat := 50
def maxOptions : Nat := 30
def maxServices : Nat := 20
def maxEnvVars : Nat := 100

inductive OptionType where
  | string
  | int
  | bool
  | flag
  deriving DecidableEq, Repr

structure CliOption where
  name : Bytes
  shortName : UInt8
  type : OptionType
  defaultValue : Option Bytes
  envVar : Option Bytes
  deriving DecidableEq

structure Command where
  name : Bytes
  options : List CliOption
  fits : options.length ≤ maxOptions

structure ServiceDef where
  name : Bytes
  options : List CliOption
  fits : options.length ≤ maxOptions

structure CliRegistry where
  commands : List Command
  commandsFit : commands.length ≤ maxCommands
  services : List ServiceDef
  servicesFit : services.length ≤ maxServices

def CliRegistry.empty : CliRegistry := ⟨[], Nat.zero_le _, [], Nat.zero_le _⟩

def registerCommand (cmd : Command) (reg : CliRegistry) : ErrorCode × CliRegistry :=
  if h : reg.commands.length ≥ maxCommands then (.errInternal, reg)
  else
    (.ok, { reg with
      commands := reg.commands ++ [cmd]
      commandsFit := by rw [List.length_append]; exact Nat.lt_of_not_ge h })

def registerService (service : ServiceDef) (reg : CliRegistry) : ErrorCode × CliRegistry :=
  if h : reg.services.length ≥ maxServices then (.errInternal, reg)
  else
    (.ok, { reg with
      services := reg.services ++ [service]
      servicesFit := by rw [List.length_append]; exact Nat.lt_of_not_ge h })

/-! ## The variables of the program -/

structure StoredOption where
  name : CharArray 64
  value : CharArray 256

structure EnvVar where
  key : CharArray 64
  value : CharArray 256

structure Cli where
  registry : CliRegistry
  optionValues : List StoredOption
  optionsFit : optionValues.length ≤ maxOptions
  envVars : List EnvVar
  envFits : envVars.length ≤ maxEnvVars
  getenv : Bytes → Option Bytes

/-- Where a value comes from. -/
inductive Source where
  | arguments
  | envFile
  | environment
  | default
  deriving DecidableEq, Repr

structure OptionValue where
  source : Source
  text : Bytes
  deriving DecidableEq, Repr

namespace Cli

/-! ## Lookups -/

def getStoredOption (cli : Cli) (name : Bytes) : Option OptionValue :=
  (cli.optionValues.find? fun o => o.name.str = name).map fun o => ⟨.arguments, o.value.str⟩

/-- The variable that an environment file has set. -/
def fileVar (cli : Cli) (name : Bytes) : Option OptionValue :=
  (cli.envVars.find? fun v => v.key.str = name).map fun v => ⟨.envFile, v.value.str⟩

/-- The variable that the environment of the process has set. -/
def processVar (cli : Cli) (name : Bytes) : Option OptionValue :=
  (cli.getenv name).map fun text => ⟨.environment, text⟩

def getEnvVar (cli : Cli) (name : Bytes) : Option OptionValue :=
  (cli.fileVar name).or (cli.processVar name)

/-- What a pass of the search returns at an option of the name that is looked for, if it does
not go on. -/
def valueAt (cli : Cli) (opt : CliOption) : Option OptionValue :=
  match opt.envVar with
  | none => none
  | some var => (cli.getEnvVar var).or (opt.defaultValue.map fun text => ⟨.default, text⟩)

/-- The inner loop, over the options of a command or a service. -/
def searchOptions (cli : Cli) (name : Bytes) (options : List CliOption) : Option OptionValue :=
  options.findSome? fun opt => if opt.name = name then cli.valueAt opt else none

def getOptionValue (cli : Cli) (name : Bytes) : Option OptionValue :=
  match cli.getStoredOption name with
  | some value => some value
  | none =>
    match cli.registry.commands.findSome? fun cmd => cli.searchOptions name cmd.options with
    | some value => some value
    | none => cli.registry.services.findSome? fun service => cli.searchOptions name service.options

end Cli

/-! ## The registry of the program -/

def serviceCmd : Command where
  name := ascii "service"
  options := [
    ⟨ascii "host", 'h'.toUInt8, .string, some (ascii "0.0.0.0"), some (ascii "FEDERATED_HOST")⟩,
    ⟨ascii "port", 'p'.toUInt8, .int, none, some (ascii "FEDERATED_PORT")⟩,
    ⟨ascii "config", 'c'.toUInt8, .string, none, some (ascii "FEDERATED_CONFIG")⟩,
    ⟨ascii "env-file", 'e'.toUInt8, .string, none, none⟩,
    ⟨ascii "log-level", 'l'.toUInt8, .string, some (ascii "info"),
      some (ascii "FEDERATED_LOG_LEVEL")⟩,
    ⟨ascii "log-file", 'L'.toUInt8, .string, none, some (ascii "FEDERATED_LOG_FILE")⟩,
    ⟨ascii "no-color", 0, .flag, none, none⟩]
  fits := by decide

def versionCmd : Command := ⟨ascii "version", [], Nat.zero_le _⟩
def aboutCmd : Command := ⟨ascii "about", [], Nat.zero_le _⟩
def helpCmd : Command := ⟨ascii "help", [], Nat.zero_le _⟩

def smtpSvc : ServiceDef where
  name := ascii "smtp"
  options := [
    ⟨ascii "port", 'p'.toUInt8, .int, some (ascii "25"), some (ascii "FEDERATED_SMTP_PORT")⟩,
    ⟨ascii "host", 'h'.toUInt8, .string, some (ascii "0.0.0.0"),
      some (ascii "FEDERATED_SMTP_HOST")⟩]
  fits := by decide

def imapSvc : ServiceDef where
  name := ascii "imap"
  options := [
    ⟨ascii "port", 'p'.toUInt8, .int, some (ascii "143"), some (ascii "FEDERATED_IMAP_PORT")⟩,
    ⟨ascii "host", 'h'.toUInt8, .string, some (ascii "0.0.0.0"),
      some (ascii "FEDERATED_IMAP_HOST")⟩]
  fits := by decide

def httpSvc : ServiceDef where
  name := ascii "http"
  options := [
    ⟨ascii "port", 'p'.toUInt8, .int, some (ascii "8080"), some (ascii "FEDERATED_HTTP_PORT")⟩,
    ⟨ascii "host", 'h'.toUInt8, .string, some (ascii "0.0.0.0"),
      some (ascii "FEDERATED_HTTP_HOST")⟩,
    ⟨ascii "document-root", 'd'.toUInt8, .string, some (ascii "./public"),
      some (ascii "FEDERATED_HTTP_DOC_ROOT")⟩]
  fits := by decide

def initCli (reg : CliRegistry) : CliRegistry :=
  let reg := [serviceCmd, versionCmd, aboutCmd, helpCmd].foldl
    (fun reg cmd => (registerCommand cmd reg).2) reg
  [smtpSvc, imapSvc, httpSvc].foldl (fun reg service => (registerService service reg).2) reg

end Federated.Tool
