import Federated.Tool.Services
import Federated.Tool.Spellings

/-!
# The command line

The first argument names a command. Help for it is printed if any argument behind it asks for
that, and else its arguments are parsed and its handler runs. The exit status is zero if nothing
went wrong.
-/

namespace Federated.Tool

open Library Service

/-! ## The table of commands -/

/-- The handlers of the commands. -/
inductive Handler where
  | service
  | version
  | about
  | help
  deriving DecidableEq, Repr

structure RegisteredCommand extends DescribedCommand where
  handler : Option Handler

def serviceCommand : RegisteredCommand where
  name := ascii "service"
  description := some (ascii "Manage services (start, stop, status, list)")
  usage := some (ascii "federated service <action> [service-name] [options]")
  options := [
    { name := ascii "host", shortName := 'h'.toUInt8, type := .string,
      description := some (ascii "Bind host"), defaultValue := some (ascii "0.0.0.0"),
      envVar := some (ascii "FEDERATED_HOST"), required := false },
    { name := ascii "port", shortName := 'p'.toUInt8, type := .int,
      description := some (ascii "Port number"), defaultValue := none,
      envVar := some (ascii "FEDERATED_PORT"), required := false },
    { name := ascii "config", shortName := 'c'.toUInt8, type := .string,
      description := some (ascii "Configuration file"), defaultValue := none,
      envVar := some (ascii "FEDERATED_CONFIG"), required := false },
    { name := ascii "env-file", shortName := 'e'.toUInt8, type := .string,
      description := some (ascii "Environment file (.env format)"), defaultValue := none,
      envVar := none, required := false },
    { name := ascii "log-level", shortName := 'l'.toUInt8, type := .string,
      description := some (ascii "Log level (error, warn, info, debug, trace)"),
      defaultValue := some (ascii "info"), envVar := some (ascii "FEDERATED_LOG_LEVEL"),
      required := false },
    { name := ascii "log-file", shortName := 'L'.toUInt8, type := .string,
      description := some (ascii "Log file path"), defaultValue := none,
      envVar := some (ascii "FEDERATED_LOG_FILE"), required := false },
    { name := ascii "no-color", shortName := 0, type := .flag,
      description := some (ascii "Disable colored output"), defaultValue := none,
      envVar := none, required := false }]
  fits := by decide
  handler := some .service

def versionCommand : RegisteredCommand where
  name := ascii "version"
  description := some (ascii "Show version information")
  usage := some (ascii "federated version")
  options := []
  fits := by decide
  handler := some .version

def aboutCommand : RegisteredCommand where
  name := ascii "about"
  description := some (ascii "Show project information and authors")
  usage := some (ascii "federated about")
  options := []
  fits := by decide
  handler := some .about

def helpCommand : RegisteredCommand where
  name := ascii "help"
  description := some (ascii "Show help information")
  usage := some (ascii "federated help")
  options := []
  fits := by decide
  handler := some .help

def commands : List RegisteredCommand := [serviceCommand, versionCommand, aboutCommand, helpCommand]

/-- The command behind the description is the one that options are looked up in. -/
theorem command_serviceCommand : serviceCommand.command = serviceCmd := rfl

/-- The registry that options are looked up in has the commands and services of the tables. -/
theorem registry_initCli :
    (initCli .empty).commands = commands.map (fun cmd => cmd.command) ∧
      (initCli .empty).services = services.map RegisteredService.toServiceDef := ⟨rfl, rfl⟩

/-! ## The handlers -/

end Federated.Tool
