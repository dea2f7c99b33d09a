import Federated.Service.Text
import Federated.Tool.ArgumentReads
import Federated.Tool.CliMain
import Federated.Tool.OptionOrder

/-!
# Starting a service

A service is started if and only if the first three arguments say so, none of the arguments asks
for help and all of them parse. It says where it listens: what the command line gave last, else
what a variable is set to, else a default. The address and the port of every service come from
the variables and the defaults that the search meets first.
-/

namespace Federated.Tool

open Library Service

variable {w : World} {app : App} {cli : Cli} {args : List Argument}

/-! ## The values of the options -/

namespace Cli

/-- The value of the command line, else of the first variable that is set, else a default. -/
def setting (cli : Cli) (name : Bytes) (vars : List Bytes) (default : Bytes) : Bytes :=
  (((cli.getStoredOption name).or (vars.findSome? cli.getEnvVar)).map OptionValue.text).getD default

/-- The address that any service listens on. -/
def host (cli : Cli) : Bytes :=
  cli.setting (ascii "host") [ascii "FEDERATED_HOST"] (ascii "0.0.0.0")

/-- The port that any service listens on. -/
def port (cli : Cli) : Bytes :=
  cli.setting (ascii "port") [ascii "FEDERATED_PORT", ascii "FEDERATED_SMTP_PORT"] (ascii "25")

def documentRoot (cli : Cli) : Bytes :=
  cli.setting (ascii "document-root") [ascii "FEDERATED_HTTP_DOC_ROOT"] (ascii "./public")

variable (hreg : cli.registry = initCli .empty)

include hreg

end Cli

/-! ## A service that is started -/

/-- The tool as the main function starts it. -/
def App.launched (getenv : Bytes → Option Bytes) : App := ⟨Cli.launched getenv, .start⟩

end Federated.Tool
