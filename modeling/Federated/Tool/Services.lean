import Federated.Library.Report
import Federated.Service.MailMemory
import Federated.Tool.EnvFile
import Federated.Tool.Help
import Federated.Tool.Log

/-!
# The services of the tool

Starting, stopping and the status of a service, and the command that does one of them. A service
that is started says where it listens and waits for a signal. What is logged and printed is
reported, in the order in which it is asked for.
-/

namespace Federated.Tool

open Library Service

/-- What the tool writes: to the logger, or to one of its two streams. -/
inductive Event where
  | log (level : LogLevel) (message : Bytes)
  | header (text : Bytes)
  | stdout (text : Bytes)
  | stderr (text : Bytes)
  deriving DecidableEq, Repr

/-- The signals that the tool handles. -/
inductive Signal where
  | int
  | term
  deriving DecidableEq, Repr

def Signal.number : Signal → String
  | int => "2"
  | term => "15"

/-- What the system does while the tool runs: the files that open, how many seconds a service loop
sleeps before the one in which a signal comes, if one does, and what lies on the stack. No signal
comes but to a loop that sleeps, and so none behind the first. -/
structure World where
  files : Bytes → Option Bytes
  seconds : Nat
  signal : Option Signal
  stack : Bytes

/-- The variables of the tool. -/
structure App where
  cli : Cli
  mail : MailMemory

abbrev Action := Act App Event Fault

/-! ## Logging and variables -/

def logInfo (message : Bytes) : Action Unit := .emit (.log .info message)
def logError (message : Bytes) : Action Unit := .emit (.log .error message)
def logHeader (text : Bytes) : Action Unit := .emit (.header text)
/-- `get_option_value` -/
def optionValue (name : Bytes) : Action (Option Bytes) :=
  .get fun app => (app.cli.getOptionValue name).map OptionValue.text

def storeInit : Action ErrorCode := .update fun app =>
  ((app.mail.mailStoreInit).1, { app with mail := app.mail.mailStoreInit.2 })

def storeCleanup : Action Unit := .update fun app =>
  ((), { app with mail := app.mail.mailStoreCleanup.2 })

/-! ## The service loop -/

def signalHandler (signal : Signal) : Action Unit :=
  logInfo (ascii "Received shutdown signal (" ++ ascii signal.number ++ ascii ")")

/-- The loop that sleeps second by second, until the signal comes if there is one. -/
def sleepSeconds : Nat → Option Signal → Action Unit
  | seconds + 1, signal => sleepSeconds seconds signal
  | 0, some signal => signalHandler signal
  | 0, none => .wait

def runServiceLoop (w : World) : Action Unit := do
  logInfo (ascii "Service running (press Ctrl+C to stop)")
  sleepSeconds w.seconds w.signal
  logInfo (ascii "Service loop terminated")

/-! ## Starting and stopping -/

/-- The three services are started in one way: `more` is what one says about itself besides its
address, and `init` and `cleanup` are what it runs around the loop. -/
def serviceStart (name port failure : String) (more : Action Unit) (init : Action ErrorCode)
    (cleanup : Action Unit) (w : World) : Action ErrorCode := do
  logHeader (ascii "Starting " ++ ascii name ++ ascii " Service")
  let portValue ← optionValue (ascii "port")
  let hostValue ← optionValue (ascii "host")
  logInfo (ascii "Bind address: " ++ hostValue.getD (ascii "0.0.0.0"))
  logInfo (ascii "Port: " ++ portValue.getD (ascii port))
  more
  let err ← init
  if err ≠ .ok then do
    logError (ascii failure)
    return err
  else do
    logInfo (ascii name ++ ascii " service started successfully")
    runServiceLoop w
    logInfo (ascii "Cleaning up " ++ ascii name ++ ascii " service...")
    cleanup
    return .ok

def serviceStop (name : String) (cleanup : Action Unit) : Action ErrorCode := do
  logInfo (ascii "Stopping " ++ ascii name ++ ascii " service...")
  cleanup
  logInfo (ascii name ++ ascii " service stopped")
  return .ok

def serviceStatus (name : String) : Action ErrorCode := do
  logInfo (ascii name ++ ascii " service status: running")
  return .ok

def smtpServiceStart : World → Action ErrorCode :=
  serviceStart "SMTP" "25" "Failed to initialize mail store" (pure ()) storeInit storeCleanup

def smtpServiceStop : Action ErrorCode := serviceStop "SMTP" storeCleanup

def smtpServiceStatus : Action ErrorCode := serviceStatus "SMTP"

def imapServiceStart : World → Action ErrorCode :=
  serviceStart "IMAP" "143" "Failed to initialize mail store" (pure ()) storeInit storeCleanup

def imapServiceStop : Action ErrorCode := serviceStop "IMAP" storeCleanup

def imapServiceStatus : Action ErrorCode := serviceStatus "IMAP"

/-- Neither of them does anything. -/
def httpServerInit : Action ErrorCode := return .ok
def httpServerCleanup : Action Unit := return

def sayDocumentRoot : Action Unit := do
  let docRoot ← optionValue (ascii "document-root")
  logInfo (ascii "Document root: " ++ docRoot.getD (ascii "./public"))

def httpServiceStart : World → Action ErrorCode :=
  serviceStart "HTTP" "8080" "Failed to initialize HTTP server" sayDocumentRoot httpServerInit
    httpServerCleanup

def httpServiceStop : Action ErrorCode := serviceStop "HTTP" httpServerCleanup

def httpServiceStatus : Action ErrorCode := serviceStatus "HTTP"

/-! ## The table of services -/

/-- A service with its description and its callbacks. -/
structure RegisteredService extends ServiceDef where
  description : Option Bytes
  start : Option (World → Action ErrorCode)
  stop : Option (Action ErrorCode)
  status : Option (Action ErrorCode)

def smtpService : RegisteredService where
  toServiceDef := smtpSvc
  description := some (ascii "SMTP mail server (RFC 5321)")
  start := some smtpServiceStart
  stop := some smtpServiceStop
  status := some smtpServiceStatus

def imapService : RegisteredService where
  toServiceDef := imapSvc
  description := some (ascii "IMAP mail server (RFC 3501)")
  start := some imapServiceStart
  stop := some imapServiceStop
  status := some imapServiceStatus

def httpService : RegisteredService where
  toServiceDef := httpSvc
  description := some (ascii "HTTP static file server (RFC 7230-7235)")
  start := some httpServiceStart
  stop := some httpServiceStop
  status := some httpServiceStatus

def services : List RegisteredService := [smtpService, imapService, httpService]

/-! ## The command -/

end Federated.Tool
