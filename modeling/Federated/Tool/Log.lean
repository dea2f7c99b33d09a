import Federated.Core

/-!
# The logger

A message goes to the standard output, to a file, or to both. The logger keeps its
configuration with the handle of the file, and sets itself up with the defaults if a message
comes before it was set up. What the system answers is handed to each call: the file that is
opened, the times, and the width of the terminal.
-/

namespace Federated.Tool

inductive LogLevel where
  | error
  | warn
  | info
  | debug
  | trace
  deriving DecidableEq, Repr

inductive LogDriver where
  | stdout
  | file
  | both
  deriving DecidableEq, Repr

/-- The number of a level; the lower it is, the more important is the message. -/
def LogLevel.rank : LogLevel → Nat
  | .error => 0
  | .warn => 1
  | .info => 2
  | .debug => 3
  | .trace => 4

/-- An escape sequence of the terminal. -/
def escape (code : String) : Bytes := 27 :: ascii code

namespace Color

def reset : Bytes := escape "[0m"
def red : Bytes := escape "[31m"
def yellow : Bytes := escape "[33m"
def gray : Bytes := escape "[90m"
def black : Bytes := escape "[30m"
def bgLightGray : Bytes := escape "[47m"
def bold : Bytes := escape "[1m"

end Color

structure LogConfig where
  level : LogLevel
  driver : LogDriver
  useColor : Bool
  logFilePath : Option Bytes
  logFileHandle : Option Nat
  deriving DecidableEq, Repr

def LogConfig.default : LogConfig := ⟨.info, .stdout, true, none, none⟩

/-- The variables of the logger. -/
structure Logger where
  config : LogConfig
  initialized : Bool
  deriving DecidableEq, Repr

/-- Where a line goes. -/
inductive Sink where
  | stdout
  | file (handle : Nat)
  deriving DecidableEq, Repr

/-- A line that is written. -/
abbrev Output := Sink × Bytes

namespace Logger

/-- The variables as the program starts. -/
def new : Logger := ⟨.default, false⟩

/-- The configuration asks for a file. -/
def opensFile (config : LogConfig) : Bool :=
  config.logFilePath.isSome && config.driver ≠ .stdout

/-- Set up the logger; `fopen` is the file that is opened, if one is asked for. -/
def logInit (config : LogConfig) (fopen : Option Nat) (s : Logger) : ErrorCode × Logger :=
  if opensFile config then
    let s := { s with config := { config with logFileHandle := fopen } }
    if fopen = none then (.errIo, s) else (.ok, { s with initialized := true })
  else (.ok, ⟨config, true⟩)

def logCleanup (s : Logger) : Logger := ⟨{ s.config with logFileHandle := none }, false⟩

def logSetLevel (level : LogLevel) (s : Logger) : Logger :=
  { s with config := { s.config with level } }

def logSetColor (enabled : Bool) (s : Logger) : Logger :=
  { s with config := { s.config with useColor := enabled } }

/-- Set up the logger with the defaults, unless it is set up. -/
def ensureInit (s : Logger) : Logger :=
  if s.initialized = false then (s.logInit .default none).2 else s

def getLevelName : LogLevel → Bytes
  | .error => ascii "ERROR"
  | .warn => ascii "WARN "
  | .info => ascii "INFO "
  | .debug => ascii "DEBUG"
  | .trace => ascii "TRACE"

def getLevelColor (s : Logger) (level : LogLevel) : Bytes :=
  if s.config.useColor = false then []
  else
    match level with
    | .error => Color.red
    | .warn => Color.yellow
    | .info | .debug | .trace => Color.gray

/-- The text in front of a message. -/
def stamp (timestamp : Bytes) (level : LogLevel) : Bytes :=
  ascii "[" ++ timestamp ++ ascii "] [" ++ getLevelName level ++ ascii "]"

def logToStdout (s : Logger) (level : LogLevel) (timestamp message : Bytes) : List Output :=
  if s.config.driver = .file then []
  else
    let reset := if s.config.useColor then Color.reset else []
    [(.stdout, s.getLevelColor level ++ stamp timestamp level ++ reset ++ ascii " " ++ message ++
      [10])]

def logToFile (s : Logger) (level : LogLevel) (timestamp message : Bytes) : List Output :=
  match s.config.logFileHandle with
  | none => []
  | some handle =>
    if s.config.driver = .stdout then []
    else [(.file handle, stamp timestamp level ++ ascii " " ++ message ++ [10])]

/-- The two readings of the clock in a message. -/
structure Times where
  stdout : Bytes
  file : Bytes
  deriving DecidableEq, Repr

/-- The bytes of a message that `vsnprintf` keeps. -/
def maxMessage : Nat := 4095

/-- Log a formatted message, whose length `vsnprintf` can return. -/
def logMessage (level : LogLevel) (message : Bytes) (times : Times) (s : Logger) :
    List Output × Logger :=
  let s := s.ensureInit
  if level.rank > s.config.level.rank then ([], s)
  else
    let message := message.take maxMessage
    (s.logToStdout level times.stdout message ++ s.logToFile level times.file message, s)

def logError (message : Bytes) (times : Times) (s : Logger) : List Output × Logger :=
  s.logMessage .error message times

def logWarn (message : Bytes) (times : Times) (s : Logger) : List Output × Logger :=
  s.logMessage .warn message times

def logInfo (message : Bytes) (times : Times) (s : Logger) : List Output × Logger :=
  s.logMessage .info message times

def logDebug (message : Bytes) (times : Times) (s : Logger) : List Output × Logger :=
  s.logMessage .debug message times

def logTrace (message : Bytes) (times : Times) (s : Logger) : List Output × Logger :=
  s.logMessage .trace message times

end Logger

/-! ## Headers -/

def headerSize : Nat := 512

def maxSafeWidth : Nat := headerSize - 100

/-- The array of a header line, of which the bytes in front of `pos` are written. -/
structure Header where
  block : Bytes
  pos : Nat

/-- The width of the terminal, if it can be asked for. -/
def getTerminalWidth (ioctl : Option UInt16) : Nat := ioctl.elim 80 UInt16.toNat

/-- Append a string, terminator and all, if it fits. -/
def safeAppend (str : Bytes) (h : Header) : Except Fault Header :=
  if h.pos + str.length < headerSize - 1 then do
    let block ← store headerSize h.block h.pos (str ++ [0])
    return ⟨block, h.pos + str.length⟩
  else return h

def safeAppendChar (c : UInt8) (h : Header) : Except Fault Header :=
  if h.pos < headerSize - 1 then do
    let block ← store headerSize h.block h.pos [c]
    return ⟨block, h.pos + 1⟩
  else return h

/-- The loops that append spaces. -/
def pad : Nat → Header → Except Fault Header
  | 0, h => return h
  | n + 1, h =>
    if h.pos < headerSize - 1 then do
      let h ← safeAppendChar 32 h
      pad n h
    else return h

/-- The colours of a header. -/
def startColor (useColor : Bool) (h : Header) : Except Fault Header :=
  if useColor then do
    let h ← safeAppend Color.bgLightGray h
    let h ← safeAppend Color.black h
    safeAppend Color.bold h
  else return h

def resetColor (useColor : Bool) (h : Header) : Except Fault Header :=
  if useColor then safeAppend Color.reset h else return h

/-- The padding on either side of a text and its border, which is not negative. -/
def sidePadding (width textLen : Int) : Nat := ((width - textLen - 4).tdiv 2).toNat

/-- The line of a header, built in an array that starts with anything. The length of the text is
narrowed to an `int`; what is computed with it stays in range if the border fits in there too. -/
def headerLine (useColor : Bool) (ioctl : Option UInt16) (text garbage : Bytes) :
    Except Fault Bytes := do
  let width := getTerminalWidth ioctl
  let textLen := (Int32.ofNat text.length).toInt
  let h ← startColor useColor ⟨garbage, 0⟩
  let padding := sidePadding width textLen
  let (width, padding) := if width > maxSafeWidth
    then (maxSafeWidth, sidePadding maxSafeWidth textLen) else (width, padding)
  let h ← pad padding h
  let h ← safeAppendChar 61 h
  let h ← safeAppendChar 32 h
  let h ← safeAppend text h
  let h ← safeAppendChar 32 h
  let h ← safeAppendChar 61 h
  let h ← pad (width - (padding + textLen + 4)).toNat h
  let h ← resetColor useColor h
  let block ← store headerSize h.block h.pos [0]
  return cstr block

/-- Log a header, to the file only if there is no other place to log to. -/
def Logger.logHeader (text : Bytes) (ioctl : Option UInt16) (garbage : Bytes) (s : Logger) :
    Except Fault (List Output × Logger) := do
  let s := s.ensureInit
  if s.config.driver = .file then
    return (s.config.logFileHandle.toList.map fun handle =>
      (.file handle, ascii "=== " ++ text ++ ascii " ===" ++ [10]), s)
  else
    let line ← headerLine s.config.useColor ioctl text garbage
    return ([(.stdout, line ++ [10])], s)

end Federated.Tool
