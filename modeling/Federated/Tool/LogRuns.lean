import Federated.Tool.Log
import Federated.Library.Machine

/-!
# Runs of the logger

As long as the logger is not set up its configuration is not read: what is set then is lost.
So a log file that does not open takes the other log options of the command line with it.
-/

namespace Federated.Tool

open Library

/-- A call, with what the system answers it. -/
inductive LogCall where
  | logInit (config : LogConfig) (fopen : Option Nat)
  | logCleanup
  | logSetLevel (level : LogLevel)
  | logSetColor (enabled : Bool)
  | logMessage (level : LogLevel) (message : Bytes) (times : Logger.Times)
  | logHeader (text : Bytes) (ioctl : Option UInt16) (garbage : Bytes)

/-- What a call gives back or writes. -/
inductive LogAnswer where
  | code (code : ErrorCode)
  | none
  | wrote (lines : List Output)
  | faulted (fault : Fault)
  deriving DecidableEq, Repr

/-- A call that does not change the configuration of a logger that is set up. -/
def LogCall.Logs : LogCall → Prop
  | .logCleanup | .logMessage _ _ _ | .logHeader _ _ _ => True
  | .logInit _ _ | .logSetLevel _ | .logSetColor _ => False

namespace Logger

def step (s : Logger) : LogCall → LogAnswer × Logger
  | .logInit config fopen => (s.logInit config fopen).map .code id
  | .logCleanup => (.none, s.logCleanup)
  | .logSetLevel level => (.none, s.logSetLevel level)
  | .logSetColor enabled => (.none, s.logSetColor enabled)
  | .logMessage level message times => (s.logMessage level message times).map .wrote id
  | .logHeader text ioctl garbage =>
    match s.logHeader text ioctl garbage with
    | .ok (lines, s) => (.wrote lines, s)
    | .error fault => (.faulted fault, s.ensureInit)

variable {s t : Logger}

/-! ## A logger that is not set up -/

/-- The loggers are the same, or neither is set up. -/
def Alike (s t : Logger) : Prop := s = t ∨ s.initialized = false ∧ t.initialized = false

theorem ensureInit_eq (hs : s.initialized = false) : s.ensureInit = ⟨.default, true⟩ := by
  rw [ensureInit, if_pos hs]
  rfl

theorem logInit_eq (hs : s.initialized = false) (ht : t.initialized = false) (config : LogConfig)
    (fopen : Option Nat) : s.logInit config fopen = t.logInit config fopen := by
  rw [logInit, logInit, hs, ht]

theorem simulation_alike : Simulation step step (fun _ => True) Alike where
  answer {s t call} h _ := by
    obtain rfl | ⟨hs, ht⟩ := h
    · rfl
    cases call with
    | logInit config fopen => rw [step, step, logInit_eq hs ht]
    | logCleanup | logSetLevel _ | logSetColor _ => rfl
    | logMessage level message times =>
      rw [step, step, logMessage, logMessage, ensureInit_eq hs, ensureInit_eq ht]
    | logHeader text ioctl garbage =>
      rw [step, step, logHeader, logHeader, ensureInit_eq hs, ensureInit_eq ht]
  next {s t call} h _ := by
    obtain rfl | ⟨hs, ht⟩ := h
    · exact .inl rfl
    cases call with
    | logInit config fopen => exact .inl (by rw [step, step, logInit_eq hs ht])
    | logCleanup => exact .inr ⟨rfl, rfl⟩
    | logSetLevel _ | logSetColor _ => exact .inr ⟨hs, ht⟩
    | logMessage level message times =>
      exact .inl (by rw [step, step, logMessage, logMessage, ensureInit_eq hs, ensureInit_eq ht])
    | logHeader text ioctl garbage =>
      exact .inl (by rw [step, step, logHeader, logHeader, ensureInit_eq hs, ensureInit_eq ht])

/-- Whatever is called later on, it is not seen how a logger that is not set up is configured. -/
theorem answers_of_not_initialized (config config' : LogConfig) (calls : List LogCall) :
    answers step ⟨config, false⟩ calls = answers step ⟨config', false⟩ calls :=
  simulation_alike.answers_eq (.inr ⟨rfl, rfl⟩) fun _ _ => trivial

/-- A logger that is not set up logs as one that is set up with the defaults. -/
theorem simulation_default : Simulation step step LogCall.Logs
    fun s t => s.Alike t ∨ s.initialized = false ∧ t = ⟨.default, true⟩ where
  answer {s t call} h hlogs := by
    obtain h | ⟨hs, rfl⟩ := h
    · exact simulation_alike.answer h trivial
    cases call with
    | logInit _ _ | logSetLevel _ | logSetColor _ => exact hlogs.elim
    | logCleanup => rfl
    | logMessage level message times =>
      rw [step, step, logMessage, logMessage, ensureInit_eq hs]
      rfl
    | logHeader text ioctl garbage =>
      rw [step, step, logHeader, logHeader, ensureInit_eq hs]
      rfl
  next {s t call} h hlogs := by
    obtain h | ⟨hs, rfl⟩ := h
    · exact .inl (simulation_alike.next h trivial)
    cases call with
    | logInit _ _ | logSetLevel _ | logSetColor _ => exact hlogs.elim
    | logCleanup => exact .inl (.inr ⟨rfl, rfl⟩)
    | logMessage level message times =>
      refine .inl (.inl ?_)
      rw [step, step, logMessage, logMessage, ensureInit_eq hs]
      rfl
    | logHeader text ioctl garbage =>
      refine .inl (.inl ?_)
      rw [step, step, logHeader, logHeader, ensureInit_eq hs]
      rfl

end Logger

/-! ## The log options of the command line -/

/-- The level that a name stands for. -/
def levelOf (name : Bytes) : Option LogLevel :=
  if name = ascii "error" then some .error
  else if name = ascii "warn" then some .warn
  else if name = ascii "info" then some .info
  else if name = ascii "debug" then some .debug
  else if name = ascii "trace" then some .trace
  else none

/-- What the main function makes of an argument that has others behind it. -/
def logOption (arg : Bytes) (rest : List Bytes) (config : LogConfig) : LogConfig :=
  if arg = ascii "--no-color" then { config with useColor := false }
  else
    match rest with
    | [] => config
    | value :: _ =>
      if arg = ascii "--log-level" then
        { config with level := (levelOf value).getD config.level }
      else if arg = ascii "--log-file" then
        { config with logFilePath := some value, driver := .both }
      else if arg = ascii "-L" then { config with logFilePath := some value, driver := .both }
      else config

/-- The loop of the main function over the arguments behind the name of the program. -/
def logOptions : List Bytes → LogConfig → LogConfig
  | [], config => config
  | arg :: rest, config => logOptions rest (logOption arg rest config)

/-- The logger as the main function sets it up, if a file opens that is asked for. -/
def mainLogger (args : List Bytes) (fopen : Option Nat) : Logger :=
  (Logger.new.logInit (logOptions args .default) fopen).2

/-- A configuration that names a file writes to it. -/
def LogConfig.UsesFile (config : LogConfig) : Prop :=
  config.logFilePath.isSome → config.driver = .both

theorem LogConfig.UsesFile.logOption {config : LogConfig} (h : config.UsesFile) (arg : Bytes)
    (rest : List Bytes) : (Tool.logOption arg rest config).UsesFile := by
  cases rest with
  | nil =>
    unfold Tool.logOption
    split_ifs <;> exact h
  | cons value rest =>
    unfold Tool.logOption
    split_ifs
    · exact h
    · exact h
    · exact fun _ => rfl
    · exact fun _ => rfl
    · exact h

theorem LogConfig.UsesFile.logOptions {config : LogConfig} (h : config.UsesFile)
    (args : List Bytes) : (Tool.logOptions args config).UsesFile := by
  induction args generalizing config with
  | nil => exact h
  | cons arg rest ih => exact ih (h.logOption arg rest)

/-- Where a log file is asked for and does not open, everything is logged as if the command line
had no log options. -/
theorem answers_mainLogger_of_not_opened {args : List Bytes}
    (hfile : (logOptions args .default).logFilePath.isSome) {calls : List LogCall}
    (hlogs : ∀ call ∈ calls, call.Logs) :
    answers Logger.step (mainLogger args none) calls =
      answers Logger.step (mainLogger [] none) calls := by
  have huses : (logOptions args .default).UsesFile :=
    LogConfig.UsesFile.logOptions (by simp [LogConfig.UsesFile, LogConfig.default]) args
  have hopens : Logger.opensFile (logOptions args .default) = true := by
    simp [Logger.opensFile, hfile, huses hfile]
  refine Logger.simulation_default.answers_eq (.inr ⟨?_, rfl⟩) hlogs
  rw [mainLogger, Logger.logInit, if_pos hopens]
  rfl

/-- The file of these arguments cannot be opened, so the message keeps its colour. -/
theorem answers_mainLogger_badFile :
    answers Logger.step (mainLogger [ascii "--no-color", ascii "-L", ascii "/no/such"] none)
        [.logMessage .info (ascii "hello") ⟨[], []⟩] =
      answers Logger.step (mainLogger [] none) [.logMessage .info (ascii "hello") ⟨[], []⟩] :=
  answers_mainLogger_of_not_opened (by decide) (by simp [LogCall.Logs])

end Federated.Tool
