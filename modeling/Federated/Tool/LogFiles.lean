import Federated.Tool.LogRuns
import Federated.Library.Descriptors
import Mathlib.Data.Finset.Option

/-!
# The files of the logger

The logger opens a file when it is set up and closes it when it is cleaned up. When it is set
up again in between, it forgets the file that it has. Besides the standard streams, it never
writes to a file that it does not hold.
-/

namespace Federated.Tool

open Library Syscalls

variable {fds : Finset Nat}

/-- The variables of the logger, and the files that it has forgotten without closing them. -/
structure LogFiles where
  logger : Logger
  forgotten : Finset Nat

namespace LogFiles

/-- The state as the program starts. -/
def new : LogFiles := ⟨.new, ∅⟩

/-- The numbers of the streams that the logger writes to. -/
def stdoutFileno : Nat := 1

def stderrFileno : Nat := 2

/-- Set up the logger; a file that does not open is reported. -/
def logInit (config : LogConfig) (fopen : Option Nat) (s : LogFiles) :
    Syscalls (ErrorCode × LogFiles) :=
  let forgotten := s.logger.config.logFileHandle.toFinset ∪ s.forgotten
  if Logger.opensFile config then do
    let handle ← grant fopen
    let r := s.logger.logInit config handle
    if handle = none then do
      touch (some stderrFileno)
      pure (r.1, ⟨r.2, forgotten⟩)
    else pure (r.1, ⟨r.2, forgotten⟩)
  else
    let r := s.logger.logInit config none
    pure (r.1, ⟨r.2, forgotten⟩)

def logCleanup (s : LogFiles) : Syscalls LogFiles := do
  release s.logger.config.logFileHandle
  pure { s with logger := s.logger.logCleanup }

/-- Write lines that a call has made. -/
def write : List Output → Syscalls Unit
  | [] => pure ()
  | (.stdout, _) :: lines => do
    touch (some stdoutFileno)
    write lines
  | (.file handle, _) :: lines => do
    touch (some handle)
    write lines

def logMessage (level : LogLevel) (message : Bytes) (times : Logger.Times) (s : LogFiles) :
    Syscalls LogFiles := do
  let (lines, logger) := s.logger.logMessage level message times
  write lines
  pure { s with logger }

/-- Ask the terminal for its width, unless the logger only writes to a file. -/
def askWidth (driver : LogDriver) : Syscalls Unit :=
  if driver = .file then pure () else touch (some stdoutFileno)

/-- Log a header; an access outside its array would be the end of the process. -/
def logHeader (text : Bytes) (ioctl : Option UInt16) (garbage : Bytes) (s : LogFiles) :
    Syscalls LogFiles := do
  askWidth s.logger.ensureInit.config.driver
  match s.logger.logHeader text ioctl garbage with
  | .error _ => pure s
  | .ok (lines, logger) => do
    write lines
    pure { s with logger }

/-- The logger holds the file that it writes to, which it has only if it is set up, and those it
has forgotten. -/
structure Sound (s : LogFiles) (fds : Finset Nat) : Prop where
  held : fds = s.logger.config.logFileHandle.toFinset ∪ s.forgotten
  apart : ∀ fd ∈ s.logger.config.logFileHandle, fd ∉ s.forgotten
  initialized : s.logger.initialized = false → s.logger.config.logFileHandle = none

variable {s : LogFiles}

theorem sound_new : new.Sound ∅ := ⟨rfl, nofun, fun _ => rfl⟩

theorem stdoutFileno_lt : stdoutFileno < standardStreams := by decide

theorem stderrFileno_lt : stderrFileno < standardStreams := by decide

theorem Sound.logInit (h : s.Sound fds) {config : LogConfig} (hfresh : config.logFileHandle = none)
    (fopen : Option Nat) : (s.logInit config fopen).Ensures fds fun r => r.2.Sound := by
  obtain ⟨rfl, -, -⟩ := h
  refine .ite (fun hopens => .grant ?_ fun fd hfree => ?_) fun hopens => ?_
  · rw [if_pos rfl]
    refine .touch_stream stderrFileno_lt ?_
    simp only [Logger.logInit, if_pos hopens]
    exact ⟨(Finset.empty_union _).symm, by simp, fun _ => rfl⟩
  · rw [if_neg (Option.some_ne_none fd)]
    simp only [Logger.logInit, if_pos hopens, if_neg (Option.some_ne_none fd)]
    refine ⟨rfl, ?_, by simp⟩
    rintro _ ⟨⟩
    exact hfree
  · simp only [Logger.logInit, if_neg hopens]
    refine ⟨?_, by simp [hfresh], fun _ => hfresh⟩
    rw [hfresh]
    exact (Finset.empty_union _).symm

theorem Sound.logCleanup (h : s.Sound fds) : s.logCleanup.Ensures fds Sound := by
  rw [LogFiles.logCleanup]
  cases hhandle : s.logger.config.logFileHandle with
  | none =>
    refine ⟨?_, nofun, fun _ => rfl⟩
    rw [h.held, hhandle]
    rfl
  | some fd =>
    have hheld := h.held
    rw [hhandle] at hheld
    refine .release (by simp [hheld]) ⟨?_, nofun, fun _ => rfl⟩
    have hapart := h.apart fd hhandle
    rw [hheld]
    ext number
    simp [Logger.logCleanup]
    grind

/-- The lines of a call that go to a file go to one that is held. -/
theorem write_ensures {lines : List Output}
    (hheld : ∀ fd text, (.file fd, text) ∈ lines → fd ∈ fds) :
    (write lines).Ensures fds fun _ fds' => fds' = fds := by
  induction lines with
  | nil => rfl
  | cons line lines ih =>
    have hrest := ih fun fd text hmem => hheld fd text (List.mem_cons_of_mem _ hmem)
    obtain ⟨sink, text⟩ := line
    cases sink with
    | stdout => exact .touch_stream stdoutFileno_lt hrest
    | file fd => exact .touch (hheld fd text List.mem_cons_self) hrest

/-- A message that is written to a file is written to the one that the logger has. -/
theorem handle_of_mem_logMessage {logger : Logger} {level : LogLevel} {message text : Bytes}
    {times : Logger.Times} {fd : Nat}
    (hmem : (.file fd, text) ∈ (logger.logMessage level message times).1) :
    logger.ensureInit.config.logFileHandle = some fd := by
  rw [Logger.logMessage] at hmem
  generalize logger.ensureInit = s at hmem ⊢
  dsimp only at hmem
  split_ifs at hmem with hlevel
  · cases hmem
  · rw [Logger.logToStdout, Logger.logToFile] at hmem
    cases hhandle : s.config.logFileHandle with
    | none =>
      rw [hhandle] at hmem
      split_ifs at hmem <;> simp at hmem
    | some handle =>
      rw [hhandle] at hmem
      split_ifs at hmem <;> simp_all

theorem Sound.ensureInit (h : s.Sound fds) :
    Sound { s with logger := s.logger.ensureInit } fds := by
  rw [Logger.ensureInit]
  split_ifs with hinit
  · have hnone := h.initialized hinit
    refine ⟨?_, by simp [Logger.logInit, Logger.opensFile, LogConfig.default], fun _ => rfl⟩
    rw [h.held, hnone]
    rfl
  · exact h

theorem Sound.logMessage (h : s.Sound fds) (level : LogLevel) (message : Bytes)
    (times : Logger.Times) : (s.logMessage level message times).Ensures fds Sound := by
  have hinit := h.ensureInit
  have hlogger : (s.logger.logMessage level message times).2 = s.logger.ensureInit := by
    rw [Logger.logMessage]
    split_ifs <;> rfl
  refine (write_ensures fun fd text hmem => ?_).bind ?_
  · rw [hinit.held]
    simp [handle_of_mem_logMessage hmem]
  · rintro _ _ rfl
    change Sound ⟨(s.logger.logMessage level message times).2, s.forgotten⟩ _
    rw [hlogger]
    exact hinit

theorem askWidth_ensures (driver : LogDriver) :
    (askWidth driver).Ensures fds fun _ fds' => fds' = fds :=
  .ite (fun _ => rfl) fun _ => ⟨⟨stdoutFileno, rfl, .inr stdoutFileno_lt⟩, rfl⟩

/-- A header changes the logger as a message does, and is written to its file if to one. -/
theorem logHeader_cases {logger logger' : Logger} {text : Bytes} {ioctl : Option UInt16}
    {garbage : Bytes} {lines : List Output}
    (h : logger.logHeader text ioctl garbage = .ok (lines, logger')) :
    logger' = logger.ensureInit ∧ ∀ fd line, (.file fd, line) ∈ lines →
      logger.ensureInit.config.logFileHandle = some fd := by
  rw [Logger.logHeader] at h
  split_ifs at h
  · cases h
    refine ⟨rfl, fun fd line hmem => ?_⟩
    cases hhandle : logger.ensureInit.config.logFileHandle <;> simp_all
  · cases hline : headerLine logger.ensureInit.config.useColor ioctl text garbage with
    | error fault => simp [hline, bind, Except.bind] at h
    | ok line =>
      rw [hline] at h
      cases h
      exact ⟨rfl, fun fd line hmem => by simp at hmem⟩

theorem Sound.logHeader (h : s.Sound fds) (text : Bytes) (ioctl : Option UInt16) (garbage : Bytes) :
    (s.logHeader text ioctl garbage).Ensures fds Sound := by
  have hinit := h.ensureInit
  rw [LogFiles.logHeader]
  refine (askWidth_ensures _).bind ?_
  rintro _ _ rfl
  rcases hheader : s.logger.logHeader text ioctl garbage with _ | ⟨lines, logger⟩
  · exact h
  · obtain ⟨rfl, hlines⟩ := logHeader_cases hheader
    refine (write_ensures fun fd line hmem => ?_).bind ?_
    · rw [hinit.held]
      simp [hlines fd line hmem]
    · rintro _ _ rfl
      exact hinit

/-- A call of the logger, which gives back a code if it is set up. -/
def step (s : LogFiles) : LogCall → Syscalls (Option ErrorCode × LogFiles)
  | .logInit config fopen => do
    let (code, s) ← s.logInit config fopen
    pure (some code, s)
  | .logCleanup => do
    let s ← s.logCleanup
    pure (none, s)
  | .logSetLevel level => pure (none, { s with logger := s.logger.logSetLevel level })
  | .logSetColor enabled => pure (none, { s with logger := s.logger.logSetColor enabled })
  | .logMessage level message times => do
    let s ← s.logMessage level message times
    pure (none, s)
  | .logHeader text ioctl garbage => do
    let s ← s.logHeader text ioctl garbage
    pure (none, s)

/-- What callers of the logger keep to: a configuration has no handle yet, as its constructor makes
it, and an `int` holds the length of a header with its borders. -/
def Fresh : LogCall → Prop
  | .logInit config _ => config.logFileHandle = none
  | .logHeader text _ _ => text.length + 4 < 2 ^ 31
  | _ => True

theorem Sound.step (h : s.Sound fds) {call : LogCall} (hfresh : Fresh call) :
    (s.step call).Ensures fds fun r => r.2.Sound := by
  cases call with
  | logInit config fopen => exact (h.logInit hfresh fopen).bind fun _ _ h' => h'
  | logCleanup => exact h.logCleanup.bind fun _ _ h' => h'
  | logSetLevel level => exact ⟨h.held, h.apart, h.initialized⟩
  | logSetColor enabled => exact ⟨h.held, h.apart, h.initialized⟩
  | logMessage level message times => exact (h.logMessage level message times).bind fun _ _ h' => h'
  | logHeader text ioctl garbage => exact (h.logHeader text ioctl garbage).bind fun _ _ h' => h'

end LogFiles

end Federated.Tool
