import Federated.Transport.TcpDescriptors
import Federated.Transport.Descriptors
import Federated.Service.Http
import Federated.Tool.EnvFile
import Federated.Tool.LogFiles

/-!
# The descriptors of the program

The parts of the program that open files and sockets share the descriptors of one process, with
the rest of it. In no order of their calls does one of them use or close what it does not hold,
and what each of them holds can be read off its variables. Only the logger forgets files. The
standard streams are open all the time, and the limit of the process on its open files is one
that a set of `select` has room for.
-/

namespace Federated.Tool

open Library Syscalls Transport

variable {fds : Finset Nat}

/-! ## Files that are open during a call only -/

/-- Read a file for a request: its size is asked for with three uses, and it is read with one
more if it has room. -/
def httpReadThrough (fopen : Option Nat) (fs : Service.FileSystem) (documentRoot path : Bytes)
    (output : Buffer) : Syscalls (ErrorCode × Buffer) :=
  let (code, read, _) := Service.httpReadFile fs documentRoot path output
  if Service.dotDot <:+: path then pure (code, read)
  else do
    let opened ← withFile fopen (if code = .errFormat then 3 else 4)
    pure (if opened then (code, read) else (.errIo, output))

/-- Load an environment file, which takes a read for each piece and one for its end. -/
def loadEnvThrough (fopen : Option Nat) (content : Bytes) (cli : Cli) :
    Syscalls (ErrorCode × Cli) := do
  let opened ← withFile fopen ((bufferCutter.pieces content).length + 1)
  pure (loadEnvFile (if opened then some content else none) cli)

theorem httpReadThrough_ensures (fopen : Option Nat) (fs : Service.FileSystem)
    (documentRoot path : Bytes) (output : Buffer) :
    (httpReadThrough fopen fs documentRoot path output).Ensures fds fun _ fds' => fds' = fds :=
  .ite (fun _ => rfl) fun _ => (withFile_ensures fopen _).bind fun _ _ h => h

theorem loadEnvThrough_ensures (fopen : Option Nat) (content : Bytes) (cli : Cli) :
    (loadEnvThrough fopen content cli).Ensures fds fun _ fds' => fds' = fds :=
  (withFile_ensures fopen _).bind fun _ _ h => h

/-! ## The parts -/

/-- The parts of the program that open files or sockets, and the rest of the process. -/
inductive Part where
  | tcp
  | udp
  | dnsTunnel
  | file
  | http
  | cli
  | logger
  | rest
  deriving DecidableEq, Repr

/-- The rest of the process is given what is free, and closes what it holds. -/
inductive RestCall where
  | opens (answer : Option Nat)
  | closes (fd : Nat)
  deriving DecidableEq, Repr

def RestCall.step (held : Finset Nat) : RestCall → Syscalls (Unit × Finset Nat)
  | .opens answer => do
    let fd ← grant answer
    pure ((), fd.toFinset ∪ held)
  | .closes fd =>
    if fd ∈ held then do
      release (some fd)
      pure ((), held.erase fd)
    else pure ((), held)

/-- A file that is read for a request. -/
structure HttpRead where
  fopen : Option Nat
  fs : Service.FileSystem
  documentRoot : Bytes
  path : Bytes
  output : Buffer

/-- An environment file that is loaded. -/
structure EnvLoad where
  fopen : Option Nat
  content : Bytes

namespace Part

/-- The variables of a part; of the rest, the numbers that it holds. -/
abbrev State : Part → Type
  | tcp => Tcp.TcpHandles
  | udp => UdpHandle
  | dnsTunnel => DnsTunnelHandle
  | file => FileTransport × Files
  | http => Unit
  | cli => Cli
  | logger => LogFiles
  | rest => Finset Nat

/-- What a part is called with, and what the system answers it. -/
abbrev Call : Part → Type
  | tcp => Tcp.TcpHandles.Call
  | udp => UdpHandle.Call
  | dnsTunnel => DnsTunnelHandle.Call
  | file => FileTransport.Call
  | http => HttpRead
  | cli => EnvLoad
  | logger => { call : LogCall // LogFiles.Fresh call }
  | rest => RestCall

/-- What a call gives back. -/
abbrev Answer : Part → Type
  | tcp => Tcp.TcpHandles.Reply
  | udp => ErrorCode × Option Buffer
  | dnsTunnel | file => Option ErrorCode × Option Buffer
  | http => ErrorCode × Buffer
  | cli => ErrorCode
  | logger => Option ErrorCode
  | rest => Unit

def step : ∀ part : Part, part.Call → part.State → Syscalls (part.Answer × part.State)
  | tcp => fun call (t : Tcp.TcpHandles) => t.step call
  | udp => fun call (t : UdpHandle) => t.step call
  | dnsTunnel => fun call (t : DnsTunnelHandle) => t.step call
  | file => fun call (s : FileTransport × Files) => s.1.step s.2 call
  | http => fun (call : HttpRead) _ => do
    let answer ← httpReadThrough call.fopen call.fs call.documentRoot call.path call.output
    pure (answer, ())
  | cli => fun (call : EnvLoad) (s : Cli) => loadEnvThrough call.fopen call.content s
  | logger => fun (call : { call : LogCall // LogFiles.Fresh call }) (s : LogFiles) =>
    s.step call.1
  | rest => fun (call : RestCall) held => call.step held

/-- The numbers that the variables of a part name. -/
def named : ∀ part : Part, part.State → Finset Nat
  | tcp => fun (t : Tcp.TcpHandles) =>
    t.serverSocket.toFinset ∪ (t.clientSocket.toFinset ∪ t.listenSocket.toFinset)
  | udp => fun (t : UdpHandle) => t.socketFd.toFinset
  | dnsTunnel => fun (t : DnsTunnelHandle) => t.socketFd.toFinset
  | file | http | cli => fun _ => ∅
  | logger => fun (s : LogFiles) => s.logger.config.logFileHandle.toFinset ∪ s.forgotten
  | rest => fun (held : Finset Nat) => held

/-- What a part keeps between its calls. -/
def Sound : ∀ part : Part, part.State → Finset Nat → Prop
  | tcp => fun (t : Tcp.TcpHandles) fds => t.Sound fds
  | udp => fun (t : UdpHandle) fds => t.Sound fds
  | dnsTunnel => fun (t : DnsTunnelHandle) fds => t.Sound fds
  | file | http | cli => fun _ fds => fds = ∅
  | logger => fun (s : LogFiles) fds => s.Sound fds
  | rest => fun (held : Finset Nat) fds => fds = held

/-- What is said of an answer: that of the TCP transport is one without descriptors. -/
def Post : ∀ part : Part, part.Call → part.State → part.Answer × part.State → Prop
  | tcp => fun call t r => Tcp.TcpHandles.Simulates call t r
  | udp | dnsTunnel | file | http | cli | logger | rest => fun _ _ _ => True

end Part

theorem RestCall.step_ensures (call : RestCall) (held : Finset Nat) :
    (call.step held).Ensures held fun r fds => fds = r.2 := by
  cases call with
  | opens answer => exact .grant (Finset.empty_union _).symm fun fd _ => rfl
  | closes fd => exact .ite (fun hmem => .release hmem rfl) fun _ => rfl

theorem keeps_step : Keeps Part.step Part.Sound Part.Post := by
  intro part call s fds h
  cases part with
  | tcp => exact Tcp.TcpHandles.Sound.step h call
  | udp => exact (UdpHandle.Sound.step h call).mono fun _ _ h' => ⟨h', trivial⟩
  | dnsTunnel => exact (DnsTunnelHandle.Sound.step h call).mono fun _ _ h' => ⟨h', trivial⟩
  | file =>
    obtain rfl : fds = ∅ := h
    exact (FileTransport.step_ensures s.1 s.2 call).mono fun _ _ h' => ⟨h', trivial⟩
  | http =>
    obtain rfl : fds = ∅ := h
    exact (httpReadThrough_ensures _ _ _ _ _).bind fun _ _ h' => ⟨h', trivial⟩
  | cli =>
    obtain rfl : fds = ∅ := h
    exact (loadEnvThrough_ensures _ _ _).mono fun _ _ h' => ⟨h', trivial⟩
  | logger => exact (LogFiles.Sound.step h call.2).mono fun _ _ h' => ⟨h', trivial⟩
  | rest =>
    obtain rfl : fds = s := h
    exact (RestCall.step_ensures call _).mono fun _ _ h' => ⟨h', trivial⟩

theorem Part.Sound.eq_named {part : Part} {s : part.State} (h : part.Sound s fds) :
    fds = part.named s := by
  cases part with
  | tcp => cases h <;> rfl
  | udp => cases h <;> rfl
  | dnsTunnel => cases h <;> rfl
  | file | http | cli | rest => exact h
  | logger => exact LogFiles.Sound.held h

/-! ## The process -/

/-- The variables of the parts as the program starts. -/
def startState (clock : Nat) (cli : Cli) (files : Files) (held : Finset Nat) :
    ∀ part : Part, part.State
  | .tcp => Tcp.TcpHandles.new
  | .udp => UdpHandle.new
  | .dnsTunnel => DnsTunnelHandle.new clock
  | .file => (FileTransport.new, files)
  | .http => ()
  | .cli => cli
  | .logger => LogFiles.new
  | .rest => held

/-- The process as the program starts, with what the rest of it holds of the numbers that can be
given out. -/
def startProcess (limit clock : Nat) (cli : Cli) (files : Files) (held : Finset Nat) :
    Process Part.State where
  limit := limit
  table fd := if fd ∈ held.filter (Grantable limit) then some .rest else none
  state := startState clock cli files (held.filter (Grantable limit))

variable {limit : Nat}

theorem accounts_startProcess (hlimit : limit ≤ fdSetSize) (clock : Nat) (cli : Cli) (files : Files)
    (held : Finset Nat) : (startProcess limit clock cli files held).Accounts Part.Sound := by
  have hnone (part : Part) (h : part ≠ .rest) :
      Holds (startProcess limit clock cli files held).table part ∅ := by
    intro fd
    simp [startProcess, h.symm]
  refine ⟨hlimit, fun fd hfd => ?_, fun part => ?_⟩
  · have hmem : fd ∈ held ∧ Grantable limit fd := by simpa [startProcess] using hfd
    exact hmem.2
  cases part with
  | tcp => exact ⟨∅, hnone _ nofun, .closed⟩
  | udp => exact ⟨∅, hnone _ nofun, .closed⟩
  | dnsTunnel => exact ⟨∅, hnone _ nofun, .closed rfl⟩
  | file => exact ⟨∅, hnone _ nofun, rfl⟩
  | http => exact ⟨∅, hnone _ nofun, rfl⟩
  | cli => exact ⟨∅, hnone _ nofun, rfl⟩
  | logger => exact ⟨∅, hnone _ nofun, LogFiles.sound_new⟩
  | rest => exact ⟨held.filter (Grantable limit), fun fd => by simp [startProcess], rfl⟩

/-- In whatever order the parts are called, and whatever the system answers, none of them uses or
closes a descriptor that it does not hold, the standard streams apart, and none puts one into a
set without room for it. Behind the calls, a part holds those that its variables name, and a
transport that is closed holds none. -/
theorem calls_startProcess (hlimit : limit ≤ fdSetSize) (clock : Nat) (cli : Cli) (files : Files)
    (held : Finset Nat) (cs : List (Σ part : Part, part.Call)) :
    ∃ answers p, (startProcess limit clock cli files held).calls Part.step cs = .ok (answers, p) ∧
      (∀ part fd, p.table fd = some part ↔ fd ∈ part.named (p.state part)) ∧
        ((p.state .tcp : Tcp.TcpHandles).rest.isOpen = false → Part.tcp.named (p.state .tcp) = ∅) ∧
        ((p.state .udp : UdpHandle).rest.isOpen = false → Part.udp.named (p.state .udp) = ∅) ∧
          ((p.state .dnsTunnel : DnsTunnelHandle).rest.isOpen = false →
            Part.dnsTunnel.named (p.state .dnsTunnel) = ∅) := by
  obtain ⟨answers, p, hcalls, haccounts⟩ :=
    (accounts_startProcess hlimit clock cli files held).calls keeps_step cs
  have hsound (part : Part) : part.Sound (p.state part) (part.named (p.state part)) := by
    obtain ⟨fds, -, hsound⟩ := haccounts.holds part
    rwa [← hsound.eq_named]
  refine ⟨answers, p, hcalls, fun part fd => ?_, ?_, ?_, ?_⟩
  · obtain ⟨fds, hholds, hsound⟩ := haccounts.holds part
    rw [← hsound.eq_named]
    exact hholds fd
  · exact Tcp.TcpHandles.Sound.eq_empty (hsound .tcp)
  · exact UdpHandle.Sound.eq_empty (hsound .udp)
  · exact DnsTunnelHandle.Sound.eq_empty (hsound .dnsTunnel)

/-- The kernel gives the TCP transport neither the standard output nor the file of the logger. -/
theorem calls_startProcess_logger :
    ∃ answers p, (startProcess 1024 0 ⟨.empty, [], Nat.zero_le _, [], Nat.zero_le _, fun _ => none⟩
      (fun _ => none) {0, 3}).calls Part.step
      [⟨.logger, .logInit ⟨.info, .both, true, some (ascii "federated.log"), none⟩ (some 4), rfl⟩,
        ⟨.tcp, .tcpOpen ⟨some 1, true, true, true⟩⟩, ⟨.tcp, .tcpOpen ⟨some 4, true, true, true⟩⟩,
        ⟨.logger, .logMessage .info (ascii "listening") ⟨[], []⟩, trivial⟩] = .ok (answers, p) ∧
      ∀ part fd, p.table fd = some part ↔ fd ∈ part.named (p.state part) :=
  (calls_startProcess (by decide) _ _ _ _ _).imp fun _ h => h.imp fun _ h => ⟨h.1, h.2.1⟩

end Federated.Tool
