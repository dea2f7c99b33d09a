import Federated.Transport.Udp
import Federated.Transport.RateLimit
import Federated.Transport.File
import Federated.Library.Descriptors

/-!
# The descriptors of the other transports

The UDP transport and the DNS tunnel keep one socket from opening to closing. The file
transport opens a file in each call and closes it before it returns.
-/

namespace Federated.Transport

open Library Syscalls

variable {fds : Finset Nat}

/-! ## UDP -/

/-- The handle of the transport, where `none` is an invalid one, and the rest of its state. -/
structure UdpHandle where
  socketFd : Option Nat
  rest : Udp

namespace UdpHandle

/-- The state as the program starts. -/
def new : UdpHandle := ⟨none, .closed⟩

/-- Close the socket and report the error. -/
def dropSocket (t : UdpHandle) : Syscalls (ErrorCode × UdpHandle) := do
  release t.socketFd
  pure (.errIo, { t with socketFd := none })

/-- Open the transport, if the kernel makes a socket, binds it and tells its port. -/
def udpOpen (socket : Option Nat) (bind : Bool) (getsockname : Option UInt16) (t : UdpHandle) :
    Syscalls (ErrorCode × UdpHandle) :=
  if t.rest.isOpen then pure (.ok, t)
  else do
    let socketFd ← grant socket
    let t := { t with socketFd }
    if socketFd = none then pure (.errIo, t)
    else do
      -- `setsockopt`, and `bind`.
      touch socketFd
      touch socketFd
      if bind = false then t.dropSocket
      else do
        touch socketFd
        match getsockname with
        | none => t.dropSocket
        | some port => do
          touch socketFd
          pure (.ok, { t with rest := (t.rest.udpOpen (some port)).2 })

def udpClose (t : UdpHandle) : Syscalls (ErrorCode × UdpHandle) :=
  if t.rest.isOpen = false then pure (.ok, t)
  else do
    release t.socketFd
    pure (.ok, new)

/-- Send a datagram, and look for one that can be received at once. -/
def udpSend (data : Bytes) (taken : Bool) (arrival : Arrival) (t : UdpHandle) :
    Syscalls (ErrorCode × UdpHandle) :=
  let (code, rest) := t.rest.udpSend data taken arrival
  if t.rest.isOpen = false ∨ data.length > maxDatagramSize then pure (code, { t with rest })
  else do
    touch t.socketFd
    if taken = false then pure (code, { t with rest })
    else do
      touch t.socketFd
      pure (code, { t with rest })

/-- Receive a datagram, for which the kernel is asked if none is queued. -/
def udpRecv (data : Buffer) (arrival : Arrival) (t : UdpHandle) :
    Syscalls ((ErrorCode × Buffer) × UdpHandle) :=
  let (code, data, rest) := t.rest.udpRecv data arrival
  if t.rest.isOpen = false ∨ t.rest.recvQueue ≠ [] then pure ((code, data), { t with rest })
  else do
    touch t.socketFd
    pure ((code, data), { t with rest })

/-- The states that the transport can be in, each with the number that its handle names. -/
inductive Sound : UdpHandle → Finset Nat → Prop
  | closed : Sound new ∅
  | bound {rest : Udp} (socket : Nat) (hopen : rest.isOpen = true) :
      Sound ⟨some socket, rest⟩ {socket}

variable {t : UdpHandle}

theorem Sound.eq_empty (h : t.Sound fds) (hclosed : t.rest.isOpen = false) : fds = ∅ := by
  cases h with
  | closed => rfl
  | bound _ hopen => simp [hopen] at hclosed

theorem Sound.udpOpen (h : t.Sound fds) (socket : Option Nat) (bind : Bool)
    (getsockname : Option UInt16) :
    (t.udpOpen socket bind getsockname).Ensures fds fun r => r.2.Sound := by
  rw [UdpHandle.udpOpen]
  cases h with
  | bound socket hopen =>
    rw [if_pos hopen]
    exact .bound socket hopen
  | closed =>
    have hdrop (socket : Nat) : (dropSocket { new with socketFd := some socket }).Ensures {socket}
        fun r => r.2.Sound := by
      refine .release (Finset.mem_singleton_self socket) ?_
      rw [Finset.erase_singleton]
      exact .closed
    rw [if_neg (by simp [new, Udp.closed])]
    refine .grant .closed fun socket _ => ?_
    have hheld : socket ∈ insert socket (∅ : Finset Nat) := Finset.mem_insert_self _ _
    rw [if_neg (Option.some_ne_none socket)]
    refine .touch hheld (.touch hheld (.ite (fun _ => hdrop socket) fun _ => ?_))
    refine .touch hheld ?_
    cases getsockname with
    | none => exact hdrop socket
    | some port => exact .touch hheld (.bound socket rfl)

theorem Sound.udpClose (h : t.Sound fds) : t.udpClose.Ensures fds fun r => r.2.Sound := by
  rw [UdpHandle.udpClose]
  cases h with
  | closed => exact .closed
  | bound socket hopen =>
    rw [if_neg (by simp [hopen])]
    refine .release (Finset.mem_singleton_self socket) ?_
    rw [Finset.erase_singleton]
    exact .closed

/-- Sending and receiving neither open nor close the transport. -/
theorem isOpen_udpSend (t : Udp) (data : Bytes) (taken : Bool) (arrival : Arrival) :
    (t.udpSend data taken arrival).2.isOpen = t.isOpen := by
  rw [Udp.udpSend]
  grind

theorem isOpen_udpRecv (t : Udp) (data : Buffer) (arrival : Arrival) :
    (t.udpRecv data arrival).2.2.isOpen = t.isOpen := by
  rw [Udp.udpRecv]
  grind [handOver]

theorem Sound.udpSend (h : t.Sound fds) (data : Bytes) (taken : Bool) (arrival : Arrival) :
    (t.udpSend data taken arrival).Ensures fds fun r => r.2.Sound := by
  have hopen := isOpen_udpSend t.rest data taken arrival
  cases h with
  | closed => exact .closed
  | bound socket hbound =>
    have hsound := Sound.bound socket (hopen.trans hbound)
    exact .ite (fun _ => hsound) fun _ => .touch (Finset.mem_singleton_self socket)
      (.ite (fun _ => hsound) fun _ => .touch (Finset.mem_singleton_self socket) hsound)

theorem Sound.udpRecv (h : t.Sound fds) (data : Buffer) (arrival : Arrival) :
    (t.udpRecv data arrival).Ensures fds fun r => r.2.Sound := by
  have hopen := isOpen_udpRecv t.rest data arrival
  cases h with
  | closed => exact .closed
  | bound socket hbound =>
    have hsound := Sound.bound socket (hopen.trans hbound)
    exact .ite (fun _ => hsound) fun _ => .touch (Finset.mem_singleton_self socket) hsound

/-- A call, with what the kernel answers it. -/
inductive Call where
  | udpOpen (socket : Option Nat) (bind : Bool) (getsockname : Option UInt16)
  | udpClose
  | udpSend (data : Bytes) (taken : Bool) (arrival : Arrival)
  | udpRecv (data : Buffer) (arrival : Arrival)

/-- The answer to a call: a code, and what a receive leaves in its buffer. -/
def step (t : UdpHandle) : Call → Syscalls ((ErrorCode × Option Buffer) × UdpHandle)
  | .udpOpen socket bind getsockname => do
    let (code, t) ← t.udpOpen socket bind getsockname
    pure ((code, none), t)
  | .udpClose => do
    let (code, t) ← t.udpClose
    pure ((code, none), t)
  | .udpSend data taken arrival => do
    let (code, t) ← t.udpSend data taken arrival
    pure ((code, none), t)
  | .udpRecv data arrival => do
    let ((code, data), t) ← t.udpRecv data arrival
    pure ((code, some data), t)

theorem Sound.step (h : t.Sound fds) (call : Call) :
    (t.step call).Ensures fds fun r => r.2.Sound := by
  cases call with
  | udpOpen socket bind port => exact (h.udpOpen socket bind port).bind fun _ _ h' => h'
  | udpClose => exact h.udpClose.bind fun _ _ h' => h'
  | udpSend data taken arrival => exact (h.udpSend data taken arrival).bind fun _ _ h' => h'
  | udpRecv data arrival => exact (h.udpRecv data arrival).bind fun _ _ h' => h'

end UdpHandle

/-! ## The DNS tunnel -/

/-- The handle of the transport, where `none` is an invalid one, and the rest of its state. -/
structure DnsTunnelHandle where
  socketFd : Option Nat
  rest : DnsTunnel

namespace DnsTunnelHandle

/-- The state as the program starts. -/
def new (clock : Nat) : DnsTunnelHandle := ⟨none, .new clock⟩

def configure (config : DnsTunnelConfig) (t : DnsTunnelHandle) : DnsTunnelHandle :=
  { t with rest := t.rest.configure config }

/-- Open the transport; `inetPton` reads the address of a server. -/
def dnsTunnelOpen (socket : Option Nat) (inetPton : Bytes → Option UInt32) (t : DnsTunnelHandle) :
    Syscalls (ErrorCode × DnsTunnelHandle) :=
  if t.rest.isOpen then pure (.ok, t)
  else do
    let socketFd ← grant socket
    if socketFd = none then pure (.errIo, { t with socketFd })
    else do
      let (code, rest) := t.rest.dnsTunnelOpen true inetPton
      if code ≠ .ok then
        release socketFd
        pure (code, ⟨none, rest⟩)
      else pure (code, ⟨socketFd, rest⟩)

def dnsTunnelClose (t : DnsTunnelHandle) : Syscalls (ErrorCode × DnsTunnelHandle) :=
  if t.rest.isOpen = false then pure (.ok, t)
  else do
    release t.socketFd
    pure (.ok, ⟨none, t.rest.dnsTunnelClose.2⟩)

/-- Send a payload; `none` is a division by zero, which ends the process. -/
def dnsTunnelSend (data : Bytes) (pace : Pace) (taken : Bool) (t : DnsTunnelHandle) :
    Syscalls (Option ErrorCode × DnsTunnelHandle) :=
  match t.rest.dnsTunnelSend data pace taken with
  | none => pure (none, t)
  | some (code, none, rest) => pure (some code, { t with rest })
  | some (code, some _, rest) => do
    touch t.socketFd
    pure (some code, { t with rest })

def dnsTunnelRecv (data : Buffer) (received : Option Nat) (t : DnsTunnelHandle) :
    Syscalls ((ErrorCode × Buffer) × DnsTunnelHandle) :=
  if t.rest.isOpen = false then pure (t.rest.dnsTunnelRecv data received, t)
  else do
    touch t.socketFd
    pure (t.rest.dnsTunnelRecv data received, t)

/-- The states that the transport can be in, each with the number that its handle names. -/
inductive Sound : DnsTunnelHandle → Finset Nat → Prop
  | closed {rest : DnsTunnel} (hclosed : rest.isOpen = false) : Sound ⟨none, rest⟩ ∅
  | bound {rest : DnsTunnel} (socket : Nat) (hopen : rest.isOpen = true) :
      Sound ⟨some socket, rest⟩ {socket}

variable {t : DnsTunnelHandle}

theorem Sound.eq_empty (h : t.Sound fds) (hclosed : t.rest.isOpen = false) : fds = ∅ := by
  cases h with
  | closed => rfl
  | bound _ hopen => simp [hopen] at hclosed

theorem Sound.configure (h : t.Sound fds) (config : DnsTunnelConfig) :
    (t.configure config).Sound fds := by
  cases h with
  | closed hclosed => exact .closed hclosed
  | bound socket hopen => exact .bound socket hopen

theorem Sound.dnsTunnelOpen (h : t.Sound fds) (socket : Option Nat)
    (inetPton : Bytes → Option UInt32) :
    (t.dnsTunnelOpen socket inetPton).Ensures fds fun r => r.2.Sound := by
  rw [DnsTunnelHandle.dnsTunnelOpen]
  cases h with
  | bound socket hopen =>
    rw [if_pos hopen]
    exact .bound socket hopen
  | @closed rest hclosed =>
    rw [if_neg (by simp [hclosed])]
    refine .grant (.closed hclosed) fun socket _ => ?_
    rw [if_neg (Option.some_ne_none socket)]
    simp only [DnsTunnel.dnsTunnelOpen, hclosed, Bool.false_eq_true, Bool.true_eq_false, if_false]
    cases inetPton rest.config.dnsServer with
    | none =>
      refine .ite (fun _ => .release (Finset.mem_insert_self _ _) ?_) fun hcode => by simp at hcode
      rw [insert_empty_eq, Finset.erase_singleton]
      exact .closed rfl
    | some address => exact .ite (fun hcode => by simp at hcode) fun _ => .bound socket rfl

theorem Sound.dnsTunnelClose (h : t.Sound fds) :
    t.dnsTunnelClose.Ensures fds fun r => r.2.Sound := by
  rw [DnsTunnelHandle.dnsTunnelClose]
  cases h with
  | closed hclosed =>
    rw [if_pos hclosed]
    exact .closed hclosed
  | bound socket hopen =>
    rw [if_neg (by simp [hopen])]
    refine .release (Finset.mem_singleton_self socket) ?_
    rw [Finset.erase_singleton]
    exact .closed (by simp [DnsTunnel.dnsTunnelClose, hopen])

/-- A send leaves the transport open or closed, and hands over a datagram only if it is open. -/
theorem isOpen_dnsTunnelSend {t t' : DnsTunnel} {data : Bytes} {pace : Pace} {taken : Bool}
    {code : ErrorCode} {sent : Option (Endpoint × Bytes)}
    (h : t.dnsTunnelSend data pace taken = some (code, sent, t')) :
    t'.isOpen = t.isOpen ∧ (sent.isSome → t.isOpen = true) := by
  obtain ⟨-, _, hsend⟩ | ⟨-, -, hsend⟩ | ⟨henforces, r, _, _, _, -, hsend⟩ :=
    dnsTunnelSend_cases t data pace taken
  · cases hsend.symm.trans h
    exact ⟨rfl, nofun⟩
  · cases hsend.symm.trans h
  · cases hsend.symm.trans h
    exact ⟨rfl, fun _ => henforces.1⟩

theorem Sound.dnsTunnelSend (h : t.Sound fds) (data : Bytes) (pace : Pace) (taken : Bool) :
    (t.dnsTunnelSend data pace taken).Ensures fds fun r => r.2.Sound := by
  rw [DnsTunnelHandle.dnsTunnelSend]
  rcases hsend : t.rest.dnsTunnelSend data pace taken with _ | ⟨code, sent, rest⟩
  · exact h
  · obtain ⟨hkept, hopen⟩ := isOpen_dnsTunnelSend hsend
    cases h with
    | closed hclosed =>
      cases sent with
      | none => exact .closed (hkept.trans hclosed)
      | some datagram => simp [hclosed] at hopen
    | bound socket hbound =>
      have hsound := Sound.bound socket (hkept.trans hbound)
      cases sent with
      | none => exact hsound
      | some datagram => exact .touch (Finset.mem_singleton_self socket) hsound

theorem Sound.dnsTunnelRecv (h : t.Sound fds) (data : Buffer) (received : Option Nat) :
    (t.dnsTunnelRecv data received).Ensures fds fun r => r.2.Sound := by
  rw [DnsTunnelHandle.dnsTunnelRecv]
  cases h with
  | closed hclosed =>
    rw [if_pos hclosed]
    exact .closed hclosed
  | bound socket hopen =>
    rw [if_neg (by simp [hopen])]
    exact .touch (Finset.mem_singleton_self socket) (.bound socket hopen)

/-- A call, with what the outside does during it. -/
inductive Call where
  | configure (config : DnsTunnelConfig)
  | dnsTunnelOpen (socket : Option Nat) (inetPton : Bytes → Option UInt32)
  | dnsTunnelClose
  | dnsTunnelSend (data : Bytes) (pace : Pace) (taken : Bool)
  | dnsTunnelRecv (data : Buffer) (received : Option Nat)

/-- The answer to a call: a code if it returns one, and what a receive leaves in its buffer. -/
def step (t : DnsTunnelHandle) :
    Call → Syscalls ((Option ErrorCode × Option Buffer) × DnsTunnelHandle)
  | .configure config => pure ((none, none), t.configure config)
  | .dnsTunnelOpen socket inetPton => do
    let (code, t) ← t.dnsTunnelOpen socket inetPton
    pure ((some code, none), t)
  | .dnsTunnelClose => do
    let (code, t) ← t.dnsTunnelClose
    pure ((some code, none), t)
  | .dnsTunnelSend data pace taken => do
    let (code, t) ← t.dnsTunnelSend data pace taken
    pure ((code, none), t)
  | .dnsTunnelRecv data received => do
    let ((code, data), t) ← t.dnsTunnelRecv data received
    pure ((some code, some data), t)

theorem Sound.step (h : t.Sound fds) (call : Call) :
    (t.step call).Ensures fds fun r => r.2.Sound := by
  cases call with
  | configure config => exact h.configure config
  | dnsTunnelOpen socket inetPton => exact (h.dnsTunnelOpen socket inetPton).bind fun _ _ h' => h'
  | dnsTunnelClose => exact h.dnsTunnelClose.bind fun _ _ h' => h'
  | dnsTunnelSend data pace taken => exact (h.dnsTunnelSend data pace taken).bind fun _ _ h' => h'
  | dnsTunnelRecv data received => exact (h.dnsTunnelRecv data received).bind fun _ _ h' => h'

end DnsTunnelHandle

/-! ## Files -/

/-- Open a file, use it some times, and close it. -/
def withFile (fopen : Option Nat) (uses : Nat) : Syscalls Bool := do
  let f ← grant fopen
  if f = none then pure false
  else do
    (List.replicate uses (touch f)).forM id
    release f
    pure true

theorem replicate_touch_ensures {fd : Nat} (hfd : fd ∈ fds) (uses : Nat) :
    ((List.replicate uses (touch (some fd))).forM id).Ensures fds fun _ fds' => fds' = fds := by
  induction uses with
  | zero => rfl
  | succ uses ih => exact .touch hfd ih

/-- A file that is opened is closed again. -/
theorem withFile_ensures (fopen : Option Nat) (uses : Nat) :
    (withFile fopen uses).Ensures fds fun _ fds' => fds' = fds := by
  rw [withFile]
  refine .grant rfl fun fd hfree => ?_
  rw [if_neg (Option.some_ne_none fd)]
  refine (replicate_touch_ensures (Finset.mem_insert_self fd fds) uses).bind ?_
  rintro _ _ rfl
  exact .release (Finset.mem_insert_self fd fds) (Finset.erase_insert hfree)

namespace FileTransport

/-- Send through a file that is opened for the call. -/
def sendThrough (data : Bytes) (fopen : Option Nat) (written : Nat) (t : FileTransport)
    (files : Files) : Syscalls (ErrorCode × Files) :=
  if t.isOpen = false ∨ t.writePath = none then pure (t.fileSend data none files)
  else do
    let opened ← withFile fopen 1
    pure (t.fileSend data (if opened then some written else none) files)

/-- Receive through a file that is opened for the call, if it is there. -/
def recvThrough (data : Buffer) (fopen : Option Nat) (read : Nat) (t : FileTransport)
    (files : Files) : Syscalls (ErrorCode × Buffer) :=
  if t.isOpen = false ∨ t.readPath = none then pure (t.fileRecv data none files)
  else do
    let opened ← withFile (if (t.readPath.bind files).isSome then fopen else none) 1
    pure (t.fileRecv data (if opened then some read else none) files)

variable {t : FileTransport} {files : Files}

/-- A send leaves no file open, and comes to one that is told whether the file opens. -/
theorem sendThrough_ensures (data : Bytes) (fopen : Option Nat) (written : Nat) :
    (t.sendThrough data fopen written files).Ensures fds fun r fds' =>
      fds' = fds ∧ ∃ answer, r = t.fileSend data answer files := by
  refine .ite (fun _ => ⟨rfl, none, rfl⟩) fun _ => (withFile_ensures fopen 1).bind ?_
  rintro _ _ rfl
  exact ⟨rfl, _, rfl⟩

theorem recvThrough_ensures (data : Buffer) (fopen : Option Nat) (read : Nat) :
    (t.recvThrough data fopen read files).Ensures fds fun r fds' =>
      fds' = fds ∧ ∃ answer, r = t.fileRecv data answer files := by
  refine .ite (fun _ => ⟨rfl, none, rfl⟩) fun _ => (withFile_ensures _ 1).bind ?_
  rintro _ _ rfl
  exact ⟨rfl, _, rfl⟩

/-- A call, with what the system answers it. -/
inductive Call where
  | setReadPath (path : Option Bytes)
  | setWritePath (path : Option Bytes)
  | fileOpen
  | fileClose
  | fileSend (data : Bytes) (fopen : Option Nat) (written : Nat)
  | fileRecv (data : Buffer) (fopen : Option Nat) (read : Nat)

/-- The answer to a call on the transport and the files: a code if it returns one, and what a
receive leaves in its buffer. -/
def step (t : FileTransport) (files : Files) :
    Call → Syscalls ((Option ErrorCode × Option Buffer) × FileTransport × Files)
  | .setReadPath path => pure ((none, none), t.setReadPath path, files)
  | .setWritePath path => pure ((none, none), t.setWritePath path, files)
  | .fileOpen => pure ((some t.fileOpen.1, none), t.fileOpen.2, files)
  | .fileClose => pure ((some t.fileClose.1, none), t.fileClose.2, files)
  | .fileSend data fopen written => do
    let (code, files) ← t.sendThrough data fopen written files
    pure ((some code, none), t, files)
  | .fileRecv data fopen read => do
    let (code, data) ← t.recvThrough data fopen read files
    pure ((some code, some data), t, files)

theorem step_ensures (t : FileTransport) (files : Files) (call : Call) :
    (t.step files call).Ensures fds fun _ fds' => fds' = fds := by
  cases call with
  | setReadPath path => rfl
  | setWritePath path => rfl
  | fileOpen => rfl
  | fileClose => rfl
  | fileSend data fopen written =>
    exact (sendThrough_ensures data fopen written).bind fun _ _ h => h.1
  | fileRecv data fopen read =>
    exact (recvThrough_ensures data fopen read).bind fun _ _ h => h.1

end FileTransport

end Federated.Transport
