import Federated.Framer.CutFrames
import Federated.Library.Machine
import Federated.Transport.File

/-!
# Messages left in files

Any number of nodes share the files of a system. A node frames a message and sends it into the
file of its write path; another one that opens later receives what it finds at its read path, and
decodes it. A run is any order of such calls, in which the system may write and read less than it
is asked for. What comes out at a path is a part of the message that was put there last, and the
whole of it with a length in front. In a run in which nothing is cut, every path is a register that
holds a message.

As in the transport of one node, different paths name different files, and a path that was set keeps
its text. Calls of different nodes may come in any order, but do not overlap: a node that received
while another one had truncated the file and not closed it could get a mixture.
-/

namespace Federated.Transport

open Library Comp Framer

variable {ι : Type*}

namespace FileTransport

/-- A call that concerns no file. -/
inductive Setup where
  | setReadPath (path : Option Bytes)
  | setWritePath (path : Option Bytes)
  | fileOpen
  | fileClose

/-- The transport after such a call. -/
def Setup.next (t : FileTransport) : Setup → FileTransport
  | setReadPath path => t.setReadPath path
  | setWritePath path => t.setWritePath path
  | fileOpen => t.fileOpen.2
  | fileClose => t.fileClose.2

/-- The path of the file that a call reaches, of which `answer` tells whether it opens. -/
def reaches (path : Option Bytes) (answer : Option Nat) (t : FileTransport) : Option Bytes :=
  if t.isOpen = true ∧ answer.isSome = true then path else none

variable {t : FileTransport} {data : Bytes} {buffer : Buffer} {answer : Option Nat} {files : Files}

/-- A send that reaches no file changes none. -/
theorem fileSend_of_reaches_none (h : t.reaches t.writePath answer = none) :
    t.fileSend data answer files = (.errIo, files) := by
  cases hopen : t.isOpen <;> cases hpath : t.writePath <;> cases answer <;>
    simp_all [reaches, fileSend]

/-- A send that reaches a file leaves there as much as is written. -/
theorem fileSend_of_reaches_some {path : Bytes} {written : Nat}
    (h : t.reaches t.writePath (some written) = some path) :
    (t.fileSend data (some written) files).2 =
      Function.update files path (some (data.take written)) := by
  cases hopen : t.isOpen <;> simp_all [reaches, fileSend]

/-- A receive gets nothing from a file that it does not reach. -/
theorem fileRecv_of_reaches_none (h : t.reaches t.readPath answer = none) :
    t.fileRecv buffer answer files = (.errIo, buffer) := by
  cases hopen : t.isOpen <;> cases hpath : t.readPath <;> cases answer <;>
    simp_all [reaches, fileRecv]

/-- A receive that reaches a file gets as much of it as has room and is read, if anything. -/
theorem fileRecv_of_reaches_some {path : Bytes} {read : Nat}
    (h : t.reaches t.readPath (some read) = some path) :
    t.fileRecv buffer (some read) files =
      match files path with
      | none => (.errIo, buffer)
      | some content =>
        if (content.take buffer.size).take read = [] then (.errIo, buffer)
        else (.ok, filled buffer ((content.take buffer.size).take read)) := by
  have hopen : t.isOpen = true ∧ t.readPath = some path := by
    simpa [reaches] using h
  simp only [fileRecv, hopen.1, hopen.2, Option.bind_some, Bool.true_eq_false, if_false]
  cases files path <;> rfl

/-- What is received is the start of the file. -/
theorem fileRecv_ok {buffer' : Buffer} (h : t.fileRecv buffer answer files = (.ok, buffer')) :
    ∃ path content read, t.readPath = some path ∧ files path = some content ∧
      buffer'.bytes = (content.take buffer.size).take read := by
  cases hpath : t.reaches t.readPath answer with
  | none => simp [fileRecv_of_reaches_none hpath] at h
  | some path =>
    cases answer with
    | none => simp [reaches] at hpath
    | some read =>
      rw [fileRecv_of_reaches_some hpath] at h
      cases hfile : files path with
      | none => simp [hfile] at h
      | some content =>
        simp only [hfile] at h
        split at h
        · cases h
        · cases h
          exact ⟨path, content, read, by grind [reaches], hfile, bytes_filled _ _⟩

end FileTransport

open FileTransport

/-- A call of a node, with what the system answers it, or the removal of a file. -/
inductive ExchangeEvent (ι : Type*) where
  | setup (i : ι) (call : Setup)
  | send (i : ι) (message : Bytes) (framed : Buffer) (written : Option Nat)
  | recv (i : ι) (received decoded : Buffer) (read : Option Nat)
  | remove (path : Bytes)

/-- The nodes' transports after an event. -/
def ExchangeEvent.nodes [DecidableEq ι] (node : ι → FileTransport) :
    ExchangeEvent ι → ι → FileTransport
  | setup i call => Function.update node i (call.next (node i))
  | _ => node

/-! ## What happens at the paths -/

/-- A message is put at a path or got from there, or the file is removed. -/
inductive FileEntry where
  | put (path message : Bytes)
  | got (path message : Bytes)
  | removed (path : Bytes)
  deriving DecidableEq, Repr

/-- The message that was put last at each path, and not removed. -/
abbrev Posted := Bytes → Option Bytes

/-- What an entry changes of the messages at the paths. -/
def Posted.step (posted : Posted) : FileEntry → Unit × Posted
  | .put path message => ((), Function.update posted path (some message))
  | .got _ _ => ((), posted)
  | .removed path => ((), Function.update posted path none)

/-- The messages at the paths behind some entries, from no files at all. -/
def lastPut (log : List FileEntry) : Posted := after Posted.step (fun _ => none) log

/-- What is got at a path is a part of the message put there last, all of it with a length in
front. -/
def Posted.Delivers (k : FramerKind) (posted : Posted) : FileEntry → Prop
  | .got path payload => ∃ message, posted path = some message ∧ payload <+: message ∧
      (k.Prefixed → payload = message)
  | _ => True

/-! ## Runs over the files -/

/-- The file transports of the nodes, and the files they share. -/
structure Exchange (ι : Type*) where
  node : ι → FileTransport
  files : Files

namespace Exchange

variable [DecidableEq ι]

/-- An event, with what happens at the paths by it. A node sends only what it could encode, and
decodes only what it received. No other call is under way in the meantime. -/
inductive Step (k : FramerKind) (s : Exchange ι) :
    ExchangeEvent ι → List FileEntry → Exchange ι → Prop
  | setup (i : ι) (call : Setup) :
      Step k s (.setup i call) [] { s with node := (ExchangeEvent.setup i call).nodes s.node }
  | send {i : ι} {message : Bytes} {framed framed' : Buffer} {written : Option Nat}
      {code : ErrorCode} {files' : Files}
      (hencode : (k.module.encode message framed).Returns (.ok (.ok, framed')))
      (hsend : (s.node i).fileSend framed'.bytes written s.files = (code, files')) :
      Step k s (.send i message framed written)
        (((s.node i).reaches (s.node i).writePath written).toList.map (.put · message))
        { s with files := files' }
  | unsent {i : ι} {message : Bytes} {framed framed' : Buffer} {written : Option Nat}
      {code : ErrorCode} (hencode : (k.module.encode message framed).Returns (.ok (code, framed')))
      (hcode : code ≠ .ok) : Step k s (.send i message framed written) [] s
  | recv {i : ι} {received received' decoded decoded' : Buffer} {read : Option Nat}
      (hrecv : (s.node i).fileRecv received read s.files = (.ok, received'))
      (hdecode : (k.module.decode received'.bytes decoded).Returns (.ok (.ok, decoded'))) :
      Step k s (.recv i received decoded read)
        ((s.node i).readPath.toList.map (.got · decoded'.bytes)) s
  | undecoded {i : ι} {received received' decoded decoded' : Buffer} {read : Option Nat}
      {code : ErrorCode} (hrecv : (s.node i).fileRecv received read s.files = (.ok, received'))
      (hdecode : (k.module.decode received'.bytes decoded).Returns (.ok (code, decoded')))
      (hcode : code ≠ .ok) : Step k s (.recv i received decoded read) [] s
  | unreceived {i : ι} {received received' decoded : Buffer} {read : Option Nat}
      {code : ErrorCode} (hrecv : (s.node i).fileRecv received read s.files = (code, received'))
      (hcode : code ≠ .ok) : Step k s (.recv i received decoded read) [] s
  | remove (path : Bytes) : Step k s (.remove path) [.removed path]
      { s with files := Function.update s.files path none }

/-- A sequence of events, with what happens at the paths. -/
inductive Run (k : FramerKind) :
    Exchange ι → List (ExchangeEvent ι) → List FileEntry → Exchange ι → Prop
  | nil (s : Exchange ι) : Run k s [] [] s
  | cons {s s₁ s₂ : Exchange ι} {event : ExchangeEvent ι} {events : List (ExchangeEvent ι)}
      {entries log : List FileEntry} (hstep : Step k s event entries s₁)
      (hrun : Run k s₁ events log s₂) : Run k s (event :: events) (entries ++ log) s₂

/-- The nodes as they are, and no files. -/
def start (node : ι → FileTransport) : Exchange ι := ⟨node, fun _ => none⟩

end Exchange

/-- A message that is sent has a frame whose length can be expressed. -/
def ExchangeEvent.Frameable (k : FramerKind) : ExchangeEvent ι → Prop
  | send _ message _ _ => (k.frame message).length < 2 ^ 32
  | _ => True

/-! ## Nothing but what was put comes out -/

variable {k : FramerKind} {files files' : Files} {posted : Posted}

/-- Every file is the start of the frame of the message that was put there last. -/
def Posted.Parts (k : FramerKind) (posted : Posted) (files : Files) : Prop :=
  ∀ path content, files path = some content → ∃ message, posted path = some message ∧
    content <+: k.frame message ∧ (k.frame message).length < 2 ^ 32

namespace Posted

theorem Parts.put (h : posted.Parts k files) {path message content : Bytes}
    (hcontent : content <+: k.frame message) (hlen : (k.frame message).length < 2 ^ 32) :
    Parts k (Function.update posted path (some message))
      (Function.update files path (some content)) := by
  intro path' content' hfile
  by_cases hpath : path' = path
  · subst hpath
    rw [Function.update_self, Option.some_inj] at hfile
    exact ⟨message, Function.update_self .., hfile ▸ hcontent, hlen⟩
  · rw [Function.update_of_ne hpath] at hfile ⊢
    exact h path' content' hfile

theorem Parts.remove (h : posted.Parts k files) (path : Bytes) :
    Parts k (Function.update posted path none) (Function.update files path none) := by
  intro path' content' hfile
  by_cases hpath : path' = path
  · rw [hpath, Function.update_self] at hfile
    cases hfile
  · rw [Function.update_of_ne hpath] at hfile ⊢
    exact h path' content' hfile

/-- A send leaves a part of the frame. -/
theorem Parts.send (h : posted.Parts k files) {t : FileTransport} {message : Bytes}
    {framed : Buffer} {content : Bytes} {written : Option Nat}
    (hlen : (k.frame message).length < 2 ^ 32) (hcontent : k.Encodes message framed content) :
    Parts k (after Posted.step posted
        ((t.reaches t.writePath written).toList.map (.put · message)))
      (t.fileSend content written files).2 := by
  have hframe : content = k.frame message := hcontent.eq_of_lt hlen
  cases hpath : t.reaches t.writePath written with
  | none =>
    rw [fileSend_of_reaches_none hpath]
    exact h
  | some path =>
    cases written with
    | none => simp [reaches] at hpath
    | some written =>
      rw [fileSend_of_reaches_some hpath]
      exact h.put (hframe ▸ List.take_prefix written content) hlen

/-- What is received and decoded is what was put last, or a part of it. -/
theorem Parts.recv (h : posted.Parts k files) {t : FileTransport} {buffer buffer' output : Buffer}
    {read : Option Nat} {payload : Bytes} (hrecv : t.fileRecv buffer read files = (.ok, buffer'))
    (hdecode : k.Decodes buffer'.bytes output payload) :
    ∃ path, t.readPath = some path ∧ posted.Delivers k (.got path payload) := by
  obtain ⟨path, content, n, hpath, hfile, hbytes⟩ := fileRecv_ok hrecv
  obtain ⟨message, hposted, hpart, hlen⟩ := h path content hfile
  have hcut : buffer'.bytes <+: k.frame message := by
    rw [hbytes]
    exact ((List.take_prefix ..).trans (List.take_prefix ..)).trans hpart
  exact ⟨path, hpath, message, hposted, hdecode.isPrefix hlen hcut,
    fun hk => hdecode.eq_of_prefixed hk hlen hcut⟩

end Posted

namespace Exchange

variable [DecidableEq ι] {s s' : Exchange ι} {event : ExchangeEvent ι}
  {events : List (ExchangeEvent ι)} {entries log : List FileEntry}

/-- An event keeps the files parts of what was put, and gets only such parts. -/
theorem Step.parts (hstep : Step k s event entries s') (hframe : event.Frameable k)
    (h : posted.Parts k s.files) : Along Posted.step (Posted.Delivers k) posted entries ∧
      (after Posted.step posted entries).Parts k s'.files := by
  cases hstep with
  | setup i call => exact ⟨trivial, h⟩
  | send hencode hsend =>
    rename_i i message framed framed' written code files'
    have hfiles : ((s.node i).fileSend framed'.bytes written s.files).2 = files' := by rw [hsend]
    refine ⟨?_, hfiles ▸ h.send hframe ⟨_, hencode, rfl⟩⟩
    cases (s.node i).reaches (s.node i).writePath written with
    | none => exact trivial
    | some path => exact ⟨trivial, trivial⟩
  | unsent hencode hcode => exact ⟨trivial, h⟩
  | recv hrecv hdecode =>
    obtain ⟨path, hpath, hdelivers⟩ := h.recv hrecv ⟨_, hdecode, rfl⟩
    rw [hpath]
    exact ⟨⟨hdelivers, trivial⟩, h⟩
  | undecoded hrecv hdecode hcode => exact ⟨trivial, h⟩
  | unreceived hrecv hcode => exact ⟨trivial, h⟩
  | remove path => exact ⟨⟨trivial, trivial⟩, h.remove path⟩

theorem Run.parts (hrun : Run k s events log s') (hframe : ∀ event ∈ events, event.Frameable k)
    (h : posted.Parts k s.files) : Along Posted.step (Posted.Delivers k) posted log ∧
      (after Posted.step posted log).Parts k s'.files := by
  induction hrun generalizing posted with
  | nil s => exact ⟨trivial, h⟩
  | cons hstep hrun ih =>
    obtain ⟨hevent, hevents⟩ := List.forall_mem_cons.mp hframe
    obtain ⟨hhere, hnext⟩ := hstep.parts hevent h
    obtain ⟨hthere, hend⟩ := ih hevents hnext
    rw [after_append]
    exact ⟨along_append.mpr ⟨hhere, hthere⟩, hend⟩

/-- Whatever the nodes call in whatever order, one call at a time and with a path for each file, and
however the system cuts what they write and read: what is got at a path is a part of the message
put there last, and with a length in front it is that message. -/
theorem got_of_run {node : ι → FileTransport} (hrun : Run k (start node) events log s')
    (hframe : ∀ event ∈ events, event.Frameable k) {earlier later : List FileEntry}
    {path payload : Bytes} (hlog : log = earlier ++ .got path payload :: later) :
    ∃ message, lastPut earlier path = some message ∧ payload <+: message ∧
      (k.Prefixed → payload = message) := by
  have hnone : Posted.Parts k (fun _ => none) (start node).files := fun _ _ hfile => by cases hfile
  obtain ⟨hdelivers, -⟩ := hrun.parts hframe hnone
  rw [hlog, along_append] at hdelivers
  exact hdelivers.2.1

/-- Open transports that read and write one file. -/
def sharedBox (_ : Bool) : FileTransport := ⟨some (ascii "box"), some (ascii "box"), true⟩

/-- A message without a length in front, of which a part is written and got. -/
theorem got_of_run_cut : ∃ message, lastPut [.put (ascii "box") (ascii "Hello")] (ascii "box") =
    some message ∧ ascii "Hel" <+: message ∧ (FramerKind.raw.Prefixed → ascii "Hel" = message) := by
  let buffer := Buffer.ofBlock (List.replicate 9 0)
  let cut : Exchange Bool :=
    ⟨sharedBox, Function.update (fun _ => none) (ascii "box") (some (ascii "Hel"))⟩
  have hencode : (FramerKind.raw.module.encode (ascii "Hello") buffer).Returns
      (.ok (.ok, filled buffer (ascii "Hello"))) := returns_pure.mpr rfl
  have hdecode : (FramerKind.raw.module.decode (ascii "Hel") buffer).Returns
      (.ok (.ok, filled buffer (ascii "Hel"))) := returns_pure.mpr rfl
  have hsend : Step .raw (start sharedBox) (.send false (ascii "Hello") buffer (some 3))
      [.put (ascii "box") (ascii "Hello")] cut := .send hencode rfl
  have hreceived : (cut.node true).fileRecv buffer (some 9) cut.files =
      (.ok, filled buffer (ascii "Hel")) := rfl
  exact got_of_run (.cons hsend (.cons (.recv hreceived hdecode) (.nil _)))
    (by simp [ExchangeEvent.Frameable]; decide) rfl

end Exchange

/-! ## Registers, where nothing is cut -/

/-- The nodes over registers that hold messages, one for each path. -/
structure Registers (ι : Type*) where
  node : ι → FileTransport
  posted : Posted

namespace Registers

variable [DecidableEq ι]

/-- The nodes as they are, and no messages. -/
def start (node : ι → FileTransport) : Registers ι := ⟨node, fun _ => none⟩

/-- What happens at the paths by an event. A message without a frame is put but never got, since
its file is empty. -/
def entries (k : FramerKind) (r : Registers ι) : ExchangeEvent ι → List FileEntry
  | .setup _ _ => []
  | .send i message _ written =>
    ((r.node i).reaches (r.node i).writePath written).toList.map (.put · message)
  | .recv i _ _ read =>
    ((r.node i).reaches (r.node i).readPath read).toList.flatMap fun path =>
      ((r.posted path).filter (k.frame · ≠ [])).toList.map (.got path ·)
  | .remove path => [.removed path]

def step (k : FramerKind) (r : Registers ι) (event : ExchangeEvent ι) :
    List FileEntry × Registers ι :=
  (r.entries k event, ⟨event.nodes r.node, after Posted.step r.posted (r.entries k event)⟩)

/-- The files that hold the frames of the messages. -/
def exchange (k : FramerKind) (r : Registers ι) : Exchange ι :=
  ⟨r.node, Option.map k.frame ∘ r.posted⟩

end Registers

namespace Exchange

variable [DecidableEq ι] {s s' s₁ s₂ : Exchange ι} {event : ExchangeEvent ι}
  {events : List (ExchangeEvent ι)} {entries entries₁ entries₂ log : List FileEntry}

/-- An event that happens in two ways happens in one. -/
theorem Step.unique (h₁ : Step k s event entries₁ s₁) (h₂ : Step k s event entries₂ s₂) :
    entries₁ = entries₂ ∧ s₁ = s₂ := by
  cases h₁ with
  | setup i call =>
    cases h₂
    exact ⟨rfl, rfl⟩
  | send hencode hsend =>
    cases h₂ with
    | send hencode' hsend' =>
      cases hencode.unique hencode'
      cases hsend.symm.trans hsend'
      exact ⟨rfl, rfl⟩
    | unsent hencode' hcode =>
      cases hencode.unique hencode'
      exact absurd rfl hcode
  | unsent hencode hcode =>
    cases h₂ with
    | send hencode' hsend =>
      cases hencode.unique hencode'
      exact absurd rfl hcode
    | unsent => exact ⟨rfl, rfl⟩
  | recv hrecv hdecode =>
    cases h₂ with
    | recv hrecv' hdecode' =>
      cases hrecv.symm.trans hrecv'
      cases hdecode.unique hdecode'
      exact ⟨rfl, rfl⟩
    | undecoded hrecv' hdecode' hcode =>
      cases hrecv.symm.trans hrecv'
      cases hdecode.unique hdecode'
      exact absurd rfl hcode
    | unreceived hrecv' hcode =>
      cases hrecv.symm.trans hrecv'
      exact absurd rfl hcode
  | undecoded hrecv hdecode hcode =>
    cases h₂ with
    | recv hrecv' hdecode' =>
      cases hrecv.symm.trans hrecv'
      cases hdecode.unique hdecode'
      exact absurd rfl hcode
    | undecoded => exact ⟨rfl, rfl⟩
    | unreceived => exact ⟨rfl, rfl⟩
  | unreceived hrecv hcode =>
    cases h₂ with
    | recv hrecv' hdecode' =>
      cases hrecv.symm.trans hrecv'
      exact absurd rfl hcode
    | undecoded => exact ⟨rfl, rfl⟩
    | unreceived => exact ⟨rfl, rfl⟩
  | remove path =>
    cases h₂
    exact ⟨rfl, rfl⟩

end Exchange

/-- The frames of the messages have at most `bound` bytes. -/
def Posted.Bounded (k : FramerKind) (bound : Nat) (posted : Posted) : Prop :=
  ∀ path, ∀ message ∈ posted path, (k.frame message).length ≤ bound

theorem Posted.Bounded.update {bound : Nat} (h : posted.Bounded k bound) (path : Bytes)
    {posted' : Option Bytes} (hnew : ∀ message ∈ posted', (k.frame message).length ≤ bound) :
    Bounded k bound (Function.update posted path posted') := by
  intro path' message hmessage
  by_cases hpath : path' = path
  · subst hpath
    rw [Function.update_self] at hmessage
    exact hnew message hmessage
  · rw [Function.update_of_ne hpath] at hmessage
    exact h path' message hmessage

theorem Posted.Bounded.after {bound : Nat} (h : posted.Bounded k bound) {log : List FileEntry}
    (hput : ∀ path message, .put path message ∈ log → (k.frame message).length ≤ bound) :
    (Library.after Posted.step posted log).Bounded k bound := by
  induction log generalizing posted with
  | nil => exact h
  | cons entry log ih =>
    refine ih ?_ fun path message hmem => hput path message (List.mem_cons_of_mem _ hmem)
    cases entry with
    | put path message =>
      refine h.update path fun message' hnew => ?_
      cases hnew
      exact hput path message List.mem_cons_self
    | got path message => exact h
    | removed path => exact h.update path fun _ hnone => by cases hnone

namespace Registers

variable {r : Registers ι} {bound : Nat} {event : ExchangeEvent ι}

variable [DecidableEq ι]

end Registers

namespace Exchange

variable [DecidableEq ι] {s s' : Exchange ι} {event : ExchangeEvent ι}
  {events : List (ExchangeEvent ι)} {log : List FileEntry}

/-- A run that happens in two ways happens in one. -/
theorem Run.unique {s₁ s₂ : Exchange ι} {log₁ log₂ : List FileEntry} (h₁ : Run k s events log₁ s₁)
    (h₂ : Run k s events log₂ s₂) : log₁ = log₂ ∧ s₁ = s₂ := by
  induction h₁ generalizing log₂ with
  | nil => cases h₂; exact ⟨rfl, rfl⟩
  | cons hstep hrun ih =>
    cases h₂ with
    | cons hstep' hrun' =>
      obtain ⟨rfl, rfl⟩ := hstep.unique hstep'
      obtain ⟨rfl, rfl⟩ := ih hrun'
      exact ⟨rfl, rfl⟩

end Exchange

end Federated.Transport
