import Federated.Core
import Mathlib.Logic.Function.Basic

/-!
# The file transport

A message is the content of a file: a send writes the file anew, and a receive reads it from
the start. What the system lets a call do is handed to it: whether the file opens, and how
many bytes are written or read. It is assumed that different paths name different files, and that
nobody else opens the file of a path between the opening and the closing of it in a call, which
the source does not lock.
-/

namespace Federated.Transport

/-- The contents of the files, by path; no file has two of them. -/
abbrev Files := Bytes → Option Bytes

/-- The state of the transport, where `none` is a path that is not set. -/
structure FileTransport where
  readPath : Option Bytes
  writePath : Option Bytes
  isOpen : Bool
  deriving DecidableEq, Repr

namespace FileTransport

/-- The state as the program starts. -/
def new : FileTransport := ⟨none, none, false⟩

def setReadPath (path : Option Bytes) (t : FileTransport) : FileTransport :=
  { t with readPath := path }

def setWritePath (path : Option Bytes) (t : FileTransport) : FileTransport :=
  { t with writePath := path }

def fileOpen (t : FileTransport) : ErrorCode × FileTransport :=
  if t.readPath = none ∨ t.writePath = none then (.errIo, t) else (.ok, { t with isOpen := true })

def fileClose (t : FileTransport) : ErrorCode × FileTransport := (.ok, { t with isOpen := false })

/-- Write a message, of which some bytes are written if the file opens, from the truncation of the
file to its closing in one step. -/
def fileSend (data : Bytes) (written : Option Nat) (t : FileTransport) (files : Files) :
    ErrorCode × Files :=
  if t.isOpen = false then (.errIo, files)
  else
    match t.writePath, written with
    | some path, some written =>
      let content := data.take written
      (if content.length ≠ data.length then .errIo else .ok,
        Function.update files path (some content))
    | _, _ => (.errIo, files)

/-- Read a message, of which some bytes are read if the file is there and opens, all of them in one
step. -/
def fileRecv (data : Buffer) (read : Option Nat) (t : FileTransport) (files : Files) :
    ErrorCode × Buffer :=
  if t.isOpen = false then (.errIo, data)
  else
    match t.readPath.bind files, read with
    | some content, some read =>
      let bytes := (content.take data.size).take read
      if bytes = [] then (.errIo, data) else (.ok, filled data bytes)
    | _, _ => (.errIo, data)

end FileTransport

end Federated.Transport
