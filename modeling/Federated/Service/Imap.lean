import Federated.Service.Mail
import Federated.Service.Text

/-!
# The IMAP server

One command of a session: its state, the reply and the response buffer. A reply
is kept in its parts until it is formatted, the untagged lines in front, then the
tag, the status and the text of the completion line.
-/

namespace Federated.Service

inductive ImapState where
  | notAuth
  | auth
  | selected
  | logout
  deriving DecidableEq, Repr

structure ImapSession where
  state : ImapState
  username : CharArray 64
  selectedMailbox : CharArray 64

def ImapSession.new : ImapSession := ⟨.notAuth, .empty 64, .empty 64⟩

structure ImapCommand where
  tag : CharArray 16
  name : CharArray 16
  args : CharArray 512

/-- Split a line into a command: whether there is one, and what is written of it. -/
def parseImapCommand (line : Bytes) (cmd : ImapCommand) : Bool × ImapCommand :=
  if line.length = 0 then (false, cmd)
  else
    match token isBlank line with
    | (tag, []) => (false, { cmd with tag := .fill 16 tag })
    | (tag, _ :: rest) =>
      match token endsName rest with
      | (name, 32 :: rest) =>
        (true, ⟨.fill 16 tag, .fill 16 name, .fill 512 (token isLineEnd rest).1⟩)
      | (name, _) => (true, ⟨.fill 16 tag, .fill 16 name, .empty 512⟩)

/-! ## Replies -/

inductive Status where
  | ok
  | bad
  deriving DecidableEq, Repr

def Status.text : Status → String
  | ok => "OK"
  | bad => "BAD"

structure Reply where
  untagged : Bytes
  tag : Bytes
  status : Status
  text : String

/-- The text of a reply. -/
def Reply.format (r : Reply) : Bytes :=
  r.untagged ++ r.tag ++ ascii (" " ++ r.status.text ++ " " ++ r.text ++ "\r\n")

/-! ## Reading a command -/

inductive ImapVerb where
  | capability
  | login
  | list
  | select
  | fetch
  | logout
  | unknown
  deriving DecidableEq, Repr

/-- The command a name stands for, tried in this order. -/
def imapVerb (name : Bytes) : ImapVerb :=
  if strEq name (ascii "CAPABILITY") then .capability
  else if strEq name (ascii "LOGIN") then .login
  else if strEq name (ascii "LIST") then .list
  else if strEq name (ascii "SELECT") then .select
  else if strEq name (ascii "FETCH") then .fetch
  else if strEq name (ascii "LOGOUT") then .logout
  else .unknown

def isSpace (c : UInt8) : Bool := c = 32 ∨ (9 ≤ c ∧ c ≤ 13)

/-- Scan `%63s`: a word of at most 63 characters, and what is behind it. -/
def scanWord (s : Bytes) : Option (Bytes × Bytes) :=
  let s := s.dropWhile isSpace
  let word := (s.takeWhile fun c => ¬ isSpace c).take 63
  if word = [] then none else some (word, s.drop word.length)

/-- Scan `%63s %63s`, the arguments of LOGIN. -/
def scanLogin (args : Bytes) : Option (Bytes × Bytes) := do
  let (username, rest) ← scanWord args
  let (password, _) ← scanWord rest
  return (username, password)

/-! ## Handlers -/

def imapHandleLogin (session : ImapSession) (username _password : Bytes) (tag : Bytes) :
    ImapSession × Reply :=
  ({ session with username := .copy 64 username, state := .auth },
    ⟨[], tag, .ok, "LOGIN completed"⟩)

def imapHandleList (session : ImapSession) (tag : Bytes) : ImapSession × Reply :=
  (session, ⟨ascii ("* LIST () \"/\" INBOX\r\n" ++ "* LIST () \"/\" SENT\r\n" ++
    "* LIST () \"/\" OUTBOX\r\n" ++ "* LIST () \"/\" QUEUE\r\n"), tag, .ok, "LIST completed"⟩)

/-- What `mail_store_list` makes of a fresh array of a hundred messages. The error code is
not looked at. -/
def listMailbox (store : MailStore) (mailbox : Bytes) : List MailMessage × Nat :=
  (mailStoreList store mailbox (List.replicate 100 .new) 100).2

def imapHandleSelect (store : MailStore) (session : ImapSession) (mailbox : Bytes)
    (tag : Bytes) : ImapSession × Reply :=
  let (_, count) := listMailbox store mailbox
  ({ session with selectedMailbox := .copy 64 mailbox, state := .selected },
    ⟨ascii ("* " ++ toString count ++ " EXISTS\r\n" ++ "* 0 RECENT\r\n" ++
      "* FLAGS (\\Answered \\Flagged \\Deleted \\Seen \\Draft)\r\n"), tag, .ok,
      "[READ-WRITE] SELECT completed"⟩)

/-- The signed precision that a size is cast to; a negative one counts as absent. -/
def precisionOf (size : Nat) : Option Nat :=
  if size % 2 ^ 32 < 2 ^ 31 then some (size % 2 ^ 32) else none

/-- Format `%.*s`: the C string in a block up to the precision. Without a NUL in reach
the formatter leaves the block. -/
def formatString (precision : Option Nat) (block : Bytes) : Except Fault Bytes :=
  let s := cstr block
  match precision with
  | some p => if p ≤ block.length ∨ s.length < block.length then .ok (s.take p) else .error .read
  | none => if s.length < block.length then .ok s else .error .read

def imapHandleFetch (store : MailStore) (session : ImapSession) (_sequence _items : String)
    (tag : Bytes) : Except Fault (ImapSession × Reply) :=
  match listMailbox store session.selectedMailbox.str with
  | (_, 0) => .ok (session, ⟨[], tag, .ok, "FETCH completed"⟩)
  | (msgs, _ + 1) => do
    let body := (msgs.headD .new).body
    let text ← if body.data = [] then .ok [] else formatString (precisionOf body.size) body.data
    return (session, ⟨ascii ("* 1 FETCH (BODY[] \x7b" ++ toString body.size ++ "\x7d\r\n") ++
      text ++ ascii ")\r\n", tag, .ok, "FETCH completed"⟩)

/-! ## Processing a command -/

/-- The new session and the reply to a command. -/
def imapReply (store : MailStore) (session : ImapSession) (cmd : ImapCommand) :
    Except Fault (ImapSession × Reply) :=
  match imapVerb cmd.name.str with
  | .capability =>
    .ok (session, ⟨ascii "* CAPABILITY IMAP4rev1\r\n", cmd.tag.str, .ok, "CAPABILITY completed"⟩)
  | .login =>
    match scanLogin cmd.args.str with
    | none => .ok (session, ⟨[], cmd.tag.str, .bad, "Invalid LOGIN syntax"⟩)
    | some (username, password) => .ok (imapHandleLogin session username password cmd.tag.str)
  | .list =>
    if session.state = .notAuth then .ok (session, ⟨[], cmd.tag.str, .bad, "Not authenticated"⟩)
    else .ok (imapHandleList session cmd.tag.str)
  | .select =>
    if session.state = .notAuth then .ok (session, ⟨[], cmd.tag.str, .bad, "Not authenticated"⟩)
    else .ok (imapHandleSelect store session cmd.args.str cmd.tag.str)
  | .fetch =>
    if session.state ≠ .selected then .ok (session, ⟨[], cmd.tag.str, .bad, "No mailbox selected"⟩)
    else imapHandleFetch store session "1" "BODY[]" cmd.tag.str
  | .logout =>
    .ok ({ session with state := .logout },
      ⟨ascii "* BYE IMAP4rev1 Server logging out\r\n", cmd.tag.str, .ok, "LOGOUT completed"⟩)
  | .unknown => .ok (session, ⟨[], cmd.tag.str, .bad, "Command not recognized"⟩)

/-- Process a command: besides the code and the session, the reply and the response
buffer it is formatted into, as far as that is known. -/
def imapServerProcessCommand (store : MailStore) (session : ImapSession) (cmd : ImapCommand)
    (response : Bytes) : Except Fault (ErrorCode × ImapSession × Reply × Option Bytes) := do
  let (session, reply) ← imapReply store session cmd
  return (.ok, session, reply, snprintf response reply.format)

end Federated.Service
