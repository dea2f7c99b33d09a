import Federated.Service.Text

/-!
# The SMTP server

One command of a session: its state, the addresses it keeps, the reply and the
response buffer. There is one array for the sender and one for the recipient.
-/

namespace Federated.Service

inductive SmtpState where
  | init
  | greeted
  | mail
  | rcpt
  | data
  | recvBody
  | done
  | error
  deriving DecidableEq, Repr

structure SmtpSession where
  state : SmtpState
  mailFrom : CharArray 256
  rcptTo : CharArray 256

def SmtpSession.new : SmtpSession := ⟨.init, .empty 256, .empty 256⟩

structure SmtpCommand where
  cmd : CharArray 16
  arg : CharArray 512

/-! ## Replies -/

structure SmtpReply where
  code : Nat
  text : String
  deriving DecidableEq, Repr

/-- The text of a reply. -/
def SmtpReply.format (r : SmtpReply) : Bytes := ascii (toString r.code ++ " " ++ r.text ++ "\r\n")

/-! ## Reading a command -/

/-- Split a line into a command: whether there is one, and what is written of it. -/
def parseSmtpCommand (line : Bytes) (cmd : SmtpCommand) : Bool × SmtpCommand :=
  if line.length = 0 then (false, cmd)
  else
    match token endsName line with
    | (name, 32 :: rest) => (true, ⟨.fill 16 name, .fill 512 (token isLineEnd rest).1⟩)
    | (name, rest) => (true, ⟨.fill 16 name, .fill 512 (token isLineEnd rest).1⟩)

inductive SmtpVerb where
  | helo
  | mail
  | rcpt
  | data
  | quit
  | rset
  | unknown
  deriving DecidableEq, Repr

/-- The command a name stands for, tried in this order. -/
def smtpVerb (name : Bytes) : SmtpVerb :=
  if strEq name (ascii "HELO") || strEq name (ascii "EHLO") then .helo
  else if strEq name (ascii "MAIL") then .mail
  else if strEq name (ascii "RCPT") then .rcpt
  else if strEq name (ascii "DATA") then .data
  else if strEq name (ascii "QUIT") then .quit
  else if strEq name (ascii "RSET") then .rset
  else .unknown

def SmtpCommand.verb (c : SmtpCommand) : SmtpVerb := smtpVerb c.cmd.str

/-- What is between the first `<` and the first `>` behind it, else all of the text. -/
def emailOf (input : Bytes) : Bytes :=
  match input.findIdx? (· = 60), input.findIdx? (· = 62) with
  | some start, some stop =>
    if stop > start then (input.drop (start + 1)).take (stop - (start + 1)) else input
  | _, _ => input

/-- The address, as much of it as the array holds. -/
def extractEmail (input : Bytes) (outputSize : Nat) : CharArray outputSize :=
  .fill outputSize (emailOf input)

/-! ## Processing a command -/

def badSequence : SmtpReply := ⟨503, "Bad sequence of commands"⟩

/-- The new session and the reply to a command. -/
def smtpReply (session : SmtpSession) (cmd : SmtpCommand) : SmtpSession × SmtpReply :=
  match cmd.verb with
  | .helo =>
    if session.state ≠ .init then (session, badSequence)
    else ({ session with state := .greeted }, ⟨250, "Hello"⟩)
  | .mail =>
    if session.state ≠ .greeted ∧ session.state ≠ .done then (session, badSequence)
    else
      ({ session with mailFrom := extractEmail cmd.arg.str 256, state := .mail }, ⟨250, "OK"⟩)
  | .rcpt =>
    if session.state ≠ .mail ∧ session.state ≠ .rcpt then (session, badSequence)
    else ({ session with rcptTo := extractEmail cmd.arg.str 256, state := .rcpt }, ⟨250, "OK"⟩)
  | .data =>
    if session.state ≠ .rcpt then (session, badSequence)
    else
      ({ session with state := .data }, ⟨354, "Start mail input; end with <CRLF>.<CRLF>"⟩)
  | .quit => ({ session with state := .done }, ⟨221, "Bye"⟩)
  | .rset =>
    ({ session with state := .greeted, mailFrom := .empty 256, rcptTo := .empty 256 }, ⟨250, "OK"⟩)
  | .unknown => (session, ⟨500, "Command not recognized"⟩)

/-- Process a command: besides the code and the session, the reply and the response
buffer it is formatted into, as far as that is known. -/
def smtpServerProcessCommand (session : SmtpSession) (cmd : SmtpCommand) (response : Bytes) :
    ErrorCode × SmtpSession × SmtpReply × Option Bytes :=
  let (session, reply) := smtpReply session cmd
  (.ok, session, reply, snprintf response reply.format)

/-! ## Runs -/

/-- A command, with the response buffer handed over. -/
structure SmtpCall where
  command : SmtpCommand
  response : Bytes

def SmtpCall.verb (c : SmtpCall) : SmtpVerb := c.command.verb

/-- The address a command names. -/
def SmtpCall.address (c : SmtpCall) : Bytes := emailOf c.command.arg.str

def SmtpSession.step (session : SmtpSession) (call : SmtpCall) : SmtpReply × SmtpSession :=
  let (_, session, reply, _) := smtpServerProcessCommand session call.command call.response
  (reply, session)

end Federated.Service
