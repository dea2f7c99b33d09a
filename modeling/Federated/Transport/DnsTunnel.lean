import Federated.Core

/-!
# The DNS tunnel

Payloads are sent as the names of DNS questions, at a limited rate. A call is handed
what the outside does during it: whether there is a socket and an address, whether a
datagram is taken, what the clock reads. The clock counts milliseconds. It does not go
back, and a sleep takes no less than was asked for: a call is handed how much longer
everything takes. A division by zero ends the program, which is `none`.
-/

namespace Federated.Transport

structure DnsTunnelConfig where
  dnsServer : Bytes
  dnsPort : UInt16
  baseDomain : Bytes
  maxQps : UInt32
  minJitterMs : UInt32
  maxJitterMs : UInt32
  deriving DecidableEq, Repr

/-- The configuration as its constructor fills it in. -/
def DnsTunnelConfig.default : DnsTunnelConfig :=
  ⟨ascii "8.8.8.8", 53, ascii "tunnel.local", 5, 100, 500⟩

/-! ## Rate limiting -/

structure RateLimiter where
  lastQueryTimeMs : Nat
  maxQps : UInt32
  minJitterMs : UInt32
  maxJitterMs : UInt32
  deriving DecidableEq, Repr

def RateLimiter.new : RateLimiter := ⟨0, 5, 100, 500⟩

/-- What passes before the clock is read, how much longer than asked for the two sleeps
take, and what `rand` gives. -/
structure Pace where
  before : Nat
  waitOver : Nat
  jitterOver : Nat
  rand : UInt32
  deriving DecidableEq, Repr

/-- The delay between a query and the next one behind the wait. -/
def RateLimiter.jitter (r : RateLimiter) (rand : UInt32) : UInt32 :=
  if r.maxJitterMs > r.minJitterMs then r.minJitterMs + rand % (r.maxJitterMs - r.minJitterMs)
  else r.minJitterMs

/-- The time behind the wait, from the time at which the call reads the clock first. -/
def RateLimiter.wait (r : RateLimiter) (minIntervalMs : Nat) (pace : Pace) (now : Nat) : Nat :=
  if r.lastQueryTimeMs > 0 then
    let elapsed := now - r.lastQueryTimeMs
    if elapsed < minIntervalMs then now + (minIntervalMs - elapsed) + pace.waitOver else now
  else now

/-- Wait as long as the limit asks for, and record the time; `clock` is its last reading. -/
def RateLimiter.enforceRateLimit (pace : Pace) (clock : Nat) (r : RateLimiter) :
    Option RateLimiter :=
  if r.maxQps = 0 then none
  else
    let now := r.wait (1000 / r.maxQps).toNat pace (clock + pace.before)
    some { r with lastQueryTimeMs := now + (r.jitter pace.rand).toNat + pace.jitterOver }

/-! ## Base32 -/

def base32Alphabet : Bytes := ascii "ABCDEFGHIJKLMNOPQRSTUVWXYZ234567"

/-- The values of the characters that are written while five bits are left, and the bits
that then are. -/
def drain (buffer : BitVec 32) : Nat → List (BitVec 5) × Nat
  | bits + 5 =>
    let (values, left) := drain buffer bits
    ((buffer >>> bits).setWidth 5 :: values, left)
  | bits => ([], bits)

/-- The values of the characters for an input, from a buffer with some bits left. -/
def encodeValues (buffer : BitVec 32) (bits : Nat) : Bytes → List (BitVec 5)
  | [] => if bits > 0 then [(buffer <<< (5 - bits)).setWidth 5] else []
  | byte :: input =>
    let buffer := buffer <<< 8 ||| byte.toBitVec.setWidth 32
    let (values, bits) := drain buffer (bits + 8)
    values ++ encodeValues buffer bits input

def base32Char (value : BitVec 5) : UInt8 := base32Alphabet.getD value.toNat 0

/-- The characters for an input, or none where the output is too small for them. -/
def base32Encode (input : Bytes) (outputSize : Nat) : Bytes :=
  if input.length = 0 then []
  else if (input.length * 8 + 4) / 5 ≥ outputSize then []
  else (encodeValues 0 0 input).map base32Char

/-- The value of a character. -/
def base32Value (c : UInt8) : Option (BitVec 5) :=
  if 65 ≤ c ∧ c ≤ 90 then some ((c - 65).toBitVec.setWidth 5)
  else if 50 ≤ c ∧ c ≤ 55 then some ((26 + (c - 50)).toBitVec.setWidth 5)
  else if 97 ≤ c ∧ c ≤ 122 then some ((c - 97).toBitVec.setWidth 5)
  else none

/-- The bytes that a text decodes to, from a buffer with some bits left, as far as there is
room for them. Other characters are skipped. -/
def decodeFrom (buffer : BitVec 32) (bits room : Nat) : Bytes → Bytes
  | [] => []
  | c :: input =>
    match base32Value c with
    | none => decodeFrom buffer bits room input
    | some value =>
      let buffer := buffer <<< 5 ||| value.setWidth 32
      let bits := bits + 5
      if bits ≥ 8 then
        let bits := bits - 8
        if room > 0 then
          .ofBitVec ((buffer >>> bits).setWidth 8) :: decodeFrom buffer bits (room - 1) input
        else decodeFrom buffer bits room input
      else decodeFrom buffer bits room input

def base32Decode (input : Bytes) (outputSize : Nat) : Bytes := decodeFrom 0 0 outputSize input

/-! ## Queries -/

def maxLabelLength : Nat := 63
def maxDomainLength : Nat := 253
def dnsHeaderSize : Nat := 12
def maxDnsMessage : Nat := 512

def dot : UInt8 := 46

/-- A label behind its length. -/
def dnsLabel (label : Bytes) : Bytes := UInt8.ofNat label.length :: label

/-- The labels of a name; `label` has its characters from `label_start` on. -/
def dnsLabels (label : Bytes) : Bytes → Option Bytes
  | [] => some []
  | c :: domain =>
    if c = dot ∨ domain = [] then
      let ended := if domain = [] ∧ c ≠ dot then label ++ [c] else label
      if ended.length > maxLabelLength then none
      else (dnsLabels (if c = dot then [] else label ++ [c]) domain).map (dnsLabel ended ++ ·)
    else dnsLabels (label ++ [c]) domain

/-- The header of a query with one question. -/
def dnsHeader (transactionId : UInt16) : Bytes :=
  [(transactionId >>> 8).toUInt8, transactionId.toUInt8, 1, 0, 0, 1, 0, 0, 0, 0, 0, 0]

/-- A query for the text records of a name. -/
def buildDnsQuery (domain : Bytes) (transactionId : UInt16) (bufferSize : Nat) : Option Bytes :=
  if bufferSize < dnsHeaderSize + domain.length + 6 then none
  else (dnsLabels [] domain).map fun labels => dnsHeader transactionId ++ labels ++ [0, 0, 16, 0, 1]

/-! ## The transport -/

structure Endpoint where
  address : UInt32
  port : UInt16
  deriving DecidableEq, Repr

/-- The state of the transport with its configuration, and the last reading of the clock. -/
structure DnsTunnel where
  config : DnsTunnelConfig
  isOpen : Bool
  server : Endpoint
  transactionId : UInt16
  rateLimiter : RateLimiter
  clock : Nat
  deriving DecidableEq, Repr

/-- The state as the program starts. -/
def DnsTunnel.new (clock : Nat) : DnsTunnel := ⟨.default, false, ⟨0, 0⟩, 1, .new, clock⟩

def DnsTunnel.configure (config : DnsTunnelConfig) (t : DnsTunnel) : DnsTunnel := { t with config }

/-- Open the transport; `inetPton` reads the address of a server. -/
def DnsTunnel.dnsTunnelOpen (socket : Bool) (inetPton : Bytes → Option UInt32) (t : DnsTunnel) :
    ErrorCode × DnsTunnel :=
  if t.isOpen then (.ok, t)
  else if socket = false then (.errIo, t)
  else
    match inetPton t.config.dnsServer with
    | none => (.errIo, { t with server := ⟨0, t.config.dnsPort⟩ })
    | some address =>
      (.ok, { t with
        server := ⟨address, t.config.dnsPort⟩
        rateLimiter := { t.rateLimiter with
          maxQps := t.config.maxQps
          minJitterMs := t.config.minJitterMs
          maxJitterMs := t.config.maxJitterMs }
        isOpen := true
        transactionId := 1 })

def DnsTunnel.dnsTunnelClose (t : DnsTunnel) : ErrorCode × DnsTunnel :=
  if t.isOpen then (.ok, { t with isOpen := false }) else (.ok, t)

/-- The name that stands for a payload: its characters, and the base domain. -/
def queryName (baseDomain data : Bytes) : Option Bytes :=
  let encoded := base32Encode data 512
  if encoded = [] then none
  else
    let written := encoded ++ dot :: cstr baseDomain
    if written.length ≥ maxDomainLength then none else some written

/-- Send a payload: the code, the datagram that is handed to the kernel for the server, and
the state. -/
def DnsTunnel.dnsTunnelSend (data : Bytes) (pace : Pace) (taken : Bool) (t : DnsTunnel) :
    Option (ErrorCode × Option (Endpoint × Bytes) × DnsTunnel) :=
  if t.isOpen = false then some (.errIo, none, t)
  else if data.length = 0 ∨ data.length > 200 then some (.errFormat, none, t)
  else do
    let rateLimiter ← t.rateLimiter.enforceRateLimit pace t.clock
    let t := { t with rateLimiter, clock := rateLimiter.lastQueryTimeMs }
    match queryName t.config.baseDomain data with
    | none => return (.errFormat, none, t)
    | some domain =>
      let query := buildDnsQuery domain t.transactionId maxDnsMessage
      let t := { t with transactionId := t.transactionId + 1 }
      match query with
      | none => return (.errFormat, none, t)
      | some query => return (if taken then .ok else .errIo, some (t.server, query), t)

/-- Receive a response of some length, if one arrived. Nothing of it is handed over. -/
def DnsTunnel.dnsTunnelRecv (data : Buffer) (received : Option Nat) (t : DnsTunnel) :
    ErrorCode × Buffer :=
  if t.isOpen = false then (.errIo, data)
  else
    match received with
    | none => (.errTimeout, data)
    | some received =>
      if received < dnsHeaderSize then (.errFormat, data) else (.ok, { data with size := 0 })

end Federated.Transport
