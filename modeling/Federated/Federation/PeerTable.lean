import Federated.Core

/-!
# The peer table of the federation

A block of a hundred records and the number of those in use, the four operations
that change it and the one that copies it. A write behind a block is a `Fault`.
-/

namespace Federated.Federation

def peerCapacity : Nat := 100

structure Peer where
  peerId : UInt32
  address : Vector UInt8 256
  port : UInt16
  lastSeen : UInt64
  latencyMs : UInt32
  capabilities : UInt8
  isTrusted : Bool

structure SimpleFederation where
  peerList : Vector Peer peerCapacity
  peerCount : Nat
  isInitialized : Bool
  nextPeerId : UInt32

/-- The empty table on a fresh block. -/
def SimpleFederation.new (peerList : Vector Peer peerCapacity) : SimpleFederation :=
  ⟨peerList, 0, false, 1⟩

abbrev PeerList := Vector Peer peerCapacity

def readPeer (peerList : PeerList) (i : Nat) : Except Fault Peer :=
  if h : i < peerCapacity then .ok peerList[i] else .error .read

def writePeer (peerList : PeerList) (i : Nat) (peer : Peer) : Except Fault PeerList :=
  if h : i < peerCapacity then .ok (peerList.set i peer) else .error .write

/-! ## Bootstrap nodes -/

/-- The decimal number at the start of a text (`atoi`), as a long integer saturates it. -/
def atoi (s : Bytes) : Int :=
  let s := s.dropWhile fun c => c = 32 ∨ (9 ≤ c ∧ c ≤ 13)
  let digits (s : Bytes) : Int :=
    (s.takeWhile fun c => 48 ≤ c ∧ c ≤ 57).foldl (fun n c => n * 10 + (c.toNat - 48)) 0
  match s with
  | 45 :: s => max (-digits s) (-2 ^ 63)
  | 43 :: s => min (digits s) (2 ^ 63 - 1)
  | s => min (digits s) (2 ^ 63 - 1)

/-- Write bytes at the front of an address. -/
def writeAddress (address : Vector UInt8 256) (src : Bytes) : Vector UInt8 256 :=
  Vector.ofFn fun i => src.getD i address[i]

/-- The address and the port of a bootstrap node, on an address array that is empty in front
of whatever it held before. -/
def parseBootstrapNode (address : Vector UInt8 256) (node : Bytes) : Vector UInt8 256 × UInt16 :=
  let address := writeAddress address [0]
  let host := node.takeWhile (· ≠ 58)
  if host.length < node.length then
    if host.length < 256 then
      (writeAddress address (host ++ [0]), UInt16.ofInt (atoi (node.drop (host.length + 1))))
    else (address, 0)
  -- `strncpy` fills up with zeros but for the last character.
  else (writeAddress address ((host ++ List.replicate 255 0).take 255), 9050)

/-- The bootstrap nodes handed over: a null pointer with a count, or an array of C strings
some of which may be null. -/
inductive BootstrapNodes where
  | null (nodeCount : Nat)
  | array (nodes : List (Option Bytes))

/-- What the loop over them finds around it: the time and the bytes a new address array holds. -/
structure Surroundings where
  now : UInt64
  address : Vector UInt8 256

def relayDirectory : UInt8 := 0x01 ||| 0x08

/-- One pass of the loop over the bootstrap nodes. -/
def addNode (f : SimpleFederation) (entry : Option Bytes × Surroundings) :
    Except Fault SimpleFederation :=
  match entry with
  | (none, _) => .ok f
  | (some node, around) => do
    let (address, port) := parseBootstrapNode around.address (cstr node)
    let peer := ⟨f.nextPeerId, address, port, around.now, 0, relayDirectory, true⟩
    let peerList ← writePeer f.peerList f.peerCount peer
    return { f with
      peerList := peerList
      peerCount := f.peerCount + 1
      nextPeerId := f.nextPeerId + 1 }

/-! ## Operations -/

/-- The bootstrap nodes are stored, with the surroundings of each pass of its loop. -/
def initializeNodes (nodes : BootstrapNodes) (around : Nat → Surroundings) (f : SimpleFederation) :
    Except Fault (ErrorCode × SimpleFederation) :=
  match nodes with
  | .null nodeCount =>
    if nodeCount > 0 then .ok (.errInvalidArg, f) else .ok (.ok, { f with isInitialized := true })
  | .array nodes => do
    let entries := (nodes.take peerCapacity).mapIdx fun i node => (node, around i)
    let f ← entries.foldlM addNode f
    return (.ok, { f with isInitialized := true })

/-- The first record in use with an identifier. -/
def findPeer (f : SimpleFederation) (peerId : UInt32) : Option Nat :=
  (f.peerList.toList.take f.peerCount).findIdx? fun p => p.peerId = peerId

def addPeer (peer : Peer) (f : SimpleFederation) : Except Fault (ErrorCode × SimpleFederation) :=
  if f.peerCount ≥ peerCapacity then .ok (.errOutOfMemory, f)
  else
    match findPeer f peer.peerId with
    | some i => do
      let peerList ← writePeer f.peerList i peer
      return (.ok, { f with peerList := peerList })
    | none => do
      let peerList ← writePeer f.peerList f.peerCount peer
      return (.ok, { f with peerList := peerList, peerCount := f.peerCount + 1 })

/-- Move a record one place to the front. -/
def shiftPeer (peerList : PeerList) (j : Nat) : Except Fault PeerList := do
  let peer ← readPeer peerList (j + 1)
  writePeer peerList j peer

def removePeer (peerId : UInt32) (f : SimpleFederation) :
    Except Fault (ErrorCode × SimpleFederation) :=
  match findPeer f peerId with
  | some i => do
    let peerList ← (List.range' i (f.peerCount - 1 - i)).foldlM shiftPeer f.peerList
    return (.ok, { f with peerList := peerList, peerCount := f.peerCount - 1 })
  | none => .ok (.errNotFound, f)

def clearPeers (f : SimpleFederation) : ErrorCode × SimpleFederation :=
  (.ok, { f with peerCount := 0, isInitialized := false })

/-! ## Copies -/

/-- One pass of the loop that copies the records in use: the caller's array, and how many of
its entries were written. -/
def copyPeer (f : SimpleFederation) (maxPeers : Nat) (copied : List Peer × Nat) (i : Nat) :
    Except Fault (List Peer × Nat) :=
  let (peers, count) := copied
  if count < maxPeers then do
    let peer ← readPeer f.peerList i
    if count < peers.length then .ok (peers.set count peer, count + 1) else .error .write
  else .ok (peers, count)

/-- Copy at most `maxPeers` of the records in use into an array, and their number behind
`peerCountOut`; either pointer may be null. -/
def getPeers (peers : Option (List Peer)) (peerCountOut : Option Nat) (maxPeers : Nat)
    (f : SimpleFederation) : Except Fault (ErrorCode × Option (List Peer) × Option Nat) :=
  match peers, peerCountOut with
  | some peers, some _ => do
    let (peers, count) ← (List.range f.peerCount).foldlM (copyPeer f maxPeers) (peers, 0)
    return (.ok, some peers, some count)
  | peers, peerCountOut => .ok (.errInvalidArg, peers, peerCountOut)

/-- The known peers are the ones that are discovered, once the federation is initialized. -/
def discoverPeers (peers : Option (List Peer)) (peerCountOut : Option Nat) (maxPeers : Nat)
    (f : SimpleFederation) : Except Fault (ErrorCode × Option (List Peer) × Option Nat) :=
  match peers, peerCountOut with
  | some peers, some peerCountOut =>
    if f.isInitialized = false then .ok (.errNotInitialized, some peers, some peerCountOut)
    else do
      let (peers, count) ← (List.range f.peerCount).foldlM (copyPeer f maxPeers) (peers, 0)
      return (.ok, some peers, some count)
  | peers, peerCountOut => .ok (.errInvalidArg, peers, peerCountOut)

/-! ## The node -/

/-- What a node says of itself. -/
structure NodeInfo where
  address : Vector UInt8 256
  port : UInt16
  capabilities : UInt8
  version : Vector UInt8 32

/-- The federation with the information of its own node. -/
structure FederationNode where
  table : SimpleFederation
  localNodeInfo : NodeInfo

def registerNode (info : NodeInfo) (node : FederationNode) : ErrorCode × FederationNode :=
  (.ok, { node with localNodeInfo := info })

/-! ## Messages -/

/-- Nothing is sent yet. -/
def sendToPeer (_peer : Peer) (message : Buffer) : ErrorCode :=
  if message.size = 0 then .errInvalidArg else .ok

/-- Send a message to all known peers: the code, and what sending it to each of them gave, which
is not looked at. -/
def broadcast (message : Buffer) (f : SimpleFederation) :
    Except Fault (ErrorCode × List (Peer × ErrorCode)) :=
  if message.size = 0 then .ok (.errInvalidArg, [])
  else do
    let sent ← (List.range f.peerCount).mapM fun i => do
      let peer ← readPeer f.peerList i
      return (peer, sendToPeer peer message)
    return (.ok, sent)

end Federated.Federation
