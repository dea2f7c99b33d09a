import Federated.Federation.PeerBounds
import Mathlib.Data.Nat.Digits.Defs

/-!
# Endpoints of bootstrap nodes

A bootstrap string names a host, and behind a colon a port. Every string makes a trusted peer,
also one whose host does not fit or whose port is no number.
-/

namespace Federated.Federation

/-! ## Endpoints -/

/-- The number that decimal digits stand for. -/
def numberOf (digits : Bytes) : Nat := Nat.ofDigits 10 (digits.reverse.map fun c => c.toNat - 48)

/-- A text is the decimal number of a port. -/
def IsPort (text : Bytes) (port : Nat) : Prop :=
  text ≠ [] ∧ (∀ c ∈ text, 48 ≤ c ∧ c ≤ 57) ∧ numberOf text = port ∧ port ≤ 65535

/-- A string names its part in front of the first colon and the port behind that; a string
without a colon names itself and the default port. -/
def Names (node host : Bytes) (port : Nat) : Prop :=
  58 ∉ host ∧ ((node = host ∧ port = 9050) ∨ ∃ text, node = host ++ 58 :: text ∧ IsPort text port)

/-- A peer has the endpoint that a string names, the host with its terminator inside the
array. -/
def StandsFor (node : Bytes) (peer : Peer) : Prop :=
  ∃ host port, Names node host port ∧ host ++ [0] <+: peer.address.toList ∧
    peer.port.toNat = port

/-- The strings that are stored, each with the surroundings of its pass of the loop. -/
def storedNodes (nodes : List (Option Bytes)) (around : Nat → Surroundings) :
    List (Bytes × Surroundings) :=
  ((nodes.take peerCapacity).mapIdx fun i node => (node, around i)).filterMap fun entry =>
    entry.1.map fun node => (cstr node, entry.2)

/-- Each peer that is stored has the endpoint of its string. -/
def StoresEndpoints (f : SimpleFederation) (nodes : List (Option Bytes))
    (around : Nat → Surroundings) : Prop :=
  ∃ g stored, initializeNodes (.array nodes) around f = .ok (.ok, g) ∧
    listed g = listed f ++ stored ∧
    List.Forall₂ (fun entry peer => StandsFor entry.1 peer) (storedNodes nodes around) stored

/-- A string is read as what it names: behind a host that fits comes a number up to 65535; or
there is no colon, and the string leaves room for two zeros, or for one where the last byte of
the new array is zero already. -/
def Readable (node : Bytes) (around : Surroundings) : Prop :=
  (∀ host text, node = host ++ 58 :: text → 58 ∉ host →
    host.length ≤ 255 ∧ ∃ port, IsPort text port) ∧
  (58 ∉ node → node.length ≤ 254 ∨ node.length = 255 ∧ around.address.toList[255]? = some 0)

/-! ## Numbers -/

theorem numberOf_concat (digits : Bytes) (c : UInt8) :
    numberOf (digits ++ [c]) = numberOf digits * 10 + (c.toNat - 48) := by
  rw [numberOf, List.reverse_append, List.reverse_singleton, List.singleton_append, List.map_cons,
    Nat.ofDigits_cons, numberOf]
  ring

/-- The loop of `atoi` over digits computes their number. -/
theorem foldl_digits {digits : Bytes} (h : ∀ c ∈ digits, 48 ≤ c ∧ c ≤ 57) :
    digits.foldl (fun (n : Int) c => n * 10 + (c.toNat - 48)) 0 = numberOf digits := by
  induction digits using List.reverseRecOn with
  | nil => rfl
  | append_singleton digits c ih =>
    have hc : 48 ≤ c.toNat := UInt8.le_iff_toNat_le.mp (h c (by simp)).1
    rw [List.foldl_concat, ih fun d hd => h d (by simp [hd]), numberOf_concat]
    push_cast [hc]
    ring

/-- A number of a port is read. -/
theorem atoi_of_isPort {text : Bytes} {port : Nat} (h : IsPort text port) : atoi text = port := by
  obtain ⟨hne, hdigits, rfl, hle⟩ := h
  obtain ⟨c, rest, rfl⟩ := List.exists_cons_of_ne_nil hne
  obtain ⟨hlow, hhigh⟩ := hdigits c List.mem_cons_self
  have hdrop : (c :: rest).dropWhile (fun c => c = 32 ∨ (9 ≤ c ∧ c ≤ 13)) = c :: rest := by
    rw [List.dropWhile_cons_of_neg]
    grind
  have htake : (c :: rest).takeWhile (fun c => 48 ≤ c ∧ c ≤ 57) = c :: rest := by
    rw [List.takeWhile_eq_self_iff]
    simpa using hdigits
  rw [atoi, hdrop]
  split
  · simp_all
  · simp_all
  · simp only [htake, foldl_digits hdigits]
    omega

/-! ## Addresses -/

/-- What is written stands in front of what the array held. -/
theorem toList_writeAddress (address : Vector UInt8 256) {src : Bytes} (h : src.length ≤ 256) :
    (writeAddress address src).toList = src ++ address.toList.drop src.length := by
  refine List.ext_getElem (by simp; omega) fun i hi _ => ?_
  rw [Vector.length_toList] at hi
  by_cases hsrc : i < src.length
  · simp [writeAddress, hsrc]
  · rw [List.getElem_append_right (Nat.not_lt.mp hsrc)]
    have hindex : src.length + (i - src.length) = i := by omega
    simp [writeAddress, hsrc, hindex]

/-- The address array of a new peer, which is empty in front of what it held. -/
theorem drop_writeAddress_zero (address : Vector UInt8 256) {n : Nat} (h : 0 < n) :
    (writeAddress address [0]).toList.drop n = address.toList.drop n := by
  obtain ⟨k, rfl⟩ := Nat.exists_eq_succ_of_ne_zero h.ne'
  rw [toList_writeAddress address (by simp)]
  simp

/-- A host with a colon behind it is copied with its terminator. -/
theorem prefix_address_of_colon (address : Vector UInt8 256) {host : Bytes}
    (h : host.length ≤ 255) : host ++ [0] <+: (writeAddress address (host ++ [0])).toList := by
  rw [toList_writeAddress address (by simpa using Nat.succ_le_succ h)]
  exact List.prefix_append _ _

/-- A string without a colon is copied with a terminator if it leaves room for two zeros, or
if the last byte of the array is one. -/
theorem prefix_address_iff (address : Vector UInt8 256) (node : Bytes) :
    node ++ [0] <+: (writeAddress (writeAddress address [0])
        ((node ++ List.replicate 255 0).take 255)).toList ↔
      node.length ≤ 254 ∨ node.length = 255 ∧ address.toList[255]? = some 0 := by
  have hlength : ((node ++ List.replicate 255 0).take 255).length = 255 := by
    rw [List.length_take, List.length_append, List.length_replicate]
    omega
  rw [toList_writeAddress _ (by omega), hlength, drop_writeAddress_zero _ (by omega),
    List.take_append, List.append_assoc]
  obtain hshort | hlong := Nat.lt_or_ge node.length 256
  · rw [List.take_of_length_le (by omega), List.prefix_append_right_inj, List.take_replicate]
    obtain hfits | hfull := Nat.lt_or_ge node.length 255
    · obtain ⟨k, hk⟩ : ∃ k, min (255 - node.length) 255 = k + 1 := ⟨254 - node.length, by omega⟩
      rw [hk, List.replicate_succ, List.cons_append]
      exact iff_of_true ⟨_, rfl⟩ (.inl (by omega))
    · have hnone : min (255 - node.length) 255 = 0 := by omega
      have hfull : node.length = 255 := by omega
      rw [hnone, List.replicate_zero, List.nil_append, List.singleton_prefix_iff_head?_eq_some,
        List.head?_drop, hfull]
      exact ⟨fun hzero => .inr ⟨rfl, hzero⟩, by grind⟩
  · refine iff_of_false (fun hprefix => ?_) (by omega)
    have hle := hprefix.length_le
    simp only [List.length_append, List.length_take, List.length_drop, List.length_replicate,
      List.length_singleton, Vector.length_toList] at hle
    omega

/-! ## One string -/

/-- A string has one first colon. -/
theorem colon_unique {host host' text text' : Bytes} (h : 58 ∉ host) (h' : 58 ∉ host')
    (heq : host ++ 58 :: text = host' ++ 58 :: text') : host = host' ∧ text = text' := by
  obtain rfl : host = host' := by
    rw [← Library.takeWhile_ne_append h text, heq, Library.takeWhile_ne_append h']
  exact ⟨rfl, List.cons.inj (List.append_cancel_left heq) |>.2⟩

/-- A host that does not fit leaves the address empty; the number behind it is narrowed. -/
theorem parseBootstrapNode_of_colon (address : Vector UInt8 256) {host : Bytes} (h : 58 ∉ host)
    (text : Bytes) : parseBootstrapNode address (host ++ 58 :: text) =
      if host.length < 256 then
        (writeAddress (writeAddress address [0]) (host ++ [0]), .ofInt (atoi text))
      else (writeAddress address [0], 0) := by
  have hdrop : (host ++ 58 :: text).drop (host.length + 1) = text := by
    rw [List.drop_append, List.drop_of_length_le (by omega), List.nil_append]
    simp
  simp only [parseBootstrapNode, Library.takeWhile_ne_append h text, hdrop]
  rw [if_pos (by simp)]

theorem parseBootstrapNode_of_notMem (address : Vector UInt8 256) {node : Bytes} (h : 58 ∉ node) :
    parseBootstrapNode address node =
      (writeAddress (writeAddress address [0]) ((node ++ List.replicate 255 0).take 255),
        9050) := by
  simp only [parseBootstrapNode, Library.takeWhile_ne_self h, Nat.lt_irrefl, if_false]

/-- The peer made of a string stands for it if and only if the string is readable. -/
theorem standsFor_iff {node : Bytes} {around : Surroundings} {peer : Peer}
    (h : parseBootstrapNode around.address node = (peer.address, peer.port)) :
    StandsFor node peer ↔ Readable node around := by
  by_cases hcolon : 58 ∈ node
  · obtain ⟨host, text, rfl, hhost⟩ := List.eq_append_cons_of_mem hcolon
    rw [parseBootstrapNode_of_colon _ hhost] at h
    constructor
    · rintro ⟨host', port, ⟨hhost', hnames⟩, haddress, -⟩
      rcases hnames with ⟨rfl, -⟩ | ⟨text', heq, hport⟩
      · exact absurd hcolon hhost'
      obtain ⟨rfl, rfl⟩ := colon_unique hhost hhost' heq
      refine ⟨fun host' text' heq hhost' => ?_, fun hnot => absurd hcolon hnot⟩
      obtain ⟨rfl, rfl⟩ := colon_unique hhost hhost' heq
      have hle := haddress.length_le
      rw [Vector.length_toList, List.length_append, List.length_singleton] at hle
      exact ⟨by omega, port, hport⟩
    · rintro ⟨hreadable, -⟩
      obtain ⟨hfits, port, hport⟩ := hreadable host text rfl hhost
      rw [if_pos (by omega), atoi_of_isPort hport] at h
      obtain ⟨haddress, hportEq⟩ := Prod.mk.inj h
      refine ⟨host, port, ⟨hhost, .inr ⟨text, rfl, hport⟩⟩, ?_, ?_⟩
      · rw [← haddress]
        exact prefix_address_of_colon _ hfits
      · have hle := hport.2.2.2
        rw [← hportEq, UInt16.ofInt, UInt16.toNat_ofNat']
        omega
  · rw [parseBootstrapNode_of_notMem _ hcolon] at h
    obtain ⟨haddress, hport⟩ := Prod.mk.inj h
    have hreadable : Readable node around ↔
        node.length ≤ 254 ∨ node.length = 255 ∧ around.address.toList[255]? = some 0 := by
      refine ⟨fun h => h.2 hcolon, fun h => ⟨fun host text heq => ?_, fun _ => h⟩⟩
      exact absurd (by simp [heq]) hcolon
    rw [hreadable, ← prefix_address_iff, haddress]
    constructor
    · rintro ⟨host, port, ⟨-, hnames⟩, hprefix, -⟩
      rcases hnames with ⟨rfl, -⟩ | ⟨text, rfl, -⟩
      · exact hprefix
      · exact absurd (by simp) hcolon
    · intro hprefix
      exact ⟨node, 9050, ⟨hcolon, .inl ⟨rfl, rfl⟩⟩, hprefix, by rw [← hport]; rfl⟩

/-! ## All strings -/

variable {f : SimpleFederation}

/-- A string is stored as a peer behind the other records. -/
theorem addNode_listed (h : f.peerCount < peerCapacity) (node : Bytes) (around : Surroundings) :
    ∃ g peer, addNode f (some node, around) = .ok g ∧ g.peerCount = f.peerCount + 1 ∧
      listed g = listed f ++ [peer] ∧
      parseBootstrapNode around.address (cstr node) = (peer.address, peer.port) := by
  simp only [addNode, writePeer_eq _ h, ok_bind]
  exact ⟨_, _, rfl, rfl, take_write h _, rfl⟩

/-- The loop stores a peer for each string. -/
theorem foldlM_addNode_listed (entries : List (Option Bytes × Surroundings))
    (h : f.peerCount + entries.countP (fun e => e.1.isSome) ≤ peerCapacity) :
    ∃ g stored, entries.foldlM addNode f = .ok g ∧ listed g = listed f ++ stored ∧
      List.Forall₂ (fun entry peer =>
          parseBootstrapNode entry.2.address entry.1 = (peer.address, peer.port))
        (entries.filterMap fun entry => entry.1.map fun node => (cstr node, entry.2)) stored := by
  induction entries generalizing f with
  | nil => exact ⟨f, [], rfl, by simp, .nil⟩
  | cons entry entries ih =>
    obtain ⟨node, around⟩ := entry
    cases node with
    | none => simpa [addNode] using ih (f := f) (by simpa using h)
    | some node =>
      simp only [List.countP_cons, Option.isSome_some, if_true] at h
      obtain ⟨g, peer, hg, hcount, hlist, hparse⟩ := addNode_listed (f := f) (by omega) node around
      obtain ⟨g', stored, hg', hlist', hstored⟩ := ih (f := g) (by omega)
      refine ⟨g', peer :: stored, by rw [List.foldlM_cons, hg, ok_bind, hg'], ?_, ?_⟩
      · rw [hlist', hlist, List.append_assoc, List.singleton_append]
      · simpa using ⟨hparse, hstored⟩

theorem forall₂_standsFor_iff {entries : List (Bytes × Surroundings)} {stored : List Peer}
    (h : List.Forall₂ (fun entry peer =>
      parseBootstrapNode entry.2.address entry.1 = (peer.address, peer.port)) entries stored) :
    List.Forall₂ (fun entry peer => StandsFor entry.1 peer) entries stored ↔
      ∀ entry ∈ entries, Readable entry.1 entry.2 := by
  induction h with
  | nil => simp
  | cons hparse _ ih => rw [List.forall₂_cons, List.forall_mem_cons, standsFor_iff hparse, ih]

/-- Where there is room for the strings, a peer is stored for each. -/
theorem initializeNodes_listed {nodes : List (Option Bytes)} (around : Nat → Surroundings)
    (h : f.peerCount + (BootstrapNodes.array nodes).stored ≤ peerCapacity) :
    ∃ g stored, initializeNodes (.array nodes) around f = .ok (.ok, g) ∧
      listed g = listed f ++ stored ∧
      List.Forall₂ (fun entry peer =>
          parseBootstrapNode entry.2.address entry.1 = (peer.address, peer.port))
        (storedNodes nodes around) stored := by
  obtain ⟨g, stored, hg, hlist, hstored⟩ := foldlM_addNode_listed (f := f)
    ((nodes.take peerCapacity).mapIdx fun i node => (node, around i))
    (by rwa [countP_entries])
  refine ⟨{ g with isInitialized := true }, stored, ?_, hlist, hstored⟩
  simp only [initializeNodes, hg, ok_bind]
  rfl

theorem StoresEndpoints.readable {nodes : List (Option Bytes)} {around : Nat → Surroundings}
    (h : f.peerCount + (BootstrapNodes.array nodes).stored ≤ peerCapacity)
    (hstores : StoresEndpoints f nodes around) :
    ∀ entry ∈ storedNodes nodes around, Readable entry.1 entry.2 := by
  obtain ⟨g, stored, hrun, hlist, hparse⟩ := initializeNodes_listed around h
  obtain ⟨g', stored', hrun', hlist', hstands⟩ := hstores
  obtain rfl : g = g' := by simpa using hrun.symm.trans hrun'
  obtain rfl : stored = stored' := List.append_cancel_left (hlist.symm.trans hlist')
  exact (forall₂_standsFor_iff hparse).mp hstands

/-- Where there is room for the strings, each is stored with the endpoint that it names if and
only if all of them are readable. -/
theorem storesEndpoints_iff {nodes : List (Option Bytes)} (around : Nat → Surroundings)
    (h : f.peerCount + (BootstrapNodes.array nodes).stored ≤ peerCapacity) :
    StoresEndpoints f nodes around ↔
      ∀ entry ∈ storedNodes nodes around, Readable entry.1 entry.2 := by
  refine ⟨StoresEndpoints.readable h, fun hreadable => ?_⟩
  obtain ⟨g, stored, hrun, hlist, hparse⟩ := initializeNodes_listed around h
  exact ⟨g, stored, hrun, hlist, (forall₂_standsFor_iff hparse).mpr hreadable⟩

def zeroSurroundings : Surroundings := ⟨0, Vector.replicate 256 0⟩

/-- One string in an empty table. -/
theorem storesEndpoints_iff_one :
    StoresEndpoints (.new blankPeers) [some (ascii "127.0.0.1:9050")] (fun _ => zeroSurroundings) ↔
      ∀ entry ∈ storedNodes [some (ascii "127.0.0.1:9050")] (fun _ => zeroSurroundings),
        Readable entry.1 entry.2 :=
  storesEndpoints_iff _ (by decide)

/-- The number behind the colon is too large for a port, and the peer gets port 0. -/
theorem not_storesEndpoints_large : ¬ StoresEndpoints (.new blankPeers)
    [some (ascii "10.0.0.1:65536")] (fun _ => zeroSurroundings) := by
  intro h
  have hreadable : Readable (ascii "10.0.0.1:65536") zeroSurroundings :=
    h.readable (by decide) _ (List.mem_singleton.mpr rfl)
  obtain ⟨-, port, -, -, hnumber, hle⟩ :=
    hreadable.1 (ascii "10.0.0.1") (ascii "65536") rfl (by decide)
  have hlarge : numberOf (ascii "65536") = 65536 := by decide
  omega

end Federated.Federation
