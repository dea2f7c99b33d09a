import Federated.Library.Machine
import Federated.Library.Slots
import Federated.Onion.Onion

/-!
# The circuit table of the onion router

The router allocates its circuits on the heap and points to them from a table of
sixteen slots, next to which it counts those that are taken. Where an allocation
lies is decided elsewhere, so the address is handed to the call that makes it.
-/

namespace Federated.Onion

open Crypto Library

def circuitCapacity : Nat := 16

/-- Where something lies on the heap; the null pointer is no address. -/
abbrev Address := Nat

structure SimpleOnionRouter where
  activeCircuits : List (Option Address)
  sized : activeCircuits.length = circuitCapacity
  circuitCount : Nat
  nextCircuitId : UInt32
  heap : List (Address × Circuit)

namespace SimpleOnionRouter

def new : SimpleOnionRouter :=
  ⟨List.replicate circuitCapacity none, List.length_replicate, 0, 1, []⟩

/-- The circuits that are allocated: created, and not destroyed yet. -/
def live (router : SimpleOnionRouter) : List Address := router.heap.map Prod.fst

/-- The circuit at an address. -/
def circuitAt (router : SimpleOnionRouter) (a : Address) : Option Circuit :=
  (router.heap.find? fun e => e.1 = a).map Prod.snd

/-- Give the memory of a circuit back. -/
def delete (a : Address) (router : SimpleOnionRouter) : SimpleOnionRouter :=
  { router with heap := router.heap.filter fun e => e.1 ≠ a }

/-- Create a circuit through the given hops; behind `outCircuit` goes the pointer to it. Either
pointer may be null. -/
def createCircuit (hops : Option (List Node)) (outCircuit : Option (Option Address))
    (allocated : Address) (router : SimpleOnionRouter) :
    ErrorCode × Option (Option Address) × SimpleOnionRouter :=
  match hops, outCircuit with
  | some hops, some _ =>
    if hops.length = 0 then (.errInvalidArg, outCircuit, router)
    else if hops.length > 10 then (.errInvalidArg, outCircuit, router)
    else if router.circuitCount ≥ circuitCapacity then (.errOutOfMemory, outCircuit, router)
    else
      let circuit : Circuit := ⟨router.nextCircuitId, hops, hops.map fun _ => chacha20Crypto, true⟩
      let router := { router with
        nextCircuitId := router.nextCircuitId + 1
        heap := router.heap ++ [(allocated, circuit)] }
      match router.activeCircuits.findIdx? (·.isNone) with
      | some i =>
        (.ok, some (some allocated), { router with
          activeCircuits := router.activeCircuits.set i (some allocated)
          sized := List.length_set.trans router.sized
          circuitCount := router.circuitCount + 1 })
      | none => (.errOutOfMemory, outCircuit, router.delete allocated)
  | _, _ => (.errInvalidArg, outCircuit, router)

/-- Take a circuit out of the first slot that points to it. -/
def release (a : Address) (router : SimpleOnionRouter) : SimpleOnionRouter :=
  match router.activeCircuits.findIdx? (· = some a) with
  | some i => { router with
      activeCircuits := router.activeCircuits.set i none
      sized := List.length_set.trans router.sized
      circuitCount := router.circuitCount - 1 }
  | none => router

/-- Destroy the circuit behind a pointer, which may be null but not dangling. -/
def destroyCircuit (circuit : Option Address) (router : SimpleOnionRouter) :
    Except Fault (ErrorCode × SimpleOnionRouter) :=
  match circuit with
  | none => .ok (.errInvalidArg, router)
  | some a =>
    if a ∈ router.live then .ok (.ok, (router.release a).delete a) else .error .read

/-! ## Runs -/

/-- A call, with what it is handed over and where it allocates. -/
inductive CircuitCall where
  | create (hops : Option (List Node)) (outCircuit : Option (Option Address)) (allocated : Address)
  | destroy (circuit : Option Address)

/-- What a call gives back. -/
inductive CircuitAnswer where
  | created (code : ErrorCode) (outCircuit : Option (Option Address))
  | destroyed (code : ErrorCode)
  | fault (fault : Fault)

def step (router : SimpleOnionRouter) : CircuitCall → CircuitAnswer × SimpleOnionRouter
  | .create hops outCircuit allocated =>
    let (code, outCircuit, router) := router.createCircuit hops outCircuit allocated
    (.created code outCircuit, router)
  | .destroy circuit =>
    match router.destroyCircuit circuit with
    | .ok (code, router) => (.destroyed code, router)
    | .error fault => (.fault fault, router)

/-- Memory that is allocated was free, and a circuit that is destroyed is live. -/
def Fits (router : SimpleOnionRouter) : CircuitCall → Prop
  | .create _ _ allocated => allocated ∉ router.live
  | .destroy circuit => ∀ a ∈ circuit, a ∈ router.live

end SimpleOnionRouter

end Federated.Onion
