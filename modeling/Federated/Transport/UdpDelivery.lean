import Federated.Transport.Udp

/-!
# Delivery of datagrams

The datagrams that were accepted are those returned, those in the queue and those
the kernel holds, in order. An empty datagram that `recvfrom` finds is taken for
none and lost, and nothing else is.
-/

namespace Federated.Transport

open Library

/-! ## What one call does -/

/-- The datagrams on their way, in order. -/
def Udp.stock (t : Udp) : List Bytes := (t.recvQueue ++ t.kernel).map Datagram.bytes

/-- The datagram a call accepts. -/
def accepted : UdpCall × UdpAnswer → List Bytes
  | (.send data _ _, .sent .ok) => [data]
  | _ => []

/-- The datagram a call returns. -/
def returned : UdpCall × UdpAnswer → List Bytes
  | (.recv _ _, .received .ok data) => [data.bytes]
  | _ => []

/-- The receive buffer of a call holds every datagram. -/
def UdpCall.Fits : UdpCall → Prop
  | .send .. => True
  | .recv data _ => maxDatagramSize ≤ data.size

/-- The datagram that `recvfrom` hands to a call. -/
def Udp.handed (t : Udp) : UdpCall → Option Bytes
  | .send data true .arrived =>
    if data.length ≤ maxDatagramSize then (t.kernel.map Datagram.bytes ++ [data]).head? else none
  | .recv _ .arrived => if t.recvQueue.isEmpty then (t.kernel.map Datagram.bytes).head? else none
  | _ => none

/-- The call is not handed an empty datagram. -/
def Udp.KeepsAll (t : Udp) (call : UdpCall) : Prop := t.handed call ≠ some []

/-- The transport is open and sends to itself. -/
structure Udp.Loops (t : Udp) : Prop where
  isOpen : t.isOpen = true
  peer : t.peer.getD t.localPort = t.localPort

variable {t : Udp} {call : UdpCall}

/-- What a call does to the stock: all of it is kept, or the datagram handed over is lost. -/
structure StepFlow (t : Udp) (call : UdpCall) : Prop where
  loops : (t.step call).2.Loops
  kept : t.KeepsAll call → Conserves Udp.step Udp.stock accepted returned t call
  lost : ¬ t.KeepsAll call →
    (returned (call, (t.step call).1)).length + (t.step call).2.stock.length <
      t.stock.length + (accepted (call, (t.step call).1)).length

/-- A call that is handed nothing has to keep everything. -/
theorem StepFlow.of_handed_none (hloops : (t.step call).2.Loops) (hnone : t.handed call = none)
    (hkept : Conserves Udp.step Udp.stock accepted returned t call) : StepFlow t call where
  loops := hloops
  kept _ := hkept
  lost hlost := by simp [Udp.KeepsAll, hnone] at hlost

/-- A call that changes nothing keeps everything. -/
theorem StepFlow.of_unchanged {answer : UdpAnswer} (h : t.Loops) (hnone : t.handed call = none)
    (hstep : t.step call = (answer, t)) (hput : accepted (call, answer) = [])
    (htake : returned (call, answer) = []) : StepFlow t call := by
  refine .of_handed_none (hstep ▸ h) hnone ?_
  simp [Conserves, hstep, hput, htake]

variable {data : Bytes}

/-- A datagram that comes late stays in the kernel behind the others. -/
theorem udpSend_late (h : t.Loops) (hfits : data.length ≤ maxDatagramSize) {arrival : Arrival}
    (hlate : arrival ≠ .arrived) : t.udpSend data true arrival =
      (.ok, { t with peer := some t.localPort, kernel := t.kernel ++ [⟨data, hfits⟩] }) := by
  have hsize : ¬ data.length > maxDatagramSize := Nat.not_lt_of_ge hfits
  simp only [Udp.udpSend, h.isOpen, h.peer, hsize, dite_false, Bool.true_eq_false, if_false,
    if_true]
  cases arrival with
  | arrived => exact absurd rfl hlate
  | late | failed => rfl

/-- A send that finds a datagram queues it, unless it is empty. -/
theorem udpSend_arrived (h : t.Loops) (hfits : data.length ≤ maxDatagramSize) {first : Datagram}
    {rest : List Datagram} (hkernel : t.kernel ++ [⟨data, hfits⟩] = first :: rest) :
    t.udpSend data true .arrived = (.ok, { t with
      peer := some t.localPort
      recvQueue := if first.bytes = [] then t.recvQueue else t.recvQueue ++ [first]
      kernel := rest }) := by
  have hsize : ¬ data.length > maxDatagramSize := Nat.not_lt_of_ge hfits
  simp only [Udp.udpSend, h.isOpen, h.peer, hsize, dite_false, Bool.true_eq_false, if_false,
    if_true, hkernel, recvfrom]
  by_cases hempty : first.bytes = [] <;> simp [hempty, List.length_pos_iff]

theorem stepFlow_send (h : t.Loops) (data : Bytes) (taken : Bool) (arrival : Arrival) :
    StepFlow t (.send data taken arrival) := by
  have hopen := h.isOpen
  by_cases hsize : data.length > maxDatagramSize
  · have hstep : t.step (.send data taken arrival) = (.sent .errFormat, t) := by
      simp [Udp.step, Udp.udpSend, hopen, hsize]
    refine .of_unchanged h ?_ hstep rfl rfl
    cases taken <;> cases arrival <;> simp [Udp.handed, Nat.not_le_of_lt hsize]
  have hfits : data.length ≤ maxDatagramSize := Nat.le_of_not_lt hsize
  cases taken with
  | false =>
    refine .of_handed_none ?_ rfl ?_
    · simpa [Udp.step, Udp.udpSend, hopen, hsize, h.peer] using ⟨rfl, rfl⟩
    · simp [Conserves, Udp.step, Udp.udpSend, hopen, hsize, accepted, returned, Udp.stock]
  | true =>
    by_cases harrival : arrival = .arrived
    · subst harrival
      obtain ⟨first, rest, hkernel⟩ : ∃ first rest, t.kernel ++ [⟨data, hfits⟩] = first :: rest :=
        List.exists_cons_of_ne_nil (by simp)
      have hsend := udpSend_arrived h hfits hkernel
      have hbytes := congrArg (List.map Datagram.bytes) hkernel
      simp only [List.map_append, List.map_cons, List.map_nil] at hbytes
      have hhanded : t.handed (.send data true .arrived) = some first.bytes := by
        simp only [Udp.handed, if_pos hfits, hbytes, List.head?_cons]
      refine ⟨?_, fun hkeeps => ?_, fun hlost => ?_⟩
      · simpa [Udp.step, hsend] using ⟨hopen, rfl⟩
      · have hne : first.bytes ≠ [] := by simpa [Udp.KeepsAll, hhanded] using hkeeps
        simp [Conserves, Udp.step, hsend, accepted, returned, Udp.stock, hne, hbytes]
      · have hempty : first.bytes = [] := by simpa [Udp.KeepsAll, hhanded] using hlost
        have hlen := congrArg List.length hbytes
        simp only [List.length_append, List.length_cons, List.length_map, List.length_nil] at hlen
        simp [Udp.step, hsend, accepted, returned, Udp.stock, hempty]
        omega
    · have hsend := udpSend_late h hfits harrival
      refine .of_handed_none ?_ ?_ ?_
      · simpa [Udp.step, hsend] using ⟨hopen, rfl⟩
      · cases arrival with
        | arrived => exact absurd rfl harrival
        | late | failed => rfl
      · simp [Conserves, Udp.step, hsend, accepted, returned, Udp.stock]

theorem stepFlow_recv (h : t.Loops) {data : Buffer} (hroom : maxDatagramSize ≤ data.size)
    (arrival : Arrival) : StepFlow t (.recv data arrival) := by
  obtain ⟨hopen, hpeer⟩ := h
  have hgive (dgram : Datagram) (t : Udp) :
      handOver dgram data t = (.ok, filled data dgram.bytes, t) := by
    rw [handOver, if_neg (Nat.not_lt_of_ge (dgram.fits.trans hroom))]
  cases hqueue : t.recvQueue with
  | cons dgram queue =>
    have hstep : t.step (.recv data arrival) =
        (.received .ok (filled data dgram.bytes), { t with recvQueue := queue }) := by
      simp [Udp.step, Udp.udpRecv, hopen, hqueue, hgive]
    refine .of_handed_none (hstep ▸ ⟨hopen, hpeer⟩) ?_ ?_
    · cases arrival <;> simp [Udp.handed, hqueue]
    · simp [Conserves, hstep, accepted, returned, Udp.stock, hqueue]
  | nil =>
    cases arrival with
    | late =>
      exact .of_unchanged ⟨hopen, hpeer⟩ rfl
        (by simp only [Udp.step, Udp.udpRecv, hopen, hqueue, recvfrom]; rfl) rfl rfl
    | failed =>
      exact .of_unchanged ⟨hopen, hpeer⟩ rfl
        (by simp only [Udp.step, Udp.udpRecv, hopen, hqueue, recvfrom]; rfl) rfl rfl
    | arrived =>
      cases hkernel : t.kernel with
      | nil =>
        exact .of_unchanged ⟨hopen, hpeer⟩ (by simp [Udp.handed, hqueue, hkernel])
          (by simp only [Udp.step, Udp.udpRecv, hopen, hqueue, hkernel, recvfrom]; rfl) rfl rfl
      | cons dgram kernel =>
        have hhanded : t.handed (.recv data .arrived) = some dgram.bytes := by
          simp [Udp.handed, hqueue, hkernel]
        refine ⟨?_, fun hkeeps => ?_, fun hlost => ?_⟩
        · by_cases hempty : dgram.bytes = [] <;>
            simpa [Udp.step, Udp.udpRecv, hopen, hqueue, hkernel, recvfrom, hempty, hgive]
              using ⟨rfl, hpeer⟩
        · have hne : dgram.bytes ≠ [] := by simpa [Udp.KeepsAll, hhanded] using hkeeps
          simp [Conserves, Udp.step, Udp.udpRecv, hopen, hqueue, hkernel, recvfrom, hne, hgive,
            accepted, returned, Udp.stock]
        · have hempty : dgram.bytes = [] := by simpa [Udp.KeepsAll, hhanded] using hlost
          simp [Udp.step, Udp.udpRecv, hopen, hqueue, hkernel, recvfrom, hempty, accepted, returned,
            Udp.stock]

theorem stepFlow (h : t.Loops) (hfits : call.Fits) : StepFlow t call := by
  cases call with
  | send data taken arrival => exact stepFlow_send h data taken arrival
  | recv data arrival => exact stepFlow_recv h hfits arrival

/-! ## Runs -/

/-- The transport just after it was opened on a port. -/
def Udp.opened (port : UInt16) : Udp := (Udp.closed.udpOpen (some port)).2

/-- The datagrams accepted in a run are those returned, those in the queue behind it and those
in the kernel, in order. -/
def Delivers (port : UInt16) (calls : List UdpCall) : Prop :=
  let run := transcript Udp.step (.opened port) calls
  let t := after Udp.step (.opened port) calls
  run.flatMap accepted =
    run.flatMap returned ++ t.recvQueue.map Datagram.bytes ++ t.kernel.map Datagram.bytes

/-- A run delivers what it accepts if and only if no call of it is handed an empty datagram. -/
theorem delivers_iff {port : UInt16} {calls : List UdpCall} (hfits : ∀ call ∈ calls, call.Fits) :
    Delivers port calls ↔ Along Udp.step Udp.KeepsAll (.opened port) calls := by
  have hflow := runConserves_iff (fun t call h hcall => (stepFlow h hcall).loops)
    (fun t call h hcall => (stepFlow h hcall).kept) (fun t call h hcall => (stepFlow h hcall).lost)
    (show (Udp.opened port).Loops from ⟨rfl, rfl⟩) hfits
  rw [← hflow, RunConserves, Udp.stock, Udp.stock, List.map_append, List.map_append,
    ← List.append_assoc]
  rfl

/-- A datagram that is not empty, and comes late. -/
theorem delivers_hello : Delivers 9050
    [.send (ascii "Hello") true .late, .recv ⟨[], maxDatagramSize⟩ .arrived] := by
  refine (delivers_iff ?_).mpr ⟨?_, ?_, trivial⟩
  · simp [UdpCall.Fits]
  · unfold Udp.KeepsAll
    decide
  · unfold Udp.KeepsAll
    decide

/-- An empty datagram is accepted and neither returned nor on its way. -/
theorem delivers_empty : ¬ Delivers 9050 [.send [] true .arrived] := by
  unfold Delivers
  decide

end Federated.Transport
