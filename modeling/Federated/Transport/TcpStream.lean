import Federated.Transport.Tcp

/-!
# What the TCP transport delivers

The bytes delivered, queued and in flight are those the kernel took, in order: the
transport is a stream. Where a message ends depends on what comes in time. Messages
come out as they were sent as long as no call leaves bytes in flight behind it.
-/

namespace Federated.Transport.Tcp

open Library

/-! ## Loops -/

theorem sendLoop_spec (data : Bytes) (answers : List WriteAnswer) (n : Nat) :
    (sendLoop data n answers).1 = .ok → data.length ≤ (sendLoop data n answers).2 := by
  induction answers generalizing n with
  | nil =>
    unfold sendLoop
    split <;> simp_all
  | cons answer answers ih =>
    unfold sendLoop
    split
    · exact fun _ => ‹_›
    · cases answer with
      | took m => exact ih _
      | blocked writable => cases writable with
        | true => exact ih _
        | false => exact fun h => nomatch h
      | failed => exact fun h => nomatch h

/-- The reads of a call do not fail. -/
def ReadPass.Reliable (pass : ReadPass) : Prop := pass.read ≠ .failed

theorem exists_receiveLoop {size : Nat} {received inFlight : Bytes} {passes : List ReadPass}
    (h : ∀ pass ∈ passes, pass.Reliable) :
    ∃ bytes rest, receiveLoop size received inFlight passes = (.ok bytes, rest) := by
  induction passes generalizing received inFlight with
  | nil => exact ⟨received, inFlight, rfl⟩
  | cons pass passes ih =>
    obtain ⟨hpass, hpasses⟩ := List.forall_mem_cons.mp h
    simp only [receiveLoop]
    split
    · exact ⟨received, inFlight, rfl⟩
    · split
      · exact ⟨received, inFlight, rfl⟩
      · cases hread : pass.read with
        | blocked => exact ⟨received, inFlight, rfl⟩
        | failed => exact absurd hread hpass
        | got n =>
          simp only
          split
          · exact ⟨received, inFlight, rfl⟩
          · exact ih hpasses

/-! ## What one call does -/

/-- The transport is open, and nothing is in flight before its ends are connected. -/
structure TcpState.Open (t : TcpState) : Prop where
  isOpen : t.isOpen = true
  unconnected : t.connectionEstablished = false → t.inFlight = []

variable {t t' : TcpState} {code : ErrorCode}

/-- Connecting the ends changes neither the queue nor what is in flight. -/
theorem ensureConnection_open (h : t.Open) {connects : Bool}
    (hconnect : ensureConnection connects t = (code, t')) : t'.Open ∧
      t'.recvQueue = t.recvQueue ∧ t'.inFlight = t.inFlight ∧
        (code = .ok → t'.connectionEstablished = true) := by
  unfold ensureConnection at hconnect
  split at hconnect
  · obtain ⟨rfl, rfl⟩ : ErrorCode.ok = code ∧ t = t' := by simpa using hconnect
    exact ⟨h, rfl, rfl, fun _ => ‹_›⟩
  · rename_i hconn
    have hempty := h.unconnected (by simpa using hconn)
    split at hconnect
    · obtain ⟨rfl, rfl⟩ : ErrorCode.errIo = code ∧ t = t' := by simpa using hconnect
      exact ⟨h, rfl, rfl, nofun⟩
    · split at hconnect
      · obtain ⟨rfl, rfl⟩ : ErrorCode.ok = code ∧ _ = t' := by simpa using hconnect
        exact ⟨⟨h.isOpen, nofun⟩, rfl, hempty.symm, fun _ => rfl⟩
      · obtain ⟨rfl, rfl⟩ : ErrorCode.errIo = code ∧ t = t' := by simpa using hconnect
        exact ⟨h, rfl, rfl, nofun⟩

/-- The ways a send can go: the kernel took a part of the data and nothing came out, or it
took all of it and some bytes came out at the other end. -/
inductive Sent (t : TcpState) (data : Bytes) : ErrorCode → Nat → TcpState → Prop
  | failed {code : ErrorCode} {totalSent : Nat} {t' : TcpState} (hcode : code ≠ .ok)
      (hqueue : t'.recvQueue = t.recvQueue)
      (hflight : t'.inFlight = t.inFlight ++ data.take totalSent) : Sent t data code totalSent t'
  | sent {totalSent : Nat} {t' : TcpState} (received : Bytes) (hall : data.length ≤ totalSent)
      (hbytes : received ++ t'.inFlight = t.inFlight ++ data)
      (hqueue : t'.recvQueue.map Message.bytes =
        t.recvQueue.map Message.bytes ++ if received = [] then [] else [received]) :
      Sent t data .ok totalSent t'

theorem tcpSend_sent (data : Bytes) {kernel : SendAnswers} (h : t.Open)
    (hreads : ∀ pass ∈ kernel.reads, pass.Reliable) :
    (tcpSend data kernel t).2.2.Open ∧
      Sent t data (tcpSend data kernel t).1 (tcpSend data kernel t).2.1
        (tcpSend data kernel t).2.2 := by
  have hisOpen : ¬ t.isOpen = false := by simp [h.isOpen]
  unfold tcpSend
  rw [if_neg hisOpen]
  split
  · exact ⟨h, .failed nofun rfl (by simp)⟩
  · split
    · rename_i t₁ hconnect
      obtain ⟨hopen, hqueue, hflight, hconnected⟩ := ensureConnection_open h hconnect
      have hkeep (inFlight : Bytes) (queue : List Message) :
          TcpState.Open { t₁ with inFlight := inFlight, recvQueue := queue } :=
        ⟨hopen.isOpen, fun hno => absurd (hconnected rfl) (by simpa using hno)⟩
      have hall := sendLoop_spec data kernel.writes 0
      generalize sendLoop data 0 kernel.writes = sent at hall ⊢
      obtain ⟨code, totalSent⟩ := sent
      dsimp only
      split
      · rename_i hcode
        exact ⟨hkeep _ _, .failed hcode hqueue (by rw [hflight])⟩
      · rename_i hcode
        have hall : data.length ≤ totalSent := hall (by simpa using hcode)
        split
        · exact ⟨hkeep _ _, .failed nofun hqueue (by rw [hflight])⟩
        · split
          · rename_i hloop
            obtain ⟨bytes, rest, hok⟩ := exists_receiveLoop hreads
            cases hok.symm.trans hloop
          · rename_i received inFlight hloop
            obtain ⟨hbytes, -⟩ := receiveLoop_ok hloop
            rw [List.nil_append, hflight, List.take_of_length_le hall] at hbytes
            split
            · rename_i hnone
              exact ⟨hkeep _ _, .sent received hall hbytes (by simp [hqueue, hnone])⟩
            · rename_i hsome
              exact ⟨hkeep _ _, .sent received hall hbytes (by simp [hqueue, hsome])⟩
    · rename_i hfail hconnect
      obtain ⟨hopen, hqueue, hflight, -⟩ := ensureConnection_open h hconnect
      exact ⟨hopen, .failed hfail hqueue (by simpa using hflight)⟩

/-- A receive takes the message in front of the queue, if it returns one. -/
theorem tcpRecv_spec (h : t.Open) {buffer : Buffer} (hroom : maxMessageSize ≤ buffer.size)
    (connects : Bool) :
    (tcpRecv buffer connects t).2.2.Open ∧
      (tcpRecv buffer connects t).2.2.inFlight = t.inFlight ∧
      t.recvQueue.map Message.bytes =
        (if (tcpRecv buffer connects t).1 = .ok then [(tcpRecv buffer connects t).2.1.bytes]
          else []) ++ (tcpRecv buffer connects t).2.2.recvQueue.map Message.bytes := by
  have hisOpen : ¬ t.isOpen = false := by simp [h.isOpen]
  unfold tcpRecv
  rw [if_neg hisOpen]
  split
  · rename_i t₁ hconnect
    obtain ⟨hopen, hqueue, hflight, -⟩ := ensureConnection_open h hconnect
    split
    · exact ⟨hopen, hflight, by simp [← hqueue]⟩
    · rename_i msg queue hcons
      have hfits : ¬ msg.bytes.length > buffer.size := Nat.not_lt_of_ge (msg.fits.trans hroom)
      rw [if_neg hfits]
      exact ⟨⟨hopen.isOpen, hopen.unconnected⟩, hflight, by simp [← hqueue, hcons]⟩
  · rename_i hfail hconnect
    obtain ⟨hopen, hqueue, hflight, -⟩ := ensureConnection_open h hconnect
    exact ⟨hopen, hflight, by simp [← hqueue, show _ ≠ ErrorCode.ok from hfail]⟩

/-! ## Bytes -/

/-- The bytes that the kernel took in a call. -/
def handed : TcpCall × TcpAnswer → Bytes
  | (.send data _, .sent _ totalSent) => data.take totalSent
  | _ => []

/-- The bytes that a call delivers. -/
def delivered : TcpCall × TcpAnswer → Bytes
  | (.recv _ _, .received .ok data) => data.bytes
  | _ => []

@[simp] theorem delivered_received (buffer out : Buffer) (connects : Bool) (code : ErrorCode) :
    delivered (.recv buffer connects, .received code out) =
      if code = .ok then out.bytes else [] := by
  cases code <;> rfl

/-- The bytes on their way, in order. -/
def TcpState.bytes (t : TcpState) : Bytes := t.recvQueue.flatMap Message.bytes ++ t.inFlight

/-- The stream does not break, and the receive buffer of a call holds every message. -/
def TcpCall.Fits : TcpCall → Prop
  | .send _ kernel => ∀ pass ∈ kernel.reads, pass.Reliable
  | .recv data _ => maxMessageSize ≤ data.size

variable {call : TcpCall}

theorem step_open (h : t.Open) (hfits : call.Fits) : (step t call).2.Open := by
  cases call with
  | send data kernel => exact (tcpSend_sent data h hfits).1
  | recv data connects => exact (tcpRecv_spec h hfits connects).1

theorem conserves_bytes (h : t.Open) (hfits : call.Fits) :
    Conserves step TcpState.bytes handed delivered t call := by
  cases call with
  | send data kernel =>
    obtain ⟨-, hsent⟩ := tcpSend_sent data h hfits
    simp only [Conserves, step, handed, delivered, TcpState.bytes, List.nil_append]
    generalize tcpSend data kernel t = result at hsent ⊢
    obtain ⟨code, totalSent, t'⟩ := result
    cases hsent with
    | failed _ hqueue hflight => rw [hqueue, hflight, List.append_assoc]
    | sent received hall hbytes hqueue =>
      have hqueued : t'.recvQueue.flatMap Message.bytes =
          t.recvQueue.flatMap Message.bytes ++ received := by
        rw [List.flatMap_def, hqueue, List.flatMap_def]
        by_cases hnone : received = [] <;> simp [hnone]
      simp only [hqueued, List.take_of_length_le hall, List.append_assoc, hbytes]
  | recv buffer connects =>
    obtain ⟨-, hflight, hqueue⟩ := tcpRecv_spec h hfits connects
    simp only [Conserves, step, handed, delivered_received, TcpState.bytes, List.append_nil,
      hflight, List.flatMap_def, hqueue]
    split <;> simp

/-- The kernel took all of the data if the send is answered OK. -/
def TakesAll : TcpCall × TcpAnswer → Prop
  | (.send data _, .sent .ok totalSent) => data.take totalSent = data
  | _ => True

theorem takesAll (h : t.Open) (hfits : call.Fits) : TakesAll (call, (step t call).1) := by
  cases call with
  | send data kernel =>
    obtain ⟨-, hsent⟩ := tcpSend_sent data h hfits
    simp only [step]
    generalize tcpSend data kernel t = result at hsent ⊢
    obtain ⟨code, totalSent, t'⟩ := result
    dsimp only at hsent ⊢
    cases hsent with
    | failed hcode _ _ => cases code <;> first | exact trivial | exact absurd rfl hcode
    | sent received hall _ _ => exact List.take_of_length_le hall
  | recv buffer connects => trivial

/-! ## Messages -/

/-- The message that a call accepts, unless it is empty. -/
def accepted : TcpCall × TcpAnswer → List Bytes
  | (.send data _, .sent .ok _) => if data = [] then [] else [data]
  | _ => []

/-- The message that a call returns. -/
def returned : TcpCall × TcpAnswer → List Bytes
  | (.recv _ _, .received .ok data) => [data.bytes]
  | _ => []

def TcpState.messages (t : TcpState) : List Bytes := t.recvQueue.map Message.bytes

@[simp] theorem accepted_sent (data : Bytes) (kernel : SendAnswers) (code : ErrorCode) (n : Nat) :
    accepted (.send data kernel, .sent code n) =
      if code = .ok ∧ data ≠ [] then [data] else [] := by
  cases code <;> simp [accepted]

@[simp] theorem returned_received (buffer out : Buffer) (connects : Bool) (code : ErrorCode) :
    returned (.recv buffer connects, .received code out) =
      if code = .ok then [out.bytes] else [] := by
  cases code <;> rfl

/-- The call leaves nothing in flight. -/
def LeavesNothing (t : TcpState) (call : TcpCall) : Prop := (step t call).2.inFlight = []

theorem conserves_messages (h : t.Open) (hempty : t.inFlight = []) (hfits : call.Fits)
    (hleaves : LeavesNothing t call) :
    Conserves step TcpState.messages accepted returned t call := by
  cases call with
  | send data kernel =>
    obtain ⟨-, hsent⟩ := tcpSend_sent data h hfits
    simp only [LeavesNothing, Conserves, step, accepted_sent, returned, TcpState.messages,
      List.nil_append] at hleaves ⊢
    generalize tcpSend data kernel t = result at hsent hleaves ⊢
    obtain ⟨code, totalSent, t'⟩ := result
    dsimp only at hsent hleaves ⊢
    cases hsent with
    | failed hcode hqueue _ => simp [hcode, hqueue]
    | sent received hall hbytes hqueue =>
      obtain rfl : received = data := by simpa [hempty, hleaves] using hbytes
      by_cases hnone : received = [] <;> simp [hqueue, hnone]
  | recv buffer connects =>
    obtain ⟨-, -, hqueue⟩ := tcpRecv_spec h hfits connects
    simp only [Conserves, step, accepted, returned_received, TcpState.messages, List.append_nil]
    exact hqueue

/-! ## Runs -/

/-- The transport just after it was opened. -/
def TcpState.opened : TcpState := (tcpOpen true .closed).2

theorem opened_open : TcpState.opened.Open := ⟨rfl, fun _ => rfl⟩

/-- The bytes delivered in a run, those queued and those in flight behind it are the bytes the
kernel took, in order, which are all of a message whose send is answered OK. If no call leaves
bytes in flight, the messages returned and queued are those of the sends answered OK, in order. -/
theorem tcp_stream {calls : List TcpCall} (hfits : ∀ call ∈ calls, call.Fits) :
    let run := transcript step .opened calls
    let t := after step .opened calls
    run.flatMap handed = run.flatMap delivered ++ t.recvQueue.flatMap Message.bytes ++ t.inFlight ∧
    (∀ e ∈ run, TakesAll e) ∧
    (Along step LeavesNothing .opened calls →
      run.flatMap accepted = run.flatMap returned ++ t.recvQueue.map Message.bytes) := by
  intro run t
  have hopen (t : TcpState) (call : TcpCall) (h : t.Open) (hcall : call.Fits) :
      (step t call).2.Open := step_open h hcall
  have htakes (t : TcpState) (call : TcpCall) (h : t.Open) (hcall : call.Fits) :
      TakesAll (call, (step t call).1) := takesAll h hcall
  refine ⟨?_, forall_mem_transcript hopen htakes opened_open hfits, fun hleaves => ?_⟩
  · have kept (t : TcpState) (call : TcpCall) (h : t.Open) (hcall : call.Fits) :
        Conserves step TcpState.bytes handed delivered t call := conserves_bytes h hcall
    rw [List.append_assoc]
    exact runConserves_of_along _ _ hopen kept opened_open (along_of_forall hfits)
  · have next (t : TcpState) (call : TcpCall) (h : t.Open ∧ t.inFlight = [])
        (hcall : LeavesNothing t call ∧ call.Fits) :
        (step t call).2.Open ∧ (step t call).2.inFlight = [] :=
      ⟨step_open h.1 hcall.2, hcall.1⟩
    have kept (t : TcpState) (call : TcpCall) (h : t.Open ∧ t.inFlight = [])
        (hcall : LeavesNothing t call ∧ call.Fits) :
        Conserves step TcpState.messages accepted returned t call :=
      conserves_messages h.1 h.2 hcall.2 hcall.1
    exact runConserves_of_along _ _ next kept ⟨opened_open, rfl⟩
      (hleaves.and (along_of_forall hfits))

/-- The message of a send that is answered OK comes out in two parts, with the next one. -/
theorem tcp_splits :
    let calls := [.send (ascii "Hi") ⟨true, [.took 2], true, [⟨true, .got 1⟩]⟩,
      .recv ⟨[], maxMessageSize⟩ true]
    (∀ call ∈ calls, call.Fits) ∧
      ¬ ((transcript step .opened calls).flatMap returned).Sublist
        ((transcript step .opened calls).flatMap accepted) := by
  refine ⟨?_, by decide⟩
  simp [TcpCall.Fits, ReadPass.Reliable]

/-- The same calls, when all of the message comes at once. -/
theorem tcp_stream_whole :
    let calls := [.send (ascii "Hi") ⟨true, [.took 2], true, [⟨true, .got 2⟩]⟩,
      .recv ⟨[], maxMessageSize⟩ true]
    (transcript step .opened calls).flatMap accepted =
      (transcript step .opened calls).flatMap returned ++ [] := by
  intro calls
  have hfits : ∀ call ∈ calls, call.Fits := by
    simp [calls, TcpCall.Fits, ReadPass.Reliable]
  exact (tcp_stream hfits).2.2 ⟨rfl, rfl, trivial⟩

end Federated.Transport.Tcp
