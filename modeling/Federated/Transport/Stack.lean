import Federated.Transport.Loopback
import Federated.Crypto.Cipher
import Federated.Framer.RoundTrip
import Federated.Library.Fifo

/-!
# The full stack over the loopback

A message is encrypted, framed and sent; what is received is decoded and
decrypted. A run is any order of such sends and receives, every call of which
returns OK. The stack then is a queue of messages.
-/

namespace Federated.Transport

open Library Crypto Framer

structure Stack where
  cipher : Cipher
  framer : FramerKind

/-- A buffer as the caller hands it over, with room for any message of the transport. -/
structure FreshBuffer extends Buffer where
  roomy : maxMessageSize ≤ size

/-- A send or a receive, with the buffers that its calls fill. -/
inductive Event where
  | send (message : Bytes) (encrypted framed : FreshBuffer)
  | recv (received decoded decrypted : FreshBuffer)

namespace Stack

/-- The framed ciphertext of a message. -/
def framed (s : Stack) (message : Bytes) : Bytes := s.framer.frame (s.cipher.ciphertext message)

/-- An event all of whose calls return OK, with the message it hands to the receiver. -/
inductive Step (s : Stack) : Loopback → Event → List Bytes → Loopback → Prop
  | send {t t' : Loopback} {message : Bytes} {encrypted framed : FreshBuffer}
      {encrypted' framed' : Buffer}
      (hencrypt : s.cipher.module.encrypt message s.cipher.key encrypted.toBuffer =
        .ok (.ok, encrypted'))
      (hencode : (s.framer.module.encode encrypted'.bytes framed.toBuffer).Returns
        (.ok (.ok, framed')))
      (hsend : loopbackSend framed'.bytes t = (.ok, t')) :
      Step s t (.send message encrypted framed) [] t'
  | recv {t t' : Loopback} {received decoded decrypted : FreshBuffer}
      {received' decoded' decrypted' : Buffer}
      (hrecv : loopbackRecv received.toBuffer t = (.ok, received', t'))
      (hdecode : (s.framer.module.decode received'.bytes decoded.toBuffer).Returns
        (.ok (.ok, decoded')))
      (hdecrypt : s.cipher.module.decrypt decoded'.bytes s.cipher.key decrypted.toBuffer =
        .ok (.ok, decrypted')) :
      Step s t (.recv received decoded decrypted) [decrypted'.bytes] t'

/-- A sequence of events all of whose calls return OK, with the messages received. -/
inductive Run (s : Stack) : Loopback → List Event → List Bytes → Loopback → Prop
  | nil (t : Loopback) : Run s t [] [] t
  | cons {t t₁ t₂ : Loopback} {event : Event} {events : List Event} {got rest : List Bytes}
      (hstep : Step s t event got t₁) (hrun : Run s t₁ events rest t₂) :
      Run s t (event :: events) (got ++ rest) t₂

end Stack

/-! ## The queue of messages behind a run -/

/-- What an event does to the queue of messages. -/
def Event.toQueue : Event → QueueEvent Bytes
  | send message _ _ => .push message
  | recv _ _ _ => .pop

/-- The messages sent, in order. -/
def sent (events : List Event) : List Bytes := QueueEvent.pushed (events.map Event.toQueue)

/-- The number of receives. -/
def receives (events : List Event) : Nat := QueueEvent.pops (events.map Event.toQueue)

/-- A receive comes only when a message is queued. -/
def NeverEmpty (events : List Event) : Prop := QueueEvent.Balanced 0 (events.map Event.toQueue)

namespace Stack

variable (s : Stack)

/-- The open transport holds the framed ciphertexts of `messages`. -/
structure Holds (t : Loopback) (messages : List Bytes) : Prop where
  isOpen : t.isOpen = true
  queue : t.queue.map Message.bytes = messages.map s.framed

variable {s} {t : Loopback} {message : Bytes} {messages : List Bytes}

theorem length_ciphertext_le_framed (s : Stack) (message : Bytes) :
    (s.cipher.ciphertext message).length ≤ (s.framed message).length :=
  length_le_frame s.framer _

theorem holds_open (t : Loopback) : s.Holds (loopbackOpen t).2 [] := ⟨rfl, rfl⟩

/-- A send whose framed ciphertext the transport takes puts the message in. -/
theorem Holds.send (h : s.Holds t messages) (hfits : (s.framed message).length ≤ maxMessageSize)
    (encrypted framed : FreshBuffer) : ∃ t', s.Step t (.send message encrypted framed) [] t' ∧
      s.Holds t' (messages ++ [message]) := by
  have hcipher := (s.length_ciphertext_le_framed message).trans hfits
  obtain ⟨encrypted', hencrypt, hbytes⟩ :=
    s.cipher.encrypt_ok (hcipher.trans encrypted.roomy)
  have hlen : (s.framed message).length < 2 ^ 32 := by
    rw [maxMessageSize] at hfits
    omega
  obtain ⟨framed', hencode, hframed⟩ :=
    FramerKind.encode_returns hlen (hfits.trans framed.roomy)
  have hfits' : ¬ framed'.bytes.length > maxMessageSize := by
    rw [hframed]
    exact Nat.not_lt.mpr hfits
  have hsend : loopbackSend framed'.bytes t = (.ok,
      { t with queue := t.queue ++ [⟨framed'.bytes, Nat.le_of_not_lt hfits'⟩] }) := by
    rw [loopbackSend, if_neg (by simp [h.isOpen]), dif_neg hfits']
  refine ⟨_, .send hencrypt (by rwa [hbytes]) hsend, h.isOpen, ?_⟩
  simp [h.queue, hframed, Stack.framed]

/-- A receive hands out the message at the front. -/
theorem Holds.recv (h : s.Holds t (message :: messages))
    (received decoded decrypted : FreshBuffer) :
    ∃ t', s.Step t (.recv received decoded decrypted) [message] t' ∧ s.Holds t' messages := by
  have hqueue := h.queue
  cases hq : t.queue with
  | nil => simp [hq] at hqueue
  | cons msg queue =>
    rw [hq, List.map_cons, List.map_cons, List.cons.injEq] at hqueue
    obtain ⟨hmsg, hrest⟩ := hqueue
    have hfits : (s.framed message).length ≤ maxMessageSize := hmsg ▸ msg.fits
    have hcipher := (s.length_ciphertext_le_framed message).trans hfits
    have hlen : (s.framed message).length < 2 ^ 32 := by
      rw [maxMessageSize] at hfits
      omega
    have hrecv : loopbackRecv received.toBuffer t =
        (.ok, filled received.toBuffer msg.bytes, { t with queue }) := by
      have hroom : ¬ msg.bytes.length > received.size :=
        Nat.not_lt.mpr (msg.fits.trans received.roomy)
      simp [loopbackRecv, h.isOpen, hq, hroom]
    obtain ⟨decoded', hdecode, hdecoded⟩ :=
      FramerKind.decode_returns hlen (hcipher.trans decoded.roomy)
    obtain ⟨decrypted', hdecrypt, hdecrypted⟩ :=
      s.cipher.decrypt_ok (hcipher.trans decrypted.roomy)
    have hstep : s.Step t (.recv received decoded decrypted) [decrypted'.bytes] { t with queue } :=
      .recv hrecv (by rwa [bytes_filled, hmsg]) (by rwa [hdecoded])
    rw [hdecrypted] at hstep
    exact ⟨_, hstep, h.isOpen, hrest⟩

/-- The stack refines a queue of messages. -/
theorem Holds.run {events : List Event} {out rest : List Bytes} (h : s.Holds t messages)
    (hfits : ∀ m ∈ sent events, (s.framed m).length ≤ maxMessageSize)
    (hqueue : QueueEvent.runQueue messages (events.map Event.toQueue) = some (out, rest)) :
    ∃ t', s.Run t events out t' ∧ s.Holds t' rest := by
  induction events generalizing t messages out with
  | nil =>
    obtain ⟨rfl, rfl⟩ : [] = out ∧ messages = rest := by
      simpa [QueueEvent.runQueue] using hqueue
    exact ⟨t, .nil t, h⟩
  | cons event events ih =>
    cases event with
    | send message encrypted framed =>
      have hfits : ∀ m ∈ message :: sent events, (s.framed m).length ≤ maxMessageSize := hfits
      obtain ⟨t₁, hstep, h₁⟩ := h.send (hfits message (by simp)) encrypted framed
      obtain ⟨t₂, hrun, h₂⟩ := ih h₁ (fun m hm => hfits m (by simp [hm])) hqueue
      exact ⟨t₂, .cons hstep hrun, h₂⟩
    | recv received decoded decrypted =>
      cases messages with
      | nil => simp [QueueEvent.runQueue, Event.toQueue] at hqueue
      | cons message messages =>
        simp only [List.map_cons, Event.toQueue, QueueEvent.runQueue, Option.map_eq_some_iff,
          Prod.mk.injEq] at hqueue
        obtain ⟨⟨out', rest'⟩, hqueue, rfl, rfl⟩ := hqueue
        obtain ⟨t₁, hstep, h₁⟩ := h.recv received decoded decrypted
        obtain ⟨t₂, hrun, h₂⟩ := ih h₁ hfits hqueue
        exact ⟨t₂, .cons hstep hrun, h₂⟩

/-- In any order of sends and receives on the opened transport in which no receive meets
an empty queue, every call returns OK and what is received is what was sent, in order. -/
theorem run_in_order (s : Stack) (t : Loopback) (events : List Event)
    (hfits : ∀ m ∈ sent events, (s.framed m).length ≤ maxMessageSize)
    (hnever : NeverEmpty events) : ∃ received t', s.Run (loopbackOpen t).2 events received t' ∧
      received.length = receives events ∧
      ∀ i, (hi : i < received.length) → (sent events)[i]? = some received[i] := by
  have hnever : QueueEvent.Balanced ([] : List Bytes).length (events.map Event.toQueue) := hnever
  obtain ⟨out, rest, hrun, horder, hcount⟩ := QueueEvent.exists_runQueue hnever
  obtain ⟨t', hstack, -⟩ := (s.holds_open t).run hfits hrun
  refine ⟨out, t', hstack, hcount, ?_⟩
  intro i hi
  have hsent : sent events = out ++ rest := horder.symm
  rw [hsent, List.getElem?_append_left hi, List.getElem?_eq_getElem hi]

/-- A buffer of zeros. -/
def zeroBuffer : FreshBuffer := ⟨.ofBlock (List.replicate maxMessageSize 0), by simp⟩

/-- Two messages under a repeating key, the second one empty, and received between and after. -/
theorem run_in_order_twoMessages :
    let s : Stack := ⟨.xorStream [0x42] (by decide) (by decide), .lengthPrefix⟩
    let send message := Event.send message zeroBuffer zeroBuffer
    let recv := Event.recv zeroBuffer zeroBuffer zeroBuffer
    let events := [send (ascii "First secure message"), recv, send [], recv]
    ∃ received t', s.Run (loopbackOpen ⟨false, []⟩).2 events received t' ∧ received.length = 2 ∧
      ∀ i, (hi : i < received.length) →
        [ascii "First secure message", []][i]? = some received[i] :=
  run_in_order ⟨.xorStream [0x42] (by decide) (by decide), .lengthPrefix⟩ ⟨false, []⟩
    [.send (ascii "First secure message") zeroBuffer zeroBuffer,
      .recv zeroBuffer zeroBuffer zeroBuffer, .send [] zeroBuffer zeroBuffer,
      .recv zeroBuffer zeroBuffer zeroBuffer]
    (by decide) (by simp [NeverEmpty, Event.toQueue, QueueEvent.Balanced])

end Stack

end Federated.Transport
