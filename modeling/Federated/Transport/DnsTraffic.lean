import Federated.Transport.DnsQuery
import Federated.Transport.DnsMessage
import Federated.Transport.RateLimit
import Federated.Library.Machine

/-!
# What passes through the DNS tunnel

The first label of a question holds a payload, whatever the base domain is at that moment: a
server that decodes it gets the accepted payloads in order. The transaction identifiers count
the questions of an opening, so that none comes back before all others were used.
-/

namespace Federated.Transport.DnsTraffic

open Library

/-! ## Runs -/

/-- A change of the configuration, or a call on the transport. -/
inductive TunnelCall where
  | configure (config : DnsTunnelConfig)
  | on (call : DnsTunnelCall)

inductive TunnelAnswer where
  | configured
  | returned (code : ErrorCode)
  | sent (code : ErrorCode) (query : Option (Endpoint × Bytes))
  | received (code : ErrorCode) (data : Buffer)

/-- The answer to a call, unless it divides by zero. -/
def answer (t : DnsTunnel) : TunnelCall → Option (TunnelAnswer × DnsTunnel)
  | .configure config => some (.configured, t.configure config)
  | .on (.tunnelOpen socket inetPton) =>
    some (.returned (t.dnsTunnelOpen socket inetPton).1, (t.dnsTunnelOpen socket inetPton).2)
  | .on .tunnelClose => some (.returned t.dnsTunnelClose.1, t.dnsTunnelClose.2)
  | .on (.tunnelSend data pace taken) =>
    (t.dnsTunnelSend data pace taken).map fun sent => (.sent sent.1 sent.2.1, sent.2.2)
  | .on (.tunnelRecv data received) =>
    some (.received (t.dnsTunnelRecv data received).1 (t.dnsTunnelRecv data received).2, t)

/-- The process with the transport, which a division by zero ends. -/
def step : Option DnsTunnel → TunnelCall → Option TunnelAnswer × Option DnsTunnel := mayEnd answer

/-- The question that a call hands to the kernel. -/
def asked : TunnelCall × Option TunnelAnswer → Option Bytes
  | (_, some (.sent _ query)) => query.map Prod.snd
  | _ => none

/-- The question that reaches the wire. -/
def onWire : TunnelCall × Option TunnelAnswer → Option Bytes
  | (.on (.tunnelSend _ _ true), some (.sent _ query)) => query.map Prod.snd
  | _ => none

/-- The payload of a call that was answered with success. -/
def accepted : TunnelCall × Option TunnelAnswer → Option Bytes
  | (.on (.tunnelSend data _ _), some (.sent .ok _)) => some data
  | _ => none

/-! ## Reading a question -/

def queryId (query : Bytes) : UInt16 :=
  (query.getD 0 0).toUInt16 <<< 8 ||| (query.getD 1 0).toUInt16

/-- What the first label of a question decodes to. -/
def readPayload (query : Bytes) : Option Bytes :=
  (questionLabels query).bind fun labels => labels.head?.map (base32Decode · 200)

theorem queryId_dnsMessage (transactionId : UInt16) (labels : List Bytes) :
    queryId (dnsMessage transactionId labels) = transactionId := by
  have hbytes : queryId (dnsMessage transactionId labels) =
      (transactionId >>> 8).toUInt8.toUInt16 <<< 8 ||| transactionId.toUInt8.toUInt16 := rfl
  have hlt := UInt16.toNat_lt transactionId
  have hhigh : (transactionId >>> 8).toUInt8.toUInt16.toNat = transactionId.toNat / 256 := by
    simp [Nat.shiftRight_eq_div_pow]
    omega
  have hlow : transactionId.toUInt8.toUInt16.toNat = transactionId.toNat % 256 := by simp
  have hshift : (transactionId.toNat / 256) <<< 8 % 65536 = (transactionId.toNat / 256) <<< 8 := by
    rw [Nat.shiftLeft_eq]
    omega
  have hsum : (transactionId.toNat / 256) <<< 8 ||| transactionId.toNat % 256 =
      transactionId.toNat := by
    rw [← Nat.shiftLeft_add_eq_or_of_lt (by omega), Nat.shiftLeft_eq]
    omega
  rw [hbytes, ← UInt16.toNat_inj, UInt16.toNat_or, UInt16.toNat_shiftLeft, hhigh, hlow]
  simpa [hshift] using hsum

/-- Labels of any length, the empty ones included, are read up to some empty one. -/
theorem exists_readName {labels : List Bytes}
    (h : ∀ label ∈ labels, label.length ≤ maxLabelLength) (rest : Bytes) :
    ∃ name, readName (labels.flatMap dnsLabel ++ 0 :: rest) = some name := by
  induction labels with
  | nil => exact ⟨_, readName_zero rest⟩
  | cons label labels ih =>
    obtain ⟨hlabel, hlabels⟩ := List.forall_mem_cons.mp h
    obtain ⟨name, hname⟩ := ih hlabels
    rw [List.flatMap_cons, List.append_assoc]
    rcases List.eq_nil_or_concat label with rfl | hne
    · exact ⟨_, readName_zero _⟩
    · refine ⟨(label :: name.1, name.2), ?_⟩
      rw [readName_dnsLabel (by grind) hlabel, hname, Option.map_some]

/-- A question whose first label stands for a payload is read as the payload. -/
theorem readPayload_dnsMessage {data front : Bytes} {labels : List Bytes} {transactionId : UInt16}
    (hne : front ≠ []) (h : ∀ label ∈ front :: labels, label.length ≤ maxLabelLength)
    (hdecode : base32Decode front 200 = data) :
    readPayload (dnsMessage transactionId (front :: labels)) = some data := by
  obtain ⟨hfront, hlabels⟩ := List.forall_mem_cons.mp h
  obtain ⟨name, hname⟩ := exists_readName hlabels [0, 16, 0, 1]
  have hquestion : questionLabels (dnsMessage transactionId (front :: labels)) =
      some (front :: name.1) := by
    rw [questionLabels, dnsMessage, ← length_dnsHeader transactionId, List.append_assoc,
      List.drop_left, List.flatMap_cons, List.append_assoc,
      readName_dnsLabel (List.length_pos_iff.mpr hne) hfront, hname, Option.map_some,
      Option.map_some]
  rw [readPayload, hquestion, Option.bind_some, List.head?_cons, Option.map_some, hdecode]

/-! ## One call -/

variable {t t' : DnsTunnel} {data : Bytes} {pace : Pace} {taken : Bool} {code : ErrorCode}
  {query : Option (Endpoint × Bytes)}

/-- The question that is built for a payload, with any base domain, is read as the payload. -/
theorem readPayload_buildDnsQuery {base domain message : Bytes} {transactionId : UInt16}
    (hpos : 0 < data.length) (hsize : data.length ≤ 200) (hname : queryName base data = some domain)
    (hbuilt : buildDnsQuery domain transactionId maxDnsMessage = some message) :
    readPayload message = some data ∧ queryId message = transactionId := by
  obtain ⟨hshort, hlong, hdecode⟩ := encodeValues_payload data
  have hdecode := hdecode _ (filterMap_base32Char _) 200 hsize
  set encoded := (encodeValues 0 0 data).map base32Char with hencoded
  have hne : encoded ≠ [] := by
    rw [hencoded, ne_eq, List.map_eq_nil_iff, ← List.length_eq_zero_iff]
    omega
  have hdot : dot ∉ encoded := by
    rw [hencoded, List.mem_map]
    rintro ⟨value, -, hvalue⟩
    exact (base32Char_ne value).1 hvalue
  have hdomain : encoded ++ dot :: cstr base = domain := by
    rw [queryName, base32Encode_payload hpos hsize, ← hencoded, if_neg hne] at hname
    grind
  rw [buildDnsQuery_eq] at hbuilt
  split_ifs at hbuilt with hfits
  obtain ⟨-, hlabels⟩ := not_or.mp hfits
  have hlabels : ∀ label ∈ labelsOf domain, label.length ≤ maxLabelLength := by
    intro label hlabel
    by_contra hlabel'
    exact hlabels ⟨label, hlabel, by omega⟩
  rw [← hdomain, labelsOf_append_dot hdot] at hlabels hbuilt
  cases hbuilt
  exact ⟨readPayload_dnsMessage hne hlabels hdecode, queryId_dnsMessage _ _⟩

/-- What a call to send makes of the transport and hands to the kernel. -/
inductive Sends (t : DnsTunnel) (data : Bytes) (taken : Bool) :
    ErrorCode → Option (Endpoint × Bytes) → UInt16 → Prop
  | refused {code : ErrorCode} {transactionId : UInt16} (hcode : code ≠ .ok)
      (hid : transactionId = t.transactionId ∨ transactionId = t.transactionId + 1) :
      Sends t data taken code none transactionId
  | asks {message : Bytes} (hopen : t.isOpen = true) (hread : readPayload message = some data)
      (hid : queryId message = t.transactionId) :
      Sends t data taken (if taken then .ok else .errIo) (some (t.server, message))
        (t.transactionId + 1)

theorem sends_of_dnsTunnelSend (h : t.dnsTunnelSend data pace taken = some (code, query, t')) :
    Sends t data taken code query t'.transactionId ∧ t'.isOpen = t.isOpen := by
  rw [DnsTunnel.dnsTunnelSend] at h
  by_cases hclosed : t.isOpen = false
  · rw [if_pos hclosed] at h
    cases h
    exact ⟨.refused (by decide) (.inl rfl), rfl⟩
  rw [if_neg hclosed] at h
  by_cases hsize : data.length = 0 ∨ data.length > 200
  · rw [if_pos hsize] at h
    cases h
    exact ⟨.refused (by decide) (.inl rfl), rfl⟩
  rw [if_neg hsize] at h
  cases hlimit : t.rateLimiter.enforceRateLimit pace t.clock with
  | none => simp [hlimit] at h
  | some rateLimiter =>
    cases hname : queryName t.config.baseDomain data with
    | none =>
      simp only [hlimit, hname, Option.bind_eq_bind, Option.bind_some, Option.pure_def] at h
      cases h
      exact ⟨.refused (by decide) (.inl rfl), rfl⟩
    | some domain =>
      cases hbuilt : buildDnsQuery domain t.transactionId maxDnsMessage with
      | none =>
        simp only [hlimit, hname, hbuilt, Option.bind_eq_bind, Option.bind_some,
          Option.pure_def] at h
        cases h
        exact ⟨.refused (by decide) (.inr rfl), rfl⟩
      | some message =>
        simp only [hlimit, hname, hbuilt, Option.bind_eq_bind, Option.bind_some,
          Option.pure_def] at h
        cases h
        obtain ⟨hread, hid⟩ := readPayload_buildDnsQuery (by omega) (by omega) hname hbuilt
        exact ⟨.asks (by simpa using hclosed) hread hid, rfl⟩

/-- A call to send that ends the process, or returns. -/
theorem step_tunnelSend (t : DnsTunnel) (data : Bytes) (pace : Pace) (taken : Bool) :
    step (some t) (.on (.tunnelSend data pace taken)) = (none, none) ∨
      ∃ code query t', step (some t) (.on (.tunnelSend data pace taken)) =
        (some (.sent code query), some t') ∧
          Sends t data taken code query t'.transactionId ∧ t'.isOpen = t.isOpen := by
  cases hsent : t.dnsTunnelSend data pace taken with
  | none => exact .inl (mayEnd_of_none (by simp [answer, hsent]))
  | some sent =>
    obtain ⟨code, query, t'⟩ := sent
    exact .inr ⟨code, query, t', mayEnd_of_some (by simp [answer, hsent]),
      sends_of_dnsTunnelSend hsent⟩

/-- A server reads the payload of a call from the question on the wire, and there is one just
if the call was answered with success. -/
theorem map_onWire (t : Option DnsTunnel) (call : TunnelCall) :
    (onWire (call, (step t call).1)).map readPayload =
      (accepted (call, (step t call).1)).map some := by
  rcases t with _ | t
  · rcases call with config | call
    · rfl
    · cases call with
      | tunnelSend data pace taken => cases taken <;> rfl
      | _ => rfl
  · rcases call with config | call
    · rfl
    · cases call with
      | tunnelSend data pace taken =>
        rcases step_tunnelSend t data pace taken with hended | ⟨code, query, t', hsent, hsends, -⟩
        · rw [hended]
          cases taken <;> rfl
        · rw [hsent]
          generalize t'.transactionId = next at hsends
          cases hsends with
          | refused hcode => cases taken <;> cases code <;> first | rfl | exact absurd rfl hcode
          | asks hopen hread hid => cases taken <;> simp [onWire, accepted, hread]
      | _ => rfl

/-! ## Identifiers -/

/-- Behind a question the transport stays open until it is closed, with an identifier that has
been counted on. -/
def CountedOn (transactionId : UInt16) (n : Nat) (t : Option DnsTunnel) : Prop :=
  ∀ t' ∈ t, t'.isOpen = true ∧
    ∃ k, 0 < k ∧ k ≤ n ∧ t'.transactionId = transactionId + UInt16.ofNat k

theorem CountedOn.step {transactionId : UInt16} {n : Nat} {t : Option DnsTunnel}
    (h : CountedOn transactionId n t) {call : TunnelCall} (hclose : call ≠ .on .tunnelClose) :
    CountedOn transactionId (n + 1) (step t call).2 := by
  rcases t with _ | t
  · intro t' ht'
    simp [DnsTraffic.step, mayEnd] at ht'
  obtain ⟨hopen, k, hpos, hle, hid⟩ := h t rfl
  have hstays : CountedOn transactionId (n + 1) (some t) := by
    intro t' ht'
    cases ht'
    exact ⟨hopen, k, hpos, by omega, hid⟩
  rcases call with config | call
  · intro t' ht'
    cases ht'
    exact ⟨hopen, k, hpos, by omega, hid⟩
  · cases call with
    | tunnelOpen socket inetPton =>
      have hsame : (DnsTraffic.step (some t) (.on (.tunnelOpen socket inetPton))).2 = some t := by
        simp [DnsTraffic.step, mayEnd, answer, DnsTunnel.dnsTunnelOpen, hopen]
      rwa [hsame]
    | tunnelClose => exact absurd rfl hclose
    | tunnelSend data pace taken =>
      rcases step_tunnelSend t data pace taken with
        hended | ⟨code, query, t', hsent, hsends, hstill⟩
      · rw [hended]
        intro t' ht'
        cases ht'
      · rw [hsent]
        intro next hnext
        cases hnext
        refine ⟨hstill.trans hopen, ?_⟩
        generalize t'.transactionId = next at hsends ⊢
        cases hsends with
        | refused hcode hnext =>
          rcases hnext with rfl | rfl
          · exact ⟨k, hpos, by omega, hid⟩
          · exact ⟨k + 1, by omega, by omega, by rw [hid]; simp [UInt16.add_assoc]⟩
        | asks => exact ⟨k + 1, by omega, by omega, by rw [hid]; simp [UInt16.add_assoc]⟩
    | tunnelRecv data received => exact hstays

theorem CountedOn.mono {transactionId : UInt16} {m n : Nat} {t : Option DnsTunnel}
    (h : CountedOn transactionId m t) (hle : m ≤ n) : CountedOn transactionId n t := by
  intro t' ht'
  obtain ⟨hopen, k, hpos, hk, hid⟩ := h t' ht'
  exact ⟨hopen, k, hpos, hk.trans hle, hid⟩

/-- The question that the call at a place of a run hands to the kernel. -/
def question (t : Option DnsTunnel) (calls : List TunnelCall) (i : Nat) : Option Bytes :=
  (transcript step t calls)[i]?.bind asked

/-- A question is asked by an open transport, with its identifier, which is counted on. -/
theorem question_cases {t : Option DnsTunnel} {calls : List TunnelCall} {i : Nat} {message : Bytes}
    (h : question t calls i = some message) :
    (∃ t', after step t (calls.take i) = some t' ∧ queryId message = t'.transactionId) ∧
      CountedOn (queryId message) 1 (after step t (calls.take (i + 1))) := by
  rw [question, getElem?_transcript] at h
  rcases hcall : calls[i]? with _ | call
  · simp [hcall] at h
  rw [hcall, Option.map_some, Option.bind_some] at h
  rw [List.take_add_one, hcall, Option.toList_some, after_append, after_cons, after_nil]
  generalize after step t (calls.take i) = before at h ⊢
  rcases before with _ | t
  · simp [step, mayEnd, asked] at h
  rcases call with config | call
  · simp [step, mayEnd, answer, asked] at h
  · cases call with
    | tunnelSend data pace taken =>
      rcases step_tunnelSend t data pace taken with
        hended | ⟨code, query, t', hsent, hsends, hstill⟩
      · simp [hended, asked] at h
      · rw [hsent] at h ⊢
        generalize hnext : t'.transactionId = next at hsends
        cases hsends with
        | refused => simp [asked] at h
        | asks hopen hread hid =>
          simp only [asked, Option.map_some, Option.some.injEq] at h
          rw [h] at hid
          refine ⟨⟨t, rfl, hid⟩, fun last hlast => ?_⟩
          cases hlast
          exact ⟨hstill.trans hopen, 1, by omega, le_rfl, by rw [hnext, hid]; rfl⟩
    | _ => simp [step, mayEnd, answer, asked] at h

theorem countedOn_after {t : Option DnsTunnel} {calls : List TunnelCall} {i j : Nat}
    {message : Bytes} (h : question t calls i = some message) (hij : i + 1 ≤ j)
    (hclose : ∀ k, i < k → k < j → calls[k]? ≠ some (.on .tunnelClose)) :
    CountedOn (queryId message) (j - i) (after step t (calls.take j)) := by
  induction j, hij using Nat.le_induction with
  | base => simpa using (question_cases h).2
  | succ j hij ih =>
    have hbefore := ih fun k hk hkj => hclose k hk (by omega)
    rw [List.take_add_one, after_append]
    rcases hcall : calls[j]? with _ | call
    · exact hbefore.mono (by omega)
    · have hopen : call ≠ .on .tunnelClose := fun heq => hclose j hij (by omega) (heq ▸ hcall)
      rw [show j + 1 - i = j - i + 1 by omega]
      exact hbefore.step hopen

/-- A server that reads what is on the wire gets the payloads of the accepted calls in order.
Between two questions of an opening with the same identifier there are at least 65535 calls. -/
theorem traffic (t : Option DnsTunnel) (calls : List TunnelCall) :
    ((transcript step t calls).filterMap onWire).map readPayload =
        ((transcript step t calls).filterMap accepted).map some ∧
      ∀ i j message message', i < j → question t calls i = some message →
        question t calls j = some message' → queryId message = queryId message' →
        (∀ k, i < k → k < j → calls[k]? ≠ some (.on .tunnelClose)) → i + 65536 ≤ j := by
  refine ⟨?_, ?_⟩
  · rw [List.map_filterMap, List.map_filterMap]
    refine List.filterMap_congr fun e he => ?_
    obtain ⟨i, hi⟩ := List.mem_iff_getElem?.mp he
    rw [getElem?_transcript, Option.map_eq_some_iff] at hi
    obtain ⟨call, -, rfl⟩ := hi
    exact map_onWire _ call
  · intro i j message message' hij hi hj hsame hclose
    obtain ⟨t', ht', hid⟩ := (question_cases hj).1
    obtain ⟨-, k, hpos, hle, hcount⟩ := countedOn_after hi hij hclose t' ht'
    rw [← hid, ← hsame] at hcount
    have hzero : UInt16.ofNat k = 0 := by simpa using hcount
    have hmod := congrArg UInt16.toNat hzero
    rw [UInt16.toNat_ofNat] at hmod
    have hdvd := Nat.dvd_of_mod_eq_zero hmod
    have hmax := Nat.le_of_dvd hpos hdvd
    omega

end Federated.Transport.DnsTraffic
