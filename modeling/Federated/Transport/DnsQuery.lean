import Federated.Transport.Base32

/-!
# Payloads in DNS names

The characters of a payload decode to it. They make one label of the name, and a label
has at most 63 characters, so that the query can be built for at most 39 bytes.
-/

namespace Federated.Transport

open Library.BitGroups

/-! ## Labels -/

/-- A name as a reader takes it apart: labels of 1 to 63 bytes up to an empty one, and what
stands behind that. -/
def readName : Bytes → Option (List Bytes × Bytes)
  | [] => none
  | length :: rest =>
    if length = 0 then some ([], rest)
    else if length.toNat > 63 ∨ rest.length < length.toNat then none
    else (readName (rest.drop length.toNat)).map fun name =>
      (rest.take length.toNat :: name.1, name.2)
termination_by bytes => bytes.length
decreasing_by grind

/-- The labels of the name that a query asks for. -/
def questionLabels (query : Bytes) : Option (List Bytes) :=
  (readName (query.drop dnsHeaderSize)).map Prod.fst

@[simp] theorem readName_zero (rest : Bytes) : readName (0 :: rest) = some ([], rest) := by
  rw [readName, if_pos rfl]

/-- A label is read back. -/
theorem readName_dnsLabel {label : Bytes} (hpos : 0 < label.length)
    (hfits : label.length ≤ maxLabelLength) (rest : Bytes) :
    readName (dnsLabel label ++ rest) =
      (readName rest).map fun name => (label :: name.1, name.2) := by
  rw [maxLabelLength] at hfits
  have hlength : (UInt8.ofNat label.length).toNat = label.length := Nat.mod_eq_of_lt (by omega)
  have hne : UInt8.ofNat label.length ≠ 0 := fun h => by
    rw [h] at hlength
    exact Nat.ne_of_lt hpos hlength
  rw [dnsLabel, List.cons_append, readName, if_neg hne, hlength, if_neg (by simp; omega),
    List.drop_left, List.take_left]

/-- The labels in front of the first empty one are the name. -/
theorem readName_flatMap {labels : List Bytes} (hpos : [] ∉ labels)
    (hfits : ∀ label ∈ labels, label.length ≤ maxLabelLength) (rest : Bytes) :
    readName (labels.flatMap dnsLabel ++ 0 :: rest) = some (labels, rest) := by
  induction labels with
  | nil => simp
  | cons label labels ih =>
    rw [List.mem_cons, not_or] at hpos
    rw [List.forall_mem_cons] at hfits
    rw [List.flatMap_cons, List.append_assoc,
      readName_dnsLabel (List.length_pos_iff.mpr (Ne.symm hpos.1)) hfits.1, ih hpos.2 hfits.2]
    rfl

/-- A label ends at the first dot. -/
theorem dnsLabels_append_dot (label : Bytes) {text : Bytes} (hdot : dot ∉ text) (domain : Bytes) :
    dnsLabels label (text ++ dot :: domain) =
      if (label ++ text).length > maxLabelLength then none
      else (dnsLabels [] domain).map (dnsLabel (label ++ text) ++ ·) := by
  induction text generalizing label with
  | nil => simp [dnsLabels]
  | cons c text ih =>
    have hc : c ≠ dot := fun h => hdot (by simp [h])
    rw [List.cons_append, dnsLabels, if_neg (by simp [hc]), ih _ (by grind), List.append_assoc]
    rfl

/-! ## Queries -/

/-- The labels of the default base domain. -/
def tunnelLabels : List Bytes := [ascii "tunnel", ascii "local"]

theorem dnsLabels_tunnel : dnsLabels [] (ascii "tunnel.local") =
    some (dnsLabel (ascii "tunnel") ++ dnsLabel (ascii "local")) := by decide

theorem length_dnsHeader (transactionId : UInt16) :
    (dnsHeader transactionId).length = dnsHeaderSize := rfl

/-- The query for a name below the default base domain: it can be built if the front of the
name is a label. -/
theorem buildDnsQuery_tunnel {front : Bytes} (hdot : dot ∉ front) (hpos : 0 < front.length)
    (hroom : front.length ≤ 480) (transactionId : UInt16) :
    (front.length > maxLabelLength ∧ buildDnsQuery (front ++ dot :: ascii "tunnel.local")
        transactionId maxDnsMessage = none) ∨
      front.length ≤ maxLabelLength ∧ ∃ query, buildDnsQuery (front ++ dot :: ascii "tunnel.local")
        transactionId maxDnsMessage = some query ∧
          questionLabels query = some (front :: tunnelLabels) := by
  have hbuffer : ¬ maxDnsMessage <
      dnsHeaderSize + (front ++ dot :: ascii "tunnel.local").length + 6 := by
    have hbase : (ascii "tunnel.local").length = 12 := rfl
    rw [List.length_append, List.length_cons, hbase, maxDnsMessage, dnsHeaderSize]
    omega
  rw [buildDnsQuery, if_neg hbuffer, dnsLabels_append_dot [] hdot, dnsLabels_tunnel,
    List.nil_append]
  by_cases hlong : front.length > maxLabelLength
  · exact .inl ⟨hlong, by rw [if_pos hlong]; rfl⟩
  · have hfits := Nat.le_of_not_lt hlong
    have hname : readName (dnsLabel front ++ (tunnelLabels.flatMap dnsLabel ++ [0, 0, 16, 0, 1])) =
        some (front :: tunnelLabels, [0, 16, 0, 1]) := by
      rw [readName_dnsLabel hpos hfits, readName_flatMap (by decide) (by decide)]
      rfl
    have hread : questionLabels (dnsHeader transactionId ++ (dnsLabel front ++
        (dnsLabel (ascii "tunnel") ++ dnsLabel (ascii "local"))) ++ [0, 0, 16, 0, 1]) =
          some (front :: tunnelLabels) := by
      rw [questionLabels, List.append_assoc, ← length_dnsHeader transactionId, List.drop_left,
        List.append_assoc]
      exact congrArg (Option.map Prod.fst) hname
    exact .inr ⟨hfits, _, by rw [if_neg hlong]; rfl, hread⟩

/-- The characters of a payload that may be sent. -/
theorem base32Encode_payload {data : Bytes} (hpos : 0 < data.length) (hsize : data.length ≤ 200) :
    base32Encode data 512 = (encodeValues 0 0 data).map base32Char := by
  rw [base32Encode, if_neg (by omega), if_neg (by omega)]

/-! ## Sending -/

/-- What a call hands to the kernel, if the payload has a valid size and nothing is divided by
zero. -/
theorem exists_dnsTunnelSend {t : DnsTunnel} {data : Bytes} (hopen : t.isOpen = true)
    (hqps : t.rateLimiter.maxQps ≠ 0) (hpos : 0 < data.length) (hsize : data.length ≤ 200)
    (pace : Pace) (taken : Bool) : ∃ code t', t.dnsTunnelSend data pace taken =
      some (code, ((queryName t.config.baseDomain data).bind fun domain =>
        buildDnsQuery domain t.transactionId maxDnsMessage).map (t.server, ·), t') := by
  have hsizes : ¬ (data.length = 0 ∨ data.length > 200) := by omega
  obtain ⟨r, hlimit⟩ : ∃ r, t.rateLimiter.enforceRateLimit pace t.clock = some r :=
    ⟨_, if_neg hqps⟩
  rw [DnsTunnel.dnsTunnelSend, if_neg (by simp [hopen]), if_neg hsizes, hlimit]
  cases hname : queryName t.config.baseDomain data with
  | none => simp [hname]
  | some domain =>
    cases hquery : buildDnsQuery domain t.transactionId maxDnsMessage <;> simp [hname, hquery]

/-- The query for a payload of a valid size below the default base domain, and what its labels
decode to. -/
theorem query_payload {data : Bytes} (hpos : 0 < data.length) (hsize : data.length ≤ 200)
    (transactionId : UInt16) :
    (39 < data.length ∧ ((queryName (ascii "tunnel.local") data).bind fun domain =>
        buildDnsQuery domain transactionId maxDnsMessage) = none) ∨
      data.length ≤ 39 ∧ ∃ query front, ((queryName (ascii "tunnel.local") data).bind fun domain =>
        buildDnsQuery domain transactionId maxDnsMessage) = some query ∧
          questionLabels query = some (front ++ tunnelLabels) ∧
          ∀ size, data.length ≤ size → base32Decode front.flatten size = data := by
  obtain ⟨hshort, hlong, hdecode⟩ := encodeValues_payload data
  have hdecode := hdecode _ (filterMap_base32Char _)
  set encoded := (encodeValues 0 0 data).map base32Char with hencoded
  have hlength : encoded.length = (encodeValues 0 0 data).length := List.length_map _
  have hne : encoded ≠ [] := by
    rw [← List.length_pos_iff]
    omega
  have hdot : dot ∉ encoded := by
    rw [hencoded, List.mem_map]
    rintro ⟨value, -, hvalue⟩
    exact (base32Char_ne value).1 hvalue
  have hbase : cstr (ascii "tunnel.local") = ascii "tunnel.local" := by decide
  have hwritten : (encoded ++ dot :: ascii "tunnel.local").length = encoded.length + 13 := by
    rw [List.length_append]
    rfl
  rw [queryName, base32Encode_payload hpos hsize, ← hencoded, if_neg hne, hbase]
  by_cases hname : (encoded ++ dot :: ascii "tunnel.local").length ≥ maxDomainLength
  · refine .inl ⟨?_, by rw [if_pos hname]; rfl⟩
    rw [maxDomainLength] at hname
    omega
  · have hroom : encoded.length ≤ 480 := by
      rw [maxDomainLength] at hname
      omega
    rw [if_neg hname, Option.bind_some]
    have hfront : 0 < encoded.length := List.length_pos_iff.mpr hne
    rcases buildDnsQuery_tunnel hdot hfront hroom transactionId with
      ⟨hlabel, hnone⟩ | ⟨hlabel, query, hquery, hread⟩
    · rw [maxLabelLength] at hlabel
      exact .inl ⟨by omega, hnone⟩
    · rw [maxLabelLength] at hlabel
      refine .inr ⟨by omega, query, [encoded], hquery, hread, ?_⟩
      rwa [List.flatten_singleton]

/-- With the default base domain and a limit that is not zero, a payload whose size is checked is
sent, as labels that decode to it, exactly if it has at most 39 bytes. -/
theorem sent_iff_length_le {t : DnsTunnel} {data : Bytes} (hopen : t.isOpen = true)
    (hqps : t.rateLimiter.maxQps ≠ 0) (hdomain : t.config.baseDomain = ascii "tunnel.local")
    (hpos : 1 ≤ data.length) (hsize : data.length ≤ 200) (pace : Pace) (taken : Bool) :
    ∃ code sent t', t.dnsTunnelSend data pace taken = some (code, sent, t') ∧
      ((∃ query front, sent = some (t.server, query) ∧
          questionLabels query = some (front ++ tunnelLabels) ∧
          ∀ size, data.length ≤ size → base32Decode front.flatten size = data) ↔
        data.length ≤ 39) := by
  obtain ⟨code, t', hsend⟩ := exists_dnsTunnelSend hopen hqps hpos hsize pace taken
  refine ⟨code, _, t', hsend, ?_⟩
  rw [hdomain]
  rcases query_payload hpos hsize t.transactionId with
    ⟨hlong, hnone⟩ | ⟨hshort, query, front, hquery, hread, hdecode⟩
  · rw [hnone]
    refine ⟨?_, fun hshort => absurd hlong (Nat.not_lt.mpr hshort)⟩
    rintro ⟨query, front, hquery, -⟩
    cases hquery
  · rw [hquery]
    exact iff_of_true ⟨query, front, rfl, hread, hdecode⟩ hshort

/-- The transport with its default configuration, open, at time 1000. -/
def openTunnel : DnsTunnel :=
  ((DnsTunnel.new 1000).dnsTunnelOpen true fun _ => some 0x08080808).2

/-- A pace at which nothing takes longer than asked for. -/
def punctual : Pace := ⟨0, 0, 0, 0⟩

theorem sent_iff_length_le_hi :
    ∃ code sent t', openTunnel.dnsTunnelSend (ascii "hi") punctual true = some (code, sent, t') ∧
      ((∃ query front, sent = some (openTunnel.server, query) ∧
          questionLabels query = some (front ++ tunnelLabels) ∧
          ∀ size, (ascii "hi").length ≤ size → base32Decode front.flatten size = ascii "hi") ↔
        (ascii "hi").length ≤ 39) :=
  sent_iff_length_le (by decide) (by decide) (by decide) (by decide) (by decide) punctual true

/-- The transport behind its first payload. -/
def usedTunnel : DnsTunnel :=
  { openTunnel with
    transactionId := 2
    rateLimiter := ⟨1100, 5, 100, 500⟩
    clock := 1100 }

/-- A payload of 40 bytes is rejected. -/
theorem not_sent_forty :
    openTunnel.isOpen = true ∧ openTunnel.config.baseDomain = ascii "tunnel.local" ∧
      openTunnel.dnsTunnelSend (List.replicate 40 0) punctual true =
        some (.errFormat, none, usedTunnel) := by
  decide +kernel

end Federated.Transport
