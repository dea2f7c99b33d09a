import Federated.Transport.DnsQuery

/-!
# Queries as messages

A query is written into a buffer byte by byte. It is the header, the labels of the name and
the question's type and class, and it stays inside the buffer. A reader takes the first empty
label for the end of the name, so a name with another one is read differently.
-/

namespace Federated.Transport

/-! ## Writing a query -/

/-- Write a label behind its length. -/
def writeLabel (capacity : Nat) (buffer : Bytes) (offset : Nat) (label : Bytes) :
    Except Fault Bytes := do
  let buffer ← store capacity buffer offset [UInt8.ofNat label.length]
  store capacity buffer (offset + 1) label

/-- The loop over a name that writes its labels; `label` has the characters from `label_start`
on. There is no offset behind a label that is too long. -/
def writeLabels (capacity : Nat) (buffer : Bytes) (offset : Nat) (label : Bytes) :
    Bytes → Except Fault (Bytes × Option Nat)
  | [] => .ok (buffer, some offset)
  | c :: domain =>
    if c = dot ∨ domain = [] then
      let ended := if domain = [] ∧ c ≠ dot then label ++ [c] else label
      if ended.length > maxLabelLength then .ok (buffer, none)
      else do
        let buffer ← writeLabel capacity buffer offset ended
        writeLabels capacity buffer (offset + 1 + ended.length)
          (if c = dot then [] else label ++ [c]) domain
    else writeLabels capacity buffer offset (label ++ [c]) domain

/-- Build a query in a buffer: the length of the message, and the buffer. -/
def writeDnsQuery (domain : Bytes) (transactionId : UInt16) (buffer : Bytes) (bufferSize : Nat) :
    Except Fault (Nat × Bytes) :=
  if bufferSize < dnsHeaderSize + domain.length + 6 then .ok (0, buffer)
  else do
    let buffer ← store bufferSize buffer 0 (dnsHeader transactionId)
    match ← writeLabels bufferSize buffer dnsHeaderSize [] domain with
    | (buffer, none) => return (0, buffer)
    | (buffer, some offset) => do
      let buffer ← store bufferSize buffer offset [0, 0, 16, 0, 1]
      return (offset + 5, buffer)

/-! ## Labels -/

/-- What stands between the dots of a name, but for nothing behind a last one. -/
def labelsOf (domain : Bytes) : List Bytes :=
  let labels := domain.splitOn dot
  if labels.getLast? = some [] then labels.dropLast else labels

/-- The message of a query with these labels. -/
def dnsMessage (transactionId : UInt16) (labels : List Bytes) : Bytes :=
  dnsHeader transactionId ++ labels.flatMap dnsLabel ++ [0, 0, 16, 0, 1]

@[simp] theorem labelsOf_nil : labelsOf [] = [] := rfl

theorem labelsOf_of_notMem {text : Bytes} (hdot : dot ∉ text) (hne : text ≠ []) :
    labelsOf text = [text] := by
  simp [labelsOf, List.splitOn_eq_singleton hdot, hne]

theorem labelsOf_append_dot {text : Bytes} (hdot : dot ∉ text) (domain : Bytes) :
    labelsOf (text ++ dot :: domain) = text :: labelsOf domain := by
  have hne := List.splitOn_ne_nil dot domain
  simp only [labelsOf, List.splitOn_append_cons_self_of_not_mem hdot]
  rw [List.getLast?_cons_of_ne_nil hne, List.dropLast_cons_of_ne_nil hne]
  split <;> rfl

/-- A label that is not empty is one of the name. -/
theorem mem_labelsOf {domain label : Bytes} (h : label ∈ domain.splitOn dot) (hne : label ≠ []) :
    label ∈ labelsOf domain := by
  simp only [labelsOf]
  split_ifs with hlast
  · obtain ⟨labels, hlabels⟩ := List.getLast?_eq_some_iff.mp hlast
    rw [hlabels] at h ⊢
    simpa [hne] using h
  · exact h

/-- The labels of a name are as long as the parts between its dots. -/
theorem exists_long_label_iff (domain : Bytes) :
    (∃ label ∈ labelsOf domain, label.length > maxLabelLength) ↔
      ∃ label ∈ domain.splitOn dot, 63 < label.length := by
  constructor
  · rintro ⟨label, hlabel, hlong⟩
    refine ⟨label, ?_, hlong⟩
    simp only [labelsOf] at hlabel
    split_ifs at hlabel
    · exact List.mem_of_mem_dropLast hlabel
    · exact hlabel
  · rintro ⟨label, hlabel, hlong⟩
    exact ⟨label, mem_labelsOf hlabel (List.ne_nil_of_length_pos (Nat.zero_lt_of_lt hlong)), hlong⟩

/-- Names are taken apart at their first dots. -/
theorem name_induction {motive : Bytes → Prop} (nil : motive [])
    (last : ∀ text, dot ∉ text → text ≠ [] → motive text)
    (dotted : ∀ text domain, dot ∉ text → motive domain → motive (text ++ dot :: domain))
    (domain : Bytes) : motive domain := by
  by_cases hdot : dot ∈ domain
  · obtain ⟨text, rest, heq, htext⟩ := List.eq_append_cons_of_mem hdot
    have hshort : rest.length < domain.length := by
      rw [heq, List.length_append, List.length_cons]
      omega
    exact heq ▸ dotted text rest htext (name_induction nil last dotted rest)
  · rcases eq_or_ne domain [] with rfl | hne
    · exact nil
    · exact last domain hdot hne
termination_by domain.length

/-- The last label of a name without a dot behind it. -/
theorem dnsLabels_of_notMem (label : Bytes) {text : Bytes} (hdot : dot ∉ text) (hne : text ≠ []) :
    dnsLabels label text =
      if (label ++ text).length > maxLabelLength then none
      else some (dnsLabel (label ++ text)) := by
  induction text generalizing label with
  | nil => exact absurd rfl hne
  | cons c text ih =>
    have hc : c ≠ dot := fun h => hdot (by simp [h])
    rcases eq_or_ne text [] with rfl | hrest
    · simp [dnsLabels, hc]
    · rw [dnsLabels, if_neg (by simp [hc, hrest]), ih _ (by grind) hrest, List.append_assoc]
      rfl

/-- The labels of a name are written one after the other, if none of them is too long. -/
theorem dnsLabels_eq (domain : Bytes) : dnsLabels [] domain =
    if ∃ label ∈ labelsOf domain, label.length > maxLabelLength then none
    else some ((labelsOf domain).flatMap dnsLabel) := by
  induction domain using name_induction with
  | nil => rfl
  | last text hdot hne => simp [dnsLabels_of_notMem [] hdot hne, labelsOf_of_notMem hdot hne]
  | dotted text domain hdot ih =>
    rw [dnsLabels_append_dot [] hdot, labelsOf_append_dot hdot, ih]
    simp only [List.nil_append, List.exists_mem_cons_iff, List.flatMap_cons]
    grind

/-! ## Writes -/

theorem length_dnsLabel (label : Bytes) : (dnsLabel label).length = 1 + label.length :=
  Nat.add_comm _ _

theorem writeLabel_written (capacity : Nat) (written label buffer : Bytes)
    (h : written.length + 1 + label.length ≤ capacity) :
    writeLabel capacity (written ++ buffer.drop written.length) written.length label =
      .ok (written ++ dnsLabel label ++ buffer.drop (written ++ dnsLabel label).length) := by
  have hlength := store_written capacity written [UInt8.ofNat label.length] buffer
    (by simp; omega)
  have hlabel := store_written capacity (written ++ [UInt8.ofNat label.length]) label buffer
    (by simpa using h)
  rw [List.length_append, List.length_singleton] at hlabel
  rw [writeLabel, hlength, ok_bind, List.length_append, List.length_singleton, hlabel]
  simp [dnsLabel]

theorem writeLabels_dot (capacity : Nat) (buffer : Bytes) (offset : Nat) (label domain : Bytes) :
    writeLabels capacity buffer offset label (dot :: domain) =
      if label.length > maxLabelLength then .ok (buffer, none)
      else writeLabel capacity buffer offset label >>= fun buffer =>
        writeLabels capacity buffer (offset + 1 + label.length) [] domain := by
  simp [writeLabels]

/-- The loop writes the labels behind what is there, as far as it gets, and leaves room for
the end of the question. -/
theorem writeLabels_eq (capacity : Nat) (buffer domain : Bytes) (written label : Bytes)
    (h : written.length + label.length + domain.length + 6 ≤ capacity) :
    ∃ more, writeLabels capacity (written ++ buffer.drop written.length) written.length label
        domain = .ok (written ++ more ++ buffer.drop (written ++ more).length,
          (dnsLabels label domain).map fun labels => written.length + labels.length) ∧
      written.length + more.length + 5 ≤ capacity ∧
      ∀ labels, dnsLabels label domain = some labels → more = labels := by
  induction domain generalizing written label with
  | nil => exact ⟨[], by simp [writeLabels, dnsLabels], by simp; omega, by simp [dnsLabels]⟩
  | cons c domain ih =>
    rw [List.length_cons] at h
    by_cases hdot : c = dot
    · -- A dot ends the label, and the next one starts behind it.
      subst hdot
      have hnext := dnsLabels_append_dot label (List.not_mem_nil (a := dot)) domain
      rw [List.append_nil, List.nil_append] at hnext
      rw [writeLabels_dot, hnext]
      by_cases hlong : label.length > maxLabelLength
      · exact ⟨[], by simp [hlong], by simp; omega, by simp [hlong]⟩
      · obtain ⟨more, hmore, hroom, heq⟩ := ih (written ++ dnsLabel label) []
          (by simp [length_dnsLabel]; omega)
        have hoffset : written.length + 1 + label.length = (written ++ dnsLabel label).length := by
          rw [List.length_append, length_dnsLabel, Nat.add_assoc]
        refine ⟨dnsLabel label ++ more, ?_, ?_, ?_⟩
        · rw [if_neg hlong, if_neg hlong, writeLabel_written _ _ _ _ (by omega), ok_bind, hoffset,
            hmore, List.append_assoc written, Option.map_map]
          simp [Function.comp_def, Nat.add_assoc]
        · rw [List.length_append] at hroom ⊢
          omega
        · rw [if_neg hlong]
          intro labels hlabels
          obtain ⟨rest, hrest, rfl⟩ := Option.map_eq_some_iff.mp hlabels
          rw [heq rest hrest]
    · rcases eq_or_ne domain [] with rfl | hrest
      · -- The last character ends the label with itself in it.
        by_cases hlong : (label ++ [c]).length > maxLabelLength
        · exact ⟨[], by simp_all [writeLabels, dnsLabels], by simp; omega,
            by simp_all [dnsLabels]⟩
        · have hwrite := writeLabel_written capacity written (label ++ [c]) buffer
            (by simp at h ⊢; omega)
          refine ⟨dnsLabel (label ++ [c]), ?_, ?_, ?_⟩
          · simp only [writeLabels, dnsLabels, hdot, or_true, ne_eq, not_false_eq_true, and_true,
              if_true, if_false, hlong, hwrite, ok_bind, Option.map_some, List.append_nil,
              length_dnsLabel, Nat.add_assoc]
          · simp [length_dnsLabel] at h ⊢
            omega
          · simp only [dnsLabels, hdot, or_true, ne_eq, not_false_eq_true, and_true, if_true,
              if_false, hlong]
            simp
      · have hneither : ¬ (c = dot ∨ domain = []) := not_or.mpr ⟨hdot, hrest⟩
        simp only [writeLabels, dnsLabels, if_neg hneither]
        exact ih written (label ++ [c]) (by simp; omega)

/-- A query is written inside its buffer: the message that it is, if there is one. -/
theorem writeDnsQuery_eq (domain : Bytes) (transactionId : UInt16) (buffer : Bytes)
    (bufferSize : Nat) :
    ∃ n written, writeDnsQuery domain transactionId buffer bufferSize = .ok (n, written) ∧
      (buildDnsQuery domain transactionId bufferSize = none → n = 0) ∧
      ∀ message, buildDnsQuery domain transactionId bufferSize = some message →
        n = message.length ∧ written = message ++ buffer.drop message.length := by
  rw [writeDnsQuery, buildDnsQuery]
  split_ifs with hsmall
  · exact ⟨0, buffer, rfl, fun _ => rfl, by simp⟩
  · have hheader := store_written bufferSize [] (dnsHeader transactionId) buffer
      (by rw [length_dnsHeader]; simp only [List.length_nil]; omega)
    obtain ⟨more, hmore, hroom, heq⟩ := writeLabels_eq bufferSize buffer domain
      (dnsHeader transactionId) [] (by rw [length_dnsHeader]; simp only [List.length_nil]; omega)
    simp only [List.nil_append, List.length_nil, List.drop_zero] at hheader
    rw [length_dnsHeader] at hheader hmore hroom
    rw [hheader, ok_bind, hmore, ok_bind]
    cases hlabels : dnsLabels [] domain with
    | none => exact ⟨0, _, rfl, fun _ => rfl, by simp⟩
    | some labels =>
      obtain rfl := heq labels hlabels
      have htail := store_written bufferSize (dnsHeader transactionId ++ more) [0, 0, 16, 0, 1]
        buffer (by simpa [length_dnsHeader] using hroom)
      have hoffset : dnsHeaderSize + more.length = (dnsHeader transactionId ++ more).length := by
        rw [List.length_append, length_dnsHeader]
      simp only [Option.map_some, hoffset, htail, ok_bind]
      refine ⟨_, _, rfl, by simp, ?_⟩
      rintro message ⟨⟩
      simp [Nat.add_assoc]

/-- A query is built where the buffer has room and no label of the name is too long. -/
theorem buildDnsQuery_eq (domain : Bytes) (transactionId : UInt16) (bufferSize : Nat) :
    buildDnsQuery domain transactionId bufferSize =
      if bufferSize < dnsHeaderSize + domain.length + 6 ∨
        ∃ label ∈ labelsOf domain, label.length > maxLabelLength then none
      else some (dnsMessage transactionId (labelsOf domain)) := by
  rw [buildDnsQuery, dnsLabels_eq]
  by_cases hsmall : bufferSize < dnsHeaderSize + domain.length + 6
  · rw [if_pos hsmall, if_pos (.inl hsmall)]
  by_cases hlong : ∃ label ∈ labelsOf domain, label.length > maxLabelLength
  · rw [if_neg hsmall, if_pos hlong, if_pos (.inr hlong)]
    rfl
  · rw [if_neg hsmall, if_neg hlong, if_neg (not_or.mpr ⟨hsmall, hlong⟩)]
    rfl

/-- The labels of a name that is joined of them, with or without a dot at its end. -/
theorem labelsOf_intercalate {labels : List Bytes} (hne : labels ≠ [])
    (hlabels : ∀ label ∈ labels, 0 < label.length ∧ dot ∉ label) :
    labelsOf ([dot].intercalate labels) = labels ∧
      labelsOf ([dot].intercalate labels ++ [dot]) = labels := by
  have hdots : ∀ label ∈ labels, dot ∉ label := fun label h => (hlabels label h).2
  have hsplit := List.splitOn_intercalate dot hdots hne
  have hlast : labels.getLast? ≠ some [] := by
    intro h
    have := (hlabels [] (List.mem_of_getLast? h)).1
    simp at this
  constructor
  · simp only [labelsOf, hsplit, if_neg hlast]
  · have htrail : ([dot].intercalate labels ++ [dot]).splitOn dot = labels ++ [[]] := by
      rw [List.splitOn_append_cons_self, hsplit, List.splitOn_nil]
    simp only [labelsOf, htrail]
    simp

/-- A query is written inside its buffer, whatever the name is. A name that is joined of labels
of 1 to 63 bytes is written with its header, its labels, and the type and class, where there
is room for them; and nothing is returned for a name with a longer label. -/
theorem writeDnsQuery_spec :
    (∀ domain transactionId buffer bufferSize, ∃ n written,
      writeDnsQuery domain transactionId buffer bufferSize = .ok (n, written)) ∧
    (∀ (labels : List Bytes) domain transactionId buffer bufferSize, labels ≠ [] →
      (∀ label ∈ labels, 1 ≤ label.length ∧ label.length ≤ 63 ∧ dot ∉ label ∧ 0 ∉ label) →
      (domain = [dot].intercalate labels ∨ domain = [dot].intercalate labels ++ [dot]) →
      12 + domain.length + 6 ≤ bufferSize →
        writeDnsQuery domain transactionId buffer bufferSize =
          .ok ((dnsMessage transactionId labels).length,
            dnsMessage transactionId labels ++
              buffer.drop (dnsMessage transactionId labels).length)) ∧
    ∀ domain transactionId buffer bufferSize, (∃ label ∈ domain.splitOn dot, 63 < label.length) →
      ∃ written, writeDnsQuery domain transactionId buffer bufferSize = .ok (0, written) := by
  refine ⟨fun domain transactionId buffer bufferSize => ?_, ?_, ?_⟩
  · obtain ⟨n, written, hwrite, -⟩ := writeDnsQuery_eq domain transactionId buffer bufferSize
    exact ⟨n, written, hwrite⟩
  · intro labels domain transactionId buffer bufferSize hne hlabels hdomain hroom
    obtain ⟨n, written, hwrite, -, hmessage⟩ :=
      writeDnsQuery_eq domain transactionId buffer bufferSize
    have hlabelsOf : labelsOf domain = labels := by
      obtain ⟨hplain, htrail⟩ := labelsOf_intercalate hne fun label h =>
        ⟨(hlabels label h).1, (hlabels label h).2.2.1⟩
      rcases hdomain with rfl | rfl
      · exact hplain
      · exact htrail
    have hfits : ¬ (bufferSize < dnsHeaderSize + domain.length + 6 ∨
        ∃ label ∈ labelsOf domain, label.length > maxLabelLength) := by
      rw [hlabelsOf]
      rintro (hsmall | ⟨label, hlabel, hlong⟩)
      · exact absurd hroom (Nat.not_le.mpr hsmall)
      · exact absurd (hlabels label hlabel).2.1 (Nat.not_le.mpr hlong)
    rw [buildDnsQuery_eq, if_neg hfits, hlabelsOf] at hmessage
    obtain ⟨rfl, rfl⟩ := hmessage _ rfl
    exact hwrite
  · intro domain transactionId buffer bufferSize hlong
    obtain ⟨n, written, hwrite, hnone, -⟩ :=
      writeDnsQuery_eq domain transactionId buffer bufferSize
    rw [buildDnsQuery_eq, if_pos (.inr ((exists_long_label_iff domain).mpr hlong))] at hnone
    obtain rfl := hnone rfl
    exact ⟨written, hwrite⟩

theorem writeDnsQuery_spec_one : writeDnsQuery (ascii "a.") 7 (List.replicate 20 0) 20 =
    .ok ((dnsMessage 7 [ascii "a"]).length, dnsMessage 7 [ascii "a"] ++
      (List.replicate 20 0).drop (dnsMessage 7 [ascii "a"]).length) :=
  writeDnsQuery_spec.2.1 [ascii "a"] (ascii "a.") 7 (List.replicate 20 0) 20 (by decide)
    (by decide) (.inr rfl) (by decide)

/-! ## Reading a question -/

/-- A question is a name with a type and a class behind it, and nothing else. -/
def readQuestion (question : Bytes) : Option (List Bytes × Bytes × Bytes) :=
  match readName question with
  | some (labels, behind) =>
    if behind.length = 4 then some (labels, behind.take 2, behind.drop 2) else none
  | none => none

/-- If a query is built, its bytes behind the header are one question. -/
def HasQuestion (domain : Bytes) (transactionId : UInt16) (buffer : Bytes) (bufferSize : Nat) :
    Prop :=
  ∀ n written, writeDnsQuery domain transactionId buffer bufferSize = .ok (n, written) → n ≠ 0 →
    ∃ question, readQuestion ((written.take n).drop dnsHeaderSize) = some question

/-- The name has no empty label: no dot at its front, and no two of them together. -/
def NoEmptyLabel (domain : Bytes) : Prop := ¬ [dot] <+: domain ∧ ¬ [dot, dot] <:+: domain

/-- The labels of a message are a question if and only if none of them is empty. -/
theorem readQuestion_iff {labels : List Bytes}
    (hfits : ∀ label ∈ labels, label.length ≤ maxLabelLength) :
    (∃ question, readQuestion (labels.flatMap dnsLabel ++ [0, 0, 16, 0, 1]) = some question) ↔
      [] ∉ labels := by
  constructor
  · rintro ⟨question, hquestion⟩ hempty
    -- The reader stops at the empty label, with more than a type and a class behind it.
    obtain ⟨front, behind, rfl, hfront⟩ := List.eq_append_cons_of_mem hempty
    have hread := readName_flatMap hfront (fun label h => hfits label (by simp [h]))
      (behind.flatMap dnsLabel ++ [0, 0, 16, 0, 1])
    have hbytes : (front ++ [] :: behind).flatMap dnsLabel ++ [0, 0, 16, 0, 1] =
        front.flatMap dnsLabel ++ 0 :: (behind.flatMap dnsLabel ++ [0, 0, 16, 0, 1]) := by
      simp [dnsLabel]
    have hlong : (behind.flatMap dnsLabel ++ [0, 0, 16, 0, 1]).length ≠ 4 := by
      rw [List.length_append]
      simp
    rw [readQuestion, hbytes, hread] at hquestion
    simp only [if_neg hlong] at hquestion
    cases hquestion
  · intro hnone
    refine ⟨(labels, [0, 16], [0, 1]), ?_⟩
    rw [readQuestion, readName_flatMap hnone hfits]
    rfl

/-- Two dots together are at the first dot, or behind it. -/
theorem dots_infix_iff {text : Bytes} (hdot : dot ∉ text) (domain : Bytes) :
    [dot, dot] <:+: text ++ dot :: domain ↔ [dot] <+: domain ∨ [dot, dot] <:+: domain := by
  induction text with
  | nil => rw [List.nil_append, List.infix_cons_iff, List.prefix_cons_inj]
  | cons c text ih =>
    rw [List.mem_cons, not_or] at hdot
    rw [List.cons_append, List.infix_cons_iff, ih hdot.2, or_iff_right]
    simp [List.cons_prefix_cons, hdot.1]

/-- A label of a name is empty exactly where a dot follows nothing or another dot. -/
theorem nil_notMem_labelsOf (domain : Bytes) : [] ∉ labelsOf domain ↔ NoEmptyLabel domain := by
  induction domain using name_induction with
  | nil => simp [NoEmptyLabel]
  | last text hdot hne =>
    rw [labelsOf_of_notMem hdot hne]
    refine iff_of_true (by simp [hne.symm]) ⟨fun h => ?_, fun h => ?_⟩
    · exact hdot (h.subset (by simp))
    · exact hdot (h.subset (by simp))
  | dotted text domain hdot ih =>
    have hfirst : [dot] <+: text ++ dot :: domain ↔ text = [] := by
      cases text with
      | nil => simp
      | cons c text => simp_all [List.cons_prefix_cons]
    rw [labelsOf_append_dot hdot, List.mem_cons, not_or, ih, NoEmptyLabel, NoEmptyLabel, hfirst,
      dots_infix_iff hdot, not_or, eq_comm]

variable {domain buffer : Bytes} {bufferSize : Nat}

/-- What is written is the one message, so it has a question if that one's labels are one. -/
theorem hasQuestion_iff_of_built (transactionId : UInt16)
    (hbuilt : ¬ (bufferSize < dnsHeaderSize + domain.length + 6 ∨
      ∃ label ∈ labelsOf domain, label.length > maxLabelLength)) :
    HasQuestion domain transactionId buffer bufferSize ↔ NoEmptyLabel domain := by
  obtain ⟨n, written, hwrite, -, hmessage⟩ :=
    writeDnsQuery_eq domain transactionId buffer bufferSize
  rw [buildDnsQuery_eq, if_neg hbuilt] at hmessage
  obtain ⟨rfl, rfl⟩ := hmessage _ rfl
  set message := dnsMessage transactionId (labelsOf domain) with hmessage
  have hquestion : ((message ++ buffer.drop message.length).take message.length).drop
      dnsHeaderSize = (labelsOf domain).flatMap dnsLabel ++ [0, 0, 16, 0, 1] := by
    rw [List.take_left, hmessage, dnsMessage, List.append_assoc, ← length_dnsHeader transactionId,
      List.drop_left]
  have hpos : message.length ≠ 0 := by simp [hmessage, dnsMessage]
  have hfits : ∀ label ∈ labelsOf domain, label.length ≤ maxLabelLength := by
    intro label hlabel
    by_contra hlong
    exact hbuilt (.inr ⟨label, hlabel, Nat.lt_of_not_le hlong⟩)
  rw [← nil_notMem_labelsOf, ← readQuestion_iff hfits, ← hquestion]
  constructor
  · exact fun h => h _ _ hwrite hpos
  · intro h n' written' hwrite' _
    obtain ⟨rfl, rfl⟩ : message.length = n' ∧ message ++ buffer.drop message.length = written' := by
      simpa using hwrite.symm.trans hwrite'
    exact h

/-- A query that is built is read as one question if and only if it is none, for lack of room
or a label that is too long, or its name has no empty label. -/
theorem hasQuestion_iff (domain : Bytes) (transactionId : UInt16) (buffer : Bytes)
    (bufferSize : Nat) : HasQuestion domain transactionId buffer bufferSize ↔
      bufferSize < dnsHeaderSize + domain.length + 6 ∨
        (∃ label ∈ domain.splitOn dot, 63 < label.length) ∨ NoEmptyLabel domain := by
  rw [← exists_long_label_iff, ← or_assoc]
  by_cases hfails : bufferSize < dnsHeaderSize + domain.length + 6 ∨
      ∃ label ∈ labelsOf domain, label.length > maxLabelLength
  · refine iff_of_true (fun n written hwrite hne => ?_) (.inl hfails)
    obtain ⟨n', written', hwrite', hzero, -⟩ :=
      writeDnsQuery_eq domain transactionId buffer bufferSize
    rw [buildDnsQuery_eq, if_pos hfails] at hzero
    obtain ⟨rfl, -⟩ : n = n' ∧ written = written' := by simpa using hwrite.symm.trans hwrite'
    exact absurd (hzero rfl) hne
  · rw [hasQuestion_iff_of_built transactionId hfails, or_iff_right hfails]

/-- Between two dots the name ends for its reader. -/
theorem not_hasQuestion_dots : ¬ HasQuestion (ascii "a..b") 1 (List.replicate 32 0) 32 := by
  rw [hasQuestion_iff_of_built 1 (by decide)]
  rintro ⟨-, hdots⟩
  exact hdots ⟨ascii "a", ascii "b", rfl⟩

end Federated.Transport
