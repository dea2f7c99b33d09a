import Federated.Tool.Log

/-!
# The line of a header

The array of a header is never left. A string that would not fit in it whole is left out, and
what is appended character by character is cut off at its end. So a long text goes missing,
and there are some lengths at which the colours are not taken back.
-/

namespace Federated.Tool

variable {h : Header} {written : Bytes}

/-- What is written in front of the position, which leaves room for a terminator. -/
structure Header.Holds (h : Header) (written : Bytes) : Prop where
  block : written <+: h.block
  pos : h.pos = written.length
  fits : written.length ≤ headerSize - 1

/-- The string is appended whole or not at all. -/
def withString (written str : Bytes) : Bytes :=
  if written.length + str.length < headerSize - 1 then written ++ str else written

/-- Text is appended as far as there is room. -/
def withChars (written text : Bytes) : Bytes := (written ++ text).take (headerSize - 1)

/-! ## Appending -/

theorem Header.Holds.store_eq (hold : h.Holds written) (src : Bytes)
    (hroom : written.length + src.length ≤ headerSize) :
    ∃ rest, store headerSize h.block h.pos src = .ok (written ++ src ++ rest) := by
  obtain ⟨rest, hblock⟩ := hold.block
  rw [store, hold.pos, if_pos hroom, overwrite, ← hblock, List.take_left]
  exact ⟨_, rfl⟩

theorem safeAppend_holds (hold : h.Holds written) (str : Bytes) :
    ∃ h', safeAppend str h = .ok h' ∧ h'.Holds (withString written str) := by
  rw [safeAppend, withString, hold.pos]
  split_ifs with hfits
  · obtain ⟨rest, hstore⟩ := hold.store_eq (str ++ [0]) (by grind [headerSize])
    rw [hold.pos] at hstore
    refine ⟨⟨_, _⟩, by rw [hstore]; rfl, ?_, by simp, ?_⟩
    · simp
    · rw [List.length_append]
      omega
  · exact ⟨h, rfl, hold⟩

theorem withChars_full (hfull : written.length = headerSize - 1) (text : Bytes) :
    withChars written text = written := by
  rw [withChars, ← hfull, List.take_left]

theorem withChars_append (written text more : Bytes) :
    withChars (withChars written text) more = withChars written (text ++ more) := by
  rw [withChars, withChars, withChars, ← List.append_assoc]
  rcases Nat.le_total (written ++ text).length (headerSize - 1) with hle | hge
  · rw [List.take_of_length_le hle]
  · rw [List.take_left' (List.length_take_of_le hge), List.take_append_of_le_length hge]

theorem safeAppendChar_holds (hold : h.Holds written) (c : UInt8) :
    ∃ h', safeAppendChar c h = .ok h' ∧ h'.Holds (withChars written [c]) := by
  have hfits := hold.fits
  rw [safeAppendChar, hold.pos]
  split_ifs with hroom
  · obtain ⟨rest, hstore⟩ := hold.store_eq [c] (by simp; omega)
    rw [hold.pos] at hstore
    have hwhole : withChars written [c] = written ++ [c] :=
      List.take_of_length_le (by simp; omega)
    rw [hwhole]
    exact ⟨⟨_, _⟩, by rw [hstore]; rfl, ⟨rest, rfl⟩, by simp, by simp; omega⟩
  · rw [withChars_full (by omega)]
    exact ⟨h, rfl, hold⟩

theorem pad_holds (n : Nat) (hold : h.Holds written) :
    ∃ h', pad n h = .ok h' ∧ h'.Holds (withChars written (List.replicate n 32)) := by
  induction n generalizing h written with
  | zero =>
    have hwhole : withChars written (List.replicate 0 32) = written :=
      (congrArg (List.take _) (List.append_nil written)).trans (List.take_of_length_le hold.fits)
    exact ⟨h, rfl, by rwa [hwhole]⟩
  | succ n ih =>
    rw [pad, hold.pos]
    split_ifs with hroom
    · obtain ⟨h₁, happend, hold₁⟩ := safeAppendChar_holds hold 32
      obtain ⟨h₂, hpad, hold₂⟩ := ih hold₁
      refine ⟨h₂, by rw [happend, ok_bind, hpad], ?_⟩
      rwa [withChars_append, List.singleton_append, ← List.replicate_succ] at hold₂
    · have hfits := hold.fits
      exact ⟨h, rfl, by rwa [withChars_full (by omega)]⟩

/-! ## The line -/

/-- The colours at the front of a line. -/
def colors (useColor : Bool) : Bytes :=
  if useColor then Color.bgLightGray ++ Color.black ++ Color.bold else []

/-- The width that a line is built for. -/
def safeWidth (ioctl : Option UInt16) : Nat := min (getTerminalWidth ioctl) maxSafeWidth

/-- The spaces in front of a text in the middle of a line. -/
def padding (ioctl : Option UInt16) (text : Bytes) : Nat :=
  (safeWidth ioctl - text.length - 4) / 2

/-- A line up to the text, which is left out if there is no room for it. -/
def headerStart (useColor : Bool) (ioctl : Option UInt16) (text : Bytes) : Bytes :=
  withString (colors useColor ++ List.replicate (padding ioctl text) 32 ++ ascii "= ") text

/-- A line up to the end of its width. -/
def headerBody (useColor : Bool) (ioctl : Option UInt16) (text : Bytes) : Bytes :=
  withChars (headerStart useColor ioctl text) (ascii " =" ++
    List.replicate (safeWidth ioctl - (padding ioctl text + text.length + 4)) 32)

/-- A whole line: the colours are taken back if there is room for it. -/
def headerText (useColor : Bool) (ioctl : Option UInt16) (text : Bytes) : Bytes :=
  let body := headerBody useColor ioctl text
  if useColor then withString body Color.reset else body

variable {useColor : Bool} {ioctl : Option UInt16} {text : Bytes}

theorem length_colors_le (useColor : Bool) : (colors useColor).length ≤ 14 := by
  cases useColor <;> decide

theorem safeWidth_le (ioctl : Option UInt16) : safeWidth ioctl ≤ 412 := Nat.min_le_right _ _

theorem withChars_of_le {text : Bytes} (h : written.length + text.length ≤ headerSize - 1) :
    withChars written text = written ++ text :=
  List.take_of_length_le (by rwa [List.length_append])

theorem startColor_holds (useColor : Bool) (garbage : Bytes) :
    ∃ h, startColor useColor ⟨garbage, 0⟩ = .ok h ∧ h.Holds (colors useColor) := by
  have hold : Header.Holds ⟨garbage, 0⟩ [] := ⟨List.nil_prefix, rfl, Nat.zero_le _⟩
  cases useColor with
  | false => exact ⟨_, rfl, hold⟩
  | true =>
    obtain ⟨h₁, happend₁, hold₁⟩ := safeAppend_holds hold Color.bgLightGray
    obtain ⟨h₂, happend₂, hold₂⟩ := safeAppend_holds hold₁ Color.black
    obtain ⟨h₃, happend₃, hold₃⟩ := safeAppend_holds hold₂ Color.bold
    exact ⟨h₃, by simp [startColor, happend₁, happend₂, happend₃], hold₃⟩

theorem zero_notMem_withString {str : Bytes} (hwritten : 0 ∉ written) (hstr : 0 ∉ str) :
    0 ∉ withString written str := by
  rw [withString]
  split_ifs
  · simp [hwritten, hstr]
  · exact hwritten

theorem zero_notMem_headerText (hnul : 0 ∉ text) : 0 ∉ headerText useColor ioctl text := by
  have hcolors : 0 ∉ colors useColor := by cases useColor <;> decide
  have hborder : 0 ∉ ascii "= " ∧ 0 ∉ ascii " =" := by decide
  have hspaces (n : Nat) : 0 ∉ List.replicate n (32 : UInt8) := fun h =>
    absurd (List.eq_of_mem_replicate h) (by decide)
  have hbody : 0 ∉ headerBody useColor ioctl text := fun h =>
    have hstart : 0 ∉ headerStart useColor ioctl text :=
      zero_notMem_withString (by simp [hcolors, hspaces, hborder]) hnul
    absurd (List.mem_of_mem_take h) (by simp [hstart, hspaces, hborder])
  cases useColor with
  | false => exact hbody
  | true => exact zero_notMem_withString hbody (by decide)

/-- The source's test for a negative padding does what subtraction on natural numbers does. -/
theorem sidePadding_eq (width textLen : Nat) :
    sidePadding width textLen = (width - textLen - 4) / 2 := by
  rw [sidePadding]
  rcases Nat.le_total (textLen + 4) width with hle | hge
  · have hcast : (width : Int) - textLen - 4 = ((width - textLen - 4 : Nat) : Int) := by omega
    rw [hcast]
    rfl
  · have hcast : (width : Int) - textLen - 4 = -((textLen + 4 - width : Nat) : Int) := by omega
    rw [hcast, Int.neg_tdiv, Int.toNat_of_nonpos]
    · omega
    · exact Int.neg_nonpos_of_nonneg (Int.tdiv_nonneg (Int.natCast_nonneg _) (by decide))

/-- The line is printed as it was built, and the array was not left for it. -/
theorem headerLine_eq (hnul : 0 ∉ text) (hint : text.length + 4 < 2 ^ 31) (garbage : Bytes) :
    headerLine useColor ioctl text garbage = .ok (headerText useColor ioctl text) := by
  have hlen : (Int32.ofNat text.length).toInt = text.length := Int32.toInt_ofNat_of_lt (by omega)
  have hrest : ((safeWidth ioctl : Int) - (padding ioctl text + text.length + 4)).toNat =
      safeWidth ioctl - (padding ioctl text + text.length + 4) := by omega
  have hcolors := length_colors_le useColor
  have hwidth := safeWidth_le ioctl
  have hclamp : (if getTerminalWidth ioctl > maxSafeWidth
      then (maxSafeWidth, (maxSafeWidth - text.length - 4) / 2)
      else (getTerminalWidth ioctl, (getTerminalWidth ioctl - text.length - 4) / 2)) =
      (safeWidth ioctl, padding ioctl text) := by
    rw [padding, safeWidth]
    split_ifs with hwide
    · rw [Nat.min_eq_right hwide.le]
    · rw [Nat.min_eq_left (Nat.not_lt.mp hwide)]
  obtain ⟨h₀, hstart, hold₀⟩ := startColor_holds useColor garbage
  obtain ⟨h₁, hleft, hold₁⟩ := pad_holds (padding ioctl text) hold₀
  obtain ⟨h₂, hborder₁, hold₂⟩ := safeAppendChar_holds hold₁ 61
  obtain ⟨h₃, hspace₁, hold₃⟩ := safeAppendChar_holds hold₂ 32
  obtain ⟨h₄, htext, hold₄⟩ := safeAppend_holds hold₃ text
  obtain ⟨h₅, hspace₂, hold₅⟩ := safeAppendChar_holds hold₄ 32
  obtain ⟨h₆, hborder₂, hold₆⟩ := safeAppendChar_holds hold₅ 61
  obtain ⟨h₇, hright, hold₇⟩ :=
    pad_holds (safeWidth ioctl - (padding ioctl text + text.length + 4)) hold₆
  have hopened : withChars (withChars (withChars (colors useColor)
      (List.replicate (padding ioctl text) 32)) [61]) [32] =
      colors useColor ++ List.replicate (padding ioctl text) 32 ++ ascii "= " := by
    rw [withChars_append, withChars_append, withChars_of_le, List.append_assoc]
    · rfl
    · simp [headerSize, padding]
      omega
  rw [hopened] at hold₄ hold₅ hold₆ hold₇
  have hbody : h₇.Holds (headerBody useColor ioctl text) := by
    rw [headerBody]
    rwa [withChars_append, withChars_append] at hold₇
  obtain ⟨h₈, hreset, hold₈⟩ : ∃ h₈, resetColor useColor h₇ = .ok h₈ ∧
      h₈.Holds (headerText useColor ioctl text) := by
    cases useColor with
    | false => exact ⟨h₇, rfl, hbody⟩
    | true => exact safeAppend_holds hbody Color.reset
  obtain ⟨rest, hstore⟩ := hold₈.store_eq [0] (Nat.add_le_of_le_sub (by decide) hold₈.fits)
  simp only [headerLine, hlen, sidePadding_eq, hrest, hstart, hclamp, hleft, hborder₁, hspace₁,
    htext, hspace₂, hborder₂, hright, hreset, hstore, ok_bind]
  have hcstr : cstr (headerText useColor ioctl text ++ [0] ++ rest) =
      headerText useColor ioctl text := by
    rw [List.append_assoc]
    exact Library.takeWhile_ne_append (zero_notMem_headerText hnul) rest
  rw [hcstr]
  rfl

/-! ## Lengths -/

/-- The text is there up to the length that fits behind the colours and the border. -/
theorem headerStart_eq (useColor : Bool) (ioctl : Option UInt16) (text : Bytes) :
    headerStart useColor ioctl text =
      colors useColor ++ List.replicate (padding ioctl text) 32 ++ ascii "= " ++
        if (colors useColor).length + text.length < 509 then text else [] := by
  have hcolors := length_colors_le useColor
  have hwidth := safeWidth_le ioctl
  have hlength : (colors useColor ++ List.replicate (padding ioctl text) 32 ++ ascii "= ").length =
      (colors useColor).length + padding ioctl text + 2 := by
    rw [List.length_append, List.length_append, List.length_replicate]
    rfl
  have hiff : (colors useColor).length + padding ioctl text + 2 + text.length < headerSize - 1 ↔
      (colors useColor).length + text.length < 509 := by
    rw [padding, headerSize]
    omega
  rw [headerStart, withString, hlength]
  simp only [hiff]
  split_ifs
  · rfl
  · rw [List.append_nil]

/-- A text that is narrower than the line stands in the middle of it. -/
theorem headerBody_narrow (hnarrow : text.length + 4 ≤ safeWidth ioctl) :
    headerBody useColor ioctl text = colors useColor ++
      List.replicate (padding ioctl text) 32 ++ ascii "= " ++ text ++ ascii " =" ++
        List.replicate (safeWidth ioctl - (padding ioctl text + text.length + 4)) 32 := by
  have hcolors := length_colors_le useColor
  have hwidth := safeWidth_le ioctl
  have hborder : (ascii "= ").length = 2 ∧ (ascii " =").length = 2 := by decide
  rw [headerBody, headerStart_eq, if_pos (by omega), withChars_of_le]
  · simp only [List.append_assoc]
  · simp [headerSize, padding, hborder]
    omega

/-- Behind the text there is always room for a character, so a line does not end in the text. -/
theorem getLast?_headerBody (useColor : Bool) (ioctl : Option UInt16) (text : Bytes) :
    (headerBody useColor ioctl text).getLast? ≠ some 109 := by
  have hstart : (headerStart useColor ioctl text).length < headerSize - 1 := by
    have hcolors := length_colors_le useColor
    have hwidth := safeWidth_le ioctl
    have hborder : (ascii "= ").length = 2 := by decide
    rw [headerStart_eq]
    split_ifs <;> simp [headerSize, padding, hborder] <;> omega
  rw [headerBody, withChars, List.take_append, List.take_of_length_le hstart.le]
  generalize hend : (ascii " =" ++ List.replicate _ 32).take _ = tail
  have htail : tail ≠ [] ∧ 109 ∉ tail := by
    subst hend
    refine ⟨by simp [ascii]; omega, fun h => ?_⟩
    have hmem := List.mem_of_mem_take h
    simp [ascii] at hmem
  obtain ⟨last, hlast⟩ := List.getLast?_isSome.mpr htail.1 |> Option.isSome_iff_exists.mp
  rw [List.getLast?_append, hlast, Option.some_or]
  rintro ⟨⟩
  exact htail.2 (List.mem_of_getLast? hlast)

theorem length_headerBody (ioctl : Option UInt16) (text : Bytes) :
    (headerBody true ioctl text).length + 4 < headerSize - 1 ↔
      text.length ≤ 488 ∨ 495 ≤ text.length := by
  have hwidth := safeWidth_le ioctl
  have hcolors : (colors true).length = 14 := by decide
  have hborder : (ascii "= ").length = 2 ∧ (ascii " =").length = 2 := by decide
  rw [headerBody, withChars, headerStart_eq, List.length_take, hcolors]
  split_ifs <;> simp [headerSize, padding, hborder, hcolors] <;> omega

/-- A text that stands in the line at all stands in it whole. -/
theorem text_isInfix_iff (useColor : Bool) (ioctl : Option UInt16) (text : Bytes) :
    text <:+: headerText useColor ioctl text ↔ (colors useColor).length + text.length < 509 := by
  have hcolors := length_colors_le useColor
  have hwidth := safeWidth_le ioctl
  have hborder : (ascii "= ").length = 2 ∧ (ascii " =").length = 2 ∧ Color.reset.length = 4 := by
    decide
  have hbody : headerBody useColor ioctl text <+: headerText useColor ioctl text := by
    rw [headerText, withString]
    grind [List.prefix_append]
  constructor
  · intro hinfix
    by_contra hlong
    have hle := hinfix.length_le
    have hshort : (headerBody useColor ioctl text).length ≤ 18 := by
      rw [headerBody, withChars, headerStart_eq, if_neg hlong, List.length_take]
      simp [padding, hborder]
      omega
    have hline : (headerText useColor ioctl text).length ≤ 22 := by
      rw [headerText, withString]
      split_ifs
      · rw [List.length_append]
        omega
      · omega
      · omega
    omega
  · intro hfits
    refine List.IsInfix.trans ?_ hbody.isInfix
    have hstart : headerStart useColor ioctl text <+: headerBody useColor ioctl text := by
      rw [headerBody, withChars]
      refine List.prefix_of_prefix_length_le (List.prefix_append _ _) (List.take_prefix _ _) ?_
      rw [headerStart_eq, if_pos hfits]
      simp [headerSize, padding, hborder]
      omega
    refine List.IsInfix.trans ?_ hstart.isInfix
    rw [headerStart_eq, if_pos hfits]
    exact (List.suffix_append _ text).isInfix

/-- Whatever a header says, its array is not left. A text that is narrower than the line stands in
the middle of it, and one that does not fit is left out. The colours are taken back unless the
text has between 489 and 494 bytes. An `int` holds the length of the text with its borders. -/
theorem headerLine_layout (hnul : 0 ∉ text) (hint : text.length + 4 < 2 ^ 31) (garbage : Bytes) :
    ∃ line, headerLine useColor ioctl text garbage = .ok line ∧
      (text.length + 4 ≤ safeWidth ioctl → ∃ left right, left ≤ right ∧ right ≤ left + 1 ∧
        left + text.length + 4 + right = safeWidth ioctl ∧
          line = colors useColor ++ List.replicate left 32 ++ ascii "= " ++ text ++ ascii " =" ++
            List.replicate right 32 ++ if useColor then Color.reset else []) ∧
      (text <:+: line ↔ text.length ≤ if useColor then 494 else 508) ∧
      (useColor = true → (Color.reset <:+ line ↔ text.length ≤ 488 ∨ 495 ≤ text.length)) := by
  have hwidth := safeWidth_le ioctl
  refine ⟨_, headerLine_eq hnul hint garbage, fun hnarrow => ?_, ?_, ?_⟩
  · refine ⟨padding ioctl text, safeWidth ioctl - (padding ioctl text + text.length + 4),
      by rw [padding]; omega, by rw [padding]; omega, by rw [padding]; omega, ?_⟩
    rw [← headerBody_narrow hnarrow, headerText]
    cases useColor with
    | false => exact (List.append_nil _).symm
    | true =>
      have hfits := (length_headerBody ioctl text).mpr (.inl (by omega))
      exact if_pos hfits
  · have hcolors : (colors true).length = 14 ∧ (colors false).length = 0 := by decide
    rw [text_isInfix_iff]
    cases useColor <;> simp [hcolors] <;> omega
  · rintro rfl
    rw [← length_headerBody ioctl text, headerText, withString, if_pos rfl]
    split_ifs with hfits
    · exact iff_of_true (List.suffix_append _ _) hfits
    · refine iff_of_false (fun hsuffix => getLast?_headerBody true ioctl text ?_) hfits
      obtain ⟨front, hfront⟩ := hsuffix
      rw [← hfront]
      simp [Color.reset, escape, ascii]

/-- A header of the program on a terminal whose width is not known. -/
theorem headerLine_layout_smtp : ∃ line,
    headerLine true none (ascii "Starting SMTP Service") [] = .ok line ∧
      ascii "Starting SMTP Service" <:+: line ∧ Color.reset <:+ line := by
  have hnul : 0 ∉ ascii "Starting SMTP Service" := by decide
  obtain ⟨line, hline, -, htext, hreset⟩ := headerLine_layout hnul (by decide) []
  exact ⟨line, hline, htext.mpr (by decide), (hreset rfl).mpr (by decide)⟩

end Federated.Tool
