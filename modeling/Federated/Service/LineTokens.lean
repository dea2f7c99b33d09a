import Federated.Service.Http
import Federated.Service.Imap
import Federated.Service.Smtp

/-!
# Fields against the tokens of a line

The three line parsers copy the tokens of a line into arrays, and stop to copy where an array
is full while they go on in the line. Which tokens a line has is stated by how it is put
together; a line is read exactly if each of its tokens fits.
-/

namespace Federated.Service

/-! ## The tokens of a line -/

variable {line name args tag method path version : Bytes}

/-- A line starts with a token, up to where one of the characters that stop it comes first. -/
def Splits (stop : UInt8 → Bool) (line token rest : Bytes) : Prop :=
  line = token ++ rest ∧ (∀ c ∈ token, stop c = false) ∧ ∀ c ∈ rest.head?, stop c = true

/-- A method and a path with a blank behind each, and a version up to the end of the line. -/
def HttpTokens (line method path version : Bytes) : Prop :=
  ∃ behind rest tail, Splits isBlank line method (32 :: behind) ∧
    Splits isBlank behind path (32 :: rest) ∧ Splits isLineEnd rest version tail

/-- A name, and behind a blank what it is applied to, up to the end of the line. -/
def CommandTokens (line name args : Bytes) : Prop :=
  ∃ rest, Splits endsName line name rest ∧
    ((∃ behind tail, rest = 32 :: behind ∧ Splits isLineEnd behind args tail) ∨
      rest.head? ≠ some 32 ∧ args = [])

/-- A tag with a blank behind it, and a command. -/
def ImapTokens (line tag name args : Bytes) : Prop :=
  ∃ behind, Splits isBlank line tag (32 :: behind) ∧ CommandTokens behind name args

/-- A command in a line that is not empty. -/
def SmtpTokens (line name args : Bytes) : Prop := line ≠ [] ∧ CommandTokens line name args

theorem Splits.token_eq {stop : UInt8 → Bool} {s t rest : Bytes} (h : Splits stop s t rest) :
    token stop s = (t, rest) := token_eq_iff.mpr h

theorem splits_token (stop : UInt8 → Bool) (s : Bytes) :
    Splits stop s (token stop s).1 (token stop s).2 := token_eq_iff.mp rfl

theorem Splits.unique {stop : UInt8 → Bool} {s t rest t' rest' : Bytes} (h : Splits stop s t rest)
    (h' : Splits stop s t' rest') : t = t' ∧ rest = rest' :=
  Prod.mk.inj (h.token_eq.symm.trans h'.token_eq)

theorem CommandTokens.unique {name' args' : Bytes} (h : CommandTokens line name args)
    (h' : CommandTokens line name' args') : name = name' ∧ args = args' := by
  obtain ⟨rest, hname, hargs⟩ := h
  obtain ⟨rest', hname', hargs'⟩ := h'
  obtain ⟨rfl, rfl⟩ := hname.unique hname'
  refine ⟨rfl, ?_⟩
  rcases hargs with ⟨behind, tail, rfl, hargs⟩ | ⟨hhead, rfl⟩ <;>
    rcases hargs' with ⟨behind', tail', hrest, hargs'⟩ | ⟨hhead', rfl⟩
  · obtain ⟨-, rfl⟩ := List.cons.inj hrest
    exact (hargs.unique hargs').1
  · exact absurd rfl hhead'
  · exact absurd (by rw [hrest]; rfl) hhead
  · rfl

/-- Every line has a name. -/
theorem exists_commandTokens (line : Bytes) : ∃ name args, CommandTokens line name args := by
  by_cases hhead : (token endsName line).2.head? = some 32
  · obtain ⟨behind, hbehind⟩ := List.head?_eq_some_iff.mp hhead
    exact ⟨_, _, _, splits_token endsName line, .inl ⟨behind, _, hbehind, splits_token _ _⟩⟩
  · exact ⟨_, _, _, splits_token endsName line, .inr ⟨hhead, rfl⟩⟩

theorem HttpTokens.unique {method' path' version' : Bytes} (h : HttpTokens line method path version)
    (h' : HttpTokens line method' path' version') :
    method = method' ∧ path = path' ∧ version = version' := by
  obtain ⟨behind, rest, tail, hmethod, hpath, hversion⟩ := h
  obtain ⟨behind', rest', tail', hmethod', hpath', hversion'⟩ := h'
  obtain ⟨rfl, hbehind⟩ := hmethod.unique hmethod'
  obtain ⟨-, rfl⟩ := List.cons.inj hbehind
  obtain ⟨rfl, hrest⟩ := hpath.unique hpath'
  obtain ⟨-, rfl⟩ := List.cons.inj hrest
  exact ⟨rfl, rfl, (hversion.unique hversion').1⟩

theorem ImapTokens.unique {tag' name' args' : Bytes} (h : ImapTokens line tag name args)
    (h' : ImapTokens line tag' name' args') : tag = tag' ∧ name = name' ∧ args = args' := by
  obtain ⟨behind, htag, hcommand⟩ := h
  obtain ⟨behind', htag', hcommand'⟩ := h'
  obtain ⟨rfl, hbehind⟩ := htag.unique htag'
  obtain ⟨-, rfl⟩ := List.cons.inj hbehind
  exact ⟨rfl, hcommand.unique hcommand'⟩

/-! ## What the parsers make of them -/

/-- A request line is read exactly if it has its three tokens; each is cut off where its
field is full. -/
theorem parseHttpRequestLine_eq_some_iff {req result : HttpRequest} :
    parseHttpRequestLine line req = some result ↔
      ∃ method path version, HttpTokens line method path version ∧
        result = { req with
          method := .fill 16 method, path := .fill 512 path, version := .fill 16 version } := by
  constructor
  · intro h
    rw [parseHttpRequestLine] at h
    split_ifs at h
    split at h
    · cases h
    rename_i method c behind hmethod
    split at h
    · cases h
    rename_i path d rest hpath
    have hmethod := token_eq_iff.mp hmethod
    have hpath := token_eq_iff.mp hpath
    obtain rfl : c = 32 := by simpa [isBlank] using hmethod.2.2 c rfl
    obtain rfl : d = 32 := by simpa [isBlank] using hpath.2.2 d rfl
    exact ⟨method, path, _, ⟨behind, rest, _, hmethod, hpath, splits_token _ _⟩,
      (Option.some.inj h).symm⟩
  · rintro ⟨method, path, version, ⟨behind, rest, tail, hmethod, hpath, hversion⟩, rfl⟩
    have hline : line.length ≠ 0 := by simp [hmethod.1]
    rw [parseHttpRequestLine, if_neg hline, hmethod.token_eq]
    simp only [hpath.token_eq, hversion.token_eq]

/-- A command is read from every line that is not empty. -/
theorem parseSmtpCommand_of_tokens (h : SmtpTokens line name args) (cmd : SmtpCommand) :
    parseSmtpCommand line cmd = (true, ⟨.fill 16 name, .fill 512 args⟩) := by
  obtain ⟨hline, rest, hname, hargs⟩ := h
  rw [parseSmtpCommand, if_neg (by simpa using hline), hname.token_eq]
  rcases hargs with ⟨behind, tail, rfl, hargs⟩ | ⟨hhead, rfl⟩
  · simp only [hargs.token_eq]
  · -- Behind the name is nothing or the end of the line.
    have hempty : token isLineEnd rest = ([], rest) := by
      refine token_eq_iff.mpr ⟨rfl, by simp, fun c hc => ?_⟩
      have hstop := hname.2.2 c hc
      have hblank : c ≠ 32 := fun heq => hhead (heq ▸ hc)
      simpa [endsName, isBlank, hblank] using hstop
    split
    · grind
    · grind

theorem parseImapCommand_of_tokens (h : ImapTokens line tag name args) (cmd : ImapCommand) :
    parseImapCommand line cmd = (true, ⟨.fill 16 tag, .fill 16 name, .fill 512 args⟩) := by
  obtain ⟨behind, htag, rest, hname, hargs⟩ := h
  have hline : line.length ≠ 0 := by simp [htag.1]
  rw [parseImapCommand, if_neg hline, htag.token_eq]
  simp only [hname.token_eq]
  rcases hargs with ⟨behind, tail, rfl, hargs⟩ | ⟨hhead, rfl⟩
  · simp only [hargs.token_eq]
  · split
    · grind
    · rename_i heq
      obtain ⟨rfl, -⟩ := Prod.mk.inj heq
      rfl

/-- Only a line with a tag is read. -/
theorem exists_tokens_of_parseImapCommand {cmd : ImapCommand}
    (h : (parseImapCommand line cmd).1 = true) :
    ∃ tag name args, ImapTokens line tag name args := by
  rw [parseImapCommand] at h
  split_ifs at h
  split at h
  · cases h
  rename_i tag c behind htag
  have htag := token_eq_iff.mp htag
  obtain rfl : c = 32 := by simpa [isBlank] using htag.2.2 c rfl
  obtain ⟨name, args, hcommand⟩ := exists_commandTokens behind
  exact ⟨tag, name, args, behind, htag, hcommand⟩

/-! ## Fields and tokens -/

/-- A field is compared by the bytes in front of its terminator, or as a C string. -/
inductive Reading where
  | bytes
  | string

def Reading.read {n : Nat} (reading : Reading) (field : CharArray n) : Bytes :=
  match reading with
  | .bytes => field.chars
  | .string => field.str

/-- A token can be read back from a field of this size. -/
def Reading.Fits (reading : Reading) (n : Nat) (token : Bytes) : Prop :=
  match reading with
  | .bytes => token.length ≤ n - 1
  | .string => token.length ≤ n - 1 ∧ 0 ∉ token

theorem Reading.read_fill (reading : Reading) (n : Nat) (token : Bytes) :
    reading.read (CharArray.fill n token) = token ↔ reading.Fits n token := by
  have hbytes : (CharArray.fill n token).chars = token ↔ token.length ≤ n - 1 := by
    rw [CharArray.fill, List.take_eq_self_iff]
  cases reading with
  | bytes => exact hbytes
  | string =>
    constructor
    · intro h
      have hzero : 0 ∉ token := h ▸ CharArray.zero_notMem_str _
      exact ⟨h ▸ CharArray.length_str_le _, hzero⟩
    · rintro ⟨hlength, hzero⟩
      rw [read, CharArray.str_fill n hzero, List.take_of_length_le hlength]

variable (reading : Reading) (line : Bytes)

/-- If the request line is accepted, its fields are its tokens. -/
def HttpExact (req : HttpRequest) : Prop :=
  ∀ result, parseHttpRequestLine line req = some result →
    HttpTokens line (reading.read result.method) (reading.read result.path)
      (reading.read result.version)

/-- If the IMAP line is accepted, the fields of the command are its tokens. -/
def ImapExact (cmd : ImapCommand) : Prop :=
  (parseImapCommand line cmd).1 = true →
    ImapTokens line (reading.read (parseImapCommand line cmd).2.tag)
      (reading.read (parseImapCommand line cmd).2.name)
      (reading.read (parseImapCommand line cmd).2.args)

/-- If the SMTP line is accepted, the fields of the command are its tokens. -/
def SmtpExact (cmd : SmtpCommand) : Prop :=
  (parseSmtpCommand line cmd).1 = true →
    SmtpTokens line (reading.read (parseSmtpCommand line cmd).2.cmd)
      (reading.read (parseSmtpCommand line cmd).2.arg)

/-- Each token of a request line fits its field. -/
def HttpFits : Prop := ∀ method path version, HttpTokens line method path version →
  reading.Fits 16 method ∧ reading.Fits 512 path ∧ reading.Fits 16 version

def ImapFits : Prop := ∀ tag name args, ImapTokens line tag name args →
  reading.Fits 16 tag ∧ reading.Fits 16 name ∧ reading.Fits 512 args

def SmtpFits : Prop := ∀ name args, SmtpTokens line name args →
  reading.Fits 16 name ∧ reading.Fits 512 args

theorem httpExact_iff (req : HttpRequest) : HttpExact reading line req ↔ HttpFits reading line := by
  constructor
  · intro h method path version htokens
    have hexact := h _ (parseHttpRequestLine_eq_some_iff.mpr ⟨_, _, _, htokens, rfl⟩)
    simpa only [reading.read_fill] using hexact.unique htokens
  · intro h result hparse
    obtain ⟨method, path, version, htokens, rfl⟩ := parseHttpRequestLine_eq_some_iff.mp hparse
    obtain ⟨hmethod, hpath, hversion⟩ := h _ _ _ htokens
    rw [← reading.read_fill] at hmethod hpath hversion
    rwa [hmethod, hpath, hversion]

theorem imapExact_iff (cmd : ImapCommand) : ImapExact reading line cmd ↔ ImapFits reading line := by
  constructor
  · intro h tag name args htokens
    have hparse := parseImapCommand_of_tokens htokens cmd
    rw [ImapExact, hparse] at h
    simpa only [reading.read_fill] using (h rfl).unique htokens
  · intro h haccept
    obtain ⟨tag, name, args, htokens⟩ := exists_tokens_of_parseImapCommand haccept
    obtain ⟨htag, hname, hargs⟩ := h _ _ _ htokens
    rw [← reading.read_fill] at htag hname hargs
    rw [parseImapCommand_of_tokens htokens]
    rwa [htag, hname, hargs]

theorem smtpExact_iff (cmd : SmtpCommand) : SmtpExact reading line cmd ↔ SmtpFits reading line := by
  constructor
  · intro h name args htokens
    rw [SmtpExact, parseSmtpCommand_of_tokens htokens cmd] at h
    simpa only [reading.read_fill] using (h rfl).2.unique htokens.2
  · intro h haccept
    obtain ⟨name, args, hcommand⟩ := exists_commandTokens line
    have htokens : SmtpTokens line name args := by
      refine ⟨fun hline => ?_, hcommand⟩
      simp [parseSmtpCommand, hline] at haccept
    obtain ⟨hname, hargs⟩ := h _ _ htokens
    rw [← reading.read_fill] at hname hargs
    rw [parseSmtpCommand_of_tokens htokens]
    rwa [hname, hargs]

/-- A line that is accepted is read as its tokens if and only if each of them fits its field. -/
theorem parsersExact_iff (req : HttpRequest) (imap : ImapCommand) (smtp : SmtpCommand) :
    (HttpExact reading line req ↔ HttpFits reading line) ∧
    (ImapExact reading line imap ↔ ImapFits reading line) ∧
    (SmtpExact reading line smtp ↔ SmtpFits reading line) :=
  ⟨httpExact_iff reading line req, imapExact_iff reading line imap, smtpExact_iff reading line smtp⟩

/-- A tag of sixteen characters loses the last one. -/
theorem not_imapExact_long :
    ¬ ImapExact .bytes (ascii "a234567890123456 NOOP\r\n") ⟨.empty 16, .empty 16, .empty 512⟩ := by
  rw [imapExact_iff]
  intro h
  have htokens : ImapTokens (ascii "a234567890123456 NOOP\r\n") (ascii "a234567890123456")
      (ascii "NOOP") [] :=
    ⟨ascii "NOOP\r\n", token_eq_iff.mp rfl, ascii "\r\n", token_eq_iff.mp rfl,
      .inr ⟨by decide, rfl⟩⟩
  have hfits := (h _ _ _ htokens).1
  revert hfits
  simp only [Reading.Fits]
  decide

end Federated.Service
