import Federated.Service.HttpResponses
import Federated.Service.HttpContentType
import Federated.Service.LineTokens

/-!
# Fetching a page

A client writes a request and reads the reply: the status, the header lines up to the blank one,
and as many bytes as they say. It gets the page whose name is the document root with the path as
it stands behind it.
-/

namespace Federated.Service

open Library

/-! ## The client -/

/-- A request line, and the headers behind it. -/
def requestText (method path version headers : Bytes) : Bytes :=
  method ++ 32 :: (path ++ 32 :: (version ++ 13 :: 10 :: headers))

/-- The lines in front of a blank one, and what is behind it. -/
def readLines (bytes : Bytes) : Option (List Bytes × Bytes) :=
  match h : firstLineEnd bytes with
  | none => none
  | some lineEnd =>
    if lineEnd = 2 then some ([], bytes.drop 2)
    else (readLines (bytes.drop lineEnd)).map fun read =>
      (bytes.take (lineEnd - 2) :: read.1, read.2)
termination_by bytes.length
decreasing_by
  have hpos := two_le_firstLineEnd h
  cases bytes with
  | nil => cases h
  | cons c rest => grind

def contentTypeName : Bytes := ascii "Content-Type: "

/-- What is behind the name of a header. -/
def headerField (name : Bytes) (lines : List Bytes) : Option Bytes :=
  (lines.find? (name <+: ·)).map (·.drop name.length)

structure HttpReply where
  status : Nat
  contentType : Bytes
  body : Bytes
  deriving DecidableEq, Repr

/-- The reply that the bytes of a response stand for. -/
def readReply (bytes : Bytes) : Option HttpReply := do
  let (lines, rest) ← readLines bytes
  let statusLine ← lines.head?
  let contentType ← headerField contentTypeName lines
  let contentLength ← (headerField contentLengthName lines).map leadingNumber
  if rest.length < contentLength then none
  else some ⟨leadingNumber (statusLine.drop 9), contentType, rest.take contentLength⟩

/-! ## Reading a response -/

theorem firstLineEnd_eq_none {line : Bytes} (h : 13 ∉ line) : firstLineEnd line = none := by
  induction line with
  | nil => rfl
  | cons c line ih =>
    rw [List.mem_cons, not_or] at h
    rw [firstLineEnd, if_neg fun hend => h.1 hend.1.symm, ih h.2]
    rfl

/-- A line without a line end in it ends behind its last character. -/
theorem firstLineEnd_line {line : Bytes} (h : firstLineEnd line = none) (rest : Bytes) :
    firstLineEnd (line ++ 13 :: 10 :: rest) = some (line.length + 2) := by
  induction line with
  | nil => simp [firstLineEnd]
  | cons c line ih =>
    rw [firstLineEnd] at h
    split_ifs at h with hend
    have hhead : ¬ (c = 13 ∧ (line ++ 13 :: 10 :: rest).head? = some 10) := by
      cases line with
      | nil => simp
      | cons d line => simpa using hend
    rw [List.cons_append, firstLineEnd, if_neg hhead, ih (Option.map_eq_none_iff.mp h)]
    rfl

theorem readLines_of_end {bytes : Bytes} {lineEnd : Nat} (h : firstLineEnd bytes = some lineEnd) :
    readLines bytes =
      if lineEnd = 2 then some ([], bytes.drop 2)
      else (readLines (bytes.drop lineEnd)).map fun read =>
        (bytes.take (lineEnd - 2) :: read.1, read.2) := by
  rw [readLines]
  split
  case h_1 hnone =>
    rw [h] at hnone
    cases hnone
  case h_2 lineEnd' hsome =>
    rw [h] at hsome
    cases hsome
    rfl

/-- The lines of a block are read back, and what is behind it. -/
theorem readLines_spread {lines : List Bytes} (hne : ∀ line ∈ lines, line ≠ [])
    (hclean : ∀ line ∈ lines, 13 ∉ line) (body : Bytes) :
    readLines (LineBlock.spread 13 10 lines ++ body) = some (lines, body) := by
  induction lines with
  | nil =>
    have hend : firstLineEnd (13 :: 10 :: body) = some 2 := by simp [firstLineEnd]
    exact (readLines_of_end hend).trans (if_pos rfl)
  | cons line lines ih =>
    obtain ⟨hline, hlines⟩ := List.forall_mem_cons.mp hne
    obtain ⟨hcline, hclines⟩ := List.forall_mem_cons.mp hclean
    have hpos := List.length_pos_iff.mpr hline
    have hend := firstLineEnd_line (firstLineEnd_eq_none hcline)
      (LineBlock.spread 13 10 lines ++ body)
    have hdrop (rest : Bytes) : (line ++ 13 :: 10 :: rest).drop (line.length + 2) = rest := by
      rw [List.drop_append, List.drop_of_length_le (by omega), Nat.add_sub_cancel_left]
      rfl
    rw [LineBlock.spread_cons, List.append_assoc, List.cons_append, List.cons_append,
      readLines_of_end hend, if_neg (by omega), hdrop, ih hlines hclines, Option.map_some,
      Nat.add_sub_cancel, List.take_left]

/-- What a client reads from a response. -/
def HttpResponse.reply (resp : HttpResponse) : HttpReply :=
  ⟨resp.statusCode, resp.contentType.str, resp.body⟩

theorem leadingNumber_ascii_toString (n : Nat) : leadingNumber (ascii (toString n)) = n := by
  have hall : ∀ c ∈ ascii (toString n), decide (48 ≤ c.toNat ∧ c.toNat ≤ 57) = true := fun c hc =>
    decide_eq_true (digit_of_mem_ascii_toString hc)
  rw [leadingNumber, List.takeWhile_eq_self_iff.mpr hall, decimalOf_ascii_toString]

theorem HttpResponse.headerField_contentType (resp : HttpResponse) :
    headerField contentTypeName resp.headerLines = some resp.contentType.str := by
  have hstatus : ¬ contentTypeName <+:
      ascii ("HTTP/1.1 " ++ toString resp.statusCode ++ " ") ++ resp.statusText.str := by
    rw [ascii_append, ascii_append, List.append_assoc, List.append_assoc]
    intro h
    have hfront := List.prefix_of_prefix_length_le (List.prefix_append _ _) h (by decide)
    exact absurd hfront (by decide)
  rw [headerField, headerLines, List.find?_cons_of_neg (by simpa using hstatus),
    List.find?_cons_of_pos (by simp [contentTypeName]), Option.map_some, contentTypeName,
    List.drop_left]

theorem HttpResponse.headerField_contentLength (resp : HttpResponse) :
    headerField contentLengthName resp.headerLines =
      some (ascii (toString resp.contentLength)) := by
  rw [headerField, ← List.head?_filter, resp.filter_headerLines, List.head?_cons, Option.map_some,
    List.drop_left]

/-- A response that says how long its body is is read back. -/
theorem HttpResponse.Exact.readReply_eq {resp : HttpResponse} (h : resp.Exact) :
    readReply (resp.header ++ resp.body) = some resp.reply := by
  have hlines : readLines (resp.header ++ resp.body) = some (resp.headerLines, resp.body) := by
    rw [← resp.bytes_headerBlock h.toClean]
    exact readLines_spread (resp.headerBlock h.toClean).nonempty
      (resp.headerBlock h.toClean).clean resp.body
  have hstatus : leadingNumber ((ascii ("HTTP/1.1 " ++ toString resp.statusCode ++ " ") ++
      resp.statusText.str).drop 9) = resp.statusCode := by
    have hstart : (ascii "HTTP/1.1 ").length = 9 := rfl
    rw [ascii_append, ascii_append, List.append_assoc, List.append_assoc, ← hstart, List.drop_left]
    exact leadingNumber_toString resp.statusCode (by decide) resp.statusText.str
  have hhead : resp.headerLines.head? =
      some (ascii ("HTTP/1.1 " ++ toString resp.statusCode ++ " ") ++ resp.statusText.str) := rfl
  simp only [readReply, hlines, hhead, Option.bind_eq_bind, Option.bind_some, hstatus,
    resp.headerField_contentType, resp.headerField_contentLength, Option.map_some,
    leadingNumber_ascii_toString, h.contentLength, Nat.lt_irrefl, if_false, List.take_length]
  rfl

/-! ## The page -/

variable {fs : FileSystem} {config : HttpServerConfig} {req : HttpRequest}

/-- What the document root has under a path without `..`: a file of at most 1 MB that can be read
to its end. -/
def page (fs : FileSystem) (root path : Bytes) : Option Bytes :=
  if dotDot <:+: path then none
  else
    (fs.fopen (target fs root path)).bind fun file =>
      if 0 ≤ file.size ∧ file.size ≤ 1024 * 1024 ∧ file.size ≤ file.content.length then
        some (file.content.take file.size.toNat)
      else none

def pageResponse (fs : FileSystem) (root path : Bytes) : HttpResponse :=
  match page fs root path with
  | some content => .of 200 "OK" (getMimeType path) content
  | none => .of 404 "Not Found" "text/html" notFoundBody

theorem httpHandleGet_fst (fs : FileSystem) (req : HttpRequest) (config : HttpServerConfig) :
    (httpHandleGet fs req config).1 = pageResponse fs config.documentRoot.str req.path.str := by
  have hroom : fileBuffer.size = 1024 * 1024 := by
    rw [fileBuffer, Buffer.ofBlock, List.length_replicate]
  simp only [httpHandleGet, httpReadFile, str_fullPath, pageResponse, page]
  by_cases hdots : dotDot <:+: req.path.str
  · rw [if_pos hdots, if_pos hdots]
  rw [if_neg hdots, if_neg hdots]
  cases hopen : fs.fopen (target fs config.documentRoot.str req.path.str) with
  | none => rfl
  | some file =>
    have hlength : (file.content.take file.size.toNat).length =
        min file.size.toNat file.content.length := List.length_take
    dsimp only [Option.bind_some]
    by_cases hsize : file.size < 0 ∨ file.size > fileBuffer.size
    · rw [if_pos hsize, if_neg (by omega)]
    by_cases hread : ((file.content.take file.size.toNat).length : Int) ≠ file.size
    · rw [if_neg hsize, if_pos hread, if_neg (by omega)]
    · rw [if_neg hsize, if_neg hread, if_pos (by omega)]
      simp [Buffer.bytes, overwrite]

theorem exact_pageResponse (fs : FileSystem) (root path : Bytes) :
    (pageResponse fs root path).Exact := by
  rw [pageResponse]
  split
  · exact HttpResponse.exact_of 200 (by decide) (notMem_getMimeType _) _
  · exact HttpResponse.exact_of 404 (by decide) (by decide) _

/-- What a client is to get for a path. -/
def pageReply (fs : FileSystem) (root path : Bytes) : HttpReply :=
  match page fs root path with
  | some content => ⟨200, ascii (getMimeType path), content⟩
  | none => ⟨404, ascii "text/html", notFoundBody⟩

theorem reply_pageResponse (fs : FileSystem) (root path : Bytes) :
    (pageResponse fs root path).reply = pageReply fs root path := by
  rw [pageResponse, pageReply]
  cases page fs root path with
  | none => rfl
  | some content =>
    have htype := mimeTexts_spec.1 _ (getMimeType_mem path)
    simp only [HttpResponse.reply, HttpResponse.of, htype]

/-! ## Fetching -/

/-- A path and a version that a request line can carry. -/
structure Carries (path version : Bytes) : Prop where
  blank : 32 ∉ path
  nul : 0 ∉ path
  fits : path.length ≤ 511
  pathEnd : firstLineEnd path = none
  versionEnd : firstLineEnd version = none

theorem Carries.readHttpRequest {path version : Bytes} (h : Carries path version)
    (headers : Bytes) :
    ∃ req, readHttpRequest (requestText (ascii "GET") path version headers) = .ok (some req) ∧
      req.method.str = ascii "GET" ∧ req.path.str = path := by
  set line := ascii "GET" ++ 32 :: (path ++ 32 :: version) with hline
  have hrequest : requestText (ascii "GET") path version headers =
      line ++ 13 :: 10 :: headers := by
    simp [requestText, hline]
  have hnone : firstLineEnd line = none := by
    have hversion : firstLineEnd (32 :: version) = none := by
      rw [firstLineEnd, if_neg (by simp), h.versionEnd, Option.map_none]
    have hrest : firstLineEnd (32 :: (path ++ 32 :: version)) = none := by
      rw [firstLineEnd, if_neg (by simp), firstLineEnd_append h.pathEnd, hversion, Option.map_none,
        Option.map_none]
    rw [hline, firstLineEnd_append (by decide), hrest, Option.map_none]
  have hblank : ∀ c ∈ path, isBlank c = false := by
    intro c hc
    simpa [isBlank] using fun heq : c = 32 => h.blank (heq ▸ hc)
  have htokens : HttpTokens line (ascii "GET") path (token isLineEnd version).1 :=
    ⟨path ++ 32 :: version, version, (token isLineEnd version).2,
      ⟨rfl, by simp [ascii, isBlank], by simp [isBlank]⟩, ⟨rfl, hblank, by simp [isBlank]⟩,
      splits_token _ _⟩
  have hparse (req : HttpRequest) : parseHttpRequestLine line req = some { req with
      method := .fill 16 (ascii "GET"), path := .fill 512 path
      version := .fill 16 (token isLineEnd version).1 } :=
    parseHttpRequestLine_eq_some_iff.mpr ⟨_, _, _, htokens, rfl⟩
  have hpath : (CharArray.fill 512 path).str = path := by
    rw [CharArray.str_fill 512 h.nul, List.take_of_length_le h.fits]
  rw [hrequest, Service.readHttpRequest, requestLineEnd_eq (by simp), firstLineEnd_line hnone,
    ok_bind]
  simp only [Nat.add_sub_cancel, List.take_left, hparse]
  split_ifs
  · refine ⟨_, rfl, ?_, ?_⟩
    · rw [parseHttpHeaders]
      split <;> rfl
    · rw [parseHttpHeaders]
      split <;> exact hpath
  · exact ⟨_, rfl, rfl, hpath⟩

/-- What a client gets for a path. -/
def fetch (fs : FileSystem) (config : HttpServerConfig) (path version headers : Bytes)
    (response : Buffer) : Option HttpReply :=
  match handleRequest fs config (requestText (ascii "GET") path version headers) response with
  | .ok (.ok, output, _) => readReply output.bytes
  | _ => none

/-- A client gets the page that the document root and the path name, if the response fits. -/
theorem Carries.fetch_eq {path version : Bytes} (h : Carries path version) (fs : FileSystem)
    (config : HttpServerConfig) (headers : Bytes) (response : Buffer) {resp : HttpResponse}
    (hresp : pageResponse fs config.documentRoot.str path = resp) :
    fetch fs config path version headers response =
      if resp.header.length + resp.body.length ≤ response.size then
        some (pageReply fs config.documentRoot.str path)
      else none := by
  rw [← reply_pageResponse, hresp]
  obtain ⟨req, hread, hmethod, hpath⟩ := h.readHttpRequest headers
  have hserve : (httpServe fs config req).1 = resp := by
    rw [httpServe, if_pos hmethod, httpHandleGet_fst, hpath, hresp]
  have hexact : resp.Exact := hresp ▸ exact_pageResponse fs config.documentRoot.str path
  have hline : ¬ resp.statusLine.length ≥ 2048 := by
    have hok (type : String) (body : Bytes) : (HttpResponse.of 200 "OK" type body).statusLine =
        (HttpResponse.of 200 "OK" "" []).statusLine := rfl
    rw [← hresp, pageResponse]
    split
    · rw [hok]
      decide
    · decide
  rw [fetch, handleRequest, hread, ok_bind]
  simp only [hserve, buildHttpResponse, if_neg hline]
  by_cases hfits : resp.header.length + resp.body.length ≤ response.size
  · rw [if_neg (Nat.not_lt.mpr hfits), if_pos hfits]
    simp only [pure, Except.pure]
    rw [bytes_filled, hexact.readReply_eq]
  · rw [if_pos (Nat.lt_of_not_le hfits), if_neg hfits]
    rfl

end Federated.Service
