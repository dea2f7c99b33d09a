import Federated.Service.Http
import Federated.Service.Text
import Federated.Library.LineBlock

/-!
# Responses

A response is a block of header lines and a body. The lines are fixed texts and decimal
numbers, which contain no line end, so that the blank line is only behind them.
-/

namespace Federated.Service

open Library

/-! ## Texts without a line end -/

/-- A decimal number contains no line end. -/
theorem notMem_ascii_toString (n : Nat) : (13 : UInt8) ∉ ascii (toString n) := by
  intro hmem
  have hdigit := digit_of_mem_ascii_toString hmem
  revert hdigit
  decide

theorem CharArray.notMem_str_fill {n : Nat} {src : Bytes} {c : UInt8} (h : c ∉ src) :
    c ∉ (CharArray.fill n src).str := fun hmem =>
  h (List.mem_of_mem_take ((List.takeWhile_sublist _).subset hmem))

/-! ## The header block -/

/-- The texts of a response contain no line end. -/
structure HttpResponse.Clean (resp : HttpResponse) : Prop where
  statusText : 13 ∉ resp.statusText.str
  contentType : 13 ∉ resp.contentType.str

def contentLengthName : Bytes := ascii "Content-Length: "

/-- The lines of the header block. -/
def HttpResponse.headerLines (resp : HttpResponse) : List Bytes :=
  [ascii ("HTTP/1.1 " ++ toString resp.statusCode ++ " ") ++ resp.statusText.str,
    ascii "Content-Type: " ++ resp.contentType.str,
    contentLengthName ++ ascii (toString resp.contentLength), ascii "Connection: close"]

def HttpResponse.headerBlock (resp : HttpResponse) (h : resp.Clean) :
    LineBlock (13 : UInt8) 10 where
  lines := resp.headerLines
  nonempty := by
    simp [headerLines, ascii, contentLengthName]
  clean := by
    have hstatus := notMem_ascii_toString resp.statusCode
    have hlength := notMem_ascii_toString resp.contentLength
    have hstart : 13 ∉ ascii "HTTP/1.1 " := by decide
    have hspace : 13 ∉ ascii " " := by decide
    have htype : 13 ∉ ascii "Content-Type: " := by decide
    have hname : 13 ∉ contentLengthName := by decide
    have hclose : 13 ∉ ascii "Connection: close" := by decide
    simp only [headerLines, ascii_append, List.forall_mem_cons, List.mem_append, not_or]
    exact ⟨⟨⟨⟨hstart, hstatus⟩, hspace⟩, h.statusText⟩, ⟨htype, h.contentType⟩, ⟨hname, hlength⟩,
      hclose, nofun⟩

/-- The header is the block of its lines. -/
theorem HttpResponse.bytes_headerBlock (resp : HttpResponse) (h : resp.Clean) :
    (resp.headerBlock h).bytes = resp.header := by
  have hend : ascii "\r\n" = [13, 10] := by decide
  have hclose : ascii "Connection: close\r\n" = ascii "Connection: close" ++ [13, 10] := by decide
  have hname : ascii "Content-Length: " = contentLengthName := rfl
  simp only [header, statusLine, ascii_append, hend, hclose, hname, LineBlock.bytes, headerBlock,
    headerLines, LineBlock.spread_cons, LineBlock.spread_nil]
  simp

/-- A line that begins otherwise is not about the length. -/
theorem not_contentLengthName (start : Bytes) (hlength : start.length ≤ contentLengthName.length)
    (h : ¬ start <+: contentLengthName) (rest : Bytes) : ¬ contentLengthName <+: start ++ rest :=
  fun hname => h (List.prefix_of_prefix_length_le (List.prefix_append _ _) hname hlength)

/-- One line of the header is about the length. -/
theorem HttpResponse.filter_headerLines (resp : HttpResponse) :
    resp.headerLines.filter (contentLengthName <+: ·) =
      [contentLengthName ++ ascii (toString resp.contentLength)] := by
  have hstatus := not_contentLengthName (ascii "HTTP/1.1 ") (by decide) (by decide)
  have htype := not_contentLengthName (ascii "Content-Type: ") (by decide) (by decide)
  have hclose : ¬ contentLengthName <+: ascii "Connection: close" := by decide
  simp only [headerLines, ascii_append, List.append_assoc]
  rw [List.filter_cons_of_neg (by simpa using hstatus _), List.filter_cons_of_neg
    (by simpa using htype _), List.filter_cons_of_pos (by simp), List.filter_cons_of_neg
    (by simpa using hclose), List.filter_nil]

/-! ## What is served -/

theorem notMem_getMimeType (name : Bytes) : 13 ∉ ascii (getMimeType name) := by
  have htypes : ∀ t ∈ mimeTypes, 13 ∉ ascii t.2 := by decide
  exact getMimeType_cases (p := fun s => 13 ∉ ascii s) htypes (by decide) name

/-- A response with clean texts that says how long its body is. -/
structure HttpResponse.Exact (resp : HttpResponse) : Prop extends resp.Clean where
  contentLength : resp.contentLength = resp.body.length

theorem HttpResponse.exact_of {statusText contentType : String} (code : Nat)
    (hstatus : 13 ∉ ascii statusText) (htype : 13 ∉ ascii contentType) (body : Bytes) :
    (HttpResponse.of code statusText contentType body).Exact where
  statusText := CharArray.notMem_str_fill hstatus
  contentType := CharArray.notMem_str_fill htype
  contentLength := rfl

theorem exact_httpHandleGet (fs : FileSystem) (req : HttpRequest) (config : HttpServerConfig) :
    (httpHandleGet fs req config).1.Exact := by
  rw [httpHandleGet]
  split
  · exact HttpResponse.exact_of 200 (by decide) (notMem_getMimeType _) _
  · exact HttpResponse.exact_of 404 (by decide) (by decide) _

/-- The response to a request: exact, but for a `HEAD`, which gets that of the `GET` without its
body. -/
theorem httpServe_fst (fs : FileSystem) (config : HttpServerConfig) (req : HttpRequest) :
    (req.method.str ≠ ascii "HEAD" ∧ (httpServe fs config req).1.Exact) ∨
      req.method.str = ascii "HEAD" ∧
        (httpServe fs config req).1 = { (httpHandleGet fs req config).1 with body := [] } := by
  rw [httpServe]
  split_ifs with hget hhead
  · exact .inl ⟨by rw [hget]; decide, exact_httpHandleGet fs req config⟩
  · exact .inr ⟨hhead, rfl⟩
  · exact .inl ⟨hhead, HttpResponse.exact_of 500 (by decide) (by decide) _⟩

/-! ## The same request with another method -/

/-- The end of the first line, by recursion. -/
def firstLineEnd : Bytes → Option Nat
  | [] => none
  | c :: rest => if c = 13 ∧ rest.head? = some 10 then some 2 else (firstLineEnd rest).map (· + 1)

theorem requestLineEnd_eq {request : Bytes} (h : request ≠ []) :
    requestLineEnd request = .ok (firstLineEnd request) := by
  rw [requestLineEnd, if_neg h]
  refine congrArg Except.ok ?_
  induction request with
  | nil => exact absurd rfl h
  | cons c rest ih =>
    cases rest with
    | nil => simp [firstLineEnd]
    | cons d rest =>
      have hrest := ih (List.cons_ne_nil d rest)
      simp only [List.length_cons, Nat.add_sub_cancel] at hrest ⊢
      rw [List.range_succ_eq_map, List.find?_cons, firstLineEnd, ← hrest]
      by_cases hend : c = 13 ∧ d = 10
      · simp [hend]
      · have hfirst : decide ((c :: d :: rest)[0]? = some 13 ∧ (c :: d :: rest)[0 + 1]? = some 10) =
            false := by simpa using hend
        rw [if_neg (by simpa using hend), hfirst, List.find?_map, Option.map_map, Option.map_map]
        rfl

/-- Behind a blank, a line ends where it ends without what is in front of it. -/
theorem firstLineEnd_append {front : Bytes} (h : firstLineEnd front = none) (rest : Bytes) :
    firstLineEnd (front ++ 32 :: rest) = (firstLineEnd (32 :: rest)).map (· + front.length) := by
  induction front with
  | nil => simp
  | cons c front ih =>
    rw [firstLineEnd] at h
    split_ifs at h with hend
    have hhead : ¬ (c = 13 ∧ (front ++ 32 :: rest).head? = some 10) := by
      cases front with
      | nil => simp
      | cons d front => simpa using hend
    rw [List.cons_append, firstLineEnd, if_neg hhead, ih (Option.map_eq_none_iff.mp h),
      Option.map_map]
    rfl

theorem token_append {stop : UInt8 → Bool} {front : Bytes} (h : ∀ c ∈ front, stop c = false)
    {c : UInt8} (hc : stop c = true) (rest : Bytes) :
    token stop (front ++ c :: rest) = (front, c :: rest) := by
  rw [token, List.span_eq_takeWhile_dropWhile, List.takeWhile_append_of_pos (by simpa using h),
    List.dropWhile_append_of_pos (by simpa using h)]
  simp [hc]

/-- The method is what is in front of the first blank. -/
theorem parseHttpRequestLine_append {method : Bytes} (h : 32 ∉ method) (line : Bytes)
    (req : HttpRequest) : parseHttpRequestLine (method ++ 32 :: line) req =
      (parseHttpRequestLine (32 :: line) req).map fun req =>
        { req with method := .fill 16 method } := by
  have hblank : ∀ c ∈ method, isBlank c = false := by
    intro c hc
    simpa [isBlank] using fun heq : c = 32 => h (heq ▸ hc)
  have hnone : ∀ c ∈ ([] : Bytes), isBlank c = false := nofun
  have hempty : token isBlank (32 :: line) = ([], 32 :: line) := token_append hnone rfl _
  rw [parseHttpRequestLine, parseHttpRequestLine, token_append hblank rfl, hempty]
  simp only [List.length_append, List.length_cons, Nat.add_eq_zero_iff, Nat.succ_ne_zero, and_false,
    if_false]
  split <;> rfl

theorem two_le_firstLineEnd {request : Bytes} {lineEnd : Nat}
    (h : firstLineEnd request = some lineEnd) : 2 ≤ lineEnd := by
  induction request generalizing lineEnd with
  | nil => cases h
  | cons c rest ih =>
    rw [firstLineEnd] at h
    split_ifs at h with hend
    · cases h
      exact le_rfl
    · obtain ⟨e, he, rfl⟩ := Option.map_eq_some_iff.mp h
      exact Nat.le_succ_of_le (ih he)

theorem parseHttpHeaders_method (data : Bytes) (req : HttpRequest) (method : CharArray 16) :
    (parseHttpHeaders data { req with method }).2 =
      { (parseHttpHeaders data req).2 with method } := by
  rw [parseHttpHeaders, parseHttpHeaders]
  split <;> rfl

/-- Requests that differ in front of the first blank are read with different methods. -/
theorem readHttpRequest_append {method : Bytes} (h : 32 ∉ method)
    (hend : firstLineEnd method = none) (rest : Bytes) :
    readHttpRequest (method ++ 32 :: rest) =
      (readHttpRequest (32 :: rest)).map (Option.map fun req =>
        { req with method := .fill 16 method }) := by
  rw [readHttpRequest, readHttpRequest, requestLineEnd_eq (by simp), requestLineEnd_eq (by simp),
    firstLineEnd_append hend, ok_bind, ok_bind]
  cases hfirst : firstLineEnd (32 :: rest) with
  | none => rfl
  | some lineEnd =>
    obtain ⟨k, rfl⟩ : ∃ k, lineEnd = k + 3 := by
      rw [firstLineEnd, if_neg (by simp)] at hfirst
      obtain ⟨e, he, rfl⟩ := Option.map_eq_some_iff.mp hfirst
      have := two_le_firstLineEnd he
      exact ⟨e - 2, by omega⟩
    have htake : (method ++ 32 :: rest).take (k + 3 + method.length - 2) =
        method ++ 32 :: rest.take k := by
      rw [show k + 3 + method.length - 2 = method.length + (k + 1) by omega, List.take_append,
        List.take_of_length_le (by omega), Nat.add_sub_cancel_left, List.take_succ_cons]
    have hdrop : (method ++ 32 :: rest).drop (k + 3 + method.length) =
        (32 :: rest).drop (k + 3) := by
      rw [Nat.add_comm, List.drop_append, List.drop_of_length_le (by omega), List.nil_append,
        Nat.add_sub_cancel_left]
    have htake' : (32 :: rest).take (k + 3 - 2) = 32 :: rest.take k := rfl
    have hmore : k + 3 + method.length < (method ++ 32 :: rest).length ↔
        k + 3 < (32 :: rest).length := by
      rw [List.length_append]
      omega
    simp only [Option.map_some, htake, htake', hdrop, hmore, parseHttpRequestLine_append h]
    cases parseHttpRequestLine (32 :: rest.take k)
      ⟨.empty 16, .empty 512, .empty 16, .empty 2048⟩ with
    | none => rfl
    | some req =>
      simp only [Option.map_some]
      split_ifs
      · rw [parseHttpHeaders_method]
        rfl
      · rfl

/-- A request with another method in front of its first blank. -/
def withMethod (method request : Bytes) : Bytes := method ++ request.dropWhile (· ≠ 32)

/-- A request line without a blank is not read. -/
theorem parseHttpRequestLine_eq_none {line : Bytes} (h : 32 ∉ line) (req : HttpRequest) :
    parseHttpRequestLine line req = none := by
  have htoken : token isBlank line = (line, []) := by
    rw [token, List.span_eq_takeWhile_dropWhile]
    have hall : ∀ c ∈ line, (!isBlank c) = true := by
      intro c hc
      simpa [isBlank] using fun heq : c = 32 => h (heq ▸ hc)
    simp only [Bool.not_eq_true, Bool.decide_eq_false]
    rw [List.takeWhile_eq_self_iff.mpr hall, List.dropWhile_eq_nil_iff.mpr hall]
  rw [parseHttpRequestLine, htoken]
  split <;> rfl

theorem firstLineEnd_append_of_some {front : Bytes} {lineEnd : Nat}
    (h : firstLineEnd front = some lineEnd) (rest : Bytes) :
    firstLineEnd (front ++ rest) = some lineEnd ∧ lineEnd ≤ front.length := by
  induction front generalizing lineEnd with
  | nil => cases h
  | cons c front ih =>
    rw [firstLineEnd] at h
    rw [List.cons_append, firstLineEnd]
    split_ifs at h with hend
    · cases h
      obtain ⟨d, front, rfl⟩ : ∃ d more, front = d :: more :=
        List.exists_cons_of_ne_nil fun hnil => by simp [hnil] at hend
      exact ⟨if_pos (by simpa using hend), by simp⟩
    · obtain ⟨e, he, rfl⟩ := Option.map_eq_some_iff.mp h
      obtain ⟨hrest, hlength⟩ := ih he
      have hhead : ¬ (c = 13 ∧ (front ++ rest).head? = some 10) := by
        cases front with
        | nil => cases he
        | cons d front => simpa using hend
      rw [if_neg hhead, hrest]
      exact ⟨rfl, Nat.succ_le_succ hlength⟩

/-- A request whose first line ends in front of every blank is not read. -/
theorem readHttpRequest_eq_none {front : Bytes} {lineEnd : Nat} (hblank : 32 ∉ front)
    (h : firstLineEnd front = some lineEnd) (rest : Bytes) :
    readHttpRequest (front ++ rest) = .ok none := by
  obtain ⟨hend, hlength⟩ := firstLineEnd_append_of_some h rest
  have hne : front ++ rest ≠ [] := by
    intro hnil
    rw [hnil] at hend
    cases hend
  have hline : (front ++ rest).take (lineEnd - 2) = front.take (lineEnd - 2) :=
    List.take_append_of_le_length (by omega)
  rw [readHttpRequest, requestLineEnd_eq hne, hend, ok_bind]
  simp only [hline]
  rw [parseHttpRequestLine_eq_none fun hmem => hblank (List.mem_of_mem_take hmem)]
  rfl

/-- A request that is read with another method is the same but for its method. -/
theorem readHttpRequest_withMethod {request : Bytes} {req : HttpRequest} {method : Bytes}
    (hblank : 32 ∉ method) (hend : firstLineEnd method = none)
    (h : readHttpRequest request = .ok (some req)) :
    readHttpRequest (withMethod method request) =
      .ok (some { req with method := .fill 16 method }) := by
  set front := request.takeWhile (· ≠ 32) with hfront
  have hsplit : front ++ request.dropWhile (· ≠ 32) = request := List.takeWhile_append_dropWhile
  have hnone : 32 ∉ front := by
    intro hmem
    simpa using List.mem_takeWhile_imp hmem
  rw [withMethod]
  cases hfirst : firstLineEnd front with
  | some lineEnd =>
    rw [← hsplit, readHttpRequest_eq_none hnone hfirst] at h
    cases h
  | none =>
    cases hrest : request.dropWhile (· ≠ 32) with
    | nil =>
      rw [hrest, List.append_nil] at hsplit
      rw [← hsplit, readHttpRequest] at h
      by_cases hnil : front = []
      · rw [hnil] at h
        cases h
      · rw [requestLineEnd_eq hnil, hfirst] at h
        cases h
    | cons c rest =>
      obtain rfl : c = 32 := by
        have hhead := List.head?_dropWhile_not (· ≠ 32) request
        rw [hrest] at hhead
        simpa using hhead
      rw [hrest] at hsplit
      rw [← hsplit, readHttpRequest_append hnone hfirst] at h
      rw [readHttpRequest_append hblank hend]
      cases hread : readHttpRequest (32 :: rest) with
      | error fault =>
        rw [hread] at h
        cases h
      | ok read =>
        rw [hread] at h
        cases read with
        | none => cases h
        | some read =>
          cases h
          rfl

/-! ## The response as a block and a body -/

theorem buildHttpResponse_ok {resp : HttpResponse} {response output : Buffer}
    (h : buildHttpResponse resp response = (.ok, output)) :
    output.bytes = resp.header ++ resp.body := by
  rw [buildHttpResponse] at h
  split_ifs at h
  · cases h
  · cases h
  · rw [Prod.mk.injEq] at h
    rw [← h.2, bytes_filled]

/-- A request that is answered was read, and its response fits. -/
theorem handleRequest_ok {fs : FileSystem} {config : HttpServerConfig} {request : Bytes}
    {response output : Buffer} {opened : Option Bytes}
    (h : handleRequest fs config request response = .ok (.ok, output, opened)) :
    ∃ req, readHttpRequest request = .ok (some req) ∧
      output.bytes = (httpServe fs config req).1.header ++ (httpServe fs config req).1.body := by
  rw [handleRequest] at h
  cases hread : readHttpRequest request with
  | error fault =>
    rw [hread] at h
    cases h
  | ok read =>
    rw [hread, ok_bind] at h
    cases read with
    | none => cases h
    | some req =>
      simp only [pure, Except.pure, Except.ok.injEq, Prod.mk.injEq] at h
      have hbuild : buildHttpResponse (httpServe fs config req).1 response = (.ok, output) :=
        Prod.ext h.1 h.2.1
      exact ⟨req, rfl, buildHttpResponse_ok hbuild⟩

/-- A response that is OK is a header block with one blank line, at its end, and a body, whose
length the header gives unless the method is `HEAD`. A `HEAD` is answered with the header block of
the same request with `GET`, and without a body. -/
theorem response_format {fs : FileSystem} {config : HttpServerConfig} {request : Bytes}
    {response output : Buffer} {opened : Option Bytes}
    (h : handleRequest fs config request response = .ok (.ok, output, opened)) :
    ∃ (req : HttpRequest) (block : LineBlock (13 : UInt8) 10) (body : Bytes),
      readHttpRequest request = .ok (some req) ∧ output.bytes = block.bytes ++ body ∧
      (∃ pre, block.bytes = pre ++ [13, 10, 13, 10]) ∧
      (∀ pre post, block.bytes = pre ++ 13 :: 10 :: 13 :: 10 :: post → post = []) ∧
      (req.method.str ≠ ascii "HEAD" → block.lines.filter (contentLengthName <+: ·) =
        [contentLengthName ++ ascii (toString body.length)]) ∧
      (req.method.str = ascii "HEAD" → body = [] ∧ ∀ response' output' opened',
        handleRequest fs config (withMethod (ascii "GET") request) response' =
          .ok (.ok, output', opened') → ∃ body', output'.bytes = block.bytes ++ body') := by
  obtain ⟨req, hread, hbytes⟩ := handleRequest_ok h
  have hends : (13 : UInt8) ≠ 10 := by decide
  rcases httpServe_fst fs config req with ⟨hmethod, hexact⟩ | ⟨hmethod, hhead⟩
  · have hclean := hexact.toClean
    refine ⟨req, (httpServe fs config req).1.headerBlock hclean, (httpServe fs config req).1.body,
      hread, ?_, LineBlock.exists_two_ends (List.cons_ne_nil _ _), fun pre post =>
      LineBlock.eq_nil_of_two_ends hends _, fun _ => ?_, fun hhead => absurd hhead hmethod⟩
    · rw [hbytes, HttpResponse.bytes_headerBlock]
    · rw [← hexact.contentLength]
      exact HttpResponse.filter_headerLines _
  · have hclean := (exact_httpHandleGet fs req config).toClean
    refine ⟨req, (httpHandleGet fs req config).1.headerBlock hclean, [], hread, ?_,
      LineBlock.exists_two_ends (List.cons_ne_nil _ _), fun pre post =>
      LineBlock.eq_nil_of_two_ends hends _, fun hne => absurd hmethod hne, fun _ => ⟨rfl, ?_⟩⟩
    · rw [hbytes, hhead, HttpResponse.bytes_headerBlock]
      rfl
    · intro response' output' opened' hget
      obtain ⟨req', hread', hbytes'⟩ := handleRequest_ok hget
      rw [readHttpRequest_withMethod (by decide) (by decide) hread] at hread'
      cases hread'
      have hserve : (httpServe fs config { req with method := .fill 16 (ascii "GET") }).1 =
          (httpHandleGet fs req config).1 := by
        have hget : (CharArray.fill 16 (ascii "GET")).str = ascii "GET" := by decide
        rw [httpServe, if_pos hget]
        rfl
      refine ⟨(httpHandleGet fs req config).1.body, ?_⟩
      rw [hbytes', hserve, HttpResponse.bytes_headerBlock]

/-- A request with an unknown method, and the buffer for its response. -/
def putRequest : Bytes := ascii "PUT / HTTP/1.1\r\n"

theorem response_format_put :
    ∃ output opened, handleRequest ⟨fun _ => false, fun _ => none⟩ ⟨.empty 512⟩ putRequest
        (.ofBlock (List.replicate 256 0)) = .ok (.ok, output, opened) ∧
      ∃ (req : HttpRequest) (block : LineBlock (13 : UInt8) 10) (body : Bytes),
        readHttpRequest putRequest = .ok (some req) ∧ output.bytes = block.bytes ++ body ∧
        (∃ pre, block.bytes = pre ++ [13, 10, 13, 10]) ∧
        (∀ pre post, block.bytes = pre ++ 13 :: 10 :: 13 :: 10 :: post → post = []) ∧
        (req.method.str ≠ ascii "HEAD" → block.lines.filter (contentLengthName <+: ·) =
          [contentLengthName ++ ascii (toString body.length)]) ∧
        (req.method.str = ascii "HEAD" → body = [] ∧ ∀ response' output' opened',
          handleRequest ⟨fun _ => false, fun _ => none⟩ ⟨.empty 512⟩
            (withMethod (ascii "GET") putRequest) response' = .ok (.ok, output', opened') →
              ∃ body', output'.bytes = block.bytes ++ body') := by
  have h : handleRequest ⟨fun _ => false, fun _ => none⟩ ⟨.empty 512⟩ putRequest
      (.ofBlock (List.replicate 256 0)) = .ok (.ok, filled (.ofBlock (List.replicate 256 0))
        ((HttpResponse.of 500 "Internal Server Error" "text/html" internalErrorBody).header ++
          internalErrorBody), none) := by
    decide +kernel
  exact ⟨_, _, h, response_format h⟩

end Federated.Service
