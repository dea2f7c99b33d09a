import Federated.Service.Text

/-!
# The static file server

Requests are parsed, files are read from the document root, and responses are
built. The file system is a parameter: what `stat` and `fopen` answer for a name.
Reading a file also gives the name it was opened under, if any.
-/

namespace Federated.Service

/-- What an opened file answers: the result of `ftell` at its end and its bytes. -/
structure File where
  size : Int
  content : Bytes

structure FileSystem where
  /-- `stat` succeeds and says directory. -/
  isDirectory : Bytes → Bool
  /-- `fopen` for reading. -/
  fopen : Bytes → Option File

structure HttpRequest where
  method : CharArray 16
  path : CharArray 512
  version : CharArray 16
  headers : CharArray 2048

structure HttpResponse where
  statusCode : Nat
  statusText : CharArray 64
  contentType : CharArray 128
  contentLength : Nat
  body : Bytes

structure HttpServerConfig where
  documentRoot : CharArray 512

/-! ## Requests -/

def parseHttpRequestLine (line : Bytes) (req : HttpRequest) : Option HttpRequest :=
  if line.length = 0 then none
  else
    match token isBlank line with
    | (_, []) => none
    | (method, _ :: line) =>
      match token isBlank line with
      | (_, []) => none
      | (path, _ :: line) =>
        some { req with
          method := .fill 16 method
          path := .fill 512 path
          version := .fill 16 (token isLineEnd line).1 }

def parseHttpHeaders (data : Bytes) (req : HttpRequest) : ErrorCode × HttpRequest :=
  if h : data.length > 2048 - 1 then (.errFormat, req)
  else (.ok, { req with headers := ⟨data, by omega⟩ })

/-- The extensions in the order they are tried. -/
def mimeTypes : List (String × String) :=
  [(".html", "text/html"), (".htm", "text/html"), (".css", "text/css"),
    (".js", "text/javascript"), (".json", "application/json"), (".xml", "application/xml"),
    (".txt", "text/plain"), (".png", "image/png"), (".jpg", "image/jpeg"),
    (".jpeg", "image/jpeg"), (".gif", "image/gif"), (".svg", "image/svg+xml"),
    (".ico", "image/x-icon"), (".woff", "font/woff"), (".woff2", "font/woff2"),
    (".ttf", "font/ttf")]

/-- The last dot of a name and what is behind it. -/
def extension (filename : Bytes) : Option Bytes :=
  if 46 ∈ filename then some (46 :: (filename.reverse.takeWhile (· ≠ 46)).reverse) else none

def getMimeType (filename : Bytes) : String :=
  match extension filename with
  | none => "application/octet-stream"
  | some ext =>
    match mimeTypes.find? fun t => ext = ascii t.1 with
    | some t => t.2
    | none => "application/octet-stream"

/-- What holds of every type in the list and of the one for all else holds of the type found. -/
theorem getMimeType_cases {p : String → Prop} (htypes : ∀ t ∈ mimeTypes, p t.2)
    (hother : p "application/octet-stream") (filename : Bytes) : p (getMimeType filename) := by
  rw [getMimeType]
  split
  · exact hother
  · split
    · rename_i t hfind
      exact htypes t (List.mem_of_find?_eq_some hfind)
    · exact hother

/-! ## Responses -/

def HttpResponse.statusLine (resp : HttpResponse) : Bytes :=
  ascii ("HTTP/1.1 " ++ toString resp.statusCode ++ " ") ++ resp.statusText.str ++ ascii "\r\n"

/-- The header block. The lines behind the status line always fit the array, since the
texts in them do. -/
def HttpResponse.header (resp : HttpResponse) : Bytes :=
  resp.statusLine ++ ascii "Content-Type: " ++ resp.contentType.str ++ ascii ("\r\n" ++
    "Content-Length: " ++ toString resp.contentLength ++ "\r\n" ++
    "Connection: close\r\n" ++ "\r\n")

def buildHttpResponse (resp : HttpResponse) (output : Buffer) : ErrorCode × Buffer :=
  if resp.statusLine.length ≥ 2048 then (.errFormat, output)
  else if resp.header.length + resp.body.length > output.size then (.errFormat, output)
  else (.ok, filled output (resp.header ++ resp.body))

/-! ## Files -/

def dotDot : Bytes := ascii ".."

/-- Read a file below the document root into `output`. -/
def httpReadFile (fs : FileSystem) (documentRoot path : Bytes) (output : Buffer) :
    ErrorCode × Buffer × Option Bytes :=
  let fullPath := CharArray.fill 1024 (documentRoot ++ path)
  if dotDot <:+: path then (.errFormat, output, none)
  else
    let fullPath :=
      if fs.isDirectory fullPath.str then
        CharArray.fill 1024 (documentRoot ++ path ++ ascii "/index.html")
      else fullPath
    match fs.fopen fullPath.str with
    | none => (.errIo, output, none)
    | some f =>
      if f.size < 0 ∨ f.size > output.size then (.errFormat, output, some fullPath.str)
      else
        let data := f.content.take f.size.toNat
        let read := { output with data := overwrite output.data 0 data }
        if (data.length : Int) ≠ f.size then (.errIo, read, some fullPath.str)
        else (.ok, { read with size := data.length }, some fullPath.str)

/-! ## Handlers -/

/-- The static buffer the file is read into, up to 1 MB. -/
def fileBuffer : Buffer := .ofBlock (List.replicate (1024 * 1024) 0)

def notFoundBody : Bytes := ascii "<html><body><h1>404 Not Found</h1></body></html>"

def internalErrorBody : Bytes :=
  ascii "<html><body><h1>500 Internal Server Error</h1></body></html>"

/-- A response with a text and the length of its body. -/
def HttpResponse.of (statusCode : Nat) (statusText contentType : String) (body : Bytes) :
    HttpResponse :=
  ⟨statusCode, .fill 64 (ascii statusText), .fill 128 (ascii contentType), body.length, body⟩

def httpHandleGet (fs : FileSystem) (req : HttpRequest) (config : HttpServerConfig) :
    HttpResponse × Option Bytes :=
  match httpReadFile fs config.documentRoot.str req.path.str fileBuffer with
  | (.ok, fileData, opened) =>
    (.of 200 "OK" (getMimeType req.path.str) fileData.bytes, opened)
  | (_, _, opened) => (.of 404 "Not Found" "text/html" notFoundBody, opened)

def httpHandleHead (fs : FileSystem) (req : HttpRequest) (config : HttpServerConfig) :
    HttpResponse × Option Bytes :=
  let (resp, opened) := httpHandleGet fs req config
  ({ resp with body := [] }, opened)

/-- Find the end of the first line. The bound of the loop is one less than the size, which
wraps around for the empty request. -/
def requestLineEnd (request : Bytes) : Except Fault (Option Nat) :=
  if request = [] then .error .read
  else .ok (((List.range (request.length - 1)).find? fun i =>
    request[i]? = some 13 ∧ request[i + 1]? = some 10).map (· + 2))

/-- The request line and the header bytes behind it are parsed, and the method is served. -/
def httpServe (fs : FileSystem) (config : HttpServerConfig) (req : HttpRequest) :
    HttpResponse × Option Bytes :=
  if req.method.str = ascii "GET" then httpHandleGet fs req config
  else if req.method.str = ascii "HEAD" then httpHandleHead fs req config
  else (.of 500 "Internal Server Error" "text/html" internalErrorBody, none)

/-- The request that the bytes stand for, if its first line can be parsed. -/
def readHttpRequest (request : Bytes) : Except Fault (Option HttpRequest) := do
  let some lineEnd ← requestLineEnd request | return none
  let blank := ⟨.empty 16, .empty 512, .empty 16, .empty 2048⟩
  let some req := parseHttpRequestLine (request.take (lineEnd - 2)) blank | return none
  if lineEnd < request.length then return some (parseHttpHeaders (request.drop lineEnd) req).2
  else return some req

/-- Handle a request: the code, the response buffer, and the name of the file that was opened. -/
def handleRequest (fs : FileSystem) (config : HttpServerConfig) (request : Bytes)
    (response : Buffer) : Except Fault (ErrorCode × Buffer × Option Bytes) := do
  let some req ← readHttpRequest request | return (.errFormat, response, none)
  let (resp, opened) := httpServe fs config req
  let (code, response) := buildHttpResponse resp response
  return (code, response, opened)

end Federated.Service
