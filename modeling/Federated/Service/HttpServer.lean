import Federated.Service.HttpFetch
import Federated.Transport.Tcp
import Federated.Library.Machine

/-!
# The life of the HTTP server

Starting the server opens the TCP transport, and stopping it closes the transport, which others
may use as well. Pages are served from the document root of the last configuration that was
accepted, which is none that was given while the server ran.
-/

namespace Federated.Service

open Library Transport Transport.Tcp

/-! ## The server -/

structure HttpServerSettings extends HttpServerConfig where
  port : Int
  allowDirectoryListing : Bool

/-- The state of the server; `tcpTransport` says that the pointer to the transport is set. -/
structure HttpServer where
  config : HttpServerSettings
  running : Bool
  tcpTransport : Bool

namespace HttpServer

def defaultSettings : HttpServerSettings := ⟨⟨.fill 512 (ascii "./www")⟩, 8080, false⟩

/-- The state as the program starts. -/
def new : HttpServer := ⟨defaultSettings, false, false⟩

/-- Static files need no set-up. -/
def httpServerInit (_config : HttpServerSettings) : ErrorCode := .ok

def init (config : HttpServerSettings) (s : HttpServer) : ErrorCode × HttpServer :=
  if s.running then (.errInternal, s) else (httpServerInit config, { s with config })

def start (listens : Bool) (s : HttpServer) (tcp : TcpState) : ErrorCode × HttpServer × TcpState :=
  if s.running then (.errInternal, s, tcp)
  else
    let s := { s with tcpTransport := true }
    let (err, tcp) := tcpOpen listens tcp
    if err ≠ .ok then (err, s, tcp) else (.ok, { s with running := true }, tcp)

def stop (s : HttpServer) (tcp : TcpState) : HttpServer × TcpState :=
  if s.running ∧ s.tcpTransport then ({ s with running := false }, (tcpClose tcp).2) else (s, tcp)

/-! ## Runs -/

/-- A call on the server, or on the transport by another user. A request finds the files as they
are then. -/
inductive ServerCall where
  | init (config : HttpServerSettings)
  | start (listens : Bool)
  | stop
  | handleRequest (fs : FileSystem) (request : Bytes) (response : Buffer)
  | isRunning
  | getConfig
  | tcpOpen (listens : Bool)
  | tcpClose
  | tcp (call : TcpCall)

inductive ServerAnswer where
  | code (code : ErrorCode)
  | done
  | handled (result : Except Fault (ErrorCode × Buffer × Option Bytes))
  | running (running : Bool)
  | config (config : HttpServerSettings)
  | tcp (answer : TcpAnswer)

/-- The server and the transport. -/
structure System where
  server : HttpServer
  tcp : TcpState

def step (s : System) : ServerCall → ServerAnswer × System
  | .init config => (.code (s.server.init config).1, { s with server := (s.server.init config).2 })
  | .start listens =>
    let (code, server, tcp) := s.server.start listens s.tcp
    (.code code, ⟨server, tcp⟩)
  | .stop => (.done, ⟨(s.server.stop s.tcp).1, (s.server.stop s.tcp).2⟩)
  | .handleRequest fs request response =>
    (.handled (handleRequest fs s.server.config.toHttpServerConfig request response), s)
  | .isRunning => (.running s.server.running, s)
  | .getConfig => (.config s.server.config, s)
  | .tcpOpen listens =>
    (.code (Tcp.tcpOpen listens s.tcp).1, { s with tcp := (Tcp.tcpOpen listens s.tcp).2 })
  | .tcpClose => (.code (Tcp.tcpClose s.tcp).1, { s with tcp := (Tcp.tcpClose s.tcp).2 })
  | .tcp call => (.tcp (Tcp.step s.tcp call).1, { s with tcp := (Tcp.step s.tcp call).2 })

def System.new : System := ⟨.new, .closed⟩

/-! ## The configuration -/

/-- The configuration that a call was given and accepted. -/
def accepted : ServerCall × ServerAnswer → Option HttpServerSettings
  | (.init config, .code .ok) => some config
  | _ => none

/-- The last configuration that was accepted, if any was. -/
def settings (log : List (ServerCall × ServerAnswer)) : HttpServerSettings :=
  (log.filterMap accepted).getLast?.getD defaultSettings

theorem config_step (s : System) (call : ServerCall) :
    (step s call).2.server.config = (accepted (call, (step s call).1)).getD s.server.config := by
  cases call with
  | init config =>
    simp only [step, init]
    split <;> rfl
  | start listens =>
    simp only [step, start]
    split
    · rfl
    · split <;> rfl
  | stop =>
    simp only [step, stop]
    split <;> rfl
  | _ => rfl

theorem config_after (s : System) (calls : List ServerCall) :
    (after step s calls).server.config =
      ((transcript step s calls).filterMap accepted).getLast?.getD s.server.config := by
  induction calls generalizing s with
  | nil => rfl
  | cons call calls ih =>
    have hstep := config_step s call
    rw [after_cons, ih, transcript]
    cases haccepted : accepted (call, (step s call).1) with
    | none =>
      rw [haccepted, Option.getD_none] at hstep
      rw [List.filterMap_cons_none haccepted, hstep]
    | some config =>
      rw [haccepted, Option.getD_some] at hstep
      rw [List.filterMap_cons_some haccepted, hstep, List.getLast?_cons, Option.getD_some]

/-! ## Fetching -/

variable {path version : Bytes}

/-- What a client gets for a path from the server. -/
def System.fetch (s : System) (fs : FileSystem) (path version headers : Bytes)
    (response : Buffer) : Option HttpReply :=
  let request := requestText (ascii "GET") path version headers
  match (step s (.handleRequest fs request response)).1 with
  | .handled (.ok (.ok, output, _)) => readReply output.bytes
  | _ => none

theorem System.fetch_eq (s : System) (fs : FileSystem) (path version headers : Bytes)
    (response : Buffer) : s.fetch fs path version headers response =
      Service.fetch fs s.server.config.toHttpServerConfig path version headers response := by
  simp only [System.fetch, step, Service.fetch]
  rcases Service.handleRequest fs s.server.config.toHttpServerConfig
    (requestText (ascii "GET") path version headers) response with fault | ⟨code, output, opened⟩
  · rfl
  · cases code <;> rfl

/-- Behind every run a client gets the page whose name is the document root that was accepted last
with the path as it stands behind it, if the response fits. -/
theorem fetch_after (calls : List ServerCall) (fs : FileSystem) (headers : Bytes)
    (response : Buffer) {root : Bytes} {resp : HttpResponse}
    (hroot : (settings (transcript step .new calls)).documentRoot.str = root)
    (hresp : pageResponse fs root path = resp) (h : Carries path version) :
    (after step .new calls).fetch fs path version headers response =
      if resp.header.length + resp.body.length ≤ response.size then
        some (pageReply fs root path)
      else none := by
  have hconfig : (after step .new calls).server.config = settings (transcript step .new calls) :=
    config_after .new calls
  rw [← hroot, ← hconfig] at hresp ⊢
  rw [System.fetch_eq]
  exact h.fetch_eq fs _ headers response hresp

/-- The root `/srv` is accepted, and another one is not while the server runs. -/
def srvThenEtc : List ServerCall :=
  [.init ⟨⟨.fill 512 (ascii "/srv")⟩, 80, false⟩, .start true,
    .init ⟨⟨.fill 512 (ascii "/etc")⟩, 80, false⟩]

/-- A file in `/srv`. -/
def srvFiles : FileSystem :=
  ⟨fun _ => false, fun name => if name = ascii "/srv/a.txt" then some ⟨2, ascii "hi"⟩ else none⟩

theorem fetch_after_srv : (after step .new srvThenEtc).fetch srvFiles (ascii "/a.txt")
    (ascii "HTTP/1.1") [] (.ofBlock (List.replicate 128 0)) =
      some ⟨200, ascii "text/plain", ascii "hi"⟩ := by
  have hroot : (settings (transcript step .new srvThenEtc)).documentRoot.str = ascii "/srv" := by
    decide +kernel
  have hcarries : Carries (ascii "/a.txt") (ascii "HTTP/1.1") :=
    ⟨by decide, by decide, by decide, by decide, by decide⟩
  rw [fetch_after srvThenEtc srvFiles [] (.ofBlock (List.replicate 128 0)) hroot rfl hcarries]
  decide +kernel

end HttpServer

end Federated.Service
