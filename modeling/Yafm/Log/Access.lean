import Yafm.Log.Line
import Yafm.Files.Resume
import Yafm.Store.Runs
import Yafm.Browser.Session

set_option autoImplicit false

namespace Yafm

open Text Effect

def headerOrDash (headers : HeaderMap) (name : String) : String := (headers.getText name).getD unknownField

def userAgent (headers : HeaderMap) : String := headerOrDash headers "user-agent"

def referer (headers : HeaderMap) : String := headerOrDash headers "referer"

def identityLabel : Option SessionClaims → String
  | some claims => if claims.displayName ≠ "" then claims.displayName else claims.subject
  | none => unknownField

/-- What `tracing` is handed: its subscriber filters it, and puts time, level and target before it. -/
structure Message where
  target : String
  text : String

def accessLogTarget : String := "yafm::access"

inductive LogOp (oidc : Oidc) where
  | server (op : ServerOp oidc)
  | nowIso
  | info (message : Message)

def LogOp.Answer {oidc : Oidc} : LogOp oidc → Type
  | .server op => op.Answer
  | .nowIso => String
  | .info _ => Unit

def LogOp.serverAnswer {oidc : Oidc} (op : ServerOp oidc) (answer : (LogOp.server op).Answer) :
    op.Answer := answer

abbrev Logging (oidc : Oidc) (α : Type) := Program (@LogOp.Answer oidc) α

section

variable {oidc : Oidc}

def served {α : Type} (program : Program (@ServerOp.Answer oidc) α) : Logging oidc α :=
  program.embed LogOp.server LogOp.serverAnswer

def emit (line : String) : Logging oidc Unit := Program.call (LogOp.info ⟨accessLogTarget, line⟩)

def Line.emit (line : Line) : Logging oidc Unit :=
  (Program.call LogOp.nowIso).bind fun timestamp => Yafm.emit (line.render timestamp)

def loginLine (user : String) (status : Nat) (ip userAgent : String) : Line :=
  ⟨ip, user, "LOGIN", status, 0, unknownField, userAgent⟩

def logLoginSuccess (claims : SessionClaims) (ip userAgent : String) : Logging oidc Unit :=
  (loginLine (identityLabel (some claims)) 302 ip userAgent).emit

def loginStatus : AuthFlowError → Nat
  | .unauthorized => 401
  | .unavailable => 503
  | .providerUnavailable => 503

def logLoginFailure (error : AuthFlowError) (ip userAgent : String) : Logging oidc Unit :=
  (loginLine unknownField (loginStatus error) ip userAgent).emit

def downloadLine (ip user path : String) (served : Nat × Nat) (referer userAgent : String) : Line :=
  ⟨ip, user, if path = "" then "DOWNLOAD" else "DOWNLOAD " ++ path, served.1, served.2, referer, userAgent⟩

def logDownload (ip user path : String) (status bytes : Nat) (referer userAgent : String) :
    Logging oidc Unit :=
  (downloadLine ip user path (status, bytes) referer userAgent).emit

end

structure Peer where
  connectInfo : Option IpAddr
  trustProxy : Bool

-- The length that the headers promise, not what a client stays to receive.
def promisedBytes (response : Response) : Nat :=
  if response.status = 200 ∨ response.status = 206 then
    ((response.header "content-length").bind parseU64).getD 0 else 0

def statusAndBytes (method : Method) : Except ApiError Response → Nat × Nat
  | .ok response => (response.status, if method = .head then 0 else promisedBytes response)
  | .error error => (error.status, 0)

section

variable {oidc : Oidc} (server : Server) (peer : Peer) (request : Request)

def download (identity : Option SessionClaims) (p : String) : Logging oidc (Except ApiError Response) := do
  let clientIp := clientIp peer.connectInfo request.headers peer.trustProxy
  let userAgent := userAgent request.headers
  let referer := referer request.headers
  let user := identityLabel identity
  let result ← served ((ExceptT.run (downloadInner server.platform server.config request.headers p)).embed
    ServerOp.storage ServerOp.storageAnswer)
  let (status, bytes) := statusAndBytes request.method result
  logDownload clientIp user p status bytes referer userAgent
  return result

-- `callback_response`, with the line that it logs.
def callbackResponseLogged (state : Option AuthState) (cookieHeader : Option String) (query : CallbackQuery)
    (clientIp userAgent : String) : Logging oidc (Except AuthFlowError Redirect) := do
  match ← served ((ExceptT.run (callbackLogin state cookieHeader query)).embed ServerOp.provider
    ServerOp.providerAnswer) with
  | .error error => return .error error
  | .ok (claims, redirect) =>
    logLoginSuccess claims clientIp userAgent
    return .ok redirect

def callback (query : CallbackQuery) : Logging oidc (Except AuthFlowError Redirect) := do
  let clientIp := clientIp peer.connectInfo request.headers peer.trustProxy
  let userAgent := userAgent request.headers
  match ← callbackResponseLogged server.auth (cookieHeader request) query clientIp userAgent with
  | .ok redirect => return .ok redirect
  | .error error =>
    logLoginFailure error clientIp userAgent
    return .error error

end

def logAnswer {oidc : Oidc} (provider : (op : OidcOp oidc) → op.Answer) (now : String) :
    (op : LogOp oidc) → Disk × List Message → op.Answer × (Disk × List Message)
  | .server op, (disk, messages) =>
      ((serverAnswer provider op disk).1, (serverAnswer provider op disk).2, messages)
  | .nowIso, world => (now, world)
  | .info message, (disk, messages) => ((), disk, messages ++ [message])

def Line.message (line : Line) (now : String) : Message := ⟨accessLogTarget, line.render now⟩

section

variable {oidc : Oidc} {provider : (op : OidcOp oidc) → op.Answer} {now : String}

theorem run_served {α : Type} (program : Program (@ServerOp.Answer oidc) α) (disk : Disk)
    (messages : List Message) :
    (served program).run (logAnswer provider now) (disk, messages) =
      ((program.run (serverAnswer provider) disk).1,
        (program.run (serverAnswer provider) disk).2, messages) :=
  Program.run_embed_beside (serverAnswer provider) (fun disk => (disk, messages))
    (fun _ _ => rfl) program disk

variable {server : Server} {peer : Peer} {request : Request} {disk : Disk} {messages : List Message}

theorem run_download (identity : Option SessionClaims) (p : String) :
    let ran := disk.run (downloadInner server.platform server.config request.headers p)
    (download server peer request identity p : Logging oidc _).run (logAnswer provider now) (disk, messages) =
      (ran.1, ran.2, messages ++ [(downloadLine (clientIp peer.connectInfo request.headers peer.trustProxy)
        (identityLabel identity) p (statusAndBytes request.method ran.1) (referer request.headers)
        (userAgent request.headers)).message now]) := by
  intro ran
  have stored : Program.run (serverAnswer provider)
      ((ExceptT.run (downloadInner server.platform server.config request.headers p)).embed ServerOp.storage
        (@ServerOp.storageAnswer oidc)) disk = ran :=
    Program.run_embed Disk.answer (fun _ _ => rfl) _ disk
  rw [download, Program.run_bind, run_served, stored]
  rfl

end

def Body.contentLength : Body → Nat
  | .content bytes => bytes.length
  | _ => 0

theorem header_sole {response : Response} {name value : String} (sole : Sole response.headers name value) :
    response.header name = some value := by
  rw [Response.header, ← List.head?_filter, sole]
  rfl

theorem promisedBytes_answer {response : Response} {bytes : Bytes}
    (served : response.status = 200 ∨ response.status = 206) (body : response.body = .content bytes)
    (small : bytes.length < 2 ^ 64)
    (length : Sole response.headers "content-length" (toString bytes.length)) :
    promisedBytes response = response.body.contentLength := by
  rw [promisedBytes, if_pos served, header_sole length, Option.bind_some, parseU64_toString small, body]
  rfl

theorem promisedBytes_downloadResponse (platform : Platform) (headers : HeaderMap)
    (canonical : Posix.Path) {file : Bytes} {metadata : Metadata} (whole : metadata.len = file.length)
    (small : file.length < 2 ^ 64) :
    promisedBytes (downloadResponse platform headers canonical file metadata) =
      (downloadResponse platform headers canonical file metadata).body.contentLength := by
  unfold downloadResponse
  dsimp only
  split
  · rfl
  · split
    · rfl
    · refine promisedBytes_answer (.inl rfl) rfl small ?_
      simp [Sole, contentResponseHeaders_filter _ _ (.inr rfl), whole]
    next range decided =>
      have bounds := rangeDecision_range decided
      have length : ((file.drop range.start).take range.length).length = range.length := by
        rw [List.length_take, List.length_drop, ByteRange.length]
        omega
      refine promisedBytes_answer (.inr rfl) rfl ?_ ?_
      · rw [length, ByteRange.length]
        omega
      · rw [length]
        simp [Sole, contentResponseHeaders_filter _ _ (.inr rfl)]

inductive Handler where
  | download (identity : Option SessionClaims) (p : String)
  | callback (query : CallbackQuery)

structure Event (oidc : Oidc) where
  handler : Handler
  peer : Peer
  request : Request
  timestamp : String
  provider : (op : OidcOp oidc) → op.Answer
  disk : Disk

namespace Event

variable {oidc : Oidc} (server : Server) (event : Event oidc)

def logged : Logging oidc Response :=
  match event.handler with
  | .download identity p => do return settled (← download server event.peer event.request identity p)
  | .callback query => do return settledFlow server.auth (← callback server event.peer event.request query)

def unlogged : Serving oidc :=
  match event.handler with
  | .download _ p => answerStorage (downloadInner server.platform server.config event.request.headers p)
  | .callback query =>
    answerFlow server.auth (callbackResponse server.auth (cookieHeader event.request) query)

-- What the client is answered, and all that has been handed to `tracing` by then.
def answered (messages : List Message) : Response × List Message :=
  let ran := (event.logged server).run (logAnswer event.provider event.timestamp) (event.disk, messages)
  (ran.1, ran.2.2)

def response : Response := ((event.unlogged server).run (serverAnswer event.provider) event.disk).1

end Event

def accessLog {oidc : Oidc} (server : Server) (events : List (Event oidc)) : List Message :=
  events.foldl (fun messages event => (event.answered server messages).2) []

structure Line.Tells {oidc : Oidc} (server : Server) (jar : SessionCookieJar) (event : Event oidc)
    (line : Line) : Prop where
  status : line.status = (event.response server).status
  bytes : line.bytes = (sent event.request (event.response server)).body.contentLength
  address : line.ip = clientIp event.peer.connectInfo event.request.headers event.peer.trustProxy
  download : ∀ identity p, event.handler = .download identity p → line.user = identityLabel identity
  login : ∀ query, event.handler = .callback query →
    (line.user = unknownField ∧ (event.response server).Unset) ∨
      ∃ claims now location, line.user = identityLabel (some claims) ∧ event.response server =
        (redirectWithCookies jar.library location
          [jar.mintSession now sessionMaxAgeSeconds claims, jar.clearLogin]).intoResponse jar.library

structure Message.Tells {oidc : Oidc} (server : Server) (jar : SessionCookieJar) (event : Event oidc)
    (message : Message) : Prop where
  target : message.target = accessLogTarget
  single : keepsLine message.text
  record : ∃ line : Line, parseLine message.text = some (line, event.timestamp) ∧ line.Tells server jar event

def Event.Told {oidc : Oidc} (server : Server) (jar : SessionCookieJar) (event : Event oidc) : Prop :=
  ∃ line : Line, line.Tells server jar event ∧
    ∀ messages, event.answered server messages =
      (event.response server, messages ++ [line.message event.timestamp])

section

variable {oidc : Oidc} {server : Server} {jar : SessionCookieJar} {peer : Peer} {request : Request}
  {timestamp : String}
  {provider : (op : OidcOp oidc) → op.Answer} {disk : Disk}

theorem ApiError.contentLength (error : ApiError) : error.intoResponse.body.contentLength = 0 := rfl

theorem sent_contentLength (request : Request) (response : Response) :
    (sent request response).body.contentLength = if request.method = .head then 0
      else response.body.contentLength := by
  unfold sent
  split
  · rfl
  · rfl

theorem statusAndBytes_settled {config : AppConfig} (configured : server.config = some config)
    (shares : disk.Shares config.sharedRoot)
    (small : ∀ path content, disk.tree.get path = some (.file content) → content.length < 2 ^ 64)
    (p : String) {outcome : Except ApiError Response} {after : Disk}
    (ran : disk.run (downloadInner server.platform server.config request.headers p) = (outcome, after)) :
    statusAndBytes request.method outcome =
      ((settled outcome).status, (sent request (settled outcome)).body.contentLength) := by
  rw [sent_contentLength]
  cases outcome with
  | error error =>
    rw [settled, error.contentLength, ite_self]
    rfl
  | ok response =>
    rw [configured] at ran
    obtain ⟨_, canonical, content, _, present, rfl⟩ := downloadInner_inside shares ran
    have whole : (disk.metadata (canonical, .file content)).len = content.length := rfl
    have promised := promisedBytes_downloadResponse server.platform request.headers canonical whole
      (small canonical content present)
    rw [settled, ← promised]
    rfl

theorem told_download {config : AppConfig} (configured : server.config = some config)
    (shares : disk.Shares config.sharedRoot)
    (small : ∀ path content, disk.tree.get path = some (.file content) → content.length < 2 ^ 64)
    (identity : Option SessionClaims) (p : String) :
    Event.Told server jar ⟨.download identity p, peer, request, timestamp, provider, disk⟩ := by
  have counted : statusAndBytes request.method _ = _ :=
    statusAndBytes_settled configured shares small p rfl
  have response : Event.response server ⟨.download identity p, peer, request, timestamp, provider, disk⟩ =
      settled (disk.run (downloadInner server.platform server.config request.headers p)).1 :=
    congrArg Prod.fst (run_answerStorage provider _ disk)
  refine ⟨downloadLine (clientIp peer.connectInfo request.headers peer.trustProxy) (identityLabel identity) p
    (statusAndBytes request.method
      (disk.run (downloadInner server.platform server.config request.headers p)).1)
    (referer request.headers) (userAgent request.headers), ?_, fun messages => ?_⟩
  · constructor
    · rw [response]
      exact congrArg Prod.fst counted
    · rw [response]
      exact congrArg Prod.snd counted
    · rfl
    · rintro _ _ ⟨⟩
      rfl
    · exact fun _ other => by cases other
  · rw [Event.answered, Event.logged, Program.run_bind, run_download, response]
    rfl

theorem callbackResponse_yields {state : Option AuthState} {header : Option String} {query : CallbackQuery}
    {reply : (op : OidcOp oidc) → op.Answer → Prop}
    {outcome : Except AuthFlowError (SessionClaims × Redirect)}
    (yields : (callbackLogin state header query : Flow oidc _ _).Yields reply outcome) :
    (callbackResponse state header query : Flow oidc _ _).Yields reply (outcome.map Prod.snd) := by
  rw [callbackResponse, Fallible.yields_bind]
  cases outcome with
  | error error => exact .inr ⟨error, yields, rfl⟩
  | ok reached => exact .inl ⟨reached, yields, (Fallible.yields_pure _ _ _).mpr rfl⟩

def callbackLine (ip userAgent : String) : Except AuthFlowError (SessionClaims × Redirect) → Line
  | .ok (claims, _) => loginLine (identityLabel (some claims)) 302 ip userAgent
  | .error error => loginLine unknownField (loginStatus error) ip userAgent

theorem run_callback {outcome : Except AuthFlowError (SessionClaims × Redirect)} {query : CallbackQuery}
    (yields : (callbackLogin server.auth (cookieHeader request) query).Yields
      (fun op answer => answer = provider op) outcome)
    (messages : List Message) :
    (callback server peer request query : Logging oidc _).run
      (logAnswer provider timestamp) (disk, messages) =
      (outcome.map Prod.snd, disk, messages ++ [Line.message
        (callbackLine (clientIp peer.connectInfo request.headers peer.trustProxy)
          (userAgent request.headers) outcome)
        timestamp]) := by
  have ran : Program.run (serverAnswer provider)
      ((ExceptT.run (callbackLogin server.auth (cookieHeader request) query)).embed ServerOp.provider
        ServerOp.providerAnswer) disk = (outcome, disk) := by
    rw [Program.run_embed (fun op disk => (provider op, disk)) (fun _ _ => rfl)]
    exact (Fallible.yields_iff_run provider _ outcome disk).mp yields
  rw [callback, Program.run_bind, callbackResponseLogged, Program.run_bind, run_served, ran]
  cases outcome with
  | error error => rfl
  | ok reached => rfl

theorem told_callback (auth : server.auth = some (.oidc jar)) (query : CallbackQuery) :
    Event.Told server jar ⟨.callback query, peer, request, timestamp, provider, disk⟩ := by
  obtain ⟨outcome, yields⟩ := Fallible.exists_yields provider
    (callbackLogin server.auth (cookieHeader request) query)
  have response : Event.response server ⟨.callback query, peer, request, timestamp, provider, disk⟩ =
      settledFlow server.auth (outcome.map Prod.snd) := run_answerFlow (callbackResponse_yields yields) disk
  refine ⟨callbackLine (clientIp peer.connectInfo request.headers peer.trustProxy)
    (userAgent request.headers) outcome, ?_, fun messages => ?_⟩
  · cases outcome with
    | error error =>
      constructor
      · rw [response]
        cases error <;> rfl
      · rw [response, sent_contentLength]
        cases error <;> exact (ite_self 0).symm
      · rfl
      · exact fun _ _ other => by cases other
      · intro _ _
        rw [response]
        exact .inl ⟨rfl, error.unset⟩
    | ok reached =>
      obtain ⟨claims, redirect⟩ := reached
      rw [auth] at yields response
      obtain ⟨_, _, _, _, _, _, now, _, _, _, rfl⟩ :=
        (callbackLogin_ok_iff jar _ query claims redirect).mp yields
      constructor
      · rw [response]
        rfl
      · rw [response, sent_contentLength]
        exact (ite_self 0).symm
      · rfl
      · exact fun _ _ other => by cases other
      · intro _ _
        exact .inr ⟨claims, now, _, rfl, response⟩
  · rw [Event.answered, Event.logged, Program.run_bind, run_callback yields, response]
    rfl

theorem Line.Tells.message {event : Event oidc} {line : Line} (tells : line.Tells server jar event)
    (stamp : isTimestamp event.timestamp) : (line.message event.timestamp).Tells server jar event where
  target := rfl
  single := keepsLine_render line stamp
  record := ⟨line, parseLine_render ⟨⟨_, _, _, tells.address⟩, stamp⟩, tells⟩

theorem accessLog_run {events : List (Event oidc)} (told : ∀ event ∈ events, event.Told server jar)
    (stamps : ∀ event ∈ events, isTimestamp event.timestamp) (messages : List Message) :
    ∃ later, events.foldl (fun messages event => (event.answered server messages).2) messages =
      messages ++ later ∧
      List.Forall₂ (Message.Tells server jar) events later := by
  induction events generalizing messages with
  | nil => exact ⟨[], (List.append_nil messages).symm, .nil⟩
  | cons event rest ih =>
    rw [List.forall_mem_cons] at told stamps
    obtain ⟨line, tells, answered⟩ := told.1
    obtain ⟨later, ran, each⟩ := ih told.2 stamps.2 (messages ++ [line.message event.timestamp])
    refine ⟨line.message event.timestamp :: later, ?_, .cons (tells.message stamps.1) each⟩
    rw [List.foldl_cons, answered, ran, List.append_assoc]
    rfl

-- One message for each download and each callback, in their order, that reads back as what became of the
-- request; and nobody is answered differently for being logged.
theorem accessLog_told {config : AppConfig} (auth : server.auth = some (.oidc jar))
    (configured : server.config = some config) {events : List (Event oidc)}
    (shares : ∀ event ∈ events, event.disk.Shares config.sharedRoot)
    (small : ∀ event ∈ events, ∀ path content, event.disk.tree.get path = some (.file content) →
      content.length < 2 ^ 64)
    (stamps : ∀ event ∈ events, isTimestamp event.timestamp) :
    List.Forall₂ (Message.Tells server jar) events (accessLog server events) ∧
      ∀ event ∈ events, ∀ messages, (event.answered server messages).1 = event.response server := by
  have told : ∀ event ∈ events, event.Told server jar := by
    intro event member
    have shared := shares event member
    have lengths := small event member
    obtain ⟨handler, peer, request, timestamp, provider, disk⟩ := event
    cases handler with
    | download identity p => exact told_download configured shared lengths identity p
    | callback query => exact told_callback auth query
  obtain ⟨messages, ran, each⟩ := accessLog_run told stamps []
  constructor
  · rwa [accessLog, ran, List.nil_append]
  · intro event member messages
    obtain ⟨line, _, answered⟩ := told event member
    rw [answered]

end

def raceEvents : List (Event plainOidc) :=
  [⟨.download (some ⟨"alice", "", "", []⟩) "a", ⟨some (.v4 ⟨10, 0, 0, 1⟩), false⟩,
    Traffic.raceRequest .get downloadPath, "2026-01-01T00:00:00Z", offline, Traffic.raceDisk⟩,
    ⟨.callback ⟨some "code", none⟩, ⟨none, false⟩, Traffic.raceRequest .get callbackPath,
      "2026-01-01T00:00:01Z", offline, Traffic.raceDisk⟩]

theorem accessLog_told_race : ∃ downloaded refused, accessLog raceServer raceEvents = [downloaded, refused] ∧
    (∃ line, parseLine downloaded.text = some (line, "2026-01-01T00:00:00Z") ∧ line.user = "alice") ∧
    ∃ line, parseLine refused.text = some (line, "2026-01-01T00:00:01Z") ∧ line.ip = "-" := by
  have auth : raceServer.auth = some (.oidc plainJar) := rfl
  have configured : raceServer.config = some ⟨[], false⟩ := rfl
  have disks : ∀ event ∈ raceEvents, event.disk = Traffic.raceDisk := by simp [raceEvents]
  have shares : ∀ event ∈ raceEvents, event.disk.Shares [] := by
    intro event member
    rw [disks event member]
    exact ⟨_, rfl⟩
  have small : ∀ event ∈ raceEvents, ∀ path content, event.disk.tree.get path = some (.file content) →
      content.length < 2 ^ 64 := by
    intro event member path content found
    rw [disks event member] at found
    rcases raceDisk_get found with ⟨_, same⟩ | same
    · cases same
    · cases same
      decide
  have stamps : ∀ event ∈ raceEvents, isTimestamp event.timestamp := by simp [raceEvents, isTimestamp]
  obtain ⟨each, _⟩ := accessLog_told auth configured shares small stamps
  generalize accessLog raceServer raceEvents = messages at each ⊢
  obtain - | ⟨first, rest⟩ := each
  obtain - | ⟨second, none⟩ := rest
  cases none
  obtain ⟨line, read, tells⟩ := first.record
  obtain ⟨other, spelled, refused⟩ := second.record
  exact ⟨_, _, rfl, ⟨line, read, tells.download _ _ rfl⟩, other, spelled, refused.address⟩

end Yafm
