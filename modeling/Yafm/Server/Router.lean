import Yafm.Auth.Flow
import Yafm.Files.Delete
import Yafm.Files.Download

set_option autoImplicit false

namespace Yafm

open Text Effect

inductive Method where
  | get
  | head
  | delete
  | other (name : String)
  deriving DecidableEq, Repr

structure Request where
  method : Method
  -- as it was sent, escapes included
  path : String
  query : Option String
  headers : HeaderMap

structure Server where
  platform : Platform
  config : Option AppConfig
  auth : Option AuthState
  access : Option AccessConfig
  frontendAssets : String → Option Bytes
  mimeType : String → String

/-- What the gates leave with a request for the handlers. -/
structure Extensions where
  identity : Option SessionClaims
  accessContext : Option AccessContext

inductive ServerOp (oidc : Oidc) where
  | storage (op : Op)
  | provider (op : OidcOp oidc)

def ServerOp.Answer {oidc : Oidc} : ServerOp oidc → Type
  | .storage op => op.Answer
  | .provider op => op.Answer

def ServerOp.IsStorage {oidc : Oidc} : ServerOp oidc → Prop
  | .storage _ => True
  | .provider _ => False

def ServerOp.storageAnswer {oidc : Oidc} (op : Op)
    (answer : (ServerOp.storage op : ServerOp oidc).Answer) : op.Answer :=
  answer

def ServerOp.providerAnswer {oidc : Oidc} (op : OidcOp oidc) (answer : (ServerOp.provider op).Answer) :
    op.Answer :=
  answer

abbrev Serving (oidc : Oidc) := Program (@ServerOp.Answer oidc) Response

def formDecode (platform : Platform) (text : String) : String :=
  platform.lossy (percentDecodeBytes (String.ofList (text.toList.map fun c => if c = '+' then ' ' else c)))

-- `form_urlencoded::parse`, as the URL standard has it.
def formUrlencodedParse (platform : Platform) (query : String) : List (String × String) :=
  ((split '&' query).filter (· ≠ "")).map fun field =>
    let (name, value) := (splitOnce '=' field).getD (field, "")
    (formDecode platform name, formDecode platform value)

def queryFields (platform : Platform) (request : Request) : List (String × String) :=
  formUrlencodedParse platform (request.query.getD "")

-- The one field of a name that a query may have: the extractor refuses a second.
def queryField (fields : List (String × String)) (name : String) : Option (Option String) :=
  match fields.filter fun field => field.1 = name with
  | [] => some none
  | [field] => some (some field.2)
  | _ => none

def pathQuery (platform : Platform) (request : Request) : Option String :=
  (queryField (queryFields platform request) "p").map fun p => p.getD ""

def returnToQuery (platform : Platform) (request : Request) : Option String :=
  (queryField (queryFields platform request) "returnTo").map fun returnTo => returnTo.getD ""

def callbackQuery (platform : Platform) (request : Request) : Option CallbackQuery := do
  let code ← queryField (queryFields platform request) "code"
  let state ← queryField (queryFields platform request) "state"
  return ⟨code, state⟩

section

variable {oidc : Oidc}

def answerStorage (program : Storage ApiError Response) : Serving oidc := do
  match ← (ExceptT.run program).embed ServerOp.storage ServerOp.storageAnswer with
  | .ok response => return response
  | .error error => return error.intoResponse

def settledFlow (state : Option AuthState) : Except AuthFlowError Redirect → Response
  | .error error => error.intoResponse
  | .ok redirect =>
    match state with
    | some (.oidc jar) => redirect.intoResponse jar.library
    -- the other states redirect nobody
    | _ => AuthFlowError.unavailable.intoResponse

def answerFlow (state : Option AuthState) (program : Flow oidc AuthFlowError Redirect) : Serving oidc := do
  return settledFlow state (← (ExceptT.run program).embed ServerOp.provider ServerOp.providerAnswer)

def extracted {α : Type} (query : Option α) (handler : α → Serving oidc) : Serving oidc :=
  match query with
  | some query => handler query
  | none => return { status := 400 }

def health : Response := { status := 200, body := .health "ok" "backend" }

def usersMeResponse (claims : Option SessionClaims) : Response :=
  match claims with
  | none => { status := 503, body := .message "Authentication is unavailable." }
  | some claims =>
    let displayName := if claims.displayName = "" then claims.subject else claims.displayName
    let email := if claims.email = "" then none else some claims.email
    { status := 200, headers := [("cache-control", "no-store")], body :=
      .user ⟨claims.subject, displayName, email⟩ }

def embeddedAssetResponse (server : Server) (path : String) : Option Response :=
  (server.frontendAssets path).map fun file =>
    { status := 200
      headers := [("cache-control", "no-store"),
        ("content-type", (headerValue (server.mimeType path)).getD "application/octet-stream")]
      body := .content file }

def resolveFrontendAsset (path : String) (lookup : String → Option Response) : Response :=
  ((lookup path).or (lookup "index.html")).getD
    { status := 503, body := .content (asBytes "Frontend assets are unavailable.") }

def frontendAsset (server : Server) (request : Request) : Response :=
  let requestPath := String.ofList (request.path.toList.dropWhile (· = '/'))
  if startsWith "api/" requestPath then { status := 404 }
  else resolveFrontendAsset (if requestPath = "" then "index.html" else requestPath)
    (embeddedAssetResponse server)

def cookieHeader (request : Request) : Option String := request.headers.getText "cookie"

def directoryPath : String := "/api/v1/directory"

def downloadPath : String := "/api/v1/download"

def filePath : String := "/api/v1/file"

def methodNotAllowed (allow : String) : Response := { status := 405, headers := [("allow", allow)] }

def withoutBody (response : Response) : Response := { response with body := .empty }

-- A route that answers `GET` answers `HEAD` with the same, less the body.
def getRoute (request : Request) (handler : Serving oidc) : Serving oidc :=
  match request.method with
  | .get => handler
  | .head => do return withoutBody (← handler)
  | _ => return methodNotAllowed "GET,HEAD"

def deleteRoute (request : Request) (handler : Serving oidc) : Serving oidc :=
  match request.method with
  | .delete => handler
  | _ => return methodNotAllowed "DELETE"

def routes (server : Server) (request : Request) (extensions : Extensions) : Serving oidc :=
  let path := request.path
  if path = "/api/v1/health" then getRoute request (return health)
  else if path = "/api/v1/users/me" then getRoute request (return usersMeResponse extensions.identity)
  else if path = directoryPath then
    getRoute request <| extracted (pathQuery server.platform request) fun p =>
      answerStorage (directory server.platform server.config p extensions.accessContext)
  else if path = downloadPath then
    -- the access log that the handler writes around this is left out
    getRoute request <| extracted (pathQuery server.platform request) fun p =>
      answerStorage (downloadInner server.platform server.config request.headers p)
  else if path = filePath then
    deleteRoute request <| extracted (pathQuery server.platform request) fun p =>
      answerStorage (deleteFile server.config p extensions.accessContext)
  else if path = loginPath then
    getRoute request <| extracted (returnToQuery server.platform request) fun returnTo =>
      answerFlow server.auth (loginResponse server.auth returnTo)
  else if path = callbackPath then
    getRoute request <| extracted (callbackQuery server.platform request) fun query =>
      answerFlow server.auth (callbackResponse server.auth (cookieHeader request) query)
  else if path = logoutPath then getRoute request (answerFlow server.auth (logoutResponse server.auth))
  else getRoute request (return frontendAsset server request)

def accessGate (server : Server) (request : Request) (extensions : Extensions)
    (next : Extensions → Serving oidc) : Serving oidc :=
  let path := request.path
  if path ≠ directoryPath ∧ path ≠ downloadPath ∧ path ≠ filePath then next extensions
  else
    match extensions.identity with
    | none => next extensions
    | some claims =>
      match server.access with
      | none => next extensions
      | some access =>
        let fields := queryFields server.platform request
        let requested := ((fields.find? fun field => field.1 = "p").map Prod.snd).getD ""
        match validateRelativePath requested with
        -- the handler answers what validation refuses
        | .error _ => next extensions
        | .ok normalized =>
          if !isPathVisible access claims.groups normalized then
            let message :=
              if path = directoryPath then "The requested directory could not be found."
              else "The requested file could not be found."
            return { status := 404, body := .message message }
          else next { extensions with accessContext := some ⟨access, claims.groups⟩ }

def pathAndQuery (request : Request) : String :=
  match request.query with
  | some query => request.path ++ "?" ++ query
  | none => request.path

def authGate (now : Nat) (server : Server) (request : Request) (next : Extensions → Serving oidc) :
    Serving oidc :=
  match gateDecision now server.auth request.path (cookieHeader request) with
  | .passThrough => next ⟨none, none⟩
  | .authenticated claims => next ⟨some claims, none⟩
  | .unavailable => return AuthFlowError.unavailable.intoResponse
  | .unauthorized => return AuthFlowError.unauthorized.intoResponse
  | .redirectToLogin => return redirectToLogin (some (pathAndQuery request))

-- The layers of `appRouter` from the outside in, less the tracing.
def serve (now : Nat) (server : Server) (request : Request) : Serving oidc :=
  authGate now server request fun extensions => accessGate server request extensions (routes server request)

end

end Yafm
