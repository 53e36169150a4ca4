import Yafm.Auth.Payload
import Yafm.Http
import Yafm.Shared.Effect

set_option autoImplicit false

namespace Yafm

open Text Effect

inductive SameSite where
  | strict
  | lax
  | none
  deriving DecidableEq, Repr

structure Cookie where
  name : String
  value : String
  path : String
  httpOnly : Bool
  sameSite : SameSite
  secure : Bool
  maxAge : Nat
  deriving DecidableEq, Repr

/-- What the cookie library does under the key of the process. -/
structure CookieLibrary where
  -- the cookies of a `Cookie` header that parse, in order
  splitParseEncoded : String → List (String × String)
  -- the `Set-Cookie` text of a cookie
  encoded : Cookie → String
  -- a payload with its digest in front, and the payload of a value whose digest is right
  sign : String → String
  verify : String → Option String

structure CookieLibrary.Lawful (library : CookieLibrary) : Prop where
  signed : ∀ payload, library.verify (library.sign payload) = some payload
  -- no value is shorter than its digest
  empty : library.verify "" = none

structure SessionCookieJar where
  library : CookieLibrary
  secure : Bool

def extractCookie (library : CookieLibrary) (header name : String) : Option String :=
  ((library.splitParseEncoded header).find? fun cookie => cookie.1 = name).map Prod.snd

namespace SessionCookieJar

variable (jar : SessionCookieJar)

def signedCookie (name value : String) (maxAge : Nat) : Cookie :=
  ⟨name, jar.library.sign value, "/", true, .lax, jar.secure, maxAge⟩

def clearCookie (name : String) : Cookie := ⟨name, "", "/", true, .lax, jar.secure, 0⟩

def mintSession (now maxAge : Nat) (claims : SessionClaims) : Cookie :=
  jar.signedCookie sessionCookieName (sessionPayload now maxAge claims) maxAge

-- the digest covers the value only, so the name plays no part in it
def verifyInJar (value : String) : Option String := jar.library.verify value

def verifySession (now : Nat) (header : String) : Except String SessionClaims :=
  match extractCookie jar.library header sessionCookieName with
  | none => .error "The session cookie is missing."
  | some cookie =>
    match jar.verifyInJar cookie with
    | none => .error "The session cookie signature is invalid."
    | some value => parseSessionPayload now value

def clearSession : Cookie := jar.clearCookie sessionCookieName

def mintLogin (data : LoginCookieData) : Cookie :=
  jar.signedCookie loginCookieName (loginPayload data) loginMaxAgeSeconds

def verifyLogin (header : String) : Except String LoginCookieData :=
  match extractCookie jar.library header loginCookieName with
  | none => .error "The login cookie is missing."
  | some cookie =>
    match jar.verifyInJar cookie with
    | none => .error "The login cookie signature is invalid."
    | some value => parseLoginPayload value

def clearLogin : Cookie := jar.clearCookie loginCookieName

end SessionCookieJar

structure IdTokenClaims where
  subject : String
  preferredUsername : Option String
  name : Option (List (Option String × String))
  email : Option String
  groups : Option (List String)

inductive ClaimsVerificationError where
  | noMatchingKey
  | other
  deriving DecidableEq, Repr

/-- The OIDC library: what a provider it discovered says about an ID token. -/
structure Oidc where
  Provider : Type
  IdToken : Type
  claims : Provider → IdToken → String → Except ClaimsVerificationError IdTokenClaims
  endSessionUrl : Provider → Option String

structure AuthorizationRequest where
  url : String
  state : String
  nonce : String
  verifier : String

/-- The steps of a flow that leave the process or touch what its requests share. -/
inductive OidcOp (oidc : Oidc) where
  | cachedProvider
  | discoverProvider
  | cacheProvider (provider : oidc.Provider)
  | invalidateProviderCache
  | authorizeUrl (provider : oidc.Provider)
  | exchangeCode (provider : oidc.Provider) (code verifier : String)
  | unixSecondsNow

def OidcOp.Answer {oidc : Oidc} : OidcOp oidc → Type
  | .cachedProvider => Option oidc.Provider
  | .discoverProvider => Option oidc.Provider
  | .cacheProvider _ => Unit
  | .invalidateProviderCache => Unit
  | .authorizeUrl _ => AuthorizationRequest
  | .exchangeCode _ _ _ => Option (Option oidc.IdToken)
  | .unixSecondsNow => Nat

abbrev Flow (oidc : Oidc) (ε α : Type) := Fallible (@OidcOp.Answer oidc) ε α

def sanitizeReturnTo (returnTo : Option String) : String :=
  match returnTo with
  | some value =>
    if startsWith "/" value && !contains '\\' value && !startsWith "//" value then value else "/"
  | none => "/"

/-- A 302: its location, unless that is no header value, and the cookies it sets. -/
structure Redirect where
  location : Option String
  cookies : List Cookie

def redirectWithCookies (library : CookieLibrary) (location : String) (cookies : List Cookie) : Redirect :=
  ⟨headerValue location, cookies.filter fun cookie => (headerValue (library.encoded cookie)).isSome⟩

theorem mem_redirectWithCookies {library : CookieLibrary} {location : String} {cookies : List Cookie}
    {cookie : Cookie} (member : cookie ∈ (redirectWithCookies library location cookies).cookies) :
    cookie ∈ cookies :=
  List.mem_of_mem_filter member

def Redirect.intoResponse (library : CookieLibrary) (redirect : Redirect) : Response where
  status := 302
  headers := redirect.location.toList.map (fun value => ("location", value)) ++
    redirect.cookies.map fun cookie => ("set-cookie", library.encoded cookie)

inductive AuthState where
  | disabled
  -- the rest of the block only reaches the provider
  | oidc (jar : SessionCookieJar)

inductive AuthFlowError where
  | unavailable
  | providerUnavailable
  | unauthorized
  deriving DecidableEq, Repr

structure CallbackQuery where
  code : Option String
  state : Option String

variable {oidc : Oidc}

def ask (op : OidcOp oidc) : Flow oidc AuthFlowError op.Answer := Fallible.call op

def discoveredProvider : Flow oidc AuthFlowError oidc.Provider := do
  match ← ask .cachedProvider with
  | some provider => return provider
  | none =>
    -- no lock is held here: requests that miss together each discover, and the last one stays cached
    match ← ask .discoverProvider with
    | none => throw .providerUnavailable
    | some provider =>
      let _ ← ask (.cacheProvider provider)
      return provider

def loginResponse (state : Option AuthState) (returnTo : String) : Flow oidc AuthFlowError Redirect :=
  match state with
  | some (.oidc jar) => do
    let provider ← discoveredProvider
    let request ← ask (.authorizeUrl provider)
    let login : LoginCookieData :=
      ⟨request.state, request.nonce, request.verifier, sanitizeReturnTo (some returnTo)⟩
    return redirectWithCookies jar.library request.url [jar.mintLogin login]
  | _ => throw .unavailable

def sessionClaimsFromIdToken (claims : IdTokenClaims) : SessionClaims :=
  let email := claims.email.getD ""
  let name := claims.name.bind fun localized =>
    ((localized.find? fun value => value.1 = none).or localized.head?).map Prod.snd
  let displayName := ((claims.preferredUsername.or name).filter (· ≠ "")).or
    (if email = "" then none else some email)
  ⟨claims.subject, displayName.getD "", email, claims.groups.getD []⟩

def exchangeCodeAndValidateIdToken (provider : oidc.Provider) (code : String) (login : LoginCookieData) :
    Flow oidc AuthFlowError SessionClaims := do
  match ← ask (.exchangeCode provider code login.verifier) with
  | none => throw .providerUnavailable
  | some none => throw .unauthorized
  | some (some idToken) =>
    match oidc.claims provider idToken login.nonce with
    | .ok claims => return sessionClaimsFromIdToken claims
    | .error .noMatchingKey =>
      -- the code is spent, so the same token is checked again under the keys of today
      let _ ← ask .invalidateProviderCache
      let provider ← discoveredProvider
      match oidc.claims provider idToken login.nonce with
      | .ok claims => return sessionClaimsFromIdToken claims
      | .error _ => throw .unauthorized
    | .error .other => throw .unauthorized

-- What `callback_response` comes to, with those it logs in: the line that it logs for them is left to the
-- access log.
def callbackLogin (state : Option AuthState) (cookieHeader : Option String) (query : CallbackQuery) :
    Flow oidc AuthFlowError (SessionClaims × Redirect) :=
  match query.code with
  | none => throw .unauthorized
  | some code =>
    match state with
    | some (.oidc jar) =>
      match jar.verifyLogin (cookieHeader.getD "") with
      | .error _ => throw .unauthorized
      | .ok login =>
        if login.state ≠ query.state.getD "" then throw .unauthorized
        else do
          let provider ← discoveredProvider
          let claims ← exchangeCodeAndValidateIdToken provider code login
          let now ← ask .unixSecondsNow
          return (claims, redirectWithCookies jar.library (sanitizeReturnTo (some login.returnTo))
            [jar.mintSession now sessionMaxAgeSeconds claims, jar.clearLogin])
    | _ => throw .unavailable

def callbackResponse (state : Option AuthState) (cookieHeader : Option String) (query : CallbackQuery) :
    Flow oidc AuthFlowError Redirect := do
  let (_, redirect) ← callbackLogin state cookieHeader query
  return redirect

def logoutResponse (state : Option AuthState) : Flow oidc AuthFlowError Redirect :=
  match state with
  | some (.oidc jar) => do
    -- a failed discovery still clears the cookie
    let endSession ← tryCatch (do return oidc.endSessionUrl (← discoveredProvider)) fun _ => pure none
    return redirectWithCookies jar.library (endSession.getD "/") [jar.clearSession]
  | _ => throw .unavailable

def loginPath : String := "/api/v1/auth/login"

def callbackPath : String := "/api/v1/auth/callback"

def logoutPath : String := "/api/v1/auth/logout"

def isPublicPath (path : String) : Bool := path = loginPath || path = callbackPath || path = logoutPath

inductive GateDecision where
  | passThrough
  | authenticated (claims : SessionClaims)
  | unavailable
  | unauthorized
  | redirectToLogin
  deriving DecidableEq, Repr

def gateDecision (now : Nat) (state : Option AuthState) (path : String) (cookieHeader : Option String) :
    GateDecision :=
  if isPublicPath path then .passThrough
  else
    match state with
    | none => .unavailable
    | some .disabled => .passThrough
    | some (.oidc jar) =>
      match jar.verifySession now (cookieHeader.getD "") with
      | .ok claims => .authenticated claims
      | .error _ => if startsWith "/api/" path then .unauthorized else .redirectToLogin

def redirectToLogin (returnTo : Option String) : Response where
  status := 302
  headers := (headerValue (loginPath ++ "?returnTo=" ++ urlEncode (sanitizeReturnTo returnTo))).toList.map
    fun value => ("location", value)

def AuthFlowError.intoResponse : AuthFlowError → Response
  | .unavailable => { status := 503, body := .message "Authentication is unavailable." }
  | .providerUnavailable => { status := 503, body := .message "The authentication provider is unavailable." }
  | .unauthorized => { status := 401, body := .message "Authentication is required." }

section

variable {jar : SessionCookieJar}

theorem verifyLogin_ok {header : String} {login : LoginCookieData}
    (accepted : jar.verifyLogin header = .ok login) :
    ∃ value payload, extractCookie jar.library header loginCookieName = some value ∧
      jar.library.verify value = some payload ∧ parseLoginPayload payload = .ok login := by
  unfold SessionCookieJar.verifyLogin SessionCookieJar.verifyInJar at accepted
  split at accepted
  · cases accepted
  next value found =>
    split at accepted
    · cases accepted
    next payload verified => exact ⟨value, payload, found, verified, accepted⟩

theorem verifySession_ok {now : Nat} {header : String} {claims : SessionClaims}
    (accepted : jar.verifySession now header = .ok claims) :
    ∃ value payload, extractCookie jar.library header sessionCookieName = some value ∧
      jar.library.verify value = some payload ∧ parseSessionPayload now payload = .ok claims := by
  unfold SessionCookieJar.verifySession SessionCookieJar.verifyInJar at accepted
  split at accepted
  · cases accepted
  next value found =>
    split at accepted
    · cases accepted
    next payload verified => exact ⟨value, payload, found, verified, accepted⟩

theorem extractCookie_sent {library : CookieLibrary} {header name value : String}
    (found : extractCookie library header name = some value) :
    (name, value) ∈ library.splitParseEncoded header := by
  obtain ⟨⟨other, sent⟩, here, rfl⟩ := Option.map_eq_some_iff.mp found
  have named := List.find?_some here
  rw [decide_eq_true_eq] at named
  rw [← named]
  exact List.mem_of_find?_eq_some here

theorem gateDecision_authenticated {now : Nat} {path : String} {header : Option String}
    {claims : SessionClaims}
    (decided : gateDecision now (some (.oidc jar)) path header = .authenticated claims) :
    isPublicPath path = false ∧ jar.verifySession now (header.getD "") = .ok claims := by
  unfold gateDecision at decided
  split at decided
  · cases decided
  next guarded =>
    dsimp only at decided
    split at decided
    next verified =>
      cases decided
      exact ⟨by simpa using guarded, verified⟩
    · split at decided <;> cases decided

end

section

variable {reply : (op : OidcOp oidc) → op.Answer → Prop}

theorem discoveredProvider_cached {provider : oidc.Provider}
    (cached : reply .cachedProvider (some provider)) :
    discoveredProvider.Yields reply (.ok provider) := by
  rw [discoveredProvider, Fallible.yields_bind_ok]
  exact ⟨some provider, (Fallible.yields_call _ _ _).mpr cached, (Fallible.yields_pure _ _ _).mpr rfl⟩

theorem loginResponse_ok_iff (jar : SessionCookieJar) (returnTo : String) (redirect : Redirect) :
    (loginResponse (some (.oidc jar)) returnTo).Yields reply (.ok redirect) ↔
      ∃ provider, (discoveredProvider : Flow oidc _ _).Yields reply (.ok provider) ∧
        ∃ request, reply (.authorizeUrl provider) request ∧
          redirect = redirectWithCookies jar.library request.url
            [jar.mintLogin ⟨request.state, request.nonce, request.verifier,
              sanitizeReturnTo (some returnTo)⟩] := by
  simp only [loginResponse, ask, Fallible.yields_bind_ok, Fallible.yields_call,
    Fallible.yields_pure, Except.ok.injEq, eq_comm]

theorem logoutResponse_ok {jar : SessionCookieJar} {redirect : Redirect}
    (ran : (logoutResponse (some (.oidc jar)) : Flow oidc _ _).Yields reply (.ok redirect)) :
    ∃ location, redirect = redirectWithCookies jar.library location [jar.clearSession] := by
  rw [logoutResponse, Fallible.yields_bind_ok] at ran
  obtain ⟨endSession, _, ended⟩ := ran
  rw [Fallible.yields_pure] at ended
  exact ⟨_, (Except.ok.inj ended).symm⟩

theorem exchangeCodeAndValidateIdToken_ok {provider : oidc.Provider} {code : String} {login : LoginCookieData}
    {claims : SessionClaims}
    (ran : (exchangeCodeAndValidateIdToken provider code login).Yields reply (.ok claims)) :
    ∃ idToken, reply (.exchangeCode provider code login.verifier) (some (some idToken)) ∧
      ∃ trusted read, oidc.claims trusted idToken login.nonce = .ok read ∧
      claims = sessionClaimsFromIdToken read := by
  rw [exchangeCodeAndValidateIdToken, Fallible.yields_bind_ok] at ran
  obtain ⟨answer, asked, checked⟩ := ran
  rw [ask, Fallible.yields_call] at asked
  split at checked
  · simp at checked
  · simp at checked
  next idToken =>
    refine ⟨idToken, asked, ?_⟩
    split at checked
    next read validated =>
      rw [Fallible.yields_pure] at checked
      exact ⟨provider, read, validated, (Except.ok.inj checked).symm⟩
    next stale =>
      rw [Fallible.yields_bind_ok] at checked
      obtain ⟨_, _, again⟩ := checked
      rw [Fallible.yields_bind_ok] at again
      obtain ⟨fresh, _, retried⟩ := again
      split at retried
      next read validated =>
        rw [Fallible.yields_pure] at retried
        exact ⟨fresh, read, validated, (Except.ok.inj retried).symm⟩
      · simp at retried
    · simp at checked

theorem exchangeCodeAndValidateIdToken_validated {provider : oidc.Provider} {code : String}
    {login : LoginCookieData} {idToken : oidc.IdToken} {read : IdTokenClaims}
    (exchanged : reply (.exchangeCode provider code login.verifier) (some (some idToken)))
    (validated : oidc.claims provider idToken login.nonce = .ok read) :
    (exchangeCodeAndValidateIdToken provider code login).Yields reply
      (.ok (sessionClaimsFromIdToken read)) := by
  rw [exchangeCodeAndValidateIdToken, Fallible.yields_bind_ok]
  refine ⟨some (some idToken), (Fallible.yields_call _ _ _).mpr exchanged, ?_⟩
  simp [validated]

theorem callbackLogin_ok_iff (jar : SessionCookieJar) (header : Option String) (query : CallbackQuery)
    (claims : SessionClaims) (redirect : Redirect) :
    (callbackLogin (some (.oidc jar)) header query).Yields reply (.ok (claims, redirect)) ↔
      ∃ code login, query.code = some code ∧ jar.verifyLogin (header.getD "") = .ok login ∧
        login.state = query.state.getD "" ∧
        ∃ provider now, (discoveredProvider : Flow oidc _ _).Yields reply (.ok provider) ∧
          (exchangeCodeAndValidateIdToken provider code login).Yields reply (.ok claims) ∧
          reply .unixSecondsNow now ∧
          redirect = redirectWithCookies jar.library (sanitizeReturnTo (some login.returnTo))
            [jar.mintSession now sessionMaxAgeSeconds claims, jar.clearLogin] := by
  unfold callbackLogin
  cases coded : query.code with
  | none => simp
  | some code =>
    dsimp only
    cases verified : jar.verifyLogin (header.getD "") with
    | error error => simp
    | ok login =>
      by_cases matched : login.state = query.state.getD ""
      · simp only [matched, ne_eq, not_true_eq_false, if_false, ask,
          Fallible.yields_bind_ok, Fallible.yields_call,
          Fallible.yields_pure, Except.ok.injEq, Prod.mk.injEq, Option.some.injEq,
          exists_and_left, exists_eq_left',
          true_and, eq_comm]
        refine exists_congr fun provider => and_congr_right fun _ => ?_
        constructor
        · rintro ⟨validated, exchanged, now, told, rfl, sent⟩
          exact ⟨exchanged, now, told, sent⟩
        · rintro ⟨exchanged, now, told, sent⟩
          exact ⟨claims, exchanged, now, told, rfl, sent⟩
      · simp [matched]

theorem callbackResponse_ok_iff (jar : SessionCookieJar) (header : Option String) (query : CallbackQuery)
    (redirect : Redirect) :
    (callbackResponse (some (.oidc jar)) header query).Yields reply (.ok redirect) ↔
      ∃ code login, query.code = some code ∧ jar.verifyLogin (header.getD "") = .ok login ∧
        login.state = query.state.getD "" ∧
        ∃ provider claims now, (discoveredProvider : Flow oidc _ _).Yields reply (.ok provider) ∧
          (exchangeCodeAndValidateIdToken provider code login).Yields reply (.ok claims) ∧
          reply .unixSecondsNow now ∧
          redirect = redirectWithCookies jar.library (sanitizeReturnTo (some login.returnTo))
            [jar.mintSession now sessionMaxAgeSeconds claims, jar.clearLogin] := by
  rw [callbackResponse, Fallible.yields_bind_ok]
  simp only [Fallible.yields_pure, Except.ok.injEq, Prod.exists, callbackLogin_ok_iff]
  constructor
  · rintro ⟨claims, made, ⟨code, login, coded, verified, matched, provider, now, flow⟩, rfl⟩
    exact ⟨code, login, coded, verified, matched, provider, claims, now, flow⟩
  · rintro ⟨code, login, coded, verified, matched, provider, claims, now, flow⟩
    exact ⟨claims, redirect, ⟨code, login, coded, verified, matched, provider, now, flow⟩, rfl⟩

end

end Yafm
