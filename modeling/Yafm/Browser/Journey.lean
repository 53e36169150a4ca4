import Yafm.Auth.ReturnTo
import Yafm.Browser.Session

set_option autoImplicit false

namespace Yafm

open Text Effect Transition

/-- A location of the site as a browser writes it, unless it looks like one of another site. -/
structure OnSite (location : String) : Prop where
  visible : ∀ c ∈ location.toList, 0x20 ≤ c.toNat ∧ c.toNat < 0x7f
  slash : startsWith "/" location
  single : startsWith "//" location = false
  clean : '\\' ∉ location.toList

theorem OnSite.sanitized {location : String} (onSite : OnSite location) :
    sanitizeReturnTo (some location) = location := by
  apply sanitizeReturnTo_passes
  simp [onSite.slash, onSite.single, onSite.clean, contains]

def pageLocation (fields : List (String × String)) : String := "/" ++ searchText fields

theorem formEncode_visible (text : String) :
    ∀ c ∈ (formEncode text).toList, (0x20 ≤ c.toNat ∧ c.toNat < 0x7f) ∧ c ≠ '\\' := by
  have written (byte : UInt8) : (keepsSpace byte || isEscapeByte byte) →
      0x20 ≤ (plusForSpace (Char.ofNat byte.toNat)).toNat ∧
      (plusForSpace (Char.ofNat byte.toNat)).toNat < 0x7f ∧
        plusForSpace (Char.ofNat byte.toNat) ≠ '\\' := by
    revert byte
    exact forall_byte (by decide +kernel)
  intro c member
  rw [formEncode, String.toList_ofList, List.mem_map] at member
  obtain ⟨raw, inside, rfl⟩ := member
  obtain ⟨byte, kept, rfl⟩ := mem_percentEncodeExcept inside
  obtain ⟨low, high, clean⟩ := written byte (by simpa using kept)
  exact ⟨⟨low, high⟩, clean⟩

theorem searchParams_visible (fields : List (String × String)) :
    ∀ c ∈ (searchParams fields).toList, (0x20 ≤ c.toNat ∧ c.toNat < 0x7f) ∧ c ≠ '\\' := by
  intro c member
  rcases mem_join member with rfl | ⟨part, inside, found⟩
  · decide
  · obtain ⟨field, _, rfl⟩ := List.mem_map.mp inside
    rw [String.toList_append, String.toList_append, List.mem_append, List.mem_append] at found
    rcases found with (name | equals) | value
    · exact formEncode_visible field.1 c name
    · obtain rfl : c = '=' := by simpa using equals
      decide
    · exact formEncode_visible field.2 c value

theorem pageLocation_onSite (fields : List (String × String)) : OnSite (pageLocation fields) := by
  have chars : ∀ c ∈ (pageLocation fields).toList, (0x20 ≤ c.toNat ∧ c.toNat < 0x7f) ∧ c ≠ '\\' := by
    intro c member
    rw [pageLocation, String.toList_append, List.mem_append, searchText] at member
    rcases member with slash | found
    · obtain rfl : c = '/' := by simpa using slash
      decide
    · split at found
      · simp at found
      · rw [String.toList_append, List.mem_append] at found
        rcases found with mark | query
        · obtain rfl : c = '?' := by simpa using mark
          decide
        · exact searchParams_visible fields c query
  constructor
  · exact fun c member => (chars c member).1
  · simp [pageLocation, startsWith]
  · rw [pageLocation, searchText]
    split
    · decide
    · simp [startsWith, List.isPrefixOf]
  · exact fun inside => (chars _ inside).2 rfl

section

variable {platform : Platform} (lossy : ∀ text, platform.lossy (asBytes text) = text) {keep : UInt8 → Bool}
  (ascii : ∀ byte, keep byte → byte < 0x80)
include lossy ascii

theorem formUrlencodedParse_single (apart : keep (asciiByte '%') = false)
    (unsigned : keep (asciiByte '+') = false) (whole : keep (asciiByte '&') = false)
    (named : keep (asciiByte '=') = false) (name text : String) :
    formUrlencodedParse platform (percentEncodeExcept keep name ++ "=" ++
      percentEncodeExcept keep text) = [(name, text)] := by
  have one : '&' ∉ (percentEncodeExcept keep name ++ "=" ++ percentEncodeExcept keep text).toList := by
    have front := not_mem_percentEncodeExcept whole (by decide) name
    have back := not_mem_percentEncodeExcept whole (by decide) text
    simp [front, back]
  have filled : percentEncodeExcept keep name ++ "=" ++ percentEncodeExcept keep text ≠ "" := by
    intro empty
    have chars := congrArg String.toList empty
    simp at chars
  have cut : splitOnce '=' (percentEncodeExcept keep name ++ "=" ++ percentEncodeExcept keep text) =
      some (percentEncodeExcept keep name, percentEncodeExcept keep text) :=
    splitOnce_eq_some.mpr ⟨rfl, not_mem_percentEncodeExcept named (by decide) name⟩
  rw [formUrlencodedParse, split_singleton one]
  simp [filled, cut, formDecode_encoded lossy ascii apart unsigned]

theorem returnTo_arrives (apart : keep (asciiByte '%') = false) (unsigned : keep (asciiByte '+') = false)
    (whole : keep (asciiByte '&') = false) (named : keep (asciiByte '=') = false)
    (plain : percentEncodeExcept keep "returnTo" = "returnTo") (location : String) {request : Request}
    (query : request.query = some ("returnTo=" ++ percentEncodeExcept keep location)) :
    returnToQuery platform request = some location := by
  have parsed := formUrlencodedParse_single lossy ascii apart unsigned whole named "returnTo" location
  have spelled : "returnTo=" ++ percentEncodeExcept keep location =
      percentEncodeExcept keep "returnTo" ++ "=" ++ percentEncodeExcept keep location := by
    rw [plain]
    rfl
  rw [returnToQuery, queryFields, query, Option.getD_some, spelled, parsed]
  rfl

end

-- The page and the gate do not escape the same characters.
def loginHrefs (location : String) : List String :=
  [Client.loginHref location, loginPath ++ "?returnTo=" ++ urlEncode location]

theorem login_arrives {platform : Platform} (lossy : ∀ text, platform.lossy (asBytes text) = text)
    {location href : String} (entry : href ∈ loginHrefs location) (agent : UserAgent) (now : Nat)
    (browser : Browser) :
    (browser.attach agent now (navigate href [])).method = .get ∧
      (browser.attach agent now (navigate href [])).path = loginPath ∧
      returnToQuery platform (browser.attach agent now (navigate href [])) = some location := by
  obtain ⟨keep, ascii, apart, unsigned, whole, named, plain, rfl⟩ : ∃ keep : UInt8 → Bool,
      (∀ byte, keep byte → byte < 0x80) ∧ keep (asciiByte '%') = false ∧ keep (asciiByte '+') = false ∧
      keep (asciiByte '&') = false ∧ keep (asciiByte '=') = false ∧
      percentEncodeExcept keep "returnTo" = "returnTo" ∧
      href = loginPath ++ "?" ++ ("returnTo=" ++ percentEncodeExcept keep location) := by
    simp only [loginHrefs, List.mem_cons, List.not_mem_nil, or_false] at entry
    rcases entry with rfl | rfl
    · refine ⟨isComponentByte, isComponentByte_ascii, by decide, by decide, by decide,
        by decide, by decide, ?_⟩
      rw [Client.loginHref, ← String.append_assoc]
      rfl
    · refine ⟨isUnreserved, isUnreserved_below, by decide, by decide, by decide, by decide, by decide, ?_⟩
      rw [← String.append_assoc]
      rfl
  rw [navigate_query (by decide)]
  exact ⟨rfl, rfl, returnTo_arrives lossy ascii apart unsigned whole named plain location rfl⟩

section

variable {oidc : Oidc} (provider : (op : OidcOp oidc) → op.Answer)

def Finds (found : oidc.Provider) : Prop :=
  provider .cachedProvider = some found ∨
  (provider .cachedProvider = none ∧ provider .discoverProvider = some found)

structure Authorizes (request : AuthorizationRequest) : Prop where
  asked : ∃ found, Finds provider found ∧ provider (.authorizeUrl found) = request
  state : isSecret request.state
  nonce : isSecret request.nonce
  verifier : isSecret request.verifier
  url : (headerValue request.url).isSome

structure Vouches (code : String) (request : AuthorizationRequest) (claims : SessionClaims) : Prop where
  exchanged : ∃ found idToken read, Finds provider found ∧
    provider (.exchangeCode found code request.verifier) = some (some idToken) ∧
    oidc.claims found idToken request.nonce = .ok read ∧ claims = sessionClaimsFromIdToken read
  named : claims.subject ≠ ""

variable {provider}

theorem Finds.discovered {found : oidc.Provider} (finds : Finds provider found) :
    discoveredProvider.Yields (fun op answer => answer = provider op) (.ok found) := by
  rcases finds with cached | ⟨missed, discovered⟩
  · exact discoveredProvider_cached cached.symm
  · rw [discoveredProvider, Fallible.yields_bind_ok]
    refine ⟨none, (Fallible.yields_call _ _ _).mpr missed.symm, ?_⟩
    rw [Fallible.yields_bind_ok]
    refine ⟨some found, (Fallible.yields_call _ _ _).mpr discovered.symm, ?_⟩
    rw [Fallible.yields_bind_ok]
    exact ⟨provider (.cacheProvider found), (Fallible.yields_call _ _ _).mpr rfl,
      (Fallible.yields_pure _ _ _).mpr rfl⟩

end

def loginData (request : AuthorizationRequest) (location : String) : LoginCookieData :=
  ⟨request.state, request.nonce, request.verifier, location⟩

def callbackHref (query : String) : String := callbackPath ++ "?" ++ query

/-- The query that the provider sends the browser back with, whatever else is in it. -/
structure Brings (platform : Platform) (query code state : String) : Prop where
  code : queryField (formUrlencodedParse platform query) "code" = some (some code)
  state : queryField (formUrlencodedParse platform query) "state" = some (some state)

section

variable {oidc : Oidc} {agent : UserAgent} {server : Server} {jar : SessionCookieJar}
  (lawful : agent.Lawful jar.library) (signed : jar.library.Lawful) (auth : server.auth = some (.oidc jar))

theorem answered_public {now : Nat} {request : Request} {provider : (op : OidcOp oidc) → op.Answer}
    {browser : Browser} {program : Flow oidc AuthFlowError Redirect} {redirect : Redirect}
    (serves : (serve now server (browser.attach agent now request) : Serving oidc) =
      answerFlow (some (.oidc jar)) program)
    (yields : program.Yields (fun op answer => answer = provider op) (.ok redirect)) (disk : Disk) :
    (browser.send agent server provider disk now request).1 = redirect.intoResponse jar.library := by
  unfold Browser.send
  rw [serves]
  exact run_answerFlow_ok yields disk

theorem brought (platform : Platform) {query code state : String} (brings : Brings platform query code state)
    (now : Nat) (browser : Browser) :
    callbackQuery platform (browser.attach agent now (navigate (callbackHref query) [])) =
      some ⟨some code, some state⟩ := by
  have fields : queryFields platform (browser.attach agent now (navigate (callbackHref query) [])) =
      formUrlencodedParse platform query := by
    rw [callbackHref, navigate_query (by decide)]
    rfl
  rw [callbackQuery, fields, brings.code, brings.state]
  rfl

include lawful auth in
theorem login_leaves (lossy : ∀ text, server.platform.lossy (asBytes text) = text)
    {location href : String} (onSite : OnSite location) (entry : href ∈ loginHrefs location) {now : Nat}
    {browser : Browser} {provider : (op : OidcOp oidc) → op.Answer} {request : AuthorizationRequest}
    (authorizes : Authorizes provider request)
    (kept : agent.holds (jar.mintLogin (loginData request location))) (disk : Disk) :
    (browser.send agent server provider disk now (navigate href [])).1.status = 302 ∧
      ("location", request.url) ∈ (browser.send agent server provider disk now (navigate href [])).1.headers ∧
      (browser.send agent server provider disk now (navigate href [])).2 =
        browser.store now loginCookieName (jar.mintLogin (loginData request location)).value
          loginMaxAgeSeconds := by
  obtain ⟨get, path, returns⟩ := login_arrives lossy entry agent now browser
  have isPublic : isPublicPath (browser.attach agent now (navigate href [])).path := by
    simp [isPublicPath, path]
  have serves : (serve now server (browser.attach agent now (navigate href [])) : Serving oidc) =
      answerFlow (some (.oidc jar)) (loginResponse (some (.oidc jar)) location) := by
    rw [serve_public isPublic, routes_login path, auth, returns, getRoute, get]
    rfl
  obtain ⟨found, finds, asked⟩ := authorizes.asked
  have yields : (loginResponse (some (.oidc jar)) location).Yields (fun op answer => answer = provider op)
      (.ok (redirectWithCookies jar.library request.url [jar.mintLogin (loginData request location)])) := by
    rw [loginResponse_ok_iff]
    exact ⟨found, finds.discovered, request, asked.symm, by rw [onSite.sanitized]; rfl⟩
  have answered := answered_public serves yields disk
  have left : (browser.send agent server provider disk now (navigate href [])).2 = browser.receive agent now
      (browser.send agent server provider disk now (navigate href [])).1.headers := rfl
  obtain ⟨url, sendable⟩ := Option.isSome_iff_exists.mp authorizes.url
  have whole : url = request.url := by
    unfold headerValue at sendable
    split at sendable
    · exact (Option.some.inj sendable).symm
    · cases sendable
  rw [left, answered]
  refine ⟨rfl, ?_, ?_⟩
  · simp [Redirect.intoResponse, redirectWithCookies, sendable, whole]
  · rw [receive_redirect lawful now browser request.url
      (List.forall_mem_singleton.mpr (mintLogin_ordinary (loginData request location))),
      Browser.keep, List.foldl_cons,
      List.foldl_nil, if_pos kept]
    rfl

include lawful signed in
theorem callback_completes {location query code : String} {now : Nat} {browser : Browser}
    {cookie : StoredCookie} {provider : (op : OidcOp oidc) → op.Answer} {request : AuthorizationRequest}
    {claims : SessionClaims} (kept : browser.lookup now loginCookieName = some cookie)
    (minted : cookie.value = (jar.mintLogin (loginData request location)).value)
    (wellFormed : (loginData request location).WellFormed)
    (brings : Brings server.platform query code request.state)
    (vouches : Vouches provider code request claims) :
    Completes server.platform jar provider
      (browser.attach agent now (navigate (callbackHref query) [])) claims ∧
      jar.verifyLogin ((cookieHeader (browser.attach agent now (navigate (callbackHref query) []))).getD "") =
        .ok (loginData request location) := by
  have extracted : extractCookie jar.library
      ((cookieHeader (browser.attach agent now (navigate (callbackHref query) []))).getD "") loginCookieName =
      some (jar.mintLogin (loginData request location)).value := by
    rw [cookieHeader_attach lawful, extractCookie_live lawful, kept, Option.map_some, minted]
  have checked : jar.verifyInJar (jar.mintLogin (loginData request location)).value =
      some (loginPayload (loginData request location)) := signed.signed _
  have verified :
      jar.verifyLogin ((cookieHeader (browser.attach agent now (navigate (callbackHref query) []))).getD "") =
      .ok (loginData request location) := by
    rw [SessionCookieJar.verifyLogin, extracted]
    simp only [checked]
    exact parseLoginPayload_minted wellFormed
  obtain ⟨found, idToken, read, finds, exchanged, validated, rfl⟩ := vouches.exchanged
  refine ⟨⟨?_, ?_, ⟨some code, some request.state⟩, code, loginData request location, found,
    brought server.platform brings now browser, rfl, verified, rfl, finds.discovered, ?_⟩, verified⟩
  · rw [callbackHref, navigate_query (by decide)]
    rfl
  · left
    rw [callbackHref, navigate_query (by decide)]
    rfl
  · exact exchangeCodeAndValidateIdToken_validated exchanged.symm validated

theorem gate_entry {location : String} {now : Nat} {browser : Browser}
    {provider : (op : OidcOp oidc) → op.Answer} {disk : Disk}
    (turned : gateDecision now server.auth (browser.attach agent now (navigate location [])).path
      (cookieHeader (browser.attach agent now (navigate location []))) = .redirectToLogin) :
    (browser.send agent server provider disk now (navigate location [])).1 =
      redirectToLogin (some location) := by
  have whole : pathAndQuery (browser.attach agent now (navigate location [])) = location := by
    unfold navigate pathAndQuery Browser.attach
    cases cut : splitOnce '?' location with
    | none => rfl
    | some parts => exact (splitOnce_eq_some.mp cut).1.symm
  unfold Browser.send serve authGate
  rw [turned, whole]
  rfl

theorem callback_answers (auth : server.auth = some (.oidc jar)) {query : String} {now : Nat}
    {browser : Browser} (disk : Disk) {provider : (op : OidcOp oidc) → op.Answer}
    {claims : SessionClaims} {login : LoginCookieData} {location : String} (onSite : OnSite location)
    (place : login.returnTo = location) (clock : provider .unixSecondsNow = now)
    (completes : Completes server.platform jar provider
      (browser.attach agent now (navigate (callbackHref query) [])) claims)
    (verified : jar.verifyLogin
      ((cookieHeader (browser.attach agent now (navigate (callbackHref query) []))).getD "") =
      .ok login) :
    (browser.send agent server provider disk now (navigate (callbackHref query) [])).1 =
      (redirectWithCookies jar.library location
        [jar.mintSession now sessionMaxAgeSeconds claims, jar.clearLogin]).intoResponse jar.library := by
  have shape : browser.attach agent now (navigate (callbackHref query) []) =
      browser.attach agent now ⟨.get, callbackPath, some query, []⟩ := by
    rw [callbackHref, navigate_query (by decide)]
  obtain ⟨asked, code, read, found, present, coded, accepted, matched, discovered, exchanged⟩ :=
    completes.completed
  cases verified.symm.trans accepted
  have yields : (callbackResponse (some (.oidc jar))
      (cookieHeader (browser.attach agent now (navigate (callbackHref query) []))) asked).Yields
      (fun op answer => answer = provider op) (.ok (redirectWithCookies jar.library location
        [jar.mintSession now sessionMaxAgeSeconds claims, jar.clearLogin])) := by
    rw [callbackResponse_ok_iff]
    exact ⟨code, login, coded, verified, matched, found, claims, now, discovered, exchanged, clock.symm,
      by rw [place, onSite.sanitized]⟩
  have serves :
      (serve now server (browser.attach agent now (navigate (callbackHref query) [])) : Serving oidc) =
      answerFlow (some (.oidc jar)) (callbackResponse (some (.oidc jar))
        (cookieHeader (browser.attach agent now (navigate (callbackHref query) []))) asked) := by
    have isPublic : isPublicPath (browser.attach agent now (navigate (callbackHref query) [])).path := by
      simp [isPublicPath, completes.path]
    rw [serve_public isPublic, routes_callback completes.path, auth, present, shape]
    rfl
  exact answered_public serves yields disk

theorem callback_steps {query : String} {now : Nat} {browser : Browser} (disk : Disk)
    {provider : (op : OidcOp oidc) → op.Answer} {claims : SessionClaims}
    (clock : provider .unixSecondsNow = now)
    (completes : Completes server.platform jar provider
      (browser.attach agent now (navigate (callbackHref query) [])) claims)
    (kept : agent.holds (jar.mintSession now sessionMaxAgeSeconds claims)) (session : Option Session)
    {since : Nat} (later : since ≤ now) :
    BrowsingStep agent server jar ⟨browser, session, since⟩
      ⟨now, navigate (callbackHref query) [], provider, disk⟩
      ⟨(browser.send agent server provider disk now (navigate (callbackHref query) [])).2,
        some ⟨claims, now⟩, now⟩ :=
  ⟨later, rfl, clock, rfl, .login completes kept⟩

/-- The two ways to the login: the page sends the browser there, or the gate has turned a request away. -/
inductive LoginEntry (agent : UserAgent) (server : Server) (oidc : Oidc) (location : String) : String → Prop
  | page : LoginEntry agent server oidc location (Client.loginHref location)
  | gate {href : String} {now : Nat} {browser : Browser}
      {provider : (op : OidcOp oidc) → op.Answer} {disk : Disk}
      (turned : gateDecision now server.auth (browser.attach agent now (navigate location [])).path
        (cookieHeader (browser.attach agent now (navigate location []))) = .redirectToLogin)
      (told : ("location", href) ∈ (browser.send agent server provider disk now
        (navigate location [])).1.headers) :
      LoginEntry agent server oidc location href

theorem LoginEntry.leads {location href : String} (entry : LoginEntry agent server oidc location href)
    (onSite : OnSite location) : href ∈ loginHrefs location := by
  cases entry with
  | page => exact List.mem_cons_self
  | gate turned told =>
    rw [gate_entry turned, redirectToLogin, onSite.sanitized] at told
    obtain ⟨value, sendable, same⟩ := List.mem_map.mp told
    rw [Option.mem_toList, headerValue] at sendable
    split at sendable
    · cases sendable
      cases same
      exact List.mem_cons_of_mem _ List.mem_cons_self
    · cases sendable

end

def homeJar : SessionCookieJar := ⟨crumbLibrary, false⟩

def homeServer : Server where
  platform := textPlatform
  config := none
  auth := some (.oidc homeJar)
  access := none
  frontendAssets _ := none
  mimeType _ := ""

def homeRequest : AuthorizationRequest := ⟨"https://sso.example/authorize", "st", "no", "ve"⟩

def helpful : (op : OidcOp plainOidc) → op.Answer
  | .cachedProvider => some ()
  | .discoverProvider => some ()
  | .cacheProvider _ => ()
  | .invalidateProviderCache => ()
  | .authorizeUrl _ => homeRequest
  | .exchangeCode _ _ _ => some (some "no")
  | .unixSecondsNow => (100 : Nat)

def alice : SessionClaims := ⟨"alice", "Alice", "", ["staff"]⟩

def homeQuery : String := searchParams [("code", "c"), ("state", "st")]

theorem homeQuery_brings : Brings textPlatform homeQuery "c" "st" := by
  have fields : formUrlencodedParse textPlatform homeQuery = [("code", "c"), ("state", "st")] :=
    formUrlencodedParse_searchParams textPlatform_lossy _
  constructor
  · rw [fields]
    rfl
  · rw [fields]
    rfl

theorem helpful_authorizes : Authorizes helpful homeRequest where
  asked := ⟨(), .inl rfl, rfl⟩
  state := by decide
  nonce := by decide
  verifier := by decide
  url := by decide

theorem helpful_vouches : Vouches helpful "c" homeRequest alice where
  exchanged := ⟨(), "no", ⟨"alice", some "Alice", none, none, some ["staff"]⟩, .inl rfl, rfl,
    by simp [plainOidc, homeRequest], by decide⟩
  named := by decide

section

variable {oidc : Oidc} {agent : UserAgent} {server : Server} {jar : SessionCookieJar}

-- A browser that is sent to the login, by the page or by the gate, and that keeps the cookies of the login
-- and of the session, comes back to where it was once the provider vouches for someone in time. What it
-- asks for is answered to that someone for as long as a session lasts, unless it logs out or another login
-- completes.
theorem login_returns (lawful : agent.Lawful jar.library) (signed : jar.library.Lawful)
    (auth : server.auth = some (.oidc jar))
    (lossy : ∀ text, server.platform.lossy (asBytes text) = text) {location href query code : String}
    (onSite : OnSite location) (entry : LoginEntry agent server oidc location href) {start back : Nat}
    (inTime : back < start + loginMaxAgeSeconds) (epoch : back + 2 * sessionMaxAgeSeconds ≤ 2 ^ 64)
    (browser : Browser) {asking answering : (op : OidcOp oidc) → op.Answer}
    {request : AuthorizationRequest} {claims : SessionClaims} (authorizes : Authorizes asking request)
    (brings : Brings server.platform query code request.state)
    (vouches : Vouches answering code request claims) (clock : answering .unixSecondsNow = back)
    (begun : agent.holds (jar.mintLogin (loginData request location)))
    (done : agent.holds (jar.mintSession back sessionMaxAgeSeconds claims)) (early late : Disk)
    (session : Option Session) :
    let away := browser.send agent server asking early start (navigate href [])
    away.1.status = 302 ∧ ("location", request.url) ∈ away.1.headers ∧
      ∀ waiting, (((browsing oidc agent server jar).since ⟨away.2, session, start⟩).guard
          (Sent.Waits agent server jar)).Reachable waiting → waiting.clock ≤ back →
        let home := waiting.browser.send agent server answering late back (navigate (callbackHref query) [])
        home.1.status = 302 ∧ ("location", location) ∈ home.1.headers ∧
          ∀ state, (((browsing oidc agent server jar).since ⟨home.2, some ⟨claims, back⟩, back⟩).guard
              (Sent.Stays agent server jar)).Reachable state →
            ∀ now, state.clock ≤ now → now < back + sessionMaxAgeSeconds →
              ∀ request, isPublicPath request.path = false →
                gateDecision now server.auth request.path
                  (cookieHeader (state.browser.attach agent now request)) =
                  .authenticated { claims with groups := mintedGroups claims.groups } := by
  intro away
  obtain ⟨sent, told, left⟩ : away.1.status = 302 ∧ ("location", request.url) ∈ away.1.headers ∧ away.2 =
      browser.store start loginCookieName (jar.mintLogin (loginData request location)).value
        loginMaxAgeSeconds :=
    login_leaves lawful auth lossy onSite (entry.leads onSite) authorizes begun early
  refine ⟨sent, told, ?_⟩
  intro waiting reached waited home
  have kept : waiting.browser.lookup back loginCookieName =
      some ⟨loginCookieName, (jar.mintLogin (loginData request location)).value,
        start + loginMaxAgeSeconds, by decide⟩ := by
    rw [waits_run lawful auth reached, left]
    exact lookup_store _ (by decide) (by decide) inTime
  have wellFormed : (loginData request location).WellFormed :=
    ⟨authorizes.state, authorizes.nonce, authorizes.verifier⟩
  obtain ⟨completes, verified⟩ := callback_completes lawful signed kept rfl wellFormed brings vouches
  have answered := callback_answers auth late onSite rfl clock completes verified
  have remembers := remembers_kept lawful
    (callback_steps late clock completes done waiting.session waited) rfl done
    ⟨location, congrArg Response.headers answered⟩
  refine ⟨?_, ?_, ?_⟩
  · rw [answered]
    rfl
  · rw [answered]
    simp [Redirect.intoResponse, redirectWithCookies, headerValue_visible onSite.visible]
  · intro state browsed now later before request guarded
    obtain ⟨still, same⟩ := stays_run lawful auth remembers browsed
    rw [auth, still.gate lawful signed later (by omega) request guarded, same]
    exact ⟨⟨claims, back⟩, rfl, before, vouches.named, rfl⟩

end

theorem login_returns_alice : ∃ home : Response × Browser,
    ("location", pageLocation [("p", "a b")]) ∈ home.1.headers ∧
      gateDecision 200 homeServer.auth directoryPath
        (cookieHeader (home.2.attach crumbAgent 200 ⟨.get, directoryPath, none, []⟩)) =
          .authenticated alice := by
  have auth : homeServer.auth = some (.oidc homeJar) := rfl
  have begun :
      crumbAgent.holds (homeJar.mintLogin (loginData homeRequest (pageLocation [("p", "a b")]))) := by
        decide +kernel
  have done : crumbAgent.holds (homeJar.mintSession 100 sessionMaxAgeSeconds alice) := by decide +kernel
  have inTime : 100 < 50 + loginMaxAgeSeconds := by decide
  obtain ⟨_, _, returns⟩ := login_returns crumbAgent_lawful crumbLibrary_lawful auth textPlatform_lossy
    (pageLocation_onSite [("p", "a b")]) .page inTime (by decide) [] helpful_authorizes
      homeQuery_brings helpful_vouches
    rfl begun done linkedDisk linkedDisk none
  have waited : 50 ≤ 100 := by decide
  obtain ⟨_, back, answers⟩ := returns _ (System.reachable_since _ _ _) waited
  have later : 100 ≤ 200 := by decide
  have known := answers _ (System.reachable_since _ _ _) 200 later (by decide)
    ⟨.get, directoryPath, none, []⟩ (by decide)
  refine ⟨_, back, ?_⟩
  dsimp only at known
  exact known

section

variable {oidc : Oidc} {agent : UserAgent} {server : Server} {jar : SessionCookieJar}

-- In every run of a browser, the gate takes its requests for those of whoever its last login was for, from
-- the callback that completed until the session is over or until a logout, whatever the provider answers
-- to that.
theorem gate_remembers (lawful : agent.Lawful jar.library) (signed : jar.library.Lawful)
    (auth : server.auth = some (.oidc jar)) {state : Browsing}
    (reached : (browsing oidc agent server jar).Reachable state) {now : Nat} (later : state.clock ≤ now)
    (inTime : now + sessionMaxAgeSeconds < 2 ^ 64) (request : Request)
    (guarded : isPublicPath request.path = false) (claims : SessionClaims) :
    gateDecision now server.auth request.path (cookieHeader (state.browser.attach agent now request)) =
        .authenticated claims ↔
      ∃ session ∈ state.session, now < session.expires ∧ session.claims.subject ≠ "" ∧
        claims = { session.claims with groups := mintedGroups session.claims.groups } := by
  rw [auth]
  exact (remembers lawful auth reached).gate lawful signed later inTime request guarded claims

end

def begunCookie : StoredCookie :=
  ⟨loginCookieName, (homeJar.mintLogin (loginData homeRequest "/")).value, 600, by decide⟩

theorem gate_remembers_alice : ∃ state : Browsing,
    (browsing plainOidc crumbAgent homeServer homeJar).Reachable state ∧
      gateDecision 200 homeServer.auth directoryPath
        (cookieHeader (state.browser.attach crumbAgent 200 ⟨.get, directoryPath, none, []⟩)) =
          .authenticated alice := by
  have auth : homeServer.auth = some (.oidc homeJar) := rfl
  have root : OnSite "/" := pageLocation_onSite []
  have wellFormed : (loginData homeRequest "/").WellFormed :=
    ⟨helpful_authorizes.state, helpful_authorizes.nonce, helpful_authorizes.verifier⟩
  have kept : Browser.lookup 100 loginCookieName [begunCookie] = some begunCookie := rfl
  have brings : Brings homeServer.platform homeQuery "c" homeRequest.state := homeQuery_brings
  have minted : begunCookie.value = (homeJar.mintLogin (loginData homeRequest "/")).value := rfl
  have lawful : crumbAgent.Lawful homeJar.library := crumbAgent_lawful
  obtain ⟨completes, verified⟩ :=
    callback_completes lawful crumbLibrary_lawful kept minted wellFormed brings helpful_vouches
  have done : crumbAgent.holds (homeJar.mintSession 100 sessionMaxAgeSeconds alice) := by decide +kernel
  have answered := callback_answers auth linkedDisk root rfl rfl completes verified
  have steps := callback_steps linkedDisk rfl completes done none (Nat.zero_le 100)
  have starts : (browsing plainOidc crumbAgent homeServer homeJar).start ⟨[begunCookie], none, 0⟩ := by
    refine ⟨rfl, fun later => ?_⟩
    have other : begunCookie.name ≠ sessionCookieName := by decide
    simp [Browser.lookup, other]
  have reached := System.Reachable.step (.start starts) steps
  refine ⟨_, reached, ?_⟩
  rw [gate_remembers lawful crumbLibrary_lawful auth reached (by decide) (by decide)
    ⟨.get, directoryPath, none, []⟩ (by decide)]
  exact ⟨⟨alice, 100⟩, rfl, by decide, by decide, by decide⟩

end Yafm
