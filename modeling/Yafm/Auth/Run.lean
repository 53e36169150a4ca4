import Yafm.Auth.Flow
import Yafm.Shared.Transition

set_option autoImplicit false

namespace Yafm

open Text Effect Transition

structure Callback where
  now : Nat
  header : Option String
  query : CallbackQuery
  redirect : Redirect

structure AuthRun where
  cookies : List Cookie
  callbacks : List Callback

inductive AuthEvent where
  | login (now : Nat) (returnTo : String)
  | callback (now : Nat) (header : Option String) (query : CallbackQuery)
  | logout (now : Nat)
  | data (now : Nat) (path : String) (header : Option String)

/-- A value with the right digest was set by the server, under whatever name it comes back. -/
def Unforged (library : CookieLibrary) (cookies : List Cookie) (header : Option String) : Prop :=
  ∀ sent ∈ library.splitParseEncoded (header.getD ""), ∀ payload, library.verify sent.2 = some payload →
    ∃ cookie ∈ cookies, cookie.value = sent.2

-- The secrets of a login come from the OIDC library; the provider answers the rest as it likes.
def Replies {oidc : Oidc} (now : Nat) : (op : OidcOp oidc) → op.Answer → Prop
  | .authorizeUrl _, request => isSecret request.state ∧ isSecret request.nonce ∧ isSecret request.verifier
  | .unixSecondsNow, answer => answer = now
  | _, _ => True

section

variable (oidc : Oidc) (jar : SessionCookieJar)

inductive AuthStep : AuthRun → AuthEvent → AuthRun → Prop
  | login {run : AuthRun} {now : Nat} {returnTo : String} {redirect : Redirect}
      (answered : (loginResponse (some (.oidc jar)) returnTo : Flow oidc _ _).Yields
        (Replies now) (.ok redirect)) :
      AuthStep run (.login now returnTo) { run with cookies := redirect.cookies ++ run.cookies }
  | callback {run : AuthRun} (done : Callback) (unforged : Unforged jar.library run.cookies done.header)
      (answered : (callbackResponse (some (.oidc jar)) done.header done.query : Flow oidc _ _).Yields
        (Replies done.now)
        (.ok done.redirect)) :
      AuthStep run (.callback done.now done.header done.query)
        ⟨done.redirect.cookies ++ run.cookies, done :: run.callbacks⟩
  | logout {run : AuthRun} {now : Nat} {redirect : Redirect}
      (answered : (logoutResponse (some (.oidc jar)) : Flow oidc _ _).Yields (Replies now) (.ok redirect)) :
      AuthStep run (.logout now) { run with cookies := redirect.cookies ++ run.cookies }
  -- a request that is refused, or that reads data, sets no cookie
  | unchanged {run : AuthRun} (event : AuthEvent) : AuthStep run event run

def authSystem : System AuthRun AuthEvent := ⟨fun run => run = ⟨[], []⟩, AuthStep oidc jar⟩

/-- A callback whose login cookie verified, whose state was asked for, and whose ID token validated under
the nonce of that cookie. -/
structure Callback.Proves (done : Callback) (claims : SessionClaims) : Prop where
  set : jar.mintSession done.now sessionMaxAgeSeconds claims ∈ done.redirect.cookies
  login : ∃ login, jar.verifyLogin (done.header.getD "") = .ok login ∧ done.query.state = some login.state ∧
    ∃ provider idToken read, oidc.claims provider idToken login.nonce = .ok read ∧
      claims = sessionClaimsFromIdToken read

/-- Every cookie is a login that the library made secrets for, the session of a completed
callback, or cleared. -/
inductive Origin (callbacks : List Callback) : Cookie → Prop
  | login (data : LoginCookieData) (wellFormed : data.WellFormed) : Origin callbacks (jar.mintLogin data)
  | session (done : Callback) (claims : SessionClaims) (completed : done ∈ callbacks)
      (proves : done.Proves oidc jar claims) : Origin callbacks
        (jar.mintSession done.now sessionMaxAgeSeconds claims)
  | cleared (name : String) : Origin callbacks (jar.clearCookie name)

def Traced (run : AuthRun) : Prop := ∀ cookie ∈ run.cookies, Origin oidc jar run.callbacks cookie

end

variable {oidc : Oidc} {jar : SessionCookieJar}

theorem Origin.later {callbacks : List Callback} {cookie : Cookie} (done : Callback)
    (origin : Origin oidc jar callbacks cookie) : Origin oidc jar (done :: callbacks) cookie := by
  cases origin with
  | login data wellFormed => exact .login data wellFormed
  | session done claims completed proves =>
    exact .session done claims (List.mem_cons_of_mem _ completed) proves
  | cleared name => exact .cleared name

theorem traced_step {before after : AuthRun} {event : AuthEvent} (traced : Traced oidc jar before)
    (steps : AuthStep oidc jar before event after) : Traced oidc jar after := by
  cases steps with
  | @login now returnTo redirect answered =>
    intro cookie member
    rcases List.mem_append.mp member with fresh | old
    · obtain ⟨provider, _, request, secrets, rfl⟩ := (loginResponse_ok_iff jar returnTo redirect).mp answered
      rw [List.mem_singleton.mp (mem_redirectWithCookies fresh)]
      exact .login _ ⟨secrets.1, secrets.2.1, secrets.2.2⟩
    · exact traced cookie old
  | callback done unforged answered =>
    intro cookie member
    rcases List.mem_append.mp member with fresh | old
    · obtain ⟨code, login, _, verified, state, _, claims, minted, _, exchanged, clock, same⟩ :=
        (callbackResponse_ok_iff jar done.header done.query done.redirect).mp answered
      obtain rfl : minted = done.now := clock
      have either := fresh
      rw [same] at either
      replace either := mem_redirectWithCookies either
      simp only [List.mem_cons, List.not_mem_nil, or_false] at either
      rcases either with rfl | rfl
      · refine .session done claims List.mem_cons_self ⟨fresh, login, verified, ?_, ?_⟩
        · obtain ⟨_, payload, _, _, parsed⟩ := verifyLogin_ok verified
          have named := parseLoginPayload_ok parsed
          cases asked : done.query.state with
          | none =>
            rw [asked] at state
            exact absurd state named
          | some value =>
            rw [asked] at state
            simpa using state.symm
        · obtain ⟨idToken, _, trusted, read, validated, rfl⟩ := exchangeCodeAndValidateIdToken_ok exchanged
          exact ⟨trusted, idToken, read, validated, rfl⟩
      · exact .cleared loginCookieName
    · exact (traced cookie old).later _
  | @logout now redirect answered =>
    intro cookie member
    rcases List.mem_append.mp member with fresh | old
    · obtain ⟨location, rfl⟩ := logoutResponse_ok answered
      rw [List.mem_singleton.mp (mem_redirectWithCookies fresh)]
      exact .cleared sessionCookieName
    · exact traced cookie old
  | unchanged => exact traced

theorem traced {run : AuthRun} (reached : (authSystem oidc jar).Reachable run) : Traced oidc jar run :=
  reached.invariant (by rintro _ rfl; simp [Traced]) fun _ _ _ => traced_step

theorem Origin.not_session {callbacks : List Callback} {cookie : Cookie} (lawful : jar.library.Lawful)
    (origin : Origin oidc jar callbacks cookie) (named : cookie.name = loginCookieName) {now : Nat}
    {header : String} (sent : extractCookie jar.library header sessionCookieName = some cookie.value)
    (claims : SessionClaims) : jar.verifySession now header ≠ .ok claims := by
  intro accepted
  obtain ⟨value, payload, found, verified, parsed⟩ := verifySession_ok accepted
  obtain rfl : cookie.value = value := Option.some.inj (sent.symm.trans found)
  cases origin with
  | login data wellFormed =>
    obtain rfl : loginPayload data = payload := Option.some.inj ((lawful.signed _).symm.trans verified)
    exact parseSessionPayload_login wellFormed now claims parsed
  | session => exact absurd named (show sessionCookieName ≠ loginCookieName by decide)
  | cleared =>
    have nothing : jar.library.verify "" = some payload := verified
    rw [lawful.empty] at nothing
    cases nothing

theorem Origin.not_login {callbacks : List Callback} {cookie : Cookie} (lawful : jar.library.Lawful)
    (origin : Origin oidc jar callbacks cookie) (named : cookie.name = sessionCookieName) {header : String}
    (sent : extractCookie jar.library header loginCookieName = some cookie.value) (login : LoginCookieData) :
    jar.verifyLogin header ≠ .ok login := by
  intro accepted
  obtain ⟨value, payload, found, verified, parsed⟩ := verifyLogin_ok accepted
  obtain rfl : cookie.value = value := Option.some.inj (sent.symm.trans found)
  cases origin with
  | login => exact absurd named (show loginCookieName ≠ sessionCookieName by decide)
  | session done claims =>
    obtain rfl : sessionPayload done.now sessionMaxAgeSeconds claims = payload :=
      Option.some.inj ((lawful.signed _).symm.trans verified)
    exact parseLoginPayload_session _ _ _ login parsed
  | cleared =>
    have nothing : jar.library.verify "" = some payload := verified
    rw [lawful.empty] at nothing
    cases nothing

theorem Origin.accepted {callbacks : List Callback} {cookie : Cookie} (lawful : jar.library.Lawful)
    (origin : Origin oidc jar callbacks cookie) {payload : String}
    (verified : jar.library.verify cookie.value = some payload) {now : Nat} {claims : SessionClaims}
    (parsed : parseSessionPayload now payload = .ok claims) :
    ∃ done ∈ callbacks, ∃ minted, done.Proves oidc jar minted ∧
      parseSessionPayload now (sessionPayload done.now sessionMaxAgeSeconds minted) = .ok claims ∧
      now < done.now + sessionMaxAgeSeconds := by
  cases origin with
  | login data wellFormed =>
    obtain rfl : loginPayload data = payload := Option.some.inj ((lawful.signed _).symm.trans verified)
    exact absurd parsed (parseSessionPayload_login wellFormed now claims)
  | session done minted completed proves =>
    obtain rfl : sessionPayload done.now sessionMaxAgeSeconds minted = payload :=
      Option.some.inj ((lawful.signed _).symm.trans verified)
    exact ⟨done, completed, minted, proves, parsed, parseSessionPayload_minted parsed⟩
  | cleared =>
    have nothing : jar.library.verify "" = some payload := verified
    rw [lawful.empty] at nothing
    cases nothing

theorem authenticated_traced {run : AuthRun} (lawful : jar.library.Lawful)
    (reached : (authSystem oidc jar).Reachable run) :
    (∀ now path header claims, Unforged jar.library run.cookies header →
      gateDecision now (some (.oidc jar)) path header = .authenticated claims →
      ∃ done ∈ run.callbacks, ∃ minted, done.Proves oidc jar minted ∧
        parseSessionPayload now (sessionPayload done.now sessionMaxAgeSeconds minted) = .ok claims ∧
        now < done.now + sessionMaxAgeSeconds) ∧
    ∀ cookie ∈ run.cookies,
      (cookie.name = loginCookieName → ∀ now header claims,
        extractCookie jar.library header sessionCookieName = some cookie.value →
        jar.verifySession now header ≠ .ok claims) ∧
      (cookie.name = sessionCookieName → ∀ header login,
        extractCookie jar.library header loginCookieName = some cookie.value →
        jar.verifyLogin header ≠ .ok login) := by
  have origins := traced reached
  constructor
  · intro now path header claims unforged decided
    obtain ⟨value, payload, found, verified, parsed⟩ :=
      verifySession_ok (gateDecision_authenticated decided).2
    obtain ⟨cookie, member, same⟩ := unforged _ (extractCookie_sent found) payload verified
    have verified : jar.library.verify cookie.value = some payload := by rwa [same]
    exact (origins cookie member).accepted lawful verified parsed
  · intro cookie member
    exact ⟨fun named _ _ claims sent => (origins cookie member).not_session lawful named sent claims,
      fun named _ login sent => (origins cookie member).not_login lawful named sent login⟩

def plainLibrary : CookieLibrary where
  splitParseEncoded header := (splitOnce '=' header).toList
  encoded cookie := urlEncode cookie.name ++ "=" ++ urlEncode cookie.value
  sign payload := "signed." ++ payload
  verify value := stripPrefix "signed." value

theorem plainLibrary_lawful : plainLibrary.Lawful := ⟨fun payload => stripPrefix_append _ payload, by decide⟩

def plainJar : SessionCookieJar := ⟨plainLibrary, true⟩

def plainOidc : Oidc where
  Provider := Unit
  IdToken := String
  claims _ idToken nonce :=
    if idToken = nonce then .ok ⟨"alice", some "Alice", none, none, some ["staff"]⟩ else .error .other
  endSessionUrl _ := none

def plainLogin (returnTo : String) : LoginCookieData := ⟨"st", "no", "ve", sanitizeReturnTo (some returnTo)⟩

def plainHeader (cookie : Cookie) : String := cookie.name ++ "=" ++ cookie.value

def plainGranted (returnTo : String) : Redirect :=
  redirectWithCookies plainLibrary "https://sso.example/authorize" [plainJar.mintLogin (plainLogin returnTo)]

def plainCallback (returnTo : String) : Callback where
  now := 100
  header := some (plainHeader (plainJar.mintLogin (plainLogin returnTo)))
  query := ⟨some "code", some "st"⟩
  redirect := redirectWithCookies plainLibrary (sanitizeReturnTo (some (plainLogin returnTo).returnTo))
    [plainJar.mintSession 100 sessionMaxAgeSeconds ⟨"alice", "Alice", "", ["staff"]⟩, plainJar.clearLogin]

theorem plainCallback_location (returnTo : String) :
    (plainCallback returnTo).redirect.location = headerValue
      (sanitizeReturnTo (some (plainLogin returnTo).returnTo)) := by
  simp only [plainCallback, redirectWithCookies]

theorem plainLibrary_sends (cookie : Cookie) (named : '=' ∉ cookie.name.toList) :
    plainLibrary.splitParseEncoded (plainHeader cookie) = [(cookie.name, cookie.value)] := by
  have parts : split '=' (plainHeader cookie) = cookie.name :: split '=' cookie.value := by
    have apart := split_append '=' cookie.name cookie.value
    rwa [split_singleton named] at apart
  obtain ⟨next, rest, more⟩ := List.exists_cons_of_ne_nil (split_ne_nil '=' cookie.value)
  have whole := join_split '=' cookie.value
  rw [more] at parts whole
  simp [plainLibrary, splitOnce, parts, whole]

theorem plainLibrary_encoded (cookie : Cookie) : (headerValue (plainLibrary.encoded cookie)).isSome := by
  have each (byte : UInt8) : isUnreserved byte ∨ byte = asciiByte '%' → isHeaderByte byte := by
    revert byte
    exact forall_byte (by decide +kernel)
  have legal : (asBytes (urlEncode cookie.name ++ "=" ++ urlEncode cookie.value)).all isHeaderByte := by
    rw [asBytes_append, asBytes_append, List.all_append, List.all_append, Bool.and_eq_true, Bool.and_eq_true]
    refine ⟨⟨List.all_eq_true.mpr fun byte member =>
      each byte (encodeClaim_bytes cookie.name byte member), by decide⟩,
      List.all_eq_true.mpr fun byte member => each byte (encodeClaim_bytes cookie.value byte member)⟩
  have whole : headerValue (plainLibrary.encoded cookie) = some (plainLibrary.encoded cookie) := if_pos legal
  rw [whole]
  rfl

theorem plainLibrary_sets (location : String) (cookies : List Cookie) :
    (redirectWithCookies plainLibrary location cookies).cookies = cookies := by
  rw [redirectWithCookies, List.filter_eq_self]
  exact fun cookie _ => plainLibrary_encoded cookie

theorem plainLogin_wellFormed (returnTo : String) : (plainLogin returnTo).WellFormed :=
  ⟨show isSecret "st" by decide, show isSecret "no" by decide, show isSecret "ve" by decide⟩

theorem plainJar_sent (returnTo : String) :
    extractCookie plainLibrary (plainHeader (plainJar.mintLogin (plainLogin returnTo))) loginCookieName =
      some (plainJar.mintLogin (plainLogin returnTo)).value := by
  have cookies := plainLibrary_sends (plainJar.mintLogin (plainLogin returnTo))
    (show '=' ∉ loginCookieName.toList by decide)
  rw [extractCookie, cookies]
  rfl

theorem plainJar_verifyLogin (returnTo : String) :
    plainJar.verifyLogin (plainHeader (plainJar.mintLogin (plainLogin returnTo))) =
      .ok (plainLogin returnTo) := by
  have sent : extractCookie plainJar.library _ loginCookieName = _ := plainJar_sent returnTo
  have verified : plainJar.verifyInJar (plainJar.mintLogin (plainLogin returnTo)).value =
      some (loginPayload (plainLogin returnTo)) := plainLibrary_lawful.signed _
  simp only [SessionCookieJar.verifyLogin, sent, verified,
    parseLoginPayload_minted (plainLogin_wellFormed returnTo)]

theorem plainGranted_granted (now : Nat) (returnTo : String) :
    (loginResponse (some (.oidc plainJar)) returnTo : Flow plainOidc _ _).Yields (Replies now)
      (.ok (plainGranted returnTo)) := by
  rw [loginResponse_ok_iff]
  exact ⟨(), discoveredProvider_cached trivial, ⟨"https://sso.example/authorize", "st", "no", "ve"⟩,
    ⟨by decide, by decide, by decide⟩, rfl⟩

theorem plainCallback_answered (returnTo : String) :
    (callbackResponse (some (.oidc plainJar)) (plainCallback returnTo).header (plainCallback returnTo).query :
      Flow plainOidc _ _).Yields (Replies (plainCallback returnTo).now)
        (.ok (plainCallback returnTo).redirect) := by
  have validated :
      plainOidc.claims () "no" "no" = .ok ⟨"alice", some "Alice", none, none, some ["staff"]⟩ := by
    simp [plainOidc]
  have claims : sessionClaimsFromIdToken ⟨"alice", some "Alice", none, none, some ["staff"]⟩ =
      ⟨"alice", "Alice", "", ["staff"]⟩ := by decide
  have exchanged := @exchangeCodeAndValidateIdToken_validated plainOidc
    (Replies (plainCallback returnTo).now) ()
    "code" (plainLogin returnTo) "no" _ trivial validated
  have sent :
      (plainCallback returnTo).header.getD "" = plainHeader (plainJar.mintLogin (plainLogin returnTo)) := rfl
  rw [callbackResponse_ok_iff, sent]
  refine ⟨"code", plainLogin returnTo, ?_, plainJar_verifyLogin returnTo, ?_, (), _, (100 : Nat),
    discoveredProvider_cached ?_, exchanged, ?_, ?_⟩
  · rfl
  · rfl
  · exact trivial
  · rfl
  · rw [claims]
    rfl

def plainRun (returnTo : String) : AuthRun :=
  ⟨(plainCallback returnTo).redirect.cookies ++ (plainGranted returnTo).cookies, [plainCallback returnTo]⟩

theorem plainCallback_unforged (returnTo : String) :
    Unforged plainJar.library (plainGranted returnTo).cookies (plainCallback returnTo).header := by
  intro sent member payload _
  have cookies : plainJar.library.splitParseEncoded ((plainCallback returnTo).header.getD "") =
      [(loginCookieName, (plainJar.mintLogin (plainLogin returnTo)).value)] :=
    plainLibrary_sends (plainJar.mintLogin (plainLogin returnTo))
      (show '=' ∉ loginCookieName.toList by decide)
  rw [cookies, List.mem_singleton] at member
  rw [member]
  refine ⟨plainJar.mintLogin (plainLogin returnTo), ?_, rfl⟩
  rw [plainGranted, plainLibrary_sets]
  exact List.mem_singleton_self _

theorem plainRun_reachable (returnTo : String) :
    (authSystem plainOidc plainJar).Reachable (plainRun returnTo) := by
  have started : (authSystem plainOidc plainJar).Reachable ⟨[], []⟩ := .start rfl
  have loggedIn : (authSystem plainOidc plainJar).Reachable ⟨(plainGranted returnTo).cookies ++ [], []⟩ :=
    started.step (AuthStep.login (plainGranted_granted 50 returnTo))
  rw [List.append_nil] at loggedIn
  have unforged := plainCallback_unforged returnTo
  have answered := plainCallback_answered returnTo
  rw [plainRun]
  generalize (plainGranted returnTo).cookies = cookies at loggedIn unforged ⊢
  generalize plainCallback returnTo = done at unforged answered ⊢
  exact loggedIn.step (.callback done unforged answered)

theorem authenticated_traced_alice :
    ∃ done ∈ (plainRun "/").callbacks, ∃ minted, done.Proves plainOidc plainJar minted ∧
      parseSessionPayload 200 (sessionPayload done.now sessionMaxAgeSeconds minted) =
        .ok ⟨"alice", "Alice", "", ["staff"]⟩ ∧
      200 < done.now + sessionMaxAgeSeconds := by
  have accepted := (authenticated_traced plainLibrary_lawful (plainRun_reachable "/")).1
  have cookies : plainLibrary.splitParseEncoded "yafm_session=signed.v2:43300:alice:Alice::staff" =
      [("yafm_session", "signed.v2:43300:alice:Alice::staff")] := by decide +kernel
  have decided : gateDecision 200 (some (.oidc plainJar)) "/api/v1/directory"
      (some "yafm_session=signed.v2:43300:alice:Alice::staff") =
      .authenticated ⟨"alice", "Alice", "", ["staff"]⟩ := by decide +kernel
  have minted : (plainJar.mintSession 100 sessionMaxAgeSeconds ⟨"alice", "Alice", "", ["staff"]⟩).value =
      "signed.v2:43300:alice:Alice::staff" := by decide +kernel
  have unforged : Unforged plainLibrary (plainRun "/").cookies
      (some "yafm_session=signed.v2:43300:alice:Alice::staff") := by
    intro sent member payload _
    rw [Option.getD_some, cookies, List.mem_singleton] at member
    rw [member]
    refine ⟨plainJar.mintSession 100 sessionMaxAgeSeconds ⟨"alice", "Alice", "", ["staff"]⟩, ?_, minted⟩
    simp [plainRun, plainCallback, plainLibrary_sets]
  exact accepted _ _ _ _ unforged decided

end Yafm
