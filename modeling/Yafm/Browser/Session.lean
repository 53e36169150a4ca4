import Yafm.Browser.Cookies

set_option autoImplicit false

namespace Yafm

open Text Effect Transition

def Request.Reads (request : Request) : Prop := request.method = .get ∨ request.method = .head

def Response.Unset (response : Response) : Prop := ∀ header ∈ response.headers, header.1 ≠ "set-cookie"

section

variable {oidc : Oidc} {server : Server} {request : Request}
  {answer : (op : ServerOp oidc) → Disk → op.Answer × Disk}

theorem getRoute_headers (reads : request.Reads) (handler : Serving oidc) (disk : Disk) :
    ((getRoute request handler).run answer disk).1.headers = (handler.run answer disk).1.headers := by
  unfold getRoute
  rcases reads with get | head
  · simp only [get]
  · simp only [head, Program.run_bind, Program.run_pure]
    rfl

theorem getRoute_unset (other : ¬request.Reads) (handler : Serving oidc) (disk : Disk) :
    ((getRoute request handler).run answer disk).1.Unset := by
  unfold Request.Reads at other
  unfold getRoute
  split
  next get => exact absurd (.inl get) other
  next head => exact absurd (.inr head) other
  · simp [Response.Unset, methodNotAllowed]

theorem extracted_none {α : Type} (handler : α → Serving oidc) (disk : Disk) :
    ((extracted none handler : Serving oidc).run answer disk).1.Unset := by
  simp [Response.Unset, extracted]

theorem AuthFlowError.unset (error : AuthFlowError) : error.intoResponse.Unset := by
  cases error <;> simp [Response.Unset, AuthFlowError.intoResponse]

section

variable {jar : SessionCookieJar} {provider : (op : OidcOp oidc) → op.Answer}
  {program : Flow oidc AuthFlowError Redirect}

theorem run_answerFlow {state : Option AuthState} {outcome : Except AuthFlowError Redirect}
    (yields : program.Yields (fun op answer => answer = provider op) outcome) (disk : Disk) :
    ((answerFlow state program : Serving oidc).run (serverAnswer provider) disk).1 =
      settledFlow state outcome := by
  have ran := (Fallible.yields_iff_run provider program outcome disk).mp yields
  rw [answerFlow, Program.run_bind, Program.run_embed
    (fun op disk => (provider op, disk)) (fun _ _ => rfl), ran]
  rfl

theorem run_answerFlow_ok {redirect : Redirect}
    (yields : program.Yields (fun op answer => answer = provider op) (.ok redirect)) (disk : Disk) :
    ((answerFlow (some (.oidc jar)) program : Serving oidc).run (serverAnswer provider) disk).1 =
      redirect.intoResponse jar.library :=
  run_answerFlow yields disk

theorem run_answerFlow_error {error : AuthFlowError}
    (yields : program.Yields (fun op answer => answer = provider op) (.error error)) (disk : Disk) :
    ((answerFlow (some (.oidc jar)) program : Serving oidc).run (serverAnswer provider) disk).1 =
      error.intoResponse :=
  run_answerFlow yields disk

end

theorem routes_login (path : request.path = loginPath) (extensions : Extensions) :
    (routes server request extensions : Serving oidc) =
      getRoute request (extracted (returnToQuery server.platform request)
      fun returnTo => answerFlow server.auth (loginResponse server.auth returnTo)) := by
  simp only [routes, path]
  rw [if_neg (by decide), if_neg (by decide), if_neg (by decide), if_neg (by decide),
    if_neg (by decide), if_pos trivial]

theorem routes_callback (path : request.path = callbackPath) (extensions : Extensions) :
    (routes server request extensions : Serving oidc) =
      getRoute request (extracted (callbackQuery server.platform request)
      fun query => answerFlow server.auth (callbackResponse server.auth (cookieHeader request) query)) := by
  simp only [routes, path]
  rw [if_neg (by decide), if_neg (by decide), if_neg (by decide), if_neg (by decide), if_neg (by decide),
    if_neg (by decide), if_pos trivial]

theorem routes_logout (path : request.path = logoutPath) (extensions : Extensions) :
    (routes server request extensions : Serving oidc) =
      getRoute request (answerFlow server.auth (logoutResponse server.auth)) := by
  simp only [routes, path]
  rw [if_neg (by decide), if_neg (by decide), if_neg (by decide), if_neg (by decide), if_neg (by decide),
    if_neg (by decide), if_neg (by decide), if_pos trivial]

theorem routes_of_data (data : isPublicPath request.path = false) (auth : Option AuthState)
    (extensions : Extensions) :
    (routes { server with auth := auth } request extensions : Serving oidc) =
      routes server request extensions := by
  simp only [isPublicPath, Bool.or_eq_false_iff, decide_eq_false_iff_not] at data
  simp only [routes, if_neg data.1.1, if_neg data.1.2, if_neg data.2]
  rfl

theorem serve_public {now : Nat} (isPublic : isPublicPath request.path) :
    (serve now server request : Serving oidc) = routes server request ⟨none, none⟩ := by
  have passes : gateDecision now server.auth request.path (cookieHeader request) = .passThrough :=
    if_pos isPublic
  unfold serve authGate
  rw [passes]
  exact if_pos (isPublicPath_data isPublic)

-- Whatever the jar is, what the other routes set would be of that jar.
theorem serve_guarded_data {now : Nat} (data : isPublicPath request.path = false) (jar : SessionCookieJar) :
    (serve now server request : Serving oidc).Ends (Response.Guarded jar) := by
  have next (extensions : Extensions) :
      (routes server request extensions : Serving oidc).Ends (Response.Guarded jar) := by
    rw [← routes_of_data data (some (.oidc jar))]
    exact routes_guarded rfl extensions
  unfold serve authGate
  split
  · exact accessGate_guarded next
  · exact accessGate_guarded next
  · exact Program.ends_pure.mpr (flowError_guarded _)
  · exact Program.ends_pure.mpr (flowError_guarded _)
  · exact Program.ends_pure.mpr (.plain (by simp [redirectToLogin]) rfl)

theorem serve_unset {now : Nat} (data : isPublicPath request.path = false) (disk : Disk) :
    ((serve now server request : Serving oidc).run answer disk).1.Unset := by
  intro header sent set
  have here :
      ("set-cookie", header.2) ∈ ((serve now server request : Serving oidc).run answer disk).1.headers := by
    rw [← set]
    exact sent
  have value (text : String) : header.2 = text := by
    have guarded : Response.Guarded ⟨⟨fun _ => [], fun _ => text, id, some⟩, true⟩
        ((serve now server request : Serving oidc).run answer disk).1 :=
          (serve_guarded_data data _).run answer disk
    obtain ⟨_, _, same⟩ := guarded.cookies header.2 here
    exact same
  have both : "a" = "b" := (value "a").symm.trans (value "b")
  exact absurd both (by decide)

end

def LogsOut (request : Request) : Prop := request.path = logoutPath ∧ request.Reads

/-- The request is a callback, and the flow gets through to these claims. -/
structure Completes {oidc : Oidc} (platform : Platform) (jar : SessionCookieJar)
    (provider : (op : OidcOp oidc) → op.Answer) (request : Request) (claims : SessionClaims) :
    Prop where
  path : request.path = callbackPath
  reads : request.Reads
  completed : ∃ query code login found, callbackQuery platform request = some query ∧ query.code = some code ∧
    jar.verifyLogin ((cookieHeader request).getD "") = .ok login ∧ login.state = query.state.getD "" ∧
    discoveredProvider.Yields (fun op answer => answer = provider op) (.ok found) ∧
    (exchangeCodeAndValidateIdToken found code login).Yields
      (fun op answer => answer = provider op) (.ok claims)

def Response.SetsCookies (response : Response) (library : CookieLibrary) (cookies : List Cookie) : Prop :=
  ∃ location, response.headers = ((redirectWithCookies library location cookies).intoResponse library).headers

section

variable {oidc : Oidc} {server : Server} {jar : SessionCookieJar}
  (auth : server.auth = some (.oidc jar)) {request : Request}
  {now : Nat} {provider : (op : OidcOp oidc) → op.Answer} {disk : Disk}
include auth

theorem login_sets (path : request.path = loginPath) :
    ((serve now server request : Serving oidc).run (serverAnswer provider) disk).1.Unset ∨
      ∃ login, ((serve now server request : Serving oidc).run (serverAnswer provider)
        disk).1.SetsCookies jar.library
        [jar.mintLogin login] := by
  have isPublic : isPublicPath request.path := by simp [isPublicPath, path]
  rw [serve_public isPublic, routes_login path, auth]
  by_cases reads : request.Reads
  · simp only [Response.Unset, Response.SetsCookies, getRoute_headers reads]
    cases returnToQuery server.platform request with
    | none => exact .inl (extracted_none _ disk)
    | some returnTo =>
      obtain ⟨outcome, yields⟩ := Fallible.exists_yields provider (loginResponse (some (.oidc jar)) returnTo)
      cases outcome with
      | error error =>
        left
        rw [extracted, run_answerFlow_error yields]
        exact error.unset
      | ok redirect =>
        right
        rw [extracted, run_answerFlow_ok yields]
        obtain ⟨_, _, request, _, rfl⟩ := (loginResponse_ok_iff jar returnTo redirect).mp yields
        exact ⟨_, request.url, rfl⟩
  · exact .inl (getRoute_unset reads _ disk)

theorem callback_sets (clock : provider .unixSecondsNow = now) (path : request.path = callbackPath) :
    (((serve now server request : Serving oidc).run (serverAnswer provider) disk).1.Unset ∧
        ∀ claims, ¬Completes server.platform jar provider request claims) ∨
      ∃ claims, Completes server.platform jar provider request claims ∧
        ((serve now server request : Serving oidc).run (serverAnswer provider) disk).1.SetsCookies jar.library
          [jar.mintSession now sessionMaxAgeSeconds claims, jar.clearLogin] := by
  have isPublic : isPublicPath request.path := by simp [isPublicPath, path]
  rw [serve_public isPublic, routes_callback path, auth]
  by_cases reads : request.Reads
  · rw [Response.Unset, getRoute_headers reads]
    cases asked : callbackQuery server.platform request with
    | none =>
      refine .inl ⟨extracted_none _ disk, fun claims completes => ?_⟩
      obtain ⟨_, _, _, _, query, _⟩ := completes.completed
      rw [asked] at query
      cases query
    | some query =>
      obtain ⟨outcome, yields⟩ := Fallible.exists_yields provider
        (callbackResponse (some (.oidc jar)) (cookieHeader request) query)
      cases outcome with
      | error error =>
        left
        constructor
        · rw [extracted, run_answerFlow_error yields]
          exact error.unset
        · intro claims completes
          obtain ⟨other, code, login, found, same, coded, verified, matched, discovered, exchanged⟩ :=
            completes.completed
          cases asked.symm.trans same
          have done := (callbackResponse_ok_iff jar (cookieHeader request) query _).mpr
            ⟨code, login, coded, verified, matched, found, claims, _, discovered, exchanged, rfl, rfl⟩
          cases Fallible.yields_unique yields done
      | ok redirect =>
        right
        obtain ⟨code, login, coded, verified, matched, found, claims, time, discovered,
          exchanged, told, rfl⟩ :=
          (callbackResponse_ok_iff jar (cookieHeader request) query redirect).mp yields
        obtain rfl : time = now := told.trans clock
        refine ⟨claims, ⟨path, reads, query, code, login, found, asked, coded, verified, matched,
          discovered, exchanged⟩, ?_⟩
        rw [Response.SetsCookies, getRoute_headers reads, extracted, run_answerFlow_ok yields]
        exact ⟨_, rfl⟩
  · exact .inl ⟨getRoute_unset reads _ disk, fun claims completes => reads completes.reads⟩

omit auth in
-- A failed discovery does not fail a logout.
theorem logoutResponse_answers (reply : (op : OidcOp oidc) → op.Answer → Prop) (error : AuthFlowError) :
    ¬(logoutResponse (some (.oidc jar))).Yields reply (.error error) := by
  intro fails
  rw [logoutResponse, Fallible.yields_bind] at fails
  rcases fails with ⟨_, _, ended⟩ | ⟨_, ended, _⟩
  · simp at ended
  · rw [Fallible.yields_tryCatch] at ended
    rcases ended with ⟨_, _, ended⟩ | ⟨_, _, ended⟩
    · cases ended
    · simp at ended

theorem logout_sets (out : LogsOut request) :
    ((serve now server request : Serving oidc).run (serverAnswer provider) disk).1.SetsCookies jar.library
      [jar.clearSession] := by
  have isPublic : isPublicPath request.path := by simp [isPublicPath, out.1]
  rw [serve_public isPublic, routes_logout out.1, auth, Response.SetsCookies, getRoute_headers out.2]
  obtain ⟨outcome, yields⟩ := Fallible.exists_yields provider (logoutResponse (some (.oidc jar)))
  cases outcome with
  | error error => exact absurd yields (logoutResponse_answers _ error)
  | ok redirect =>
    obtain ⟨location, rfl⟩ := logoutResponse_ok yields
    rw [run_answerFlow_ok yields]
    exact ⟨location, rfl⟩

omit auth in
theorem logout_unset (path : request.path = logoutPath) (other : ¬request.Reads) :
    ((serve now server request : Serving oidc).run (serverAnswer provider) disk).1.Unset := by
  have isPublic : isPublicPath request.path := by simp [isPublicPath, path]
  rw [serve_public isPublic, routes_logout path]
  exact getRoute_unset other _ disk

end

structure Session where
  claims : SessionClaims
  minted : Nat

def Session.expires (session : Session) : Nat := session.minted + sessionMaxAgeSeconds

structure Browsing where
  browser : Browser
  session : Option Session
  clock : Nat

structure Sent (oidc : Oidc) where
  now : Nat
  request : Request
  provider : (op : OidcOp oidc) → op.Answer
  disk : Disk

section

variable {oidc : Oidc} (agent : UserAgent) (server : Server) (jar : SessionCookieJar)

def Sent.arrives (sent : Sent oidc) (browser : Browser) : Request :=
  browser.attach agent sent.now sent.request

def Sent.answered (sent : Sent oidc) (browser : Browser) : Response × Browser :=
  browser.send agent server sent.provider sent.disk sent.now sent.request

/-- What a request makes of a session: a callback whose session cookie the browser drops leaves the one
before. -/
inductive Turns (platform : Platform) (sent : Sent oidc) (request : Request) (before : Option Session) :
    Option Session → Prop
  | login {claims : SessionClaims} (completes : Completes platform jar sent.provider request claims)
      (kept : agent.holds (jar.mintSession sent.now sessionMaxAgeSeconds claims)) :
      Turns platform sent request before (some ⟨claims, sent.now⟩)
  | dropped {claims : SessionClaims} (completes : Completes platform jar sent.provider request claims)
      (long : ¬agent.holds (jar.mintSession sent.now sessionMaxAgeSeconds claims)) :
      Turns platform sent request before before
  | logout (out : LogsOut request) : Turns platform sent request before none
  | other (incomplete : ∀ claims, ¬Completes platform jar sent.provider request claims)
      (stays : ¬LogsOut request) :
      Turns platform sent request before before

/-- The server and the browser have one clock. -/
structure BrowsingStep (before : Browsing) (sent : Sent oidc) (after : Browsing) : Prop where
  later : before.clock ≤ sent.now
  clock : after.clock = sent.now
  told : sent.provider .unixSecondsNow = sent.now
  browser : after.browser = (sent.answered agent server before.browser).2
  session : Turns agent jar server.platform sent (sent.arrives agent before.browser)
    before.session after.session

variable (oidc) in
def browsing : System Browsing (Sent oidc) where
  start state := state.session = none ∧ ∀ later, state.browser.lookup later sessionCookieName = none
  step := BrowsingStep agent server jar

end

/-- The session cookie of the browser is that of the session, for as long as the session lasts. -/
structure Browsing.Remembers (jar : SessionCookieJar) (state : Browsing) : Prop where
  past : ∀ session ∈ state.session, session.minted ≤ state.clock
  cookie : ∀ later, state.clock ≤ later →
    (state.browser.lookup later sessionCookieName).map StoredCookie.value =
    (state.session.filter fun session => later < session.expires).map fun session =>
      (jar.mintSession session.minted sessionMaxAgeSeconds session.claims).value

section

variable {oidc : Oidc} {agent : UserAgent} {server : Server} {jar : SessionCookieJar} {request : Request}

theorem Completes.unique {provider : (op : OidcOp oidc) → op.Answer} {one other : SessionClaims}
    (first : Completes server.platform jar provider request one)
    (second : Completes server.platform jar provider request other) : one = other := by
  obtain ⟨query, code, login, found, asked, coded, verified, _, discovered, exchanged⟩ := first.completed
  obtain ⟨_, _, _, _, askedToo, codedToo, verifiedToo, _, discoveredToo, exchangedToo⟩ := second.completed
  cases asked.symm.trans askedToo
  cases coded.symm.trans codedToo
  cases verified.symm.trans verifiedToo
  cases Fallible.yields_unique discovered discoveredToo
  cases Fallible.yields_unique exchanged exchangedToo
  rfl

section

variable {sent : Sent oidc} {before after : Option Session}

theorem Turns.completed {claims : SessionClaims}
    (turns : Turns agent jar server.platform sent request before after)
    (completes : Completes server.platform jar sent.provider request claims) :
    after = if agent.holds (jar.mintSession sent.now sessionMaxAgeSeconds claims) then
      some ⟨claims, sent.now⟩ else before := by
  cases turns with
  | login other kept =>
    obtain rfl := completes.unique other
    rw [if_pos kept]
  | dropped other long =>
    obtain rfl := completes.unique other
    rw [if_neg long]
  | logout out => exact absurd (completes.path.symm.trans out.1) (by decide)
  | other incomplete => exact absurd completes (incomplete claims)

theorem Turns.out (turns : Turns agent jar server.platform sent request before after)
    (out : LogsOut request) : after = none := by
  cases turns with
  | login completes | dropped completes => exact absurd (completes.path.symm.trans out.1) (by decide)
  | logout => rfl
  | other _ stays => exact absurd out stays

theorem Turns.kept (turns : Turns agent jar server.platform sent request before after)
    (incomplete : ∀ claims, ¬Completes server.platform jar sent.provider request claims)
    (stays : ¬LogsOut request) : after = before := by
  cases turns with
  | login completes | dropped completes => exact absurd completes (incomplete _)
  | logout out => exact absurd out stays
  | other => rfl

end

theorem sessionCookie_apart : sessionCookieName ≠ loginCookieName := by decide

theorem clearCookie_ordinary (name : String) : (jar.clearCookie name).Ordinary := ⟨rfl, Nat.zero_le _⟩

theorem mintLogin_ordinary (data : LoginCookieData) : (jar.mintLogin data).Ordinary := by
  refine ⟨rfl, ?_⟩
  change loginMaxAgeSeconds ≤ sessionMaxAgeSeconds
  decide

theorem completed_ordinary (now : Nat) (claims : SessionClaims) :
    ∀ cookie ∈ [jar.mintSession now sessionMaxAgeSeconds claims, jar.clearLogin], cookie.Ordinary := by
  rw [List.forall_mem_cons, List.forall_mem_singleton]
  exact ⟨⟨rfl, Nat.le_refl _⟩, clearCookie_ordinary loginCookieName⟩

variable (lawful : agent.Lawful jar.library)
include lawful

theorem Response.SetsCookies.received {response : Response} {cookies : List Cookie}
    (sets : response.SetsCookies jar.library cookies) (ordinary : ∀ cookie ∈ cookies, cookie.Ordinary)
    (now : Nat) (browser : Browser) :
    browser.receive agent now response.headers = browser.keep agent now cookies := by
  obtain ⟨location, headers⟩ := sets
  rw [headers, receive_redirect lawful now browser location ordinary]

omit lawful in
theorem Browsing.Remembers.unchanged {before after : Browsing} (remembers : before.Remembers jar)
    (later : before.clock ≤ after.clock) (session : after.session = before.session)
    (cookie : ∀ later, after.browser.lookup later sessionCookieName =
      before.browser.lookup later sessionCookieName) :
    after.Remembers jar := by
  constructor
  · rw [session]
    exact fun held present => (remembers.past held present).trans later
  · intro moment after
    rw [session, cookie]
    exact remembers.cookie moment (later.trans after)

variable {before after : Browsing} {sent : Sent oidc}

omit lawful in
theorem sent_sets (auth : server.auth = some (.oidc jar))
    (step : BrowsingStep agent server jar before sent after) :
    (∃ claims, Completes server.platform jar sent.provider (sent.arrives agent before.browser) claims ∧
      (sent.answered agent server before.browser).1.SetsCookies jar.library
        [jar.mintSession sent.now sessionMaxAgeSeconds claims, jar.clearLogin]) ∨
    (LogsOut (sent.arrives agent before.browser) ∧
      (sent.answered agent server before.browser).1.SetsCookies jar.library [jar.clearSession]) ∨
    (after.session = before.session ∧ (sent.answered agent server before.browser).1.Unset) ∨
    (after.session = before.session ∧ (sent.arrives agent before.browser).path = loginPath ∧
      ∃ data, (sent.answered agent server before.browser).1.SetsCookies jar.library
      [jar.mintLogin data]) := by
  by_cases callback : (sent.arrives agent before.browser).path = callbackPath
  · have stays : ¬LogsOut (sent.arrives agent before.browser) :=
      fun out => absurd (callback.symm.trans out.1) (by decide)
    rcases callback_sets auth step.told callback with ⟨unset, incomplete⟩ | completed
    · exact .inr (.inr (.inl ⟨step.session.kept incomplete stays, unset⟩))
    · exact .inl completed
  have incomplete (claims : SessionClaims) :
      ¬Completes server.platform jar sent.provider (sent.arrives agent before.browser) claims :=
    fun completes => callback completes.path
  by_cases logout : (sent.arrives agent before.browser).path = logoutPath
  · by_cases reads : (sent.arrives agent before.browser).Reads
    · exact .inr (.inl ⟨⟨logout, reads⟩, logout_sets auth ⟨logout, reads⟩⟩)
    · exact .inr
        (.inr (.inl ⟨step.session.kept incomplete fun out => reads out.2, logout_unset logout reads⟩))
  have kept := step.session.kept incomplete fun out => logout out.1
  by_cases login : (sent.arrives agent before.browser).path = loginPath
  · rcases login_sets auth login with unset | sets
    · exact .inr (.inr (.inl ⟨kept, unset⟩))
    · exact .inr (.inr (.inr ⟨kept, login, sets⟩))
  · have data : isPublicPath (sent.arrives agent before.browser).path = false := by
      simp [isPublicPath, login, callback, logout]
    exact .inr (.inr (.inl ⟨kept, serve_unset data sent.disk⟩))

omit lawful in
theorem BrowsingStep.later_clock (step : BrowsingStep agent server jar before sent after) :
    before.clock ≤ after.clock :=
  step.later.trans_eq step.clock.symm

theorem BrowsingStep.stores (step : BrowsingStep agent server jar before sent after)
    {cookies : List Cookie}
    (sets : (sent.answered agent server before.browser).1.SetsCookies jar.library cookies)
    (ordinary : ∀ cookie ∈ cookies, cookie.Ordinary) :
    after.browser = before.browser.keep agent sent.now cookies :=
  step.browser.trans (sets.received lawful ordinary sent.now before.browser)

theorem remembers_kept {claims : SessionClaims} (step : BrowsingStep agent server jar before sent after)
    (turned : after.session = some ⟨claims, sent.now⟩)
    (kept : agent.holds (jar.mintSession sent.now sessionMaxAgeSeconds claims))
    (sets : (sent.answered agent server before.browser).1.SetsCookies jar.library
      [jar.mintSession sent.now sessionMaxAgeSeconds claims, jar.clearLogin]) : after.Remembers jar := by
  have cleared : agent.holds jar.clearLogin := lawful.clears jar.secure loginCookieName (by simp)
  have stored : after.browser = (before.browser.store sent.now sessionCookieName
      (jar.mintSession sent.now sessionMaxAgeSeconds claims).value sessionMaxAgeSeconds).store sent.now
      loginCookieName "" 0 := by
    rw [step.stores lawful sets (completed_ordinary sent.now claims), Browser.keep,
      List.foldl_cons, List.foldl_cons, List.foldl_nil, if_pos cleared, if_pos kept]
    rfl
  constructor
  · rw [turned, step.clock]
    rintro session ⟨⟩
    exact Nat.le_refl _
  · intro later _
    rw [stored, lookup_store_other "" sessionCookie_apart, turned, Option.filter_some]
    by_cases live : later < Session.expires ⟨claims, sent.now⟩
    · rw [lookup_store _ (by decide) (by decide) live, if_pos (decide_eq_true live)]
      rfl
    · have expired : ¬decide (later < Session.expires ⟨claims, sent.now⟩) = true := by simpa using live
      rw [lookup_store_expired _ (by decide) (Nat.le_of_not_lt live), if_neg expired]
      rfl

theorem remembers_dropped {claims : SessionClaims} (remembers : before.Remembers jar)
    (step : BrowsingStep agent server jar before sent after) (turned : after.session = before.session)
    (long : ¬agent.holds (jar.mintSession sent.now sessionMaxAgeSeconds claims))
    (sets : (sent.answered agent server before.browser).1.SetsCookies jar.library
      [jar.mintSession sent.now sessionMaxAgeSeconds claims, jar.clearLogin]) : after.Remembers jar := by
  apply remembers.unchanged step.later_clock turned
  intro moment
  rw [step.stores lawful sets (completed_ordinary sent.now claims), Browser.keep,
    List.foldl_cons, if_neg long]
  exact lookup_keep_other agent sent.now before.browser (List.forall_mem_singleton.mpr sessionCookie_apart)

theorem remembers_logout (step : BrowsingStep agent server jar before sent after)
    (out : LogsOut (sent.arrives agent before.browser))
    (sets : (sent.answered agent server before.browser).1.SetsCookies jar.library [jar.clearSession]) :
    after.Remembers jar := by
  have cleared : agent.holds jar.clearSession := lawful.clears jar.secure sessionCookieName (by simp)
  have browser : after.browser = before.browser.store sent.now sessionCookieName "" 0 := by
    rw [step.stores lawful sets (List.forall_mem_singleton.mpr
      (clearCookie_ordinary sessionCookieName)), Browser.keep,
      List.foldl_cons, List.foldl_nil, if_pos cleared]
    rfl
  constructor
  · rw [step.session.out out]
    exact fun _ present => by cases present
  · intro later known
    rw [step.clock] at known
    rw [browser, lookup_store_expired "" (by decide) known, step.session.out out]
    rfl

theorem remembers_step (auth : server.auth = some (.oidc jar)) (remembers : before.Remembers jar)
    (step : BrowsingStep agent server jar before sent after) : after.Remembers jar := by
  rcases sent_sets auth step with
    ⟨claims, completes, sets⟩ | ⟨out, sets⟩ | ⟨kept, unset⟩ | ⟨kept, _, data, sets⟩
  · have turned := step.session.completed completes
    by_cases holds : agent.holds (jar.mintSession sent.now sessionMaxAgeSeconds claims)
    · rw [if_pos holds] at turned
      exact remembers_kept lawful step turned holds sets
    · rw [if_neg holds] at turned
      exact remembers_dropped lawful remembers step turned holds sets
  · exact remembers_logout lawful step out sets
  · apply remembers.unchanged step.later_clock kept
    intro moment
    rw [step.browser]
    exact congrArg _ (receive_unset agent sent.now before.browser unset)
  · -- the login cookie has another name
    apply remembers.unchanged step.later_clock kept
    intro moment
    rw [step.stores lawful sets (List.forall_mem_singleton.mpr (mintLogin_ordinary data))]
    exact lookup_keep_other agent sent.now before.browser (List.forall_mem_singleton.mpr sessionCookie_apart)

-- A request that begins no login and completes none leaves the cookie of one that has begun.
def Sent.Waits (agent : UserAgent) (server : Server) (jar : SessionCookieJar) (before : Browsing)
    (sent : Sent oidc) : Prop :=
  (sent.arrives agent before.browser).path ≠ loginPath ∧
    ∀ claims, ¬Completes server.platform jar sent.provider (sent.arrives agent before.browser) claims

theorem waits_step (auth : server.auth = some (.oidc jar)) (waits : sent.Waits agent server jar before)
    (step : BrowsingStep agent server jar before sent after) (later : Nat) :
    after.browser.lookup later loginCookieName = before.browser.lookup later loginCookieName := by
  rcases sent_sets auth step with ⟨claims, completes, _⟩ | ⟨_, sets⟩ | ⟨_, unset⟩ | ⟨_, login, _⟩
  · exact absurd completes (waits.2 claims)
  · rw [step.stores lawful sets (List.forall_mem_singleton.mpr (clearCookie_ordinary sessionCookieName))]
    exact lookup_keep_other agent sent.now before.browser
      (List.forall_mem_singleton.mpr sessionCookie_apart.symm)
  · rw [step.browser]
    exact congrArg _ (receive_unset agent sent.now before.browser unset)
  · exact absurd login waits.1

theorem waits_run (auth : server.auth = some (.oidc jar)) {first state : Browsing}
    (reached : (((browsing oidc agent server jar).since first).guard
      (Sent.Waits agent server jar)).Reachable state)
    (later : Nat) :
    state.browser.lookup later loginCookieName = first.browser.lookup later loginCookieName := by
  induction reached with
  | start starts =>
    cases starts
    rfl
  | step _ steps kept => exact (waits_step lawful auth steps.2 steps.1 later).trans kept

-- A request that neither logs out nor completes a login.
def Sent.Stays (agent : UserAgent) (server : Server) (jar : SessionCookieJar) (before : Browsing)
    (sent : Sent oidc) : Prop :=
  ¬LogsOut (sent.arrives agent before.browser) ∧
    ∀ claims, ¬Completes server.platform jar sent.provider (sent.arrives agent before.browser) claims

theorem stays_run (auth : server.auth = some (.oidc jar)) {first state : Browsing}
    (remembers : first.Remembers jar)
    (reached : (((browsing oidc agent server jar).since first).guard
      (Sent.Stays agent server jar)).Reachable state) :
    state.Remembers jar ∧ state.session = first.session := by
  apply reached.invariant
  · rintro state rfl
    exact ⟨remembers, rfl⟩
  · rintro before sent after ⟨kept, same⟩ ⟨step, stays⟩
    exact ⟨remembers_step lawful auth kept step, (step.session.kept stays.2 stays.1).trans same⟩

theorem remembers (auth : server.auth = some (.oidc jar)) {state : Browsing}
    (reached : (browsing oidc agent server jar).Reachable state) : state.Remembers jar := by
  apply reached.invariant
  · rintro state ⟨nobody, empty⟩
    constructor
    · rw [nobody]
      exact fun _ present => by cases present
    · intro later _
      rw [nobody, empty]
      rfl
  · exact fun before sent after remembers step => remembers_step lawful auth remembers step

theorem Browsing.Remembers.gate {state : Browsing} (kept : state.Remembers jar) (signed : jar.library.Lawful)
    {now : Nat} (later : state.clock ≤ now) (inTime : now + sessionMaxAgeSeconds < 2 ^ 64) (request : Request)
    (guarded : isPublicPath request.path = false) (claims : SessionClaims) :
    gateDecision now (some (.oidc jar)) request.path (cookieHeader (state.browser.attach agent now request)) =
        .authenticated claims ↔
      ∃ session ∈ state.session, now < session.expires ∧ session.claims.subject ≠ "" ∧
        claims = { session.claims with groups := mintedGroups session.claims.groups } := by
  have cookie := extractCookie_live lawful now state.browser sessionCookieName
  rw [kept.cookie now later, ← cookieHeader_attach lawful now state.browser request] at cookie
  have fits (session : Session) (present : session ∈ state.session) :
      session.minted + sessionMaxAgeSeconds < 2 ^ 64 := by
    have past := kept.past session present
    omega
  constructor
  · intro decided
    obtain ⟨value, payload, found, verified, parsed⟩ :=
      verifySession_ok (gateDecision_authenticated decided).2
    rw [cookie, Option.map_eq_some_iff] at found
    obtain ⟨session, held, rfl⟩ := found
    obtain ⟨present, live⟩ := Option.filter_eq_some_iff.mp held
    obtain rfl := Option.some.inj (verified.symm.trans (signed.signed _))
    have named : session.claims.subject ≠ "" := fun nameless =>
      parseSessionPayload_nameless nameless _ _ _ _ parsed
    rw [parseSessionPayload_live named (fits session present) (of_decide_eq_true live)] at parsed
    exact ⟨session, present, of_decide_eq_true live, named, (Except.ok.inj parsed).symm⟩
  · rintro ⟨session, present, live, named, rfl⟩
    have held : state.session.filter (fun session => now < session.expires) = some session :=
      Option.filter_eq_some_iff.mpr ⟨present, decide_eq_true live⟩
    rw [held, Option.map_some] at cookie
    have verified :
        jar.verifyInJar (jar.mintSession session.minted sessionMaxAgeSeconds session.claims).value =
        some (sessionPayload session.minted sessionMaxAgeSeconds session.claims) := signed.signed _
    have accepted : jar.verifySession now ((cookieHeader (state.browser.attach agent now request)).getD "") =
        .ok { session.claims with groups := mintedGroups session.claims.groups } := by
      rw [SessionCookieJar.verifySession, cookie]
      simp only [verified]
      exact parseSessionPayload_live named (fits session present) live
    simp only [gateDecision, guarded, accepted, Bool.false_eq_true, if_false]

end

end Yafm
