import Yafm.Server.Router

set_option autoImplicit false

namespace Yafm

open Text Posix Effect

/-- A cookie that no script reads and no other site has sent along with a form. -/
structure Cookie.Guarded (cookie : Cookie) (secure : Bool) : Prop where
  path : cookie.path = "/"
  httpOnly : cookie.httpOnly
  sameSite : cookie.sameSite = .lax
  secure : cookie.secure = secure

section

variable {jar : SessionCookieJar}

theorem signedCookie_guarded (name value : String) (maxAge : Nat) :
    (jar.signedCookie name value maxAge).Guarded jar.secure :=
  ⟨rfl, rfl, rfl, rfl⟩

theorem clearCookie_guarded (name : String) : (jar.clearCookie name).Guarded jar.secure :=
  ⟨rfl, rfl, rfl, rfl⟩

end

-- Bodies that only the session they are made for may be shown.
def Body.isPersonal : Body → Bool
  | .user _ => true
  | .listing _ => true
  | _ => false

structure Response.Guarded (jar : SessionCookieJar) (response : Response) : Prop where
  cookies : ∀ value, ("set-cookie", value) ∈ response.headers →
    ∃ cookie : Cookie, cookie.Guarded jar.secure ∧ value = jar.library.encoded cookie
  uncached : response.body.isPersonal → ("cache-control", "no-store") ∈ response.headers
  -- what has a length or a part of a file is not for shared caches, and not to be guessed at
  files : ∀ value, ("accept-ranges", value) ∈ response.headers →
    ("cache-control", "private") ∈ response.headers ∧ ("x-content-type-options", "nosniff") ∈ response.headers

namespace Response.Guarded

variable {jar : SessionCookieJar} {response : Response}

theorem plain (bare : ∀ header ∈ response.headers, header.1 ≠ "set-cookie" ∧ header.1 ≠ "accept-ranges")
    (impersonal : response.body.isPersonal = false) : response.Guarded jar where
  cookies value sent := absurd rfl (bare _ sent).1
  uncached personal := by simp [impersonal] at personal
  files value sent := absurd rfl (bare _ sent).2

theorem withoutBody (guarded : response.Guarded jar) : (Yafm.withoutBody response).Guarded jar where
  cookies := guarded.cookies
  uncached personal := by cases personal
  files := guarded.files

theorem redirect {redirect : Redirect} (set : ∀ cookie ∈ redirect.cookies, cookie.Guarded jar.secure) :
    (redirect.intoResponse jar.library).Guarded jar where
  cookies value sent := by
    simp only [Redirect.intoResponse, List.mem_append, List.mem_map, Prod.mk.injEq] at sent
    rcases sent with ⟨_, _, other, _⟩ | ⟨cookie, member, _, rfl⟩
    · simp at other
    · exact ⟨cookie, set cookie member, rfl⟩
  uncached personal := by cases personal
  files value sent := by
    simp only [Redirect.intoResponse, List.mem_append, List.mem_map, Prod.mk.injEq] at sent
    rcases sent with ⟨_, _, other, _⟩ | ⟨_, _, other, _⟩ <;> simp at other

theorem download (platform : Platform) (headers : HeaderMap) (canonical : Path) (file : Bytes)
    (metadata : Metadata) :
    (downloadResponse platform headers canonical file metadata).Guarded jar := by
  unfold downloadResponse
  dsimp only
  split
  · exact plain (by simp) rfl
  · split
    · exact plain (by simp) rfl
    · exact ⟨by simp [contentResponseHeaders], by simp [Body.isPersonal], by simp [contentResponseHeaders]⟩
    · exact ⟨by simp [contentResponseHeaders], by simp [Body.isPersonal], by simp [contentResponseHeaders]⟩

end Response.Guarded

section

variable {oidc : Oidc} {jar : SessionCookieJar}

theorem directory_guarded (platform : Platform) (config : Option AppConfig) (p : String)
    (context : Option AccessContext) :
    (directory platform config p context).Ends (Response.Guarded jar) := by
  unfold directory
  refine Fallible.ends_bind fun config => Fallible.ends_bind fun relative =>
    Fallible.ends_bind fun canonical =>
    Fallible.ends_bind fun _ => Fallible.ends_bind fun isDir => ?_
  split
  · exact Fallible.ends_throw _ _
  refine Fallible.ends_bind fun opened => ?_
  split
  · simp
  refine Fallible.ends_bind fun read => ?_
  split
  · simp
  refine Fallible.ends_bind fun entries => Fallible.ends_pure.mpr ?_
  exact ⟨by simp, by simp, by simp⟩

theorem downloadInner_guarded (platform : Platform) (config : Option AppConfig) (headers : HeaderMap)
    (p : String) :
    (downloadInner platform config headers p).Ends (Response.Guarded jar) := by
  unfold downloadInner
  refine Fallible.ends_bind fun opened => ?_
  exact Fallible.ends_pure.mpr (.download ..)

theorem deleteFile_guarded (config : Option AppConfig) (p : String) (context : Option AccessContext) :
    (deleteFile config p context).Ends (Response.Guarded jar) := by
  unfold deleteFile
  refine Fallible.ends_bind fun target => Fallible.ends_bind fun removed => ?_
  split
  · simp
  · exact Fallible.ends_pure.mpr (.plain (by simp) rfl)

theorem answerStorage_guarded {program : Storage ApiError Response}
    (guarded : program.Ends (Response.Guarded jar)) :
    (answerStorage program : Serving oidc).Ends (Response.Guarded jar) := by
  unfold answerStorage
  refine Program.ends_bind.mpr (Program.ends_embed (guarded.outcomes.mono ?_))
  intro outcome good
  cases outcome with
  | ok response => exact Program.ends_pure.mpr (good response rfl)
  | error error => exact Program.ends_pure.mpr (.plain (by simp [ApiError.intoResponse]) rfl)

theorem flowError_guarded (error : AuthFlowError) : error.intoResponse.Guarded jar := by
  cases error <;> exact .plain (by simp [AuthFlowError.intoResponse]) rfl

def Redirect.Sets (jar : SessionCookieJar) (redirect : Redirect) : Prop :=
  ∀ cookie ∈ redirect.cookies, cookie.Guarded jar.secure

theorem answerFlow_guarded {program : Flow oidc AuthFlowError Redirect}
    (sets : program.Ends (Redirect.Sets jar)) :
    (answerFlow (some (.oidc jar)) program : Serving oidc).Ends (Response.Guarded jar) := by
  unfold answerFlow
  refine Program.ends_bind.mpr (Program.ends_embed (sets.outcomes.mono ?_))
  intro outcome good
  cases outcome with
  | ok redirect => exact Program.ends_pure.mpr (.redirect (good redirect rfl))
  | error error => exact Program.ends_pure.mpr (flowError_guarded error)

theorem redirectWithCookies_sets {location : String} {cookies : List Cookie}
    (guarded : ∀ cookie ∈ cookies, cookie.Guarded jar.secure) :
    Redirect.Sets jar (redirectWithCookies jar.library location cookies) :=
  fun cookie member => guarded cookie (mem_redirectWithCookies member)

theorem loginResponse_sets (returnTo : String) :
    (loginResponse (some (.oidc jar)) returnTo : Flow oidc _ _).Ends (Redirect.Sets jar) := by
  unfold loginResponse
  refine Fallible.ends_bind fun provider => Fallible.ends_bind fun request => Fallible.ends_pure.mpr ?_
  exact redirectWithCookies_sets (List.forall_mem_singleton.mpr (signedCookie_guarded _ _ _))

theorem callbackLogin_sets (header : Option String) (query : CallbackQuery) :
    (callbackLogin (some (.oidc jar)) header query : Flow oidc _ _).Ends fun reached =>
      Redirect.Sets jar reached.2 := by
  unfold callbackLogin
  split
  · simp
  dsimp only
  split
  · simp
  split
  · simp
  refine Fallible.ends_bind fun provider => Fallible.ends_bind fun claims => Fallible.ends_bind fun now =>
    Fallible.ends_pure.mpr ?_
  apply redirectWithCookies_sets
  intro cookie member
  rcases List.mem_pair.mp member with rfl | rfl
  · exact signedCookie_guarded _ _ _
  · exact clearCookie_guarded _

theorem callbackResponse_sets (header : Option String) (query : CallbackQuery) :
    (callbackResponse (some (.oidc jar)) header query : Flow oidc _ _).Ends (Redirect.Sets jar) := by
  rw [callbackResponse]
  refine (callbackLogin_sets header query).bind fun reached sets => Fallible.ends_pure.mpr sets

theorem logoutResponse_sets : (logoutResponse (some (.oidc jar)) : Flow oidc _ _).Ends
    (Redirect.Sets jar) := by
  unfold logoutResponse
  refine Fallible.ends_bind fun endSession => Fallible.ends_pure.mpr ?_
  exact redirectWithCookies_sets (List.forall_mem_singleton.mpr (clearCookie_guarded _))

end

section

variable {oidc : Oidc} {jar : SessionCookieJar} {server : Server} {request : Request}

theorem getRoute_guarded {handler : Serving oidc} (guarded : handler.Ends (Response.Guarded jar)) :
    (getRoute request handler).Ends (Response.Guarded jar) := by
  unfold getRoute
  split
  · exact guarded
  · exact Program.ends_bind.mpr (guarded.mono fun response good => Program.ends_pure.mpr good.withoutBody)
  · exact Program.ends_pure.mpr (.plain (by simp [methodNotAllowed]) rfl)

theorem deleteRoute_guarded {handler : Serving oidc} (guarded : handler.Ends (Response.Guarded jar)) :
    (deleteRoute request handler).Ends (Response.Guarded jar) := by
  unfold deleteRoute
  split
  · exact guarded
  · exact Program.ends_pure.mpr (.plain (by simp [methodNotAllowed]) rfl)

theorem extracted_guarded {α : Type} {query : Option α} {handler : α → Serving oidc}
    (guarded : ∀ value, (handler value).Ends (Response.Guarded jar)) :
    (extracted query handler).Ends (Response.Guarded jar) := by
  unfold extracted
  split
  · exact guarded _
  · exact Program.ends_pure.mpr (.plain (by simp) rfl)

theorem usersMe_guarded (claims : Option SessionClaims) : (usersMeResponse claims).Guarded jar := by
  unfold usersMeResponse
  split
  · exact .plain (by simp) rfl
  · exact ⟨by simp, by simp, by simp⟩

theorem embeddedAsset_guarded {path : String} {response : Response}
    (found : embeddedAssetResponse server path = some response) : response.Guarded jar := by
  obtain ⟨file, _, rfl⟩ := Option.map_eq_some_iff.mp found
  exact .plain (by simp) rfl

theorem frontendAsset_guarded : (frontendAsset server request).Guarded jar := by
  unfold frontendAsset resolveFrontendAsset
  dsimp only
  split
  · exact .plain (by simp) rfl
  cases found : (embeddedAssetResponse server _).or (embeddedAssetResponse server "index.html") with
  | none => exact .plain (by simp) rfl
  | some response => exact (Option.or_eq_some_iff.mp found).elim embeddedAsset_guarded fun other =>
    embeddedAsset_guarded other.2

theorem routes_guarded (auth : server.auth = some (.oidc jar)) (extensions : Extensions) :
    (routes server request extensions : Serving oidc).Ends (Response.Guarded jar) := by
  unfold routes
  rw [auth]
  dsimp only
  split
  · exact getRoute_guarded (Program.ends_pure.mpr (.plain (by simp [health]) rfl))
  split
  · exact getRoute_guarded (Program.ends_pure.mpr (usersMe_guarded _))
  split
  · exact getRoute_guarded (extracted_guarded fun p => answerStorage_guarded (directory_guarded ..))
  split
  · exact getRoute_guarded (extracted_guarded fun p => answerStorage_guarded (downloadInner_guarded ..))
  split
  · exact deleteRoute_guarded (extracted_guarded fun p => answerStorage_guarded (deleteFile_guarded ..))
  split
  · exact getRoute_guarded (extracted_guarded fun returnTo => answerFlow_guarded (loginResponse_sets _))
  split
  · exact getRoute_guarded (extracted_guarded fun query => answerFlow_guarded (callbackResponse_sets _ _))
  split
  · exact getRoute_guarded (answerFlow_guarded logoutResponse_sets)
  · exact getRoute_guarded (Program.ends_pure.mpr frontendAsset_guarded)

theorem accessGate_guarded {extensions : Extensions} {next : Extensions → Serving oidc}
    (guarded : ∀ extensions, (next extensions).Ends (Response.Guarded jar)) :
    (accessGate server request extensions next).Ends (Response.Guarded jar) := by
  unfold accessGate
  dsimp only
  split
  · exact guarded _
  split
  · exact guarded _
  split
  · exact guarded _
  split
  · exact guarded _
  split
  · exact Program.ends_pure.mpr (.plain (by simp) rfl)
  · exact guarded _

theorem serve_guarded {now : Nat} (auth : server.auth = some (.oidc jar)) :
    (serve now server request : Serving oidc).Ends (Response.Guarded jar) := by
  unfold serve authGate
  split
  · exact accessGate_guarded (routes_guarded auth)
  · exact accessGate_guarded (routes_guarded auth)
  · exact Program.ends_pure.mpr (flowError_guarded _)
  · exact Program.ends_pure.mpr (flowError_guarded _)
  · exact Program.ends_pure.mpr (.plain (by simp [redirectToLogin]) rfl)

end

end Yafm
