import Yafm.Concurrent.Server
import Yafm.Store.Answer

set_option autoImplicit false

namespace Yafm

open Text Posix Effect

def wishes (method : Method) (path : String) : Option Wish :=
  match method with
  | .get | .head =>
    if path = directoryPath then some .list else if path = downloadPath then some .fetch else none
  | .delete => if path = filePath then some .erase else none
  | .other _ => none

def Wish.missing : Wish → String
  | .list => missingDirectory
  | .fetch | .erase => missingFile

def Wish.malformed : Wish → ApiError → ApiError
  | .erase, error => deleteRefusal error
  | .list, error | .fetch, error => error

inductive Asked where
  -- no matter of the share
  | nothing
  | refused (error : ApiError)
  | wants (wish : Wish) (context : AccessContext) (relative : String)

-- Nobody gets to see the body of an answer to `HEAD`.
def sent (request : Request) (response : Response) : Response :=
  if request.method = .head then withoutBody response else response

@[simp] theorem sent_sent (request : Request) (response : Response) :
    sent request (sent request response) = sent request response := by
  unfold sent
  split <;> rfl

-- What a request comes to before anything is looked up: what its session may not see is not there.
def Server.asked (server : Server) (access : AccessConfig) (now : Nat) (request : Request) : Asked :=
  match gateDecision now server.auth request.path (cookieHeader request) with
  | .authenticated claims =>
    match wishes request.method request.path, pathQuery server.platform request with
    | some wish, some p =>
      match validateRelativePath p with
      | .error error => .refused (wish.malformed error)
      | .ok relative =>
        if isPathVisible access claims.groups relative then .wants wish ⟨access, claims.groups⟩ relative
        else .refused (.notFound wish.missing)
    | _, _ => .nothing
  | _ => .nothing

namespace Asked

def effect (catalog : Catalog Name Bytes) : Asked → Catalog Name Bytes
  | .wants wish context relative => (wish.outcome catalog context relative).after
  | .nothing | .refused _ => catalog

def dated (rendering : Rendering) (catalog : Catalog Name Bytes) : Asked → Rendering
  | .wants wish context relative => (wish.outcome catalog context relative).dated rendering
  | .nothing | .refused _ => rendering

def Says (rendering : Rendering) (catalog : Catalog Name Bytes) (request : Request)
    (response : Response) : Asked → Prop
  | .nothing => True
  | .refused error => sent request response = sent request error.intoResponse
  | .wants wish context relative => ∃ full, sent request response = sent request full ∧
      rendering.Says catalog context request.headers relative full (wish.outcome catalog context relative)

def leaves (share : Share) : Asked → Share
  | .wants wish context relative => (wish.outcome share.catalog context relative).leaves
  | .nothing | .refused _ => share

variable {share : Share} (asked : Asked)

@[simp] theorem catalog_leaves : (asked.leaves share).catalog = asked.effect share.catalog := by
  cases asked <;> simp [leaves, effect]

@[simp] theorem root_leaves : (asked.leaves share).root = share.root := by
  cases asked <;> simp [leaves]

@[simp] theorem rendering_leaves (platform : Platform) (showHidden : Bool) :
    (asked.leaves share).rendering platform showHidden =
      asked.dated (share.rendering platform showHidden) share.catalog := by
  cases asked <;> simp [leaves, dated]

theorem clear_leaves (clear : share.disk.Clear) : (asked.leaves share).disk.Clear := by
  cases asked with
  | wants => exact Share.clear_leaves _ clear
  | nothing | refused => exact clear

theorem tidy_leaves (tidy : share.Tidy) : (asked.leaves share).Tidy := by
  cases asked with
  | wants => exact tidy.leaves _
  | nothing | refused => exact tidy

end Asked

def Wish.handler (server : Server) (request : Request) (p : String) (context : Option AccessContext) :
    Wish → Storage ApiError Response
  | .list => directory server.platform server.config p context
  | .fetch => downloadInner server.platform server.config request.headers p
  | .erase => deleteFile server.config p context

section

variable {oidc : Oidc} {server : Server} {request : Request} {p : String}

theorem wishes_data {wish : Wish} (wished : wishes request.method request.path = some wish) :
    ¬(request.path ≠ directoryPath ∧ request.path ≠ downloadPath ∧ request.path ≠ filePath) := by
  rintro ⟨listed, downloaded, deleted⟩
  unfold wishes at wished
  repeat' split at wished
  all_goals contradiction

theorem wishes_list (wished : wishes request.method request.path = some .list) :
    request.path = directoryPath := by
  unfold wishes at wished
  repeat' split at wished
  all_goals first | assumption | cases wished

theorem run_answerStorage (provider : (op : OidcOp oidc) → op.Answer)
    (program : Storage ApiError Response) (disk : Disk) :
    (answerStorage program : Serving oidc).run (serverAnswer provider) disk =
      (settled (disk.run program).1, (disk.run program).2) := by
  have ran : Program.run Disk.answer (ExceptT.run program) disk = disk.run program := rfl
  rw [answerStorage, Program.run_bind, Program.run_embed Disk.answer (fun _ _ => rfl), ran]
  cases (disk.run program).1 <;> rfl

theorem run_routes {wish : Wish} (wished : wishes request.method request.path = some wish)
    (extracts : pathQuery server.platform request = some p) (extensions : Extensions)
    (provider : (op : OidcOp oidc) → op.Answer) (disk : Disk) :
    (routes server request extensions : Serving oidc).run (serverAnswer provider) disk =
      (sent request (settled (disk.run (wish.handler server request p extensions.accessContext)).1),
        (disk.run (wish.handler server request p extensions.accessContext)).2) := by
  have reads (handler : Storage ApiError Response)
    (reading : request.method = .get ∨ request.method = .head) :
      (getRoute request (answerStorage handler) : Serving oidc).run (serverAnswer provider) disk =
        (sent request (settled (disk.run handler).1), (disk.run handler).2) := by
    unfold getRoute sent
    rcases reading with method | method
    · rw [method]
      exact run_answerStorage provider handler disk
    · rw [method]
      dsimp only
      rw [Program.run_bind, run_answerStorage]
      rfl
  unfold wishes at wished
  split at wished
  · split at wished
    next method listed =>
      cases wished
      rw [routes_directory server listed, extracts]
      exact reads _ (.inl method)
    · split at wished
      next method _ downloaded =>
        cases wished
        rw [routes_download server downloaded, extracts]
        exact reads _ (.inl method)
      · cases wished
  · split at wished
    next method listed =>
      cases wished
      rw [routes_directory server listed, extracts]
      exact reads _ (.inr method)
    · split at wished
      next method _ downloaded =>
        cases wished
        rw [routes_download server downloaded, extracts]
        exact reads _ (.inr method)
      · cases wished
  · split at wished
    next method deleted =>
      cases wished
      rw [routes_file server deleted, extracts, deleteRoute, method, sent, method]
      exact run_answerStorage provider _ disk
    · cases wished
  · cases wished

end

section

variable {oidc : Oidc} {server : Server} {request : Request} {now : Nat} {claims : SessionClaims}
  {access : AccessConfig}
  {p : String}

section

variable (decided : gateDecision now server.auth request.path (cookieHeader request) = .authenticated claims)
  (configured : server.access = some access)
  (data : ¬(request.path ≠ directoryPath ∧ request.path ≠ downloadPath ∧ request.path ≠ filePath))
  (extracts : pathQuery server.platform request = some p)
include decided configured data extracts

theorem serve_malformed {error : ApiError} (invalid : validateRelativePath p = .error error) :
    (serve now server request : Serving oidc) = routes server request ⟨some claims, none⟩ := by
  unfold serve authGate
  simp only [decided]
  unfold accessGate
  simp only [if_neg data, configured, pathQuery_first extracts, invalid]

theorem serve_hidden {relative : String} (valid : validateRelativePath p = .ok relative)
    (hidden : isPathVisible access claims.groups relative = false) :
    (serve now server request : Serving oidc) = pure (ApiError.notFound
      (if request.path = directoryPath then missingDirectory else missingFile)).intoResponse := by
  unfold serve authGate
  simp only [decided]
  unfold accessGate
  simp only [if_neg data, configured, pathQuery_first extracts, valid, hidden, Bool.not_false, if_true]
  rfl

theorem serve_admitted {relative : String} (valid : validateRelativePath p = .ok relative)
    (visible : isPathVisible access claims.groups relative) :
    (serve now server request : Serving oidc) = routes server request
      ⟨some claims, some ⟨access, claims.groups⟩⟩ := by
  unfold serve authGate
  simp only [decided]
  unfold accessGate
  simp only [if_neg data, configured, pathQuery_first extracts, valid, visible, Bool.not_true,
    Bool.false_eq_true, if_false]

end

theorem getRoute_wanted {handler : Serving oidc} {wanted : ServerOp oidc → Prop}
    (reaches : (getRoute request handler).Reaches wanted) :
    request.method = .get ∨ request.method = .head := by
  unfold getRoute at reaches
  split at reaches
  next method => exact .inl method
  next method => exact .inr method
  · exact absurd reaches (Program.not_reaches_pure _ _)

theorem deleteRoute_wanted {handler : Serving oidc} {wanted : ServerOp oidc → Prop}
    (reaches : (deleteRoute request handler).Reaches wanted) : request.method = .delete := by
  unfold deleteRoute at reaches
  split at reaches
  next method => exact method
  · exact absurd reaches (Program.not_reaches_pure _ _)

theorem run_quiet {whole : Serving oidc} (quiet : ¬whole.Reaches ServerOp.IsStorage)
    (provider : (op : OidcOp oidc) → op.Answer) (disk : Disk) :
    (whole.run (serverAnswer provider) disk).2 = disk := by
  refine Program.run_state _ ?_ (Program.only_of_quiet quiet) disk
  intro op state other
  cases op with
  | storage op => exact absurd trivial other
  | provider op => rfl

theorem quiet_of_nothing {jar : SessionCookieJar} (auth : server.auth = some (.oidc jar))
    (configured : server.access = some access) (nothing : server.asked access now request = .nothing) :
    ¬(serve now server request : Serving oidc).Reaches ServerOp.IsStorage := by
  intro reaches
  obtain ⟨claims, p, relative, decided, extracts, valid, visible, handled⟩ :=
    serve_mediated auth configured reaches
  have wished : ∃ wish, wishes request.method request.path = some wish := by
    generalize (serve now server request : Serving oidc) = whole at reaches handled
    cases handled with
    | directory listed =>
      rcases getRoute_wanted reaches with method | method <;> exact ⟨.list, by rw [method, listed]; rfl⟩
    | download downloaded =>
      rcases getRoute_wanted reaches with method | method <;> exact ⟨.fetch, by rw [method, downloaded]; rfl⟩
    | delete deleted =>
      exact ⟨.erase, by rw [deleteRoute_wanted reaches, deleted]; rfl⟩
  obtain ⟨wish, wished⟩ := wished
  simp [Server.asked, decided, wished, extracts, valid, visible] at nothing

theorem missing_wish {wish : Wish} (wished : wishes request.method request.path = some wish) :
    (if request.path = directoryPath then missingDirectory else missingFile) = wish.missing := by
  unfold wishes at wished
  repeat' split at wished
  all_goals cases wished
  next listed => exact if_pos listed
  next other _ => exact if_neg other
  next listed => exact if_pos listed
  next other _ => exact if_neg other
  next deleted =>
    rw [deleted]
    exact if_neg (by decide)

theorem run_malformed {error : ApiError} (invalid : validateRelativePath p = .error error)
    {config : AppConfig} (configured : server.config = some config) (wish : Wish)
    (context : Option AccessContext) (disk : Disk) :
    disk.run (wish.handler server request p context) = (.error (wish.malformed error), disk) := by
  cases wish with
  | list => simp [Wish.handler, Wish.malformed, directory, configured, getAppConfig, invalid, Disk.run_bind]
  | fetch =>
    simp [Wish.handler, Wish.malformed, downloadInner, downloadTarget, configured,
      getAppConfig, invalid, Disk.run_bind]
  | erase =>
    simp [Wish.handler, Wish.malformed, deleteFile, deleteTarget, configured,
      getAppConfig, invalid, Disk.run_bind, Except.mapError]

structure Share.ServedBy (share : Share) (server : Server) (access : AccessConfig) (showHidden : Bool) :
    Prop where
  config : server.config = some ⟨share.root, showHidden⟩
  auth : ∃ jar, server.auth = some (.oidc jar)
  access : server.access = some access

variable {share : Share} {showHidden : Bool}

variable (request) in
theorem handler_answers (clear : share.disk.Clear) {wish : Wish} (tidy : wish = .list → share.Tidy)
    (config : server.config = some ⟨share.root, showHidden⟩) {relative : String}
    (valid : validateRelativePath p = .ok relative) (context : AccessContext) :
    let ran := share.disk.run (wish.handler server request p (some context))
    let outcome := wish.outcome share.catalog context relative
    ran.2 = outcome.leaves.disk ∧ (share.rendering server.platform showHidden).Says
      share.catalog context request.headers
      relative (settled ran.1) outcome := by
  unfold Wish.handler
  rw [config]
  cases wish with
  | list =>
    obtain ⟨kept, told⟩ := Share.list_answers (p := p) clear (tidy rfl) valid
    have same : (listOutcome share.catalog relative).leaves = share := by
      unfold listOutcome
      repeat' split
      all_goals rfl
    exact ⟨kept.trans (congrArg Share.disk same).symm, told⟩
  | fetch =>
    obtain ⟨kept, told⟩ := Share.download_answers (p := p) clear valid
    have same : (fetchOutcome share.catalog relative).leaves = share := by
      unfold fetchOutcome
      repeat' split
      all_goals rfl
    exact ⟨kept.trans (congrArg Share.disk same).symm, told⟩
  | erase => exact Share.delete_answers clear valid

variable (request now) in
theorem serve_asked (served : share.ServedBy server access showHidden) (clear : share.disk.Clear)
    (tidy : request.path = directoryPath → share.Tidy) (provider : (op : OidcOp oidc) → op.Answer) :
    let ran := (serve now server request : Serving oidc).run (serverAnswer provider) share.disk
    let asked := server.asked access now request
    ran.2 = (asked.leaves share).disk ∧
      asked.Says (share.rendering server.platform showHidden) share.catalog request ran.1 := by
  obtain ⟨config, ⟨jar, auth⟩, configured⟩ := served
  intro ran asked
  have started : ran = (serve now server request : Serving oidc).run (serverAnswer provider) share.disk := rfl
  have asks : asked = server.asked access now request := rfl
  clear_value ran asked
  by_cases nothing : server.asked access now request = .nothing
  · rw [asks, nothing, started]
    exact ⟨run_quiet (quiet_of_nothing auth configured nothing) provider share.disk, trivial⟩
  unfold Server.asked at asks nothing
  split at nothing
  next claims decided =>
    split at nothing
    next wish p wished extracts =>
      have data := wishes_data wished
      have tidied : wish = .list → share.Tidy := fun list => tidy (wishes_list (list ▸ wished))
      simp only [decided, wished, extracts] at asks
      cases valid : validateRelativePath p with
      | error error =>
        rw [serve_malformed decided configured data extracts valid, run_routes wished extracts,
          run_malformed valid config] at started
        simp only [valid] at asks
        rw [asks, started]
        exact ⟨rfl, sent_sent _ _⟩
      | ok relative =>
        simp only [valid] at asks
        by_cases visible : isPathVisible access claims.groups relative
        · rw [serve_admitted decided configured data extracts valid visible,
            run_routes wished extracts] at started
          rw [if_pos visible] at asks
          obtain ⟨left, told⟩ := handler_answers request clear tidied config valid ⟨access, claims.groups⟩
          rw [asks, started]
          exact ⟨left, _, sent_sent _ _, told⟩
        · rw [serve_hidden decided configured data extracts valid (by simpa using visible),
            missing_wish wished] at started
          rw [if_neg visible] at asks
          rw [asks, started]
          exact ⟨rfl, rfl⟩
    · exact absurd rfl nothing
  · exact absurd rfl nothing

theorem aside_of_status {response : Response} (status : response.status ≠ 204)
    (body : response.body = .empty ∨ ∃ message, response.body = .message message) :
    Aside request response := by
  refine ⟨status, ?_⟩
  intro _ bytes content
  rcases body with empty | ⟨message, told⟩ <;> simp_all

theorem routes_nothing
    (data : ¬(request.path ≠ directoryPath ∧ request.path ≠ downloadPath ∧ request.path ≠ filePath))
    (nothing : wishes request.method request.path = none ∨ pathQuery server.platform request = none)
    (extensions : Extensions) :
    ∃ response, (routes server request extensions : Serving oidc) = pure response ∧
    Aside request response := by
  have refused : Aside request { status := 400 } := aside_of_status (by decide) (.inl rfl)
  have allowed (allow : String) : Aside request (methodNotAllowed allow) :=
    aside_of_status (by simp [methodNotAllowed]) (.inl rfl)
  have reads (handler : String → Serving oidc)
    (route : wishes .get request.path ≠ none ∧ wishes .head request.path ≠ none) :
      ∃ response, getRoute request (extracted (pathQuery server.platform request) handler) = pure response ∧
        Aside request response := by
    unfold getRoute
    split
    next method =>
      rw [method] at nothing
      rw [nothing.resolve_left route.1]
      exact ⟨_, rfl, refused⟩
    next method =>
      rw [method] at nothing
      rw [nothing.resolve_left route.2]
      exact ⟨_, rfl, refused⟩
    · exact ⟨_, rfl, allowed _⟩
  by_cases listed : request.path = directoryPath
  · rw [routes_directory server listed]
    exact reads _ (by rw [listed]; decide)
  by_cases downloaded : request.path = downloadPath
  · rw [routes_download server downloaded]
    exact reads _ (by rw [downloaded]; decide)
  by_cases deleted : request.path = filePath
  · rw [routes_file server deleted]
    unfold deleteRoute
    split
    next method =>
      rw [method, deleted] at nothing
      rw [nothing.resolve_left (by decide)]
      exact ⟨_, rfl, refused⟩
    · exact ⟨_, rfl, allowed _⟩
  exact absurd ⟨listed, downloaded, deleted⟩ data

theorem serve_nothing {jar : SessionCookieJar} (auth : server.auth = some (.oidc jar))
    (configured : server.access = some access)
    (data : ¬(request.path ≠ directoryPath ∧ request.path ≠ downloadPath ∧ request.path ≠ filePath))
    (nothing : server.asked access now request = .nothing) :
    ∃ response, (serve now server request : Serving oidc) = pure response ∧ Aside request response := by
  unfold serve authGate
  split
  next passed =>
    rw [auth] at passed
    exact absurd (isPublicPath_data (gateDecision_passThrough passed)) data
  next claims decided =>
    have unasked : wishes request.method request.path = none ∨ pathQuery server.platform request = none := by
      by_contra both
      push Not at both
      obtain ⟨wish, wished⟩ := Option.ne_none_iff_exists'.mp both.1
      obtain ⟨p, extracts⟩ := Option.ne_none_iff_exists'.mp both.2
      simp only [Server.asked, decided, wished, extracts] at nothing
      split at nothing
      · cases nothing
      · split at nothing <;> cases nothing
    unfold accessGate
    dsimp only
    rw [if_neg data, configured]
    dsimp only
    split
    · exact routes_nothing data unasked _
    · split
      · exact ⟨_, rfl, aside_of_status (by simp) (.inr ⟨_, rfl⟩)⟩
      · exact routes_nothing data unasked _
  · exact ⟨_, rfl, AuthFlowError.aside _⟩
  · exact ⟨_, rfl, AuthFlowError.aside _⟩
  · exact ⟨_, rfl, aside_of_status (by simp [redirectToLogin]) (.inl rfl)⟩

theorem asked_wants {wish : Wish} {context : AccessContext} {relative : String}
    (asks : server.asked access now request = .wants wish context relative) :
    wishes request.method request.path = some wish := by
  unfold Server.asked at asks
  repeat' split at asks
  all_goals cases asks
  assumption

end

section

variable {rendering : Rendering} {catalog : Catalog Name Bytes} {context : AccessContext}
  {headers : HeaderMap}
  {relative : String} {response : Response} {outcome : Outcome catalog}
  (told : rendering.Says catalog context headers relative response outcome)
include told

theorem Rendering.Says.removed (status : response.status = 204) :
    ∃ path file, outcome = .erases path file := by
  cases outcome with
  | erases path file => exact ⟨path, file, rfl⟩
  | refused error =>
    have plain : Aside ⟨.get, "", none, []⟩ error.intoResponse := error.aside
    rw [show response = error.intoResponse from told] at status
    exact absurd status plain.status
  | gives path content =>
    rw [show response = downloadResponse _ _ _ _ _ from told] at status
    exact absurd status (downloadResponse_status _ _ _ _ _)
  | lists path =>
    obtain ⟨names, _, _, rfl⟩ := told
    cases status

theorem Rendering.Says.served {bytes : Bytes} (body : response.body = .content bytes) :
    ∃ path content, outcome = .gives path content ∧ response = downloadResponse rendering.platform headers
      (rendering.sharedRoot ++ path) content (rendering.fileMetadata path content) := by
  cases outcome with
  | gives path content => exact ⟨path, content, rfl, told⟩
  | refused error =>
    rw [show response = error.intoResponse from told] at body
    cases body
  | erases path file =>
    rw [show response = { status := 204 } from told] at body
    cases body
  | lists path =>
    obtain ⟨names, _, _, rfl⟩ := told
    cases body

end

end Yafm
