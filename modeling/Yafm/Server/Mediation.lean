import Yafm.Auth.Run
import Yafm.Server.Router

set_option autoImplicit false

namespace Yafm

open Text Effect

section

variable (platform : Platform) (config : Option AppConfig) {p : String}

theorem directory_refuses (context : Option AccessContext) {refused : ApiError}
    (invalid : validateRelativePath p = .error refused) :
    ∃ error, directory platform config p context = throw error := by
  unfold directory
  rw [invalid]
  cases config <;> exact ⟨_, rfl⟩

theorem downloadInner_refuses (headers : HeaderMap) {refused : ApiError}
    (invalid : validateRelativePath p = .error refused) :
    ∃ error, downloadInner platform config headers p = throw error := by
  unfold downloadInner downloadTarget
  rw [invalid]
  cases config <;> exact ⟨_, rfl⟩

theorem deleteFile_refuses {context : Option AccessContext}
    (unrequested : ∀ relative, ¬Requested p relative context) :
    ∃ error, deleteFile config p context = throw error := by
  suffices refused : ∃ error, deleteTarget config p context = throw error by
    obtain ⟨error, thrown⟩ := refused
    refine ⟨error, ?_⟩
    rw [deleteFile, thrown]
    rfl
  unfold deleteTarget
  cases config with
  | none => exact ⟨_, rfl⟩
  | some config =>
    cases valid : validateRelativePath p with
    | error refused => exact ⟨_, rfl⟩
    | ok relative =>
      by_cases named : relative = ""
      · subst named
        exact ⟨_, rfl⟩
      · have denied : context.any fun context => !canDelete context.access context.groups relative := by
          by_contra allowed
          apply unrequested relative ⟨valid, named, ?_⟩
          rintro held ⟨⟩
          simpa using allowed
        refine ⟨.forbidden "The requested file cannot be deleted with this account.", ?_⟩
        change (if relative = "" then _ else if _ then _ else _) = _
        rw [if_neg named, if_pos denied]

end

def AccessContext.Allows (held : AccessContext) (relative : String) (entry : DirectoryEntry) : Prop :=
  isPathVisible held.access held.groups (childPath relative entry.name) ∧
    (entry.canDelete → canDelete held.access held.groups (childPath relative entry.name))

section

variable {platform : Platform} {relative : String} {held : AccessContext}
  {reply : (op : Op) → op.Answer → Prop}

theorem listEntry_allowed {config : AppConfig} {canonical : Posix.Path} {item : Posix.Name}
    {shown : Option DirectoryEntry}
    (ran : (listEntry platform config (some held) relative canonical item).Yields reply (.ok shown)) :
    ∀ entry ∈ shown, held.Allows relative entry := by
  unfold listEntry at ran
  dsimp only at ran
  split at ran
  · simp only [Fallible.yields_pure, Except.ok.injEq] at ran
    simp [← ran]
  · split at ran
    · simp only [Fallible.yields_pure, Except.ok.injEq] at ran
      simp [← ran]
    next visible =>
      simp only [Option.any_some, Bool.not_eq_true', Bool.not_eq_false] at visible
      obtain ⟨target, _, ran⟩ := (Fallible.yields_bind_ok _ _ _ _).mp ran
      split at ran
      · simp only [Fallible.yields_pure, Except.ok.injEq] at ran
        simp [← ran]
      · split at ran
        · simp only [Fallible.yields_pure, Except.ok.injEq] at ran
          simp [← ran]
        · obtain ⟨found, _, ran⟩ := (Fallible.yields_bind_ok _ _ _ _).mp ran
          split at ran
          · simp only [Fallible.yields_pure, Except.ok.injEq] at ran
            simp [← ran]
          next metadata =>
            simp only [Fallible.yields_pure, Except.ok.injEq] at ran
            rintro entry here
            rw [← ran, Option.mem_some_iff] at here
            subst here
            refine ⟨visible, ?_⟩
            intro offered
            unfold describeEntry at offered
            dsimp only at offered
            split at offered
            · exact offered
            · cases offered

theorem listEntries_allowed {config : AppConfig} {canonical : Posix.Path} {items : List Posix.Name}
    {entries : List DirectoryEntry}
    (ran : (listEntries platform config (some held) relative canonical items).Yields reply (.ok entries)) :
    ∀ entry ∈ entries, held.Allows relative entry := by
  induction items generalizing entries with
  | nil =>
    simp only [listEntries, Fallible.yields_pure, Except.ok.injEq] at ran
    simp [← ran]
  | cons item rest ih =>
    obtain ⟨shown, here, ran⟩ := (Fallible.yields_bind_ok _ _ _ _).mp ran
    obtain ⟨others, there, ran⟩ := (Fallible.yields_bind_ok _ _ _ _).mp ran
    simp only [Fallible.yields_pure, Except.ok.injEq] at ran
    rw [← ran]
    intro entry member
    rcases List.mem_append.mp member with first | later
    · exact listEntry_allowed here entry (by simpa using first)
    · exact ih there entry later

theorem directory_allowed {config : Option AppConfig} {p : String} {response : Response}
    {listing : DirectoryListing} (valid : validateRelativePath p = .ok relative)
    (ran : (directory platform config p (some held)).Yields reply (.ok response))
    (lists : response.body = .listing listing) :
    ∀ entry ∈ listing.entries, held.Allows relative entry := by
  obtain ⟨config, _, ran⟩ := (Fallible.yields_bind_ok _ _ _ _).mp ran
  obtain ⟨same, asked, ran⟩ := (Fallible.yields_bind_ok _ _ _ _).mp ran
  rw [Fallible.yields_ofExcept, valid] at asked
  obtain rfl := Except.ok.inj asked
  obtain ⟨canonical, _, ran⟩ := (Fallible.yields_bind_ok _ _ _ _).mp ran
  obtain ⟨_, _, ran⟩ := (Fallible.yields_bind_ok _ _ _ _).mp ran
  obtain ⟨isDirectory, _, ran⟩ := (Fallible.yields_bind_ok _ _ _ _).mp ran
  split at ran
  · obtain ⟨_, thrown, _⟩ := (Fallible.yields_bind_ok _ _ _ _).mp ran
    simp at thrown
  · obtain ⟨opened, _, ran⟩ := (Fallible.yields_bind_ok _ _ _ _).mp ran
    split at ran
    · simp at ran
    · obtain ⟨read, _, ran⟩ := (Fallible.yields_bind_ok _ _ _ _).mp ran
      split at ran
      · simp at ran
      next items =>
        obtain ⟨entries, asked, ran⟩ := (Fallible.yields_bind_ok _ _ _ _).mp ran
        have allowed := listEntries_allowed asked
        rw [Fallible.yields_pure, Except.ok.injEq] at ran
        rw [← ran, Body.listing.injEq] at lists
        rw [← lists]
        exact fun entry member => allowed entry ((List.mem_insertionSort _).mp member)

end

section

variable {oidc : Oidc} {server : Server} {request : Request}

theorem answerStorage_reaches (program : Storage ApiError Response) :
    (answerStorage program : Serving oidc).Reaches ServerOp.IsStorage ↔ program.Performs := by
  rw [answerStorage, Program.reaches_bind, Program.reaches_embed _ _ (fun _ => trivial)]
  · rfl
  · rintro (_ | _) <;> simp

theorem answerFlow_quiet (state : Option AuthState) (program : Flow oidc AuthFlowError Redirect) :
    ¬(answerFlow state program).Reaches ServerOp.IsStorage := by
  rw [answerFlow, Program.reaches_bind]
  · exact Program.not_reaches_embed _ _ (fun _ => id) _
  · exact fun _ => Program.not_reaches_pure _ _

theorem getRoute_reaches {handler : Serving oidc} {wanted : ServerOp oidc → Prop}
    (reaches : (getRoute request handler).Reaches wanted) : handler.Reaches wanted := by
  unfold getRoute at reaches
  split at reaches
  · exact reaches
  · rwa [Program.reaches_bind (by simp)] at reaches
  · simp at reaches

theorem deleteRoute_reaches {handler : Serving oidc} {wanted : ServerOp oidc → Prop}
    (reaches : (deleteRoute request handler).Reaches wanted) : handler.Reaches wanted := by
  unfold deleteRoute at reaches
  split at reaches
  · exact reaches
  · simp at reaches

theorem extracted_reaches {α : Type} {query : Option α} {handler : α → Serving oidc}
    {wanted : ServerOp oidc → Prop} (reaches : (extracted query handler).Reaches wanted) :
    ∃ p, query = some p ∧ (handler p).Reaches wanted := by
  cases query with
  | none => simp [extracted] at reaches
  | some p => exact ⟨p, rfl, reaches⟩

inductive Handled (server : Server) (request : Request) (p relative : String)
    (context : Option AccessContext) : Serving oidc → Prop
  | directory (listed : request.path = directoryPath)
      (allowed : ∀ held ∈ context, ∀ reply response listing,
        (directory server.platform server.config p context).Yields reply (.ok response) →
        response.body = .listing listing → ∀ entry ∈ listing.entries, held.Allows relative entry) :
      Handled server request p relative context
        (getRoute request (answerStorage (directory server.platform server.config p context)))
  | download (downloaded : request.path = downloadPath) : Handled server request p relative context
      (getRoute request (answerStorage (downloadInner server.platform server.config request.headers p)))
  | delete (deleted : request.path = filePath)
      (deletable : ∀ held ∈ context, canDelete held.access held.groups relative) :
      Handled server request p relative context
        (deleteRoute request (answerStorage (deleteFile server.config p context)))

section

variable (server : Server) {extensions : Extensions}

theorem routes_directory (path : request.path = directoryPath) :
    (routes server request extensions : Serving oidc) =
      getRoute request (extracted (pathQuery server.platform request)
      fun p => answerStorage (directory server.platform server.config p extensions.accessContext)) := by
  simp only [routes, path]
  rw [if_neg (by decide), if_neg (by decide), if_pos trivial]

theorem routes_download (path : request.path = downloadPath) :
    (routes server request extensions : Serving oidc) =
      getRoute request (extracted (pathQuery server.platform request)
      fun p => answerStorage (downloadInner server.platform server.config request.headers p)) := by
  simp only [routes, path]
  rw [if_neg (by decide), if_neg (by decide), if_neg (by decide), if_pos trivial]

theorem routes_file (path : request.path = filePath) :
    (routes server request extensions : Serving oidc) =
      deleteRoute request (extracted (pathQuery server.platform request)
      fun p => answerStorage (deleteFile server.config p extensions.accessContext)) := by
  simp only [routes, path]
  rw [if_neg (by decide), if_neg (by decide), if_neg (by decide), if_neg (by decide), if_pos trivial]

theorem routes_quiet
    (path : request.path ≠ directoryPath ∧ request.path ≠ downloadPath ∧ request.path ≠ filePath) :
    ¬(routes server request extensions : Serving oidc).Reaches ServerOp.IsStorage := by
  intro reaches
  simp only [routes, path, if_false] at reaches
  split at reaches
  · exact absurd (getRoute_reaches reaches) (Program.not_reaches_pure _ _)
  split at reaches
  · exact absurd (getRoute_reaches reaches) (Program.not_reaches_pure _ _)
  split at reaches
  · obtain ⟨_, _, flow⟩ := extracted_reaches (getRoute_reaches reaches)
    exact answerFlow_quiet _ _ flow
  split at reaches
  · obtain ⟨_, _, flow⟩ := extracted_reaches (getRoute_reaches reaches)
    exact answerFlow_quiet _ _ flow
  split at reaches
  · exact answerFlow_quiet _ _ (getRoute_reaches reaches)
  · exact absurd (getRoute_reaches reaches) (Program.not_reaches_pure _ _)

end

theorem routes_reaches {extensions : Extensions}
    (reaches : (routes server request extensions : Serving oidc).Reaches ServerOp.IsStorage) :
    ∃ p relative, pathQuery server.platform request = some p ∧ validateRelativePath p = .ok relative ∧
      Handled server request p relative extensions.accessContext
      (routes server request extensions : Serving oidc) := by
  by_cases listed : request.path = directoryPath
  · rw [routes_directory server listed] at reaches ⊢
    obtain ⟨p, extracts, reaches⟩ := extracted_reaches (getRoute_reaches reaches)
    have performs := (answerStorage_reaches _).mp reaches
    cases valid : validateRelativePath p with
    | error refused =>
      obtain ⟨error, thrown⟩ := directory_refuses server.platform server.config extensions.accessContext valid
      rw [thrown] at performs
      cases performs
    | ok relative =>
      refine ⟨p, relative, extracts, valid, ?_⟩
      rw [extracts]
      refine .directory listed ?_
      rintro held within reply response listing ran lists
      rw [Option.mem_def.mp within] at ran
      exact directory_allowed valid ran lists
  by_cases downloaded : request.path = downloadPath
  · rw [routes_download server downloaded] at reaches ⊢
    obtain ⟨p, extracts, reaches⟩ := extracted_reaches (getRoute_reaches reaches)
    have performs := (answerStorage_reaches _).mp reaches
    cases valid : validateRelativePath p with
    | error refused =>
      obtain ⟨error, thrown⟩ := downloadInner_refuses server.platform server.config request.headers valid
      rw [thrown] at performs
      cases performs
    | ok relative =>
      refine ⟨p, relative, extracts, valid, ?_⟩
      rw [extracts]
      exact .download downloaded
  by_cases deleted : request.path = filePath
  · rw [routes_file server deleted] at reaches ⊢
    obtain ⟨p, extracts, reaches⟩ := extracted_reaches (deleteRoute_reaches reaches)
    have performs := (answerStorage_reaches _).mp reaches
    by_cases requested : ∃ relative, Requested p relative extensions.accessContext
    · obtain ⟨relative, requested⟩ := requested
      refine ⟨p, relative, extracts, requested.valid, ?_⟩
      rw [extracts]
      exact .delete deleted requested.deletable
    · obtain ⟨error, thrown⟩ := deleteFile_refuses server.config (not_exists.mp requested)
      rw [thrown] at performs
      cases performs
  exact absurd reaches (routes_quiet server ⟨listed, downloaded, deleted⟩)

-- Where the extractor takes a value, the gate reads the same one.
theorem queryField_first {fields : List (String × String)} {name : String} {found : Option String}
    (extracts : queryField fields name = some found) :
    ((fields.find? fun field => field.1 = name).map Prod.snd).getD "" = found.getD "" := by
  rw [← List.head?_filter]
  unfold queryField at extracts
  split at extracts
  next none =>
    rw [none, ← Option.some.inj extracts]
    rfl
  next field one =>
    rw [one, ← Option.some.inj extracts]
    rfl
  · cases extracts

theorem pathQuery_first {platform : Platform} {p : String} (extracts : pathQuery platform request = some p) :
    (((queryFields platform request).find? fun field => field.1 = "p").map Prod.snd).getD "" = p := by
  obtain ⟨found, field, rfl⟩ := Option.map_eq_some_iff.mp extracts
  exact queryField_first field

theorem gateDecision_passThrough {now : Nat} {jar : SessionCookieJar} {path : String} {header : Option String}
    (decided : gateDecision now (some (.oidc jar)) path header = .passThrough) : isPublicPath path := by
  unfold gateDecision at decided
  split at decided
  next isPublic => exact isPublic
  · dsimp only at decided
    split at decided
    · cases decided
    · split at decided <;> cases decided

theorem isPublicPath_data {path : String} (isPublic : isPublicPath path) :
    path ≠ directoryPath ∧ path ≠ downloadPath ∧ path ≠ filePath := by
  simp only [isPublicPath, Bool.or_eq_true, decide_eq_true_eq] at isPublic
  rcases isPublic with (rfl | rfl) | rfl <;> decide

theorem serve_mediated {now : Nat} {jar : SessionCookieJar} {access : AccessConfig}
    (auth : server.auth = some (.oidc jar)) (configured : server.access = some access)
    (reaches : (serve now server request : Serving oidc).Reaches ServerOp.IsStorage) :
    ∃ claims p relative, gateDecision now server.auth request.path (cookieHeader request) =
      .authenticated claims ∧
      pathQuery server.platform request = some p ∧ validateRelativePath p = .ok relative ∧
      isPathVisible access claims.groups relative ∧
      Handled server request p relative (some ⟨access, claims.groups⟩)
      (serve now server request : Serving oidc) := by
  unfold serve authGate at reaches ⊢
  split at reaches
  next decided =>
    rw [auth] at decided
    have other := isPublicPath_data (gateDecision_passThrough decided)
    unfold accessGate at reaches
    dsimp only at reaches
    rw [if_pos other] at reaches
    exact absurd reaches (routes_quiet server other)
  next claims decided =>
    simp only [decided]
    unfold accessGate at reaches ⊢
    simp only [configured] at reaches ⊢
    split at reaches
    next other => exact absurd reaches (routes_quiet server other)
    next data =>
      split at reaches
      next refused invalid =>
        -- the handler refuses the path that the gate did not judge
        obtain ⟨p, relative, extracts, valid, _⟩ := routes_reaches reaches
        rw [pathQuery_first extracts, valid] at invalid
        cases invalid
      next normalized judged =>
        split at reaches
        · simp at reaches
        next visible =>
          obtain ⟨p, relative, extracts, valid, handled⟩ := routes_reaches reaches
          rw [pathQuery_first extracts] at judged
          obtain rfl : relative = normalized := Except.ok.inj (valid.symm.trans judged)
          simp only [Bool.not_eq_true', Bool.not_eq_false] at visible
          refine ⟨claims, p, relative, rfl, extracts, valid, visible, ?_⟩
          simp only [if_neg data, visible]
          exact handled
  · simp at reaches
  · simp at reaches
  · simp at reaches

theorem serve_directory {now : Nat} {access : AccessConfig} {claims : SessionClaims} {p relative : String}
    (decided : gateDecision now server.auth request.path (cookieHeader request) = .authenticated claims)
    (configured : server.access = some access) (listed : request.path = directoryPath)
    (extracts : pathQuery server.platform request = some p) (valid : validateRelativePath p = .ok relative)
    (visible : isPathVisible access claims.groups relative) :
    (serve now server request : Serving oidc) = getRoute request
      (answerStorage (directory server.platform server.config p (some ⟨access, claims.groups⟩))) := by
  have data : ¬(request.path ≠ directoryPath ∧ request.path ≠ downloadPath ∧ request.path ≠ filePath) :=
    fun other => other.1 listed
  unfold serve authGate
  simp only [decided]
  unfold accessGate
  simp only [if_neg data, configured, pathQuery_first extracts, valid, visible, Bool.not_true,
    Bool.false_eq_true, if_false]
  rw [routes_directory server listed, extracts]
  rfl

theorem directory_performs {config : AppConfig} {context : Option AccessContext} {p relative : String}
    (valid : validateRelativePath p = .ok relative) :
    (directory server.platform (some config) p context).Performs := by
  unfold directory
  rw [valid]
  trivial

end

def plainServer : Server where
  platform := ⟨id, fun _ => "", fun _ => none, asciiText⟩
  config := some ⟨[], false⟩
  auth := some (.oidc plainJar)
  access := some ⟨[""], [], OrderedMap.empty⟩
  frontendAssets _ := none
  mimeType _ := "text/html"

def plainRequest : Request :=
  ⟨.get, "/api/v1/directory", some "p=docs",
    [("cookie", asBytes "yafm_session=signed.v2:43300:alice:Alice::staff")]⟩

theorem serve_mediated_alice :
    ∃ claims p relative, gateDecision 200 plainServer.auth plainRequest.path (cookieHeader plainRequest) =
        .authenticated claims ∧
      pathQuery plainServer.platform plainRequest = some p ∧ validateRelativePath p = .ok relative ∧
      isPathVisible ⟨[""], [], OrderedMap.empty⟩ claims.groups relative ∧
      Handled plainServer plainRequest p relative (some ⟨⟨[""], [], OrderedMap.empty⟩, claims.groups⟩)
        (serve 200 plainServer plainRequest : Serving plainOidc) := by
  have decided : gateDecision 200 plainServer.auth plainRequest.path (cookieHeader plainRequest) =
      .authenticated ⟨"alice", "Alice", "", ["staff"]⟩ := by decide +kernel
  have extracts : pathQuery plainServer.platform plainRequest = some "docs" := by decide +kernel
  have valid : validateRelativePath "docs" = .ok "docs" := by decide +kernel
  have visible : isPathVisible ⟨[""], [], OrderedMap.empty⟩ ["staff"] "docs" := by decide +kernel
  have reaches : (serve 200 plainServer plainRequest : Serving plainOidc).Reaches ServerOp.IsStorage := by
    rw [serve_directory decided rfl rfl extracts valid visible]
    exact (answerStorage_reaches _).mpr (directory_performs valid)
  exact @serve_mediated plainOidc plainServer plainRequest 200 plainJar
    ⟨[""], [], OrderedMap.empty⟩ rfl rfl reaches

end Yafm
