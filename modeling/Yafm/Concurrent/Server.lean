import Yafm.Concurrent.Atomic
import Yafm.Server.Mediation

set_option autoImplicit false

namespace Yafm

open Text Posix Effect Sharing

variable {ι : Type} [DecidableEq ι] {oidc : Oidc} {conduct : Conduct}

def serverReply (who : ι) : (op : ServerOp oidc) → Sharing ι → op.Answer → Sharing ι → Prop
  | .storage op, now, answer, after => Responds who op now answer after
  | .provider _, now, _, after => after = now

def serverPledge (root : Path) (removable : Name → Prop) : ServerOp oidc → Sharing ι → Prop
  | .storage op, now => Pledges root removable op now
  | .provider _, _ => True

def serverDiscipline (oidc : Oidc) (conduct : Conduct) (root : Path) (removable : Name → Prop) (who : ι) :
    Discipline (@ServerOp.Answer oidc) (Sharing ι) where
  rely := Others conduct who
  reply := serverReply who
  pledge := serverPledge root removable
  refl := (discipline conduct root removable who).refl
  trans := (discipline conduct root removable who).trans

def serverAnswer (provider : (op : OidcOp oidc) → op.Answer) : (op : ServerOp oidc) → Disk → op.Answer × Disk
  | .storage op, disk => Disk.answer op disk
  | .provider op, disk => (provider op, disk)

def AtOnce (whole : Serving oidc) (on : Disk) (response : Response) (after : Disk) : Prop :=
  ∀ provider, whole.run (serverAnswer provider) on = (response, after)

/-- What a request has done to the share by the time it is answered, as far as the answer tells. -/
structure Answered (conduct : Conduct) (platform : Platform) (root : Path) (request : Request)
    (whole : Serving oidc) (who : ι) (response : Response) (now : Sharing ι) : Prop where
  removed : response.status = 204 → ∃ path on gone, now.own who = [.removed path on] ∧
    on.removeFile path = .ok gone ∧
    (conduct.Recedes → on.Clear → AtOnce whole on response (on.without gone))
  kept : response.status ≠ 204 → ∀ done ∈ now.own who, done.isRemoval = false
  content : request.path = downloadPath → ∀ bytes, response.body = .content bytes → ∃ opened on,
    Held root who opened on now ∧ response = downloadResponse platform request.headers
      opened.1 opened.2.1 opened.2.2 ∧
    (conduct.Recedes → on.Clear → AtOnce whole on response on)

variable {platform : Platform} {root : Path} {removable : Name → Prop} {who : ι} {state : Sharing ι}
  {request : Request}
  {whole : Serving oidc}

theorem Answered.later {response : Response} {before after : Sharing ι}
    (answered : Answered conduct platform root request whole who response before)
    (others : Others conduct who before after) :
    Answered conduct platform root request whole who response after := by
  refine ⟨fun removed => ?_, fun kept => ?_, fun downloads bytes body => ?_⟩
  · obtain ⟨path, on, gone, own, taken, atOnce⟩ := answered.removed removed
    exact ⟨path, on, gone, others.own.trans own, taken, atOnce⟩
  · rw [others.own]
    exact answered.kept kept
  · obtain ⟨opened, on, held, same, atOnce⟩ := answered.content downloads bytes body
    exact ⟨opened, on, held.later others, same, atOnce⟩

/-- An answer that is given without anything done to the share. -/
structure Aside (request : Request) (response : Response) : Prop where
  status : response.status ≠ 204
  body : request.path = downloadPath → ∀ bytes, response.body ≠ .content bytes

def Quiet (request : Request) (who : ι) (response : Response) (now : Sharing ι) : Prop :=
  Aside request response ∧ now.own who = []

theorem Quiet.answered {response : Response} {now : Sharing ι} (quiet : Quiet request who response now) :
    Answered conduct platform root request whole who response now :=
  ⟨fun removed => absurd removed quiet.1.status, fun _ => by simp [quiet.2],
    fun downloads bytes body => absurd body (quiet.1.body downloads bytes)⟩

theorem ApiError.aside (error : ApiError) : Aside request error.intoResponse := by
  refine ⟨?_, fun _ _ => nofun⟩
  unfold ApiError.intoResponse ApiError.status
  dsimp only
  split <;> decide

theorem AuthFlowError.aside (error : AuthFlowError) : Aside request error.intoResponse := by
  cases error <;> exact ⟨by decide, fun _ _ => nofun⟩

theorem sure_quiet {response : Response} (aside : Aside request response) (ready : Ready who state) :
    (pure response : Serving oidc).Sure (serverDiscipline oidc conduct root removable who)
      (Quiet request who) state :=
  Program.sure_pure fun _ others => ⟨aside, (ready.later others).untouched⟩

theorem sure_aside {response : Response} (aside : Aside request response) (ready : Ready who state) :
    (pure response : Serving oidc).Sure (serverDiscipline oidc conduct root removable who)
      (Answered conduct platform root request whole who) state :=
  (sure_quiet aside ready).mono fun _ _ => Quiet.answered

theorem sure_answerStorage {program : Storage ApiError Response} {good post : Response → Sharing ι → Prop}
    {bad : ApiError → Sharing ι → Prop}
    (sure : program.Sure (discipline conduct root removable who) good bad state)
    (steady : ∀ response before after, post response before →
      Others conduct who before after → post response after)
    (answers : ∀ response now, good response now → post response now)
    (fails : ∀ error now, bad error now → post error.intoResponse now) :
    (answerStorage program : Serving oidc).Sure (serverDiscipline oidc conduct root removable who)
      post state := by
  have embedded : ((ExceptT.run program).embed ServerOp.storage ServerOp.storageAnswer :
      Program (@ServerOp.Answer oidc) _).Sure (serverDiscipline oidc conduct root removable who)
      (Fallible.Outcome good bad) state :=
    sure.program.embed (fun _ _ same => same) (fun _ _ pledged => pledged) fun _ _ _ _ replied => replied
  apply embedded.bind
  intro outcome now holds
  cases outcome with
  | ok response =>
    exact Program.sure_pure fun later others => steady _ _ _ (answers response now holds) others
  | error error =>
    exact Program.sure_pure fun later others => steady _ _ _ (fails error now holds) others

theorem answerStorage_atOnce {program : Storage ApiError Response} {on after : Disk}
    {response : Response} (ran : on.run program = (.ok response, after)) :
    AtOnce (answerStorage program : Serving oidc) on response after := by
  intro provider
  have alone : Program.run Disk.answer (ExceptT.run program) on = (.ok response, after) := ran
  rw [answerStorage, Program.run_bind, Program.run_embed Disk.answer fun _ _ => rfl, alone]
  rfl

theorem sure_answerFlow {auth : Option AuthState} {program : Flow oidc AuthFlowError Redirect}
    (ready : Ready who state) :
    (answerFlow auth program : Serving oidc).Sure (serverDiscipline oidc conduct root removable who)
      (Quiet request who) state := by
  have only : ((ExceptT.run program).embed ServerOp.provider ServerOp.providerAnswer :
      Program (@ServerOp.Answer oidc) _).Only fun op => ¬op.IsStorage :=
        Program.only_embed _ _ (fun _ => id) _
  have embedded : ((ExceptT.run program).embed ServerOp.provider ServerOp.providerAnswer :
      Program (@ServerOp.Answer oidc) _).Sure (serverDiscipline oidc conduct root removable who)
      (fun _ now => Ready who now) state := by
    apply Program.sure_of_only (fun before after held others => held.later others) _ _ only ready
    · intro op now provider held
      cases op with
      | storage => exact absurd trivial provider
      | provider => trivial
    · intro op now answer after provider held replied
      cases op with
      | storage => exact absurd trivial provider
      | provider =>
        cases replied
        exact held
  apply embedded.bind
  intro outcome now held
  cases outcome with
  | error error => exact sure_quiet error.aside held
  | ok redirect =>
    refine sure_quiet ?_ held
    unfold settledFlow
    dsimp only
    split
    · exact ⟨by simp [Redirect.intoResponse], fun _ _ => nofun⟩
    · exact AuthFlowError.aside _

theorem sure_extracted {α : Type} {query : Option α} {handler : α → Serving oidc} (ready : Ready who state)
    (sure : ∀ value, query = some value →
      (handler value).Sure (serverDiscipline oidc conduct root removable who) (Quiet request who) state) :
    (extracted query handler).Sure (serverDiscipline oidc conduct root removable who)
      (Quiet request who) state := by
  cases query with
  | none => exact sure_quiet ⟨by decide, fun _ _ => nofun⟩ ready
  | some value => exact sure value rfl

theorem sure_getRoute {handler : Serving oidc} (ready : Ready who state)
    (sure : handler.Sure (serverDiscipline oidc conduct root removable who) (Quiet request who) state) :
    (getRoute request handler).Sure (serverDiscipline oidc conduct root removable who)
      (Answered conduct platform root request whole who) state := by
  unfold getRoute
  split
  · exact sure.mono fun _ _ => Quiet.answered
  · apply sure.bind
    rintro response now ⟨aside, own⟩
    exact Program.sure_pure fun later others =>
      Quiet.answered ⟨⟨aside.status, fun _ _ => nofun⟩, others.own.trans own⟩
  · exact sure_aside ⟨by decide, fun _ _ => nofun⟩ ready

theorem downloadResponse_status (platform : Platform) (headers : HeaderMap) (canonical : Path) (file : Bytes)
    (metadata : Metadata) : (downloadResponse platform headers canonical file metadata).status ≠ 204 := by
  unfold downloadResponse
  dsimp only
  split
  · simp
  · split <;> simp

theorem frontendAsset_status (server : Server) (request : Request) :
    (frontendAsset server request).status ≠ 204 := by
  have found : ∀ path response, embeddedAssetResponse server path = some response →
      response.status = 200 := by
    intro path response held
    obtain ⟨file, _, rfl⟩ := Option.map_eq_some_iff.mp held
    rfl
  unfold frontendAsset resolveFrontendAsset
  dsimp only
  split
  · decide
  · cases held : (embeddedAssetResponse server _).or (embeddedAssetResponse server "index.html") with
    | none => decide
    | some response =>
      rw [Option.getD_some]
      rcases Option.or_eq_some_iff.mp held with here | ⟨_, index⟩
      · simp [found _ _ here]
      · simp [found _ _ index]

section

variable {server : Server} {config : AppConfig} {extensions : Extensions} {p : String}

theorem sure_downloaded (ready : Ready who state) :
    (answerStorage (downloadInner server.platform (some config) request.headers p) : Serving oidc).Sure
      (serverDiscipline oidc conduct config.sharedRoot removable who)
      (fun response now => response.status ≠ 204 ∧ (∀ done ∈ now.own who, done.isRemoval = false) ∧
        Answered conduct server.platform config.sharedRoot request
          (answerStorage (downloadInner server.platform (some config) request.headers p) : Serving oidc)
          who response now) state := by
  apply sure_answerStorage (sure_downloadInner ready)
  · rintro response before after ⟨status, kept, answered⟩ others
    refine ⟨status, ?_, answered.later others⟩
    rw [others.own]
    exact kept
  · rintro response now ⟨opened, ⟨on, relative, held, valid, named, resolved⟩, rfl⟩
    have kept : ∀ done ∈ now.own who, done.isRemoval = false := by
      rw [held.1]
      intro done member
      cases List.mem_singleton.mp member
      rfl
    have status := downloadResponse_status server.platform request.headers opened.1 opened.2.1 opened.2.2
    refine ⟨status, kept, fun removed => absurd removed status, fun _ => kept, fun _ _ _ =>
      ⟨opened, on, held, rfl, ?_⟩⟩
    intro recedes clear
    obtain ⟨_, below, present, same⟩ := held
    rw [same]
    exact answerStorage_atOnce (downloadInner_at_once recedes clear valid named below resolved present)
  · intro error now kept
    have aside : Aside request error.intoResponse := error.aside
    exact ⟨aside.status, kept, fun removed => absurd removed aside.status, fun _ => kept, fun _ _ => nofun⟩

theorem sure_deleted (ready : Ready who state) (removes : request.path ≠ downloadPath)
    (permits : ∀ relative name, Requested p relative extensions.accessContext →
      SegmentForm (parentAndName relative).2 name.bytes → removable name) :
    (answerStorage (deleteFile (some config) p extensions.accessContext) : Serving oidc).Sure
      (serverDiscipline oidc conduct config.sharedRoot removable who)
      (Answered conduct server.platform config.sharedRoot request
        (answerStorage (deleteFile (some config) p extensions.accessContext) : Serving oidc) who) state := by
  apply sure_answerStorage (sure_deleteFile ready permits) fun response before after answered others =>
    answered.later others
  · rintro response now ⟨rfl, path, on, gone, relative, parent, own, requested, checked, found, taken⟩
    refine ⟨fun _ => ⟨path, on, gone, own, taken, ?_⟩, fun kept => absurd rfl kept, fun downloads =>
      absurd downloads removes⟩
    intro recedes clear
    exact answerStorage_atOnce
      (deleteFile_at_once recedes clear ready.plain requested checked found taken)
  · exact fun error now untouched => Quiet.answered ⟨error.aside, untouched⟩

theorem sure_downloadRoute (ready : Ready who state)
    (same : whole = getRoute request (extracted (pathQuery server.platform request) fun p =>
      answerStorage (downloadInner server.platform (some config) request.headers p))) :
    whole.Sure (serverDiscipline oidc conduct config.sharedRoot removable who)
      (Answered conduct server.platform config.sharedRoot request whole who) state := by
  cases extracts : pathQuery server.platform request with
  | none =>
    rw [extracts] at same
    rw [same]
    exact sure_getRoute ready (sure_quiet ⟨by decide, fun _ _ => nofun⟩ ready)
  | some p =>
    rw [extracts] at same
    unfold getRoute at same
    dsimp only [extracted] at same
    split at same
    · rw [same]
      exact (sure_downloaded ready).mono fun _ _ answered => answered.2.2
    · rw [same]
      apply (sure_downloaded ready).bind
      rintro response now ⟨status, kept, _⟩
      apply Program.sure_pure
      intro later others
      refine ⟨fun removed => absurd removed status, fun _ => ?_, fun _ _ => nofun⟩
      rw [others.own]
      exact kept
    · rw [same]
      exact sure_aside ⟨by decide, fun _ _ => nofun⟩ ready

theorem sure_deleteRoute (ready : Ready who state) (removes : request.path = filePath)
    (permits : request.method = .delete → ∀ p relative name, pathQuery server.platform request = some p →
      Requested p relative extensions.accessContext →
      SegmentForm (parentAndName relative).2 name.bytes → removable name)
    (same : whole = deleteRoute request (extracted (pathQuery server.platform request) fun p =>
      answerStorage (deleteFile (some config) p extensions.accessContext))) :
    whole.Sure (serverDiscipline oidc conduct config.sharedRoot removable who)
      (Answered conduct server.platform config.sharedRoot request whole who) state := by
  have elsewhere : request.path ≠ downloadPath := by
    rw [removes]
    decide
  unfold deleteRoute at same
  split at same
  next deletes =>
    cases extracts : pathQuery server.platform request with
    | none =>
      rw [extracts] at same
      rw [same]
      exact sure_aside ⟨by decide, fun _ _ => nofun⟩ ready
    | some p =>
      rw [extracts] at same
      dsimp only [extracted] at same
      rw [same]
      exact sure_deleted ready elsewhere fun relative name => permits deletes p relative name extracts
  · rw [same]
    exact sure_aside ⟨by decide, fun _ _ => nofun⟩ ready

theorem sure_quietRoutes (configured : server.config = some config) (ready : Ready who state)
    (notDownload : request.path ≠ downloadPath) (notFile : request.path ≠ filePath) :
    (routes server request extensions : Serving oidc).Sure
      (serverDiscipline oidc conduct config.sharedRoot removable who)
      (Answered conduct server.platform config.sharedRoot request whole who) state := by
  unfold routes
  dsimp only
  rw [if_neg notDownload, if_neg notFile, configured]
  split
  · exact sure_getRoute ready (sure_quiet ⟨by decide, fun _ _ => nofun⟩ ready)
  split
  · apply sure_getRoute ready (sure_quiet _ ready)
    unfold usersMeResponse
    split <;> exact ⟨by simp, fun _ _ => nofun⟩
  split
  · apply sure_getRoute ready (sure_extracted ready _)
    intro p _
    apply sure_answerStorage (sure_directory ready)
    · exact fun response before after quiet others => ⟨quiet.1, others.own.trans quiet.2⟩
    · rintro response now ⟨status, own⟩
      exact ⟨⟨by simp [status], fun downloads => absurd downloads notDownload⟩, own⟩
    · exact fun error now untouched => ⟨error.aside, untouched⟩
  split
  · apply sure_getRoute ready (sure_extracted ready _)
    exact fun _ _ => sure_answerFlow ready
  split
  · apply sure_getRoute ready (sure_extracted ready _)
    exact fun _ _ => sure_answerFlow ready
  split
  · exact sure_getRoute ready (sure_answerFlow ready)
  · exact sure_getRoute ready
      (sure_quiet ⟨frontendAsset_status server request, fun downloads => absurd downloads notDownload⟩ ready)

theorem sure_routes (configured : server.config = some config) (ready : Ready who state)
    (permits : request.method = .delete → request.path = filePath → ∀ p relative name,
      pathQuery server.platform request = some p → Requested p relative extensions.accessContext →
      SegmentForm (parentAndName relative).2 name.bytes → removable name) :
    (routes server request extensions : Serving oidc).Sure
      (serverDiscipline oidc conduct config.sharedRoot removable who)
      (Answered conduct server.platform config.sharedRoot request
        (routes server request extensions : Serving oidc) who)
      state := by
  by_cases downloads : request.path = downloadPath
  · rw [routes_download server downloads, configured]
    exact sure_downloadRoute ready rfl
  by_cases removes : request.path = filePath
  · rw [routes_file server removes, configured]
    exact sure_deleteRoute ready removes (fun deletes => permits deletes removes) rfl
  · exact sure_quietRoutes configured ready downloads removes

end

-- Who may have an entry of this name removed, and how: the session, the path and the account's rules all
-- say so.
def MayRemove (now : Nat) (server : Server) (access : AccessConfig) (request : Request) (name : Name) :
    Prop :=
  request.method = .delete ∧ request.path = filePath ∧
    ∃ claims p relative, gateDecision now server.auth request.path (cookieHeader request) =
      .authenticated claims ∧
      pathQuery server.platform request = some p ∧ Requested p relative (some ⟨access, claims.groups⟩) ∧
      SegmentForm (parentAndName relative).2 name.bytes

section

variable {now : Nat} {server : Server} {config : AppConfig} {jar : SessionCookieJar} {access : AccessConfig}

theorem sure_accessGate {claims : SessionClaims} (configured : server.config = some config)
    (ruled : server.access = some access) (ready : Ready who state)
    (decided : gateDecision now server.auth request.path (cookieHeader request) = .authenticated claims)
    (permits : ∀ name, MayRemove now server access request name → removable name)
    (same : whole = accessGate server request ⟨some claims, none⟩ (routes server request)) :
    whole.Sure (serverDiscipline oidc conduct config.sharedRoot removable who)
      (Answered conduct server.platform config.sharedRoot request whole who) state := by
  have routed : ∀ extensions : Extensions,
      (request.path = filePath → ∀ p relative, pathQuery server.platform request = some p →
        validateRelativePath p = .ok relative → extensions.accessContext = some ⟨access, claims.groups⟩) →
      (routes server request extensions : Serving oidc).Sure
        (serverDiscipline oidc conduct config.sharedRoot removable who)
        (Answered conduct server.platform config.sharedRoot request
          (routes server request extensions : Serving oidc) who)
        state := by
    intro extensions judged
    apply sure_routes configured ready
    intro deletes removes p relative name extracts requested form
    rw [judged removes p relative extracts requested.valid] at requested
    exact permits name ⟨deletes, removes, claims, p, relative, decided, extracts, requested, form⟩
  unfold accessGate at same
  dsimp only at same
  split at same
  next elsewhere =>
    rw [same]
    exact routed _ fun removes => absurd removes elsewhere.2.2
  · rw [ruled] at same
    dsimp only at same
    split at same
    next error invalid =>
      rw [same]
      apply routed
      intro removes p relative extracts valid
      rw [pathQuery_first extracts, valid] at invalid
      cases invalid
    next normalized valid =>
      split at same
      · rw [same]
        exact sure_aside ⟨by simp, fun _ _ => nofun⟩ ready
      · rw [same]
        exact routed _ fun _ _ _ _ _ => rfl

theorem sure_serve (auth : server.auth = some (.oidc jar)) (configured : server.config = some config)
    (ruled : server.access = some access) (ready : Ready who state)
    (permits : ∀ name, MayRemove now server access request name → removable name)
    (same : whole = serve now server request) :
    whole.Sure (serverDiscipline oidc conduct config.sharedRoot removable who)
      (Answered conduct server.platform config.sharedRoot request whole who) state := by
  unfold serve authGate at same
  split at same
  next passed =>
    rw [auth] at passed
    obtain ⟨notDirectory, notDownload, notFile⟩ := isPublicPath_data (gateDecision_passThrough passed)
    have routed : whole = routes server request ⟨none, none⟩ := by
      rw [same]
      exact if_pos ⟨notDirectory, notDownload, notFile⟩
    rw [routed]
    exact sure_routes configured ready fun _ removes => absurd removes notFile
  next claims decided => exact sure_accessGate configured ruled ready decided permits same
  · rw [same]
    exact sure_aside (AuthFlowError.aside _) ready
  · rw [same]
    exact sure_aside (AuthFlowError.aside _) ready
  · rw [same]
    exact sure_aside ⟨by simp [redirectToLogin], fun _ _ => nofun⟩ ready

end

end Yafm
