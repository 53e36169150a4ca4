import Yafm.Concurrent.Server
import Yafm.Files.Answer
import Yafm.Files.Order

set_option autoImplicit false

namespace Yafm

open Text Posix Effect Sharing Transition

variable {ι : Type} [DecidableEq ι]

/-- A server as a release starts it, and the requests of a run with the times they come in. -/
structure Traffic (ι : Type) where
  server : Server
  config : AppConfig
  jar : SessionCookieJar
  access : AccessConfig
  configured : server.config = some config
  auth : server.auth = some (.oidc jar)
  ruled : server.access = some access
  asked : ι → Nat × Request

namespace Traffic

variable (traffic : Traffic ι)

def root : Path := traffic.config.sharedRoot

def mayRemove (who : ι) (name : Name) : Prop :=
  MayRemove (traffic.asked who).1 traffic.server traffic.access (traffic.asked who).2 name

-- Other programs may do as they like, except put a link where there was none or write into a file that is
-- open: other content under a name is another file.
def linkless : Conduct where
  may before after := after.tree.LinksWithin before.tree
  refl _ _ there := there
  trans first second path there := first path (second path there)
  links within := within
  removal nonempty found := linksWithin_remove nonempty found rfl

def receding : Conduct where
  may before after := after.Recedes before
  refl := Disk.Recedes.refl
  trans first second := second.trans first
  links recedes path := by
    rintro ⟨target, found⟩
    rcases recedes.tree path with same | ⟨gone, _⟩
    · rw [found] at same
      obtain ⟨node, there, kind⟩ := Option.map_eq_some_iff.mp same.symm
      cases node with
      | symlink other => exact ⟨other, there⟩
      | file | dir => cases kind
    · rw [found] at gone
      cases gone
  removal := Disk.recedes_without

theorem receding_recedes : receding.Recedes := fun _ _ changed => changed

def workload (oidc : Oidc) (conduct : Conduct) (first : Disk) (drift : Disk → Disk → Prop) :
    Workload ι (@ServerOp.Answer oidc) (Sharing ι) Response where
  program who := serve (traffic.asked who).1 traffic.server (traffic.asked who).2
  discipline who := serverDiscipline oidc conduct traffic.root (traffic.mayRemove who) who
  promise who _ response now := Answered conduct traffic.server.platform traffic.root (traffic.asked who).2
    (serve (traffic.asked who).1 traffic.server (traffic.asked who).2 : Serving oidc) who response now
  ready := Ready
  start sharing := sharing = ⟨first, []⟩
  drift before after := drift before.disk after.disk ∧ after.history = before.history

-- What is relied on makes no difference to what happens.
def system (oidc : Oidc) (first : Disk) (drift : Disk → Disk → Prop) :
    System (Pool ι (@ServerOp.Answer oidc) (Sharing ι) Response) (PoolEvent ι (@ServerOp.Answer oidc)) :=
  (traffic.workload oidc linkless first drift).system

def Obeys (drift : Disk → Disk → Prop) (conduct : Conduct) : Prop :=
  ∀ before after, drift before after → conduct.may before after

variable {traffic} {oidc : Oidc} {conduct : Conduct} {first : Disk} {drift : Disk → Disk → Prop}
  {pool : Pool ι (@ServerOp.Answer oidc) (Sharing ι) Response}

theorem sound (shares : first.Shares traffic.root) (keeps : Obeys drift conduct) :
    (traffic.workload oidc conduct first drift).Sound where
  starts sharing starts who := by
    cases starts
    exact ⟨rfl, (Node.Canonical.of_isDir (Node.get_nil _) shares.isDir).unlinked⟩
  steady _ _ _ ready others := ready.later others
  sure _ _ ready := sure_serve traffic.auth traffic.configured traffic.ruled ready
    (fun _ allowed => allowed) rfl
  apart who other op now answer after apart pledged replied := by
    cases op with
    | storage op => exact Responds.others replied pledged conduct apart
    | provider op =>
      cases replied
      exact ⟨conduct.refl _, rfl⟩
  drifts before after drifted who := ⟨keeps _ _ drifted.1, by rw [own, own, drifted.2]⟩

def respond (who : ι) : (op : ServerOp plainOidc) → Sharing ι → op.Answer × Sharing ι
  | .storage op, now =>
    let (answer, disk) := Disk.answer op now.disk
    (answer, ⟨disk, now.history ++ (op.done now.disk answer).toList.map fun done => (who, done)⟩)
  | .provider .cachedProvider, now => (none, now)
  | .provider .discoverProvider, now => (none, now)
  | .provider (.cacheProvider _), now => ((), now)
  | .provider .invalidateProviderCache, now => ((), now)
  | .provider (.authorizeUrl _), now => (⟨"", "", "", ""⟩, now)
  | .provider (.exchangeCode _ _ _), now => (none, now)
  | .provider .unixSecondsNow, now => ((0 : Nat), now)

omit [DecidableEq ι] in
theorem serverReply_respond (who : ι) (op : ServerOp plainOidc) (now : Sharing ι) :
    serverReply who op now (respond who op now).1 (respond who op now).2 := by
  cases op with
  | storage op => exact ⟨rfl, rfl⟩
  | provider op => cases op <;> rfl

def raceAccess : AccessConfig := ⟨[""], [], OrderedMap.ofList [("members", ⟨true, [⟨"", []⟩]⟩)]⟩

def raceRequest (method : Method) (path : String) : Request :=
  ⟨method, path, some "p=a", [("cookie", asBytes "yafm_session=signed.v2:43300:alice:Alice::members")]⟩

-- Both ask for the same file of the share at `/`: to remove it, or to read it.
def race (method : Method) (path : String) : Traffic Bool where
  server := { plainServer with config := some ⟨[], false⟩, access := some raceAccess }
  config := ⟨[], false⟩
  jar := plainJar
  access := raceAccess
  configured := rfl
  auth := rfl
  ruled := rfl
  asked _ := (200, raceRequest method path)

def raceDisk : Disk where
  tree := .dir [(⟨asBytes "a", validName_a⟩, .file [1])]
  modified := fun _ => none
  clock := fun _ => none
  nameMax := some 255
  faults := fun _ => none
  present := neverFails

def still (before after : Disk) : Prop := after = before

def raceDelete : Serving plainOidc :=
  answerStorage (deleteFile (some ⟨[], false⟩) "a" (some ⟨raceAccess, ["members"]⟩))

theorem race_admitted {method : Method} {path : String} {handler : Serving plainOidc}
    (decided : gateDecision 200 (race method path).server.auth path (cookieHeader (raceRequest method path)) =
      .authenticated ⟨"alice", "Alice", "", ["members"]⟩)
    (data : ¬(path ≠ directoryPath ∧ path ≠ downloadPath ∧ path ≠ filePath))
    (routed : routes (race method path).server (raceRequest method path)
      ⟨some ⟨"alice", "Alice", "", ["members"]⟩, some ⟨raceAccess, ["members"]⟩⟩ = handler) :
    serve 200 (race method path).server (raceRequest method path) = handler := by
  have found : pathQuery plainServer.platform (raceRequest .get "") = some "a" := by decide +kernel
  have extracts : pathQuery (race method path).server.platform (raceRequest method path) = some "a" := found
  have visible : isPathVisible raceAccess ["members"] "a" := by decide +kernel
  have valid : validateRelativePath "a" = .ok "a" := by decide +kernel
  have ruled : (race method path).server.access = some raceAccess := rfl
  have asked : (raceRequest method path).path = path := rfl
  unfold serve authGate
  rw [asked, decided]
  dsimp only
  unfold accessGate
  simp only [asked, if_neg data, ruled, pathQuery_first extracts, valid, visible,
    Bool.not_true, Bool.false_eq_true, if_false]
  exact routed

theorem race_serves : serve 200 (race .delete filePath).server (raceRequest .delete filePath) =
    raceDelete := by
  apply race_admitted (by decide +kernel) (by decide)
  have extracts :
      pathQuery (race .delete filePath).server.platform (raceRequest .delete filePath) = some "a" := by
    decide +kernel
  rw [routes_file _ rfl, extracts]
  rfl

abbrev RacePool := Pool Bool (@ServerOp.Answer plainOidc) (Sharing Bool) Response

def raceSystem (method : Method) (path : String) :
    System RacePool (PoolEvent Bool (@ServerOp.Answer plainOidc)) :=
  (race method path).system plainOidc raceDisk still

theorem race_shares (method : Method) (path : String) : raceDisk.Shares (race method path).root := ⟨_, rfl⟩

theorem race_obeys (conduct : Conduct) : Obeys still conduct := by
  intro before after same
  rw [show after = before from same]
  exact conduct.refl before

theorem race_arrived {method : Method} {path : String} {whole : Serving plainOidc}
    (serves : serve 200 (race method path).server (raceRequest method path) = whole) :
    ∃ tasks, (raceSystem method path).Reachable ⟨tasks, ⟨raceDisk, []⟩⟩ ∧
      ∀ who, tasks who = some ⟨⟨raceDisk, []⟩, whole⟩ := by
  subst serves
  have started : (raceSystem method path).Reachable ⟨fun _ => none, ⟨raceDisk, []⟩⟩ :=
    .start ⟨fun _ => rfl, rfl⟩
  have comes : ∀ (pool : RacePool) (who : Bool), pool.tasks who = none →
      (raceSystem method path).step pool (.arrive who) ⟨Function.update pool.tasks who (some ⟨pool.state,
        serve 200 (race method path).server (raceRequest method path)⟩), pool.state⟩ :=
    fun _ _ absent => .arrive absent
  exact ⟨_, (started.step (comes _ true rfl)).step (comes _ false rfl), fun who => by cases who <;> rfl⟩

theorem race_after {method : Method} {path : String} {pool : RacePool}
    (reached : (raceSystem method path).Reachable pool) {who : Bool} {arrived : Sharing Bool}
    {program : Serving plainOidc} (holds : pool.tasks who = some ⟨arrived, program⟩) (count : Nat) :
    ∃ tasks, (raceSystem method path).Reachable ⟨tasks, (program.after (respond who) count pool.state).2⟩ ∧
      tasks who = some ⟨arrived, (program.after (respond who) count pool.state).1⟩ ∧
      ∀ other, other ≠ who → tasks other = pool.tasks other :=
  Workload.reachable_after (serverReply_respond who) reached holds count

end Traffic

end Yafm
