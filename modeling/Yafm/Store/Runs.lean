import Yafm.Concurrent.Run
import Yafm.Store.Serve

set_option autoImplicit false

namespace Yafm

open Text Posix Effect

variable {oidc : Oidc}

structure Arrival (oidc : Oidc) where
  now : Nat
  request : Request
  provider : (op : OidcOp oidc) → op.Answer

namespace Arrival

variable (server : Server) (access : AccessConfig)

def run (arrival : Arrival oidc) (disk : Disk) : Response × Disk :=
  (serve arrival.now server arrival.request : Serving oidc).run (serverAnswer arrival.provider) disk

def asked (arrival : Arrival oidc) : Asked := server.asked access arrival.now arrival.request

def disks (arrivals : List (Arrival oidc)) (disk : Disk) : Disk :=
  arrivals.foldl (fun disk arrival => (arrival.run server disk).2) disk

end Arrival

/-- What the service keeps: the files, and the times that are shown with them. -/
structure Stock where
  catalog : Catalog Name Bytes
  rendering : Rendering

def Stock.after (stock : Stock) (asked : Asked) : Stock :=
  ⟨asked.effect stock.catalog, asked.dated stock.rendering stock.catalog⟩

def Share.stock (share : Share) (platform : Platform) (showHidden : Bool) : Stock :=
  ⟨share.catalog, share.rendering platform showHidden⟩

def Arrival.stocks (server : Server) (access : AccessConfig) (arrivals : List (Arrival oidc))
    (stock : Stock) : Stock :=
  arrivals.foldl (fun stock arrival => stock.after (arrival.asked server access)) stock

/-- The disk holds a share of this root, with what the service keeps. -/
structure Share.Stands (share : Share) (platform : Platform) (showHidden : Bool) (disk : Disk) (stock : Stock)
    (left : Share) : Prop where
  disk : left.disk = disk
  root : left.root = share.root
  stock : left.stock platform showHidden = stock
  clear : left.disk.Clear
  tidy : left.Tidy

section

variable {share : Share} {server : Server} {access : AccessConfig} {showHidden : Bool}

theorem Share.Stands.step {disk : Disk} {stock : Stock} {left : Share}
    (served : share.ServedBy server access showHidden)
    (holds : share.Stands server.platform showHidden disk stock left) (arrival : Arrival oidc) :
    share.Stands server.platform showHidden (arrival.run server disk).2
        (stock.after (arrival.asked server access)) ((arrival.asked server access).leaves left) ∧
      (arrival.asked server access).Says stock.rendering stock.catalog arrival.request
        (arrival.run server disk).1 := by
  obtain ⟨rfl, root, rfl, clear, tidy⟩ := holds
  have again : left.ServedBy server access showHidden :=
    ⟨by rw [root]; exact served.config, served.auth, served.access⟩
  obtain ⟨after, told⟩ := serve_asked arrival.request arrival.now again clear (fun _ => tidy) arrival.provider
  refine ⟨⟨after.symm, ?_, ?_, ?_, ?_⟩, told⟩
  · rw [Asked.root_leaves, root]
  · rw [Share.stock, Asked.catalog_leaves, Asked.rendering_leaves]
    rfl
  · exact Asked.clear_leaves _ clear
  · exact Asked.tidy_leaves _ tidy

theorem Share.Stands.run (served : share.ServedBy server access showHidden)
    (arrivals : List (Arrival oidc)) {disk : Disk} {stock : Stock} {left : Share}
    (holds : share.Stands server.platform showHidden disk stock left) :
    ∃ last, share.Stands server.platform showHidden (Arrival.disks server arrivals disk)
      (Arrival.stocks server access arrivals stock) last := by
  induction arrivals generalizing disk stock left with
  | nil => exact ⟨left, holds⟩
  | cons arrival rest ih => exact ih (holds.step served arrival).1

-- Whatever requests came before, the server has the files that the service has, with their times, and the
-- next answer is the one that the service gives. The disk refuses nothing, and no directory holds a name
-- twice.
theorem disks_stocks (served : share.ServedBy server access showHidden) (clear : share.disk.Clear)
    (tidy : share.Tidy) (arrivals : List (Arrival oidc)) (arrival : Arrival oidc) :
    let disk := Arrival.disks server arrivals share.disk
    let stock := Arrival.stocks server access arrivals (share.stock server.platform showHidden)
    (∀ path, ((disk.tree.get (share.root ++ path)).map Node.kind).bind entryOfKind =
      stock.catalog.entry path) ∧
      disk.modified = stock.rendering.modified ∧
      (arrival.asked server access).Says stock.rendering stock.catalog arrival.request
        (arrival.run server disk).1 := by
  intro disk stock
  obtain ⟨last, holds⟩ := Share.Stands.run served arrivals ⟨rfl, rfl, rfl, clear, tidy⟩
  have left : disk = last.disk := holds.disk.symm
  have kept : stock = last.stock server.platform showHidden := holds.stock.symm
  refine ⟨?_, by rw [left, kept]; rfl, (holds.step served arrival).2⟩
  intro path
  rw [left, kept, ← holds.root]
  rfl

end

open Traffic (race raceDisk raceAccess raceRequest race_shares)

def offline : (op : OidcOp oidc) → op.Answer
  | .cachedProvider => none
  | .discoverProvider => none
  | .cacheProvider _ => ()
  | .invalidateProviderCache => ()
  | .authorizeUrl _ => ⟨"", "", "", ""⟩
  | .exchangeCode _ _ _ => none
  | .unixSecondsNow => (0 : Nat)

def raceArrival (method : Method) (path : String) : Arrival plainOidc :=
  ⟨200, raceRequest method path, offline⟩

def raceServer : Server := (race .delete filePath).server

theorem raceDisk_get {path : Path} {node : Node Bytes} (found : raceDisk.tree.get path = some node) :
    path = [] ∧ node = raceDisk.tree ∨ node = .file [1] := by
  cases path with
  | nil =>
    cases found
    exact .inl ⟨rfl, rfl⟩
  | cons name rest =>
    have held : raceDisk.tree.get [name] = none ∨ raceDisk.tree.get [name] = some (.file [1]) := by
      rw [Node.get_singleton]
      change lookup [(_, _)] name = _ ∨ lookup [(_, _)] name = _
      simp only [lookup, List.find?_cons]
      split <;> simp
    rw [Node.get_cons] at found
    rcases held with missing | file
    · simp [missing] at found
    · rw [file] at found
      cases rest with
      | nil => exact .inr (by simpa using found.symm)
      | cons => cases found

def raceShare : Share where
  disk := raceDisk
  root := []
  shares := race_shares .delete filePath
  free path target := by
    intro found
    rcases raceDisk_get found with ⟨_, same⟩ | same <;> cases same

theorem raceShare_tidy : raceShare.Tidy := by
  intro path entries found
  rcases raceDisk_get found with ⟨_, same⟩ | same
  · cases same
    simp
  · cases same

-- The file goes with the first request, and is not there for the second one.
theorem disks_stocks_race :
    let disk := Arrival.disks raceServer [raceArrival .delete filePath] raceDisk
    let stock := Arrival.stocks raceServer raceAccess [raceArrival .delete filePath]
      (raceShare.stock raceServer.platform false)
    ((disk.tree.get [⟨asBytes "a", validName_a⟩]).map Node.kind).bind entryOfKind = none ∧
      ((raceArrival .get downloadPath).asked raceServer raceAccess).Says stock.rendering stock.catalog
        (raceRequest .get downloadPath) ((raceArrival .get downloadPath).run raceServer disk).1 := by
  have served : raceShare.ServedBy raceServer raceAccess false := ⟨rfl, ⟨plainJar, rfl⟩, rfl⟩
  obtain ⟨files, _, told⟩ := disks_stocks served (fun _ => rfl) raceShare_tidy [raceArrival .delete filePath]
    (raceArrival .get downloadPath)
  refine ⟨?_, told⟩
  have gone : (Arrival.stocks raceServer raceAccess [raceArrival .delete filePath]
      (raceShare.stock raceServer.platform false)).catalog.entry [⟨asBytes "a", validName_a⟩] = none := by
    rw [← Option.isNone_iff_eq_none]
    decide +kernel
  exact (files [⟨asBytes "a", validName_a⟩]).trans gone

def Share.receded (share : Share) (disk : Disk) (shrinks : disk.tree.Shrinks share.disk.tree) : Share where
  disk := disk
  root := share.root
  shares := by
    obtain ⟨entries, found⟩ := share.shares
    exact shrinks.dir found
  free path target found := by
    rcases shrinks (share.root ++ path) with same | ⟨gone, _⟩
    · rw [found] at same
      obtain ⟨node, there, kind⟩ := Option.map_eq_some_iff.mp same.symm
      cases node with
      | symlink other => exact share.free path other there
      | file | dir => cases kind
    · rw [found] at gone
      cases gone

/-- A request that has removed a file or has been given one, by the catalogs before and after. -/
inductive Granted (asked : Asked) (rendering : Rendering) (request : Request) (response : Response)
    (before after : Catalog Name Bytes) : Prop
  | erased (context : AccessContext) (relative : String) (path : Path) (file : before.isFile path)
      (asks : asked = .wants .erase context relative)
        (finds : eraseOutcome before context relative = .erases path file)
      (leaves : after = before.erase path file) : Granted asked rendering request response before after
  | given (context : AccessContext) (relative : String) (path : Path) (content : Bytes)
      (asks : asked = .wants .fetch context relative)
        (finds : fetchOutcome before relative = .gives path content)
      (keeps : after = before) (answers : response = downloadResponse rendering.platform request.headers
        (rendering.sharedRoot ++ path) content (rendering.fileMetadata path content)) :
      Granted asked rendering request response before after

def Acts (request : Request) (response : Response) : Prop :=
  request.path = filePath ∧ response.status = 204 ∨
    request.method = .get ∧ request.path = downloadPath ∧ ∃ bytes, response.body = .content bytes

theorem Asked.Says.granted {asked : Asked} {rendering : Rendering} {catalog : Catalog Name Bytes}
    {request : Request} {response : Response} (told : asked.Says rendering catalog request response)
    (something : asked ≠ .nothing)
    (wished : ∀ wish context relative, asked = .wants wish context relative →
      wishes request.method request.path = some wish)
    (acts : Acts request response) :
    Granted asked rendering request response catalog (asked.effect catalog) := by
  have status : ∀ response : Response, (sent request response).status = response.status := by
    intro response
    unfold sent
    split <;> rfl
  cases asked with
  | nothing => exact absurd rfl something
  | refused error =>
    have plain : Aside request error.intoResponse := error.aside
    rcases acts with ⟨_, removed⟩ | ⟨method, downloads, bytes, body⟩
    · have same := congrArg Response.status told
      rw [status, status, removed] at same
      exact absurd same.symm plain.status
    · simp only [Says, sent, method, reduceCtorEq, if_false] at told
      exact absurd (told ▸ body) (plain.body downloads bytes)
  | wants wish context relative =>
    obtain ⟨full, same, told⟩ := told
    have wished := wished wish context relative rfl
    rcases acts with ⟨path, removed⟩ | ⟨method, path, bytes, body⟩
    · have settled := congrArg Response.status same
      rw [status, status, removed] at settled
      obtain ⟨path', file, erases⟩ := told.removed settled.symm
      obtain rfl : wish = .erase := by
        unfold wishes at wished
        repeat' split at wished
        all_goals simp_all [filePath, directoryPath, downloadPath]
      refine .erased context relative path' file rfl erases ?_
      rw [effect, erases]
      rfl
    · simp only [sent, method, reduceCtorEq, if_false] at same
      subst same
      obtain ⟨path', content, gives, answer⟩ := told.served body
      obtain rfl : wish = .fetch := by
        rw [method, path] at wished
        exact (Option.some.inj wished).symm
      refine .given context relative path' content rfl gives ?_ answer
      rw [effect, gives]
      rfl

open Sharing in
-- In every run of any number of requests, while other programs may take files away, whoever is told that a
-- file is removed, or is given one, is told so as the catalog of one moment of the run has it, and the
-- next moment has the catalog that this leaves.
theorem response_granted {ι : Type} [DecidableEq ι] {traffic : Traffic ι} {share : Share}
    {drift : Disk → Disk → Prop} {pool : Pool ι (@ServerOp.Answer oidc) (Sharing ι) Response}
    (root : share.root = traffic.root) (clear : share.disk.Clear)
    (keeps : Traffic.Obeys drift Traffic.receding) {who : ι} {arrived : Sharing ι} {response : Response}
    (reached : (traffic.system oidc share.disk drift).Reachable pool)
    (done : pool.tasks who = some ⟨arrived, .pure response⟩)
    (acts : Acts (traffic.asked who).2 response) :
    ∃ op answer earlier later, (traffic.system oidc share.disk drift).Reachable earlier ∧
      (traffic.system oidc share.disk drift).step earlier (.perform who (.storage op) answer) later ∧
      ∃ before after : Share, before.disk = earlier.state.disk ∧ after.disk = later.state.disk ∧
        before.root = traffic.root ∧ after.root = traffic.root ∧
        Granted (traffic.server.asked traffic.access (traffic.asked who).1 (traffic.asked who).2)
          (before.rendering traffic.server.platform traffic.config.showHidden) (traffic.asked who).2 response
          before.catalog after.catalog := by
  have shares : share.disk.Shares traffic.root := root ▸ share.shares
  generalize asks : (traffic.asked who).2 = request at acts
  have data : request.path = filePath ∨ request.path = downloadPath := acts.imp And.left fun act => act.2.1
  have elsewhere : request.path ≠ directoryPath := by
    rcases data with path | path <;> rw [path] <;> decide
  obtain ⟨_, earlier, op, answer, later, happened, atOnce⟩ :=
    Traffic.acted_at_once shares keeps clear reached done
    (asks ▸ acts.imp And.right And.right)
  rw [asks] at atOnce
  obtain ⟨shrinks, faults, _⟩ := Traffic.receded_reached shares keeps happened.reached
  have still : (share.receded earlier.state.disk shrinks).disk.Clear := by
    intro op
    rw [show (share.receded earlier.state.disk shrinks).disk.faults = share.disk.faults from faults]
    exact clear op
  have config : traffic.server.config = some ⟨share.root, traffic.config.showHidden⟩ := by
    rw [traffic.configured, root]
    rfl
  have served : (share.receded earlier.state.disk shrinks).ServedBy traffic.server traffic.access
      traffic.config.showHidden := ⟨config, ⟨traffic.jar, traffic.auth⟩, traffic.ruled⟩
  obtain ⟨left, told⟩ := serve_asked request (traffic.asked who).1 served still
    (fun listed => absurd listed elsewhere) offline
  rw [show (share.receded earlier.state.disk shrinks).disk = earlier.state.disk from rfl,
    atOnce offline] at left told
  have something : traffic.server.asked traffic.access (traffic.asked who).1 request ≠ .nothing := by
    intro nothing
    obtain ⟨other, quiet, aside⟩ :=
      serve_nothing traffic.auth traffic.ruled (fun others => data.elim others.2.2 others.2.1) nothing
    have same := atOnce offline
    rw [quiet] at same
    obtain rfl : other = response := congrArg Prod.fst same
    rcases acts with ⟨_, removed⟩ | ⟨_, downloads, bytes, body⟩
    · exact aside.status removed
    · exact aside.body downloads bytes body
  refine ⟨op, answer, earlier, later, happened.reached, happened.steps,
    share.receded earlier.state.disk shrinks, _, rfl, left.symm, root, ?_, ?_⟩
  · rw [Asked.root_leaves]
    exact root
  · rw [Asked.catalog_leaves]
    exact told.granted something (fun wish context relative => asked_wants) acts

theorem response_granted_race :
    ∃ (earlier later : Traffic.RacePool) (op : Op) (answer : op.Answer) (before after : Share),
      (Traffic.raceSystem .delete filePath).step earlier (.perform true (.storage op) answer) later ∧
      before.disk = earlier.state.disk ∧ after.disk = later.state.disk ∧
      Granted (raceServer.asked raceAccess 200 (raceRequest .delete filePath))
        (before.rendering raceServer.platform false)
        (raceRequest .delete filePath) { status := 204 } before.catalog after.catalog := by
  obtain ⟨tasks, arrived, holds⟩ := Traffic.race_arrived Traffic.race_serves
  obtain ⟨tasks, reached, done, _⟩ := Traffic.race_after arrived (holds true) 4
  rw [Traffic.raceDelete_first] at reached done
  obtain ⟨op, answer, earlier, later, _, steps, before, after, same, left, _, _, granted⟩ :=
    response_granted (show raceShare.root = _ from rfl) (fun _ => rfl)
      (Traffic.race_obeys Traffic.receding) reached done
      (.inl ⟨rfl, rfl⟩)
  exact ⟨earlier, later, op, answer, before, after, steps, same, left, granted⟩

end Yafm
