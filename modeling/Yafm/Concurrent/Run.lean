import Yafm.Concurrent.Traffic

set_option autoImplicit false

namespace Yafm

open Text Posix Effect Sharing Transition

namespace Traffic

variable {ι : Type} [DecidableEq ι] {traffic : Traffic ι} {oidc : Oidc} {conduct : Conduct} {first : Disk}
  {drift : Disk → Disk → Prop} {pool : Pool ι (@ServerOp.Answer oidc) (Sharing ι) Response}

-- Whatever the requests and however they interleave, each operation that one performs stays inside the
-- root, and one that changes the tree takes a single regular file out of it, for a session whose account
-- may delete that path.
theorem perform_permitted (shares : first.Shares traffic.root) (keeps : Obeys drift linkless)
    {after : Pool ι (@ServerOp.Answer oidc) (Sharing ι) Response} {who : ι} {op : Op} {answer : op.Answer}
    (reached : (traffic.system oidc first drift).Reachable pool)
    (steps : (traffic.system oidc first drift).step pool (.perform who (.storage op) answer) after) :
    Pledges traffic.root (traffic.mayRemove who) op pool.state ∧
      (after.state.disk ≠ pool.state.disk → ∃ parent name content,
        op = .removeFile (pathBuf (parent ++ [name])) ∧ traffic.root <+: parent ∧
        MayRemove (traffic.asked who).1 traffic.server traffic.access (traffic.asked who).2 name ∧
        pool.state.disk.tree.get (parent ++ [name]) = some (.file content) ∧
        ∀ query, (after.state.disk.tree.get query).map Node.kind =
          if query = parent ++ [name] then none else (pool.state.disk.tree.get query).map Node.kind) := by
  cases steps with
  | perform holds replied =>
    have pledged : Pledges traffic.root (traffic.mayRemove who) op pool.state :=
      (Workload.kept (sound shares keeps) reached).pledged holds
    refine ⟨pledged, ?_⟩
    intro changed
    rcases Responds.tree replied pledged with
      ⟨same, _⟩ | ⟨parent, name, content, named, below, allowed, _, _, present, gone⟩
    · exact absurd same changed
    · refine ⟨parent, name, content, named, below, allowed, present, ?_⟩
      rw [gone]
      exact kind_get_remove (by simp) present rfl

theorem perform_permitted_race :
    ∃ pool after : RacePool, (raceSystem .delete filePath).step pool
        (.perform true (.storage (.removeFile [asBytes "a"])) (.ok ())) after ∧
      Pledges [] ((race .delete filePath).mayRemove true) (.removeFile [asBytes "a"]) pool.state ∧
      ∃ parent name content, Op.removeFile [asBytes "a"] = .removeFile (pathBuf (parent ++ [name])) ∧
        MayRemove 200 (race .delete filePath).server raceAccess (raceRequest .delete filePath) name ∧
        pool.state.disk.tree.get (parent ++ [name]) = some (.file content) := by
  obtain ⟨tasks, arrived, holds⟩ := race_arrived race_serves
  obtain ⟨tasks, reached, left, _⟩ := race_after arrived (holds true) 3
  have steps : (raceSystem .delete filePath).step ⟨tasks, ⟨raceDisk, []⟩⟩
      (.perform true (.storage (.removeFile [asBytes "a"])) (.ok ())) _ :=
    .perform left (serverReply_respond true (.storage (.removeFile [asBytes "a"])) ⟨raceDisk, []⟩)
  obtain ⟨pledged, changes⟩ :=
    perform_permitted (race_shares .delete filePath) (race_obeys linkless) reached steps
  have changed : raceDisk.tree.get [⟨asBytes "a", validName_a⟩] ≠ none := nofun
  obtain ⟨parent, name, content, named, _, allowed, present, _⟩ := changes fun same =>
    changed (congrArg (fun disk : Disk => disk.tree.get [⟨asBytes "a", validName_a⟩]) same).symm
  exact ⟨_, _, steps, pledged, parent, name, content, named, allowed, present⟩

def Done.on : Done → Disk
  | .removed _ on => on
  | .opened _ on _ => on

omit [DecidableEq ι] in
theorem done_on {op : Op} {on : Disk} {answer : op.Answer} {done : Done}
    (found : op.done on answer = some done) : Done.on done = on := by
  cases op with
  | canonicalize | metadata | symlinkMetadata | readDir | nextEntries | fileMetadata => cases found
  | openFile | removeFile =>
    obtain ⟨_, _, rfl⟩ := Option.map_eq_some_iff.mp found
    rfl

/-- The step of a run in which a request did what its history says. -/
structure DoneAt (traffic : Traffic ι) (oidc : Oidc) (first : Disk) (drift : Disk → Disk → Prop)
    (who : ι) (done : Done) (earlier : Pool ι (@ServerOp.Answer oidc) (Sharing ι) Response) (op : Op)
    (answer : op.Answer) (later : Pool ι (@ServerOp.Answer oidc) (Sharing ι) Response) : Prop where
  reached : (traffic.system oidc first drift).Reachable earlier
  steps : (traffic.system oidc first drift).step earlier (.perform who (.storage op) answer) later
  answered : Disk.answer op earlier.state.disk = (answer, later.state.disk)
  done : op.done earlier.state.disk answer = some done

theorem history_reached (reached : (traffic.system oidc first drift).Reachable pool) :
    ∀ entry ∈ pool.state.history, ∃ earlier op answer later,
      DoneAt traffic oidc first drift entry.1 entry.2 earlier op answer later := by
  induction reached with
  | start starts =>
    rw [show _ = _ from starts.2]
    exact nofun
  | @step before after event reached steps ih =>
    cases steps with
    | arrive => exact ih
    | drift moved =>
      dsimp only
      rw [moved.2]
      exact ih
    | @perform who _ state op answer next holds replied =>
      cases op with
      | provider op =>
        cases replied
        exact ih
      | storage op =>
        intro entry member
        have recorded : Responds who op before.state answer state := replied
        dsimp only at member
        rw [recorded.2, List.mem_append] at member
        rcases member with known | now
        · exact ih entry known
        · obtain ⟨done, found, rfl⟩ := List.mem_map.mp now
          exact ⟨before, op, answer, _, reached, .perform holds replied, recorded.1,
            Option.mem_toList.mp found⟩

theorem own_reached (reached : (traffic.system oidc first drift).Reachable pool) {who : ι} {done : Done}
    (mine : done ∈ pool.state.own who) : ∃ earlier op answer later,
      DoneAt traffic oidc first drift who done earlier op answer later := by
  unfold Sharing.own at mine
  obtain ⟨entry, member, rfl⟩ := List.mem_map.mp mine
  obtain ⟨recorded, same⟩ := List.mem_filter.mp member
  have whose : entry.1 = who := by simpa using same
  rw [← whose]
  exact history_reached reached entry recorded

-- However the requests interleave, a download that answers with content answers for a single file below
-- the root, as it was at one moment: bytes, length, range and entity tag all belong together.
theorem download_served (shares : first.Shares traffic.root) (keeps : Obeys drift linkless) {who : ι}
    {arrived : Sharing ι} {response : Response} {bytes : Bytes}
    (reached : (traffic.system oidc first drift).Reachable pool)
    (done : pool.tasks who = some ⟨arrived, .pure response⟩)
    (downloads : (traffic.asked who).2.path = downloadPath) (body : response.body = .content bytes) :
    ∃ earlier canonical content, (traffic.system oidc first drift).Reachable earlier ∧
      traffic.root <+: canonical ∧ earlier.state.disk.tree.get canonical = some (.file content) ∧
      response = downloadResponse traffic.server.platform (traffic.asked who).2.headers canonical content
        (earlier.state.disk.metadata (canonical, .file content)) := by
  obtain ⟨opened, on, ⟨own, below, present, belongs⟩, served, _⟩ :=
    (Workload.finished (sound shares keeps) reached done).content downloads bytes body
  have mine : Done.opened (pathBuf opened.1) on opened.2.1 ∈ pool.state.own who := by simp [own]
  obtain ⟨earlier, op, answer, later, happened⟩ := own_reached reached mine
  have same : on = earlier.state.disk := done_on happened.done
  rw [same] at present belongs
  exact ⟨earlier, opened.1, opened.2.1, happened.reached, below, present, by rw [served, belongs]⟩

def raceDownload : Serving plainOidc :=
  answerStorage (downloadInner plainServer.platform (some ⟨[], false⟩)
    (raceRequest .get downloadPath).headers "a")

theorem race_downloads : serve 200 (race .get downloadPath).server (raceRequest .get downloadPath) =
    raceDownload := by
  apply race_admitted (by decide +kernel) (by decide)
  have extracts :
      pathQuery (race .get downloadPath).server.platform (raceRequest .get downloadPath) = some "a" := by
    decide +kernel
  rw [routes_download _ rfl, extracts]
  rfl

def raceServed : Response :=
  downloadResponse plainServer.platform (raceRequest .get downloadPath).headers
    [⟨asBytes "a", validName_a⟩] [1]
    (raceDisk.metadata ([⟨asBytes "a", validName_a⟩], .file [1]))

theorem raceServed_body : raceServed.body = .content [1] := by decide +kernel

theorem raceDownload_whole : raceDownload.after (respond true) 4 ⟨raceDisk, []⟩ =
    (.pure raceServed, ⟨raceDisk, [(true, .opened [asBytes "a"] raceDisk [1])]⟩) := rfl

theorem download_served_race :
    ∃ (earlier : RacePool) (canonical : Path) (content : Bytes),
    (raceSystem .get downloadPath).Reachable earlier ∧
      earlier.state.disk.tree.get canonical = some (.file content) ∧
      raceServed = downloadResponse plainServer.platform
        (raceRequest .get downloadPath).headers canonical content
        (earlier.state.disk.metadata (canonical, .file content)) := by
  obtain ⟨tasks, arrived, holds⟩ := race_arrived race_downloads
  obtain ⟨tasks, reached, done, _⟩ := race_after arrived (holds true) 4
  rw [raceDownload_whole] at reached done
  obtain ⟨earlier, canonical, content, before, _, present, same⟩ := download_served
    (race_shares .get downloadPath) (race_obeys linkless) reached done rfl raceServed_body
  exact ⟨earlier, canonical, content, before, present, same⟩

def raceGone : Disk where
  tree := .dir []
  modified := Function.update (fun _ => none) [] none
  clock := fun _ => none
  nameMax := some 255
  faults := fun _ => none
  present := neverFails

def raceHistory : List (Bool × Done) := [(true, .removed [asBytes "a"] raceDisk)]

theorem raceDelete_first : raceDelete.after (respond true) 4 ⟨raceDisk, []⟩ =
    (.pure { status := 204 }, ⟨raceGone, raceHistory⟩) := rfl

theorem raceDelete_second : raceDelete.after (respond false) 4 ⟨raceGone, raceHistory⟩ =
    (.pure { status := 404, body := .message "The requested file could not be found." },
      ⟨raceGone, raceHistory⟩) := rfl

omit [DecidableEq ι] in
theorem after_removed {op : Op} {on after : Disk} {answer : op.Answer} {path : PathBuf} {gone : Path}
    (answered : Disk.answer op on = (answer, after)) (done : op.done on answer = some (.removed path on))
    (taken : on.removeFile path = .ok gone) : after = on.without gone := by
  cases op with
  | canonicalize | metadata | symlinkMetadata | readDir | nextEntries | fileMetadata => cases done
  | openFile =>
    obtain ⟨_, _, same⟩ := Option.map_eq_some_iff.mp done
    cases same
  | removeFile other =>
    obtain ⟨_, _, same⟩ := Option.map_eq_some_iff.mp done
    cases same
    have left : (Disk.answer (.removeFile path) on).2 = after := congrArg Prod.snd answered
    rw [← left]
    simp only [Disk.answer, Disk.remove, taken]

omit [DecidableEq ι] in
theorem after_opened {op : Op} {on after : Disk} {answer : op.Answer} {path : PathBuf} {content : Bytes}
    (answered : Disk.answer op on = (answer, after))
    (done : op.done on answer = some (.opened path on content)) : after = on := by
  cases op with
  | canonicalize | metadata | symlinkMetadata | readDir | nextEntries | fileMetadata => cases done
  | openFile => exact (congrArg Prod.snd answered).symm
  | removeFile other =>
    obtain ⟨_, _, same⟩ := Option.map_eq_some_iff.mp done
    cases same

theorem receded_reached (shares : first.Shares traffic.root) (keeps : Obeys drift receding)
    (reached : (traffic.system oidc first drift).Reachable pool) : receding.may first pool.state.disk := by
  have sure : (traffic.workload oidc receding first drift).Sound := sound shares keeps
  apply Workload.invariant sure (fun sharing => receding.may first sharing.disk) _ _ _ reached
  · rintro sharing rfl
    exact receding.refl first
  · intro before after same drifted
    exact receding.trans same (keeps _ _ drifted.1)
  · intro who op now answer after same pledged replied
    cases op with
    | storage op => exact receding.trans same (Responds.changed replied pledged receding)
    | provider op =>
      cases replied
      exact same

theorem clear_reached (shares : first.Shares traffic.root) (keeps : Obeys drift receding)
    (clear : first.Clear) (reached : (traffic.system oidc first drift).Reachable pool) :
    pool.state.disk.Clear := by
  intro op
  rw [(receded_reached shares keeps reached).faults]
  exact clear op

theorem acted_at_once (shares : first.Shares traffic.root) (keeps : Obeys drift receding)
    (clear : first.Clear) {who : ι} {arrived : Sharing ι} {response : Response}
    (reached : (traffic.system oidc first drift).Reachable pool)
    (done : pool.tasks who = some ⟨arrived, .pure response⟩)
    (acts : response.status = 204 ∨ (traffic.asked who).2.path = downloadPath ∧ ∃ bytes,
      response.body = .content bytes) :
    ∃ act earlier op answer later, DoneAt traffic oidc first drift who act earlier op answer later ∧
      AtOnce (serve (traffic.asked who).1 traffic.server (traffic.asked who).2 : Serving oidc)
        earlier.state.disk
        response later.state.disk := by
  have sure : (traffic.workload oidc receding first drift).Sound := sound shares keeps
  have answered := Workload.finished sure reached done
  rcases acts with removed | ⟨downloads, bytes, body⟩
  · obtain ⟨path, on, gone, own, taken, atOnce⟩ := answered.removed removed
    have mine : Done.removed path on ∈ pool.state.own who := by simp [own]
    obtain ⟨earlier, op, answer, later, happened⟩ := own_reached reached mine
    have same : on = earlier.state.disk := done_on happened.done
    subst same
    have after := after_removed happened.answered happened.done taken
    have here := clear_reached shares keeps clear happened.reached
    exact ⟨_, earlier, op, answer, later, happened, after ▸ atOnce receding_recedes here⟩
  · obtain ⟨opened, on, held, _, atOnce⟩ := answered.content downloads bytes body
    have mine : Done.opened (pathBuf opened.1) on opened.2.1 ∈ pool.state.own who := by simp [held.1]
    obtain ⟨earlier, op, answer, later, happened⟩ := own_reached reached mine
    have same : on = earlier.state.disk := done_on happened.done
    subst same
    have after := after_opened happened.answered happened.done
    have here := clear_reached shares keeps clear happened.reached
    exact ⟨_, earlier, op, answer, later, happened, after ▸ atOnce receding_recedes here⟩

-- Where nothing but files going away happens to a disk that refuses nothing, a request that has removed or
-- served a file did so as if it had run by itself, at the instant of one of its own steps.
theorem answered_atOnce (shares : first.Shares traffic.root) (keeps : Obeys drift receding)
    (clear : first.Clear) {who : ι} {arrived : Sharing ι} {response : Response}
    (reached : (traffic.system oidc first drift).Reachable pool)
    (done : pool.tasks who = some ⟨arrived, .pure response⟩)
    (acts : response.status = 204 ∨ (traffic.asked who).2.path = downloadPath ∧ ∃ bytes,
      response.body = .content bytes) :
    ∃ earlier op answer later, (traffic.system oidc first drift).Reachable earlier ∧
      (traffic.system oidc first drift).step earlier (.perform who (.storage op) answer) later ∧
      AtOnce (serve (traffic.asked who).1 traffic.server (traffic.asked who).2 : Serving oidc)
        earlier.state.disk
        response later.state.disk := by
  obtain ⟨_, earlier, op, answer, later, happened, atOnce⟩ :=
    acted_at_once shares keeps clear reached done acts
  exact ⟨earlier, op, answer, later, happened.reached, happened.steps, atOnce⟩

theorem answered_atOnce_race :
    ∃ (earlier later : RacePool) (op : Op) (answer : op.Answer),
      (raceSystem .delete filePath).step earlier (.perform true (.storage op) answer) later ∧
      AtOnce (serve 200 (race .delete filePath).server (raceRequest .delete filePath) : Serving plainOidc)
        earlier.state.disk { status := 204 } later.state.disk := by
  obtain ⟨tasks, arrived, holds⟩ := race_arrived race_serves
  obtain ⟨tasks, reached, done, _⟩ := race_after arrived (holds true) 4
  rw [raceDelete_first] at reached done
  obtain ⟨earlier, op, answer, later, _, steps, atOnce⟩ := answered_atOnce (race_shares .delete filePath)
    (race_obeys receding) (fun _ => rfl) reached done (.inl rfl)
  exact ⟨earlier, later, op, answer, steps, atOnce⟩

/-- The tree is the first one less the files that were taken, each of them once and by a request that may. -/
structure Accounted (traffic : Traffic ι) (first : Disk) (sharing : Sharing ι) : Prop where
  distinct : (sharing.taken.map Prod.snd).Nodup
  permitted : ∀ who path, (who, path) ∈ sharing.taken →
    ∃ parent name content, path = pathBuf (parent ++ [name]) ∧
    traffic.root <+: parent ∧ first.tree.get (parent ++ [name]) = some (.file content) ∧
    traffic.mayRemove who name
  left : ∀ query, (sharing.disk.tree.get query).map Node.kind =
    if pathBuf query ∈ sharing.taken.map Prod.snd then none else (first.tree.get query).map Node.kind

omit [DecidableEq ι] in
theorem taken_step {who : ι} {op : Op} {now after : Sharing ι} {answer : op.Answer}
    (answers : Responds who op now answer after) :
    after.taken = now.taken ++ ((op.done now.disk answer).bind Done.taken).toList.map fun path =>
      (who, path) := by
  rw [taken, answers.2, List.filterMap_append, taken]
  cases op.done now.disk answer with
  | none => rfl
  | some done => cases done <;> rfl

omit [DecidableEq ι] in
theorem Accounted.step {now after : Sharing ι} {who : ι} {op : Op} {answer : op.Answer}
    (accounted : Accounted traffic first now) (pledged : Pledges traffic.root (traffic.mayRemove who) op now)
    (answers : Responds who op now answer after) : Accounted traffic first after := by
  have grown := taken_step answers
  rcases answers.tree pledged with
    ⟨same, kept⟩ | ⟨parent, name, content, _, below, allowed, done, _, present, gone⟩
  · have quiet : (op.done now.disk answer).bind Done.taken = none := by
      cases found : op.done now.disk answer with
      | none => rfl
      | some done =>
        cases done with
        | opened => rfl
        | removed => cases kept _ found
    rw [quiet, Option.toList_none, List.map_nil, List.append_nil] at grown
    refine ⟨?_, ?_, ?_⟩
    · rw [grown]
      exact accounted.distinct
    · rw [grown]
      exact accounted.permitted
    · rw [grown, same]
      exact accounted.left
  · rw [done] at grown
    have here := accounted.left (parent ++ [name])
    rw [present] at here
    -- the file is still there, so it has not been taken before
    have fresh : pathBuf (parent ++ [name]) ∉ now.taken.map Prod.snd := by
      intro before
      rw [if_pos before] at here
      cases here
    rw [if_neg fresh] at here
    obtain ⟨original, there, sameKind⟩ := Option.map_eq_some_iff.mp here.symm
    have file : original = .file content := by
      cases original with
      | file data =>
        cases sameKind
        rfl
      | symlink | dir => cases sameKind
    subst file
    refine ⟨?_, ?_, ?_⟩
    · rw [grown]
      simp only [Option.bind_some, Done.taken, Option.toList_some, List.map_append,
        List.map_cons, List.map_nil]
      exact List.nodup_append.mpr ⟨accounted.distinct, List.nodup_singleton _, by
        intro path before other last same
        rw [List.mem_singleton.mp last] at same
        exact fresh (same ▸ before)⟩
    · intro other path member
      rw [grown, List.mem_append] at member
      rcases member with before | last
      · exact accounted.permitted other path before
      · cases List.mem_singleton.mp last
        exact ⟨parent, name, content, rfl, below, there, allowed⟩
    · intro query
      rw [gone, Disk.without_tree, kind_get_remove (by simp) present rfl query, accounted.left query, grown]
      simp only [Option.bind_some, Done.taken, Option.toList_some, List.map_append,
        List.map_cons, List.map_nil, List.mem_append, List.mem_singleton, pathBuf_inj]
      by_cases same : query = parent ++ [name]
      · rw [if_pos same, if_pos (Or.inr same)]
      · rw [if_neg same]
        simp only [same, or_false]

-- Other programs leave the tree alone; the times and the refusals of the disk may change.
def AtRest (drift : Disk → Disk → Prop) : Prop :=
  ∀ before after, drift before after → after.tree = before.tree

theorem AtRest.obeys (rest : AtRest drift) : Obeys drift linkless := by
  intro before after drifted path there
  rw [rest before after drifted] at there
  exact there

theorem accounted (shares : first.Shares traffic.root) (rest : AtRest drift)
    (reached : (traffic.system oidc first drift).Reachable pool) :
    Accounted traffic first pool.state := by
  apply Workload.invariant (sound shares rest.obeys) (Accounted traffic first) _ _ _ reached
  · rintro sharing rfl
    exact ⟨List.nodup_nil, nofun, fun query => (if_neg (by simp [taken])).symm⟩
  · rintro before after held ⟨drifted, same⟩
    have grown : after.taken = before.taken := by rw [taken, taken, same]
    refine ⟨?_, ?_, ?_⟩
    · rw [grown]
      exact held.distinct
    · rw [grown]
      exact held.permitted
    · rw [grown, rest _ _ drifted]
      exact held.left
  · intro who op now answer after held pledged replied
    cases op with
    | storage op => exact held.step pledged replied
    | provider op =>
      cases replied
      exact held

theorem mem_taken {sharing : Sharing ι} {who : ι} {path : PathBuf} :
    (who, path) ∈ sharing.taken ↔ ∃ on, Done.removed path on ∈ sharing.own who := by
  unfold taken own
  simp only [List.mem_filterMap, List.mem_map, List.mem_filter, decide_eq_true_eq]
  constructor
  · rintro ⟨⟨other, done⟩, member, mapped⟩
    obtain ⟨target, found, same⟩ := Option.map_eq_some_iff.mp mapped
    cases same
    cases done with
    | opened => cases found
    | removed target on =>
      cases found
      exact ⟨on, _, ⟨member, rfl⟩, rfl⟩
  · rintro ⟨on, ⟨other, done⟩, ⟨member, rfl⟩, rfl⟩
    exact ⟨_, member, rfl⟩

theorem taken_accounted (shares : first.Shares traffic.root) (rest : AtRest drift)
    (reached : (traffic.system oidc first drift).Reachable pool) :
    (∀ query, (pool.state.disk.tree.get query).map Node.kind =
      if pathBuf query ∈ pool.state.taken.map Prod.snd then none else (first.tree.get query).map Node.kind) ∧
    (∀ who other path, (who, path) ∈ pool.state.taken → (other, path) ∈ pool.state.taken → other = who) ∧
    (∀ who path, (who, path) ∈ pool.state.taken → ∃ parent name content, path = pathBuf (parent ++ [name]) ∧
      traffic.root <+: parent ∧ first.tree.get (parent ++ [name]) = some (.file content) ∧
      MayRemove (traffic.asked who).1 traffic.server traffic.access (traffic.asked who).2 name) ∧
    ∀ who arrived response, pool.tasks who = some ⟨arrived, .pure response⟩ →
      (response.status = 204 ↔ ∃ path, (who, path) ∈ pool.state.taken) ∧
        ∀ path other, (who, path) ∈ pool.state.taken → (who, other) ∈ pool.state.taken → other = path := by
  have holds := accounted shares rest reached
  refine ⟨holds.left, ?_, holds.permitted, ?_⟩
  · intro who other path mine theirs
    exact congrArg Prod.fst (List.inj_on_of_nodup_map holds.distinct theirs mine rfl)
  · intro who arrived response done
    have answered :=
      Workload.finished (sound shares rest.obeys) reached done
    refine ⟨⟨fun status => ?_, ?_⟩, ?_⟩
    · obtain ⟨path, on, _, own, _⟩ := answered.removed status
      exact ⟨path, mem_taken.mpr ⟨on, by simp [own]⟩⟩
    · rintro ⟨path, member⟩
      obtain ⟨on, inside⟩ := mem_taken.mp member
      by_contra other
      cases answered.kept other _ inside
    · intro path other mine again
      obtain ⟨on, inside⟩ := mem_taken.mp mine
      obtain ⟨off, also⟩ := mem_taken.mp again
      by_cases status : response.status = 204
      · obtain ⟨only, when, _, own, _⟩ := answered.removed status
        rw [own, List.mem_singleton] at inside also
        cases inside
        cases also
        rfl
      · cases answered.kept status _ inside

theorem taken_accounted_race :
    ∃ (pool : RacePool) (response : Response) (arrived : Sharing Bool),
      pool.tasks false = some ⟨arrived, .pure response⟩ ∧ response.status = 404 ∧
      (∃ other, pool.tasks true = some ⟨arrived, .pure other⟩ ∧ other.status = 204) ∧
      (pool.state.disk.tree.get [⟨asBytes "a", validName_a⟩]).map Node.kind = none ∧
      (response.status = 204 ↔ ∃ path, (false, path) ∈ pool.state.taken) := by
  obtain ⟨tasks, arrived, holds⟩ := race_arrived race_serves
  obtain ⟨tasks, reached, done, same⟩ := race_after arrived (holds true) 4
  rw [raceDelete_first] at reached done
  obtain ⟨others, finished, refused, kept⟩ :=
    race_after reached ((same false (by decide)).trans (holds false)) 4
  rw [raceDelete_second] at finished refused
  obtain ⟨left, _, _, answers⟩ :=
    taken_accounted (race_shares .delete filePath) (fun _ _ same => congrArg Disk.tree same) finished
  refine ⟨_, _, _, refused, rfl, ⟨_, (kept true (by decide)).trans done, rfl⟩, ?_,
    (answers false _ _ refused).1⟩
  exact (left _).trans (if_pos (List.mem_singleton.mpr rfl))

end Traffic

end Yafm
