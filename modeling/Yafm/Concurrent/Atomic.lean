import Yafm.Concurrent.Handlers
import Yafm.Shared.Shrinking

set_option autoImplicit false

-- Where files go away and nothing else changes, what a handler has seen step by step it would see again in
-- the instant in which it acts.

namespace Yafm

open Text Posix Effect Sharing

/-- Nothing changes but that files go away, and the times. -/
structure Disk.Recedes (after before : Disk) : Prop where
  tree : after.tree.Shrinks before.tree
  faults : after.faults = before.faults
  nameMax : after.nameMax = before.nameMax

def Conduct.Recedes (conduct : Conduct) : Prop :=
  ∀ before after, conduct.may before after → after.Recedes before

namespace Disk

variable {α : Type} {disk before after : Disk} {op : Op} {path : PathBuf}

theorem answered_missing {act : List Component → Except IoError α}
    (missing : disk.answered op path act = .error .notFound) :
    ∃ todo, components path = some todo ∧ act todo = .error .notFound := by
  unfold Disk.answered at missing
  split at missing
  next error refused =>
    cases missing
    exact absurd refused (disk.present op)
  · split at missing
    next todo parsed => exact ⟨todo, parsed, missing⟩
    · cases missing

theorem Recedes.refl (disk : Disk) : disk.Recedes disk := ⟨.refl disk.tree, rfl, rfl⟩

theorem Recedes.trans {later : Disk} (second : later.Recedes after) (first : after.Recedes before) :
    later.Recedes before :=
  ⟨second.tree.trans first.tree, second.faults.trans first.faults, second.nameMax.trans first.nameMax⟩

theorem recedes_without {path : Path} {content : Bytes} (nonempty : path ≠ [])
    (found : disk.tree.get path = some (.file content)) : (disk.without path).Recedes disk :=
  ⟨shrinks_remove nonempty found, rfl, rfl⟩

theorem canonicalize_missing (clear : after.Clear) (recedes : after.Recedes before)
    (missing : before.canonicalize path = .error .notFound) : after.canonicalize path = .error .notFound := by
  obtain ⟨todo, parsed, absent⟩ := answered_missing missing
  rw [canonicalize, clear.answered parsed, recedes.nameMax]
  exact (canonicalize_again recedes.tree todo).1 absent

theorem canonicalize_present (clear : after.Clear) (recedes : after.Recedes before) {canonical : Path}
    (reached : before.canonicalize path = .ok canonical) (present : (after.tree.get canonical).isSome) :
    after.canonicalize path = .ok canonical := by
  obtain ⟨todo, parsed, walked⟩ := answered_ok reached
  rw [canonicalize, clear.answered parsed, recedes.nameMax]
  exact (canonicalize_again recedes.tree todo).2 canonical walked present

theorem stat_here (clear : disk.Clear) {path : Path} {node : Node Bytes}
    (canonical : disk.tree.Canonical path) (found : disk.tree.get path = some node) :
    disk.stat (pathBuf path) = .ok (disk.metadata (path, node)) := by
  rw [stat, clear.answered (components_pathBuf path), Posix.stat, canonicalize_self canonical]
  dsimp only
  rw [found]
  rfl

theorem openFile_here (clear : disk.Clear) {path : Path} {node : Node Bytes}
    (canonical : disk.tree.Canonical path) (found : disk.tree.get path = some node) :
    disk.openFile (pathBuf path) = .ok ⟨content node, disk.metadata (path, node)⟩ := by
  rw [openFile, clear.answered (components_pathBuf path), Posix.stat, canonicalize_self canonical]
  dsimp only
  rw [found]
  rfl

theorem fileMetadata_here (clear : disk.Clear) (file : OpenFile) :
    disk.fileMetadata file = .ok file.metadata := by
  rw [fileMetadata, clear]

theorem lstat_here (clear : disk.Clear) {parent : Path} {name : Name} {node : Node Bytes}
    (canonical : disk.tree.Canonical parent) (found : disk.tree.get (parent ++ [name]) = some node) :
    disk.lstat (pathBuf (parent ++ [name])) = .ok (disk.metadata (parent ++ [name], node)) := by
  rw [lstat, clear.answered (components_pathBuf _), List.map_append, List.map_singleton, lstat_name, entry,
    canonicalize_self canonical]
  rw [Node.get_concat] at found
  dsimp only
  split at found
  next entries directory =>
    rw [found]
    rfl
  · cases found

theorem lstat_missing (clear : after.Clear) (recedes : after.Recedes before) {parent : Path} {name : Name}
    (missing : before.lstat (pathBuf parent ++ [name.bytes]) = .error .notFound) :
    after.lstat (pathBuf parent ++ [name.bytes]) = .error .notFound := by
  have spelled : pathBuf parent ++ [name.bytes] = pathBuf (parent ++ [name]) := by simp [pathBuf]
  rw [spelled] at missing ⊢
  obtain ⟨todo, parsed, absent⟩ := answered_missing missing
  rw [components_pathBuf, Option.some.injEq, List.map_append, List.map_singleton] at parsed
  subst parsed
  rw [lstat, clear.answered (components_pathBuf _), List.map_append, List.map_singleton, recedes.nameMax]
  rw [lstat_name] at absent ⊢
  cases held : entry before.nameMax before.tree (parent.map .name) name with
  | ok located =>
    rw [held] at absent
    cases absent
  | error error =>
    rw [held, Except.map, Except.error.injEq] at absent
    rw [absent] at held
    rw [entry_again recedes.tree held]
    rfl

end Disk

variable {conduct : Conduct} {config : AppConfig} {relative p : String} {since on : Disk}

theorem Seen.missing {path : PathBuf} (recedes : conduct.Recedes) (clear : on.Clear)
    (seen : Seen conduct Disk.canonicalize path (.error .notFound) since on) :
    on.canonicalize path = .error .notFound := by
  obtain ⟨before, _, after, missing⟩ := seen
  exact Disk.canonicalize_missing clear (recedes _ _ after) missing

theorem Resolved.again {root canonical : Path} (recedes : conduct.Recedes) (clear : on.Clear)
    (resolved : Resolved conduct root relative canonical since on)
    (present : (on.tree.get canonical).isSome) :
    ∃ opened, Opens on.canonicalize (pathBuf root) relative opened canonical := by
  obtain ⟨opened, ⟨before, _, after, reached⟩, form⟩ := resolved
  refine ⟨opened, Disk.canonicalize_present clear (recedes _ _ after) reached present, ?_⟩
  rcases form with literal | ⟨missing, decoded⟩
  · exact .inl literal
  · exact .inr ⟨missing.missing recedes clear, decoded⟩

theorem Checked.directory_here {root parent : Path} {target : PathBuf} (recedes : conduct.Recedes)
    (plain : since.tree.Unlinked []) (checked : Checked conduct root relative parent target since on) :
    ∃ entries, on.tree.get parent = some (.dir entries) := by
  have unlinked := checked.resolved.unlinked plain
  obtain ⟨metadata, ⟨before, _, after, stated⟩, directory⟩ := checked.directory
  obtain ⟨todo, parsed, mapped⟩ := Disk.answered_ok stated
  obtain ⟨located, found, rfl⟩ := map_ok mapped
  rw [Disk.components_pathBuf, Option.some.injEq] at parsed
  rw [← parsed] at found
  obtain ⟨reached, present⟩ := stat_ok found
  obtain ⟨entries, isDir⟩ : ∃ entries, located.2 = .dir entries := Disk.isDir_metadata directory
  rw [isDir] at present
  have shrinks := (recedes _ _ after).tree
  obtain ⟨others, there⟩ := shrinks.dir present
  have again := (canonicalize_again shrinks _).2 _ reached (by simp [there])
  rw [canonicalize_unlinked unlinked again] at there
  exact ⟨others, there⟩

theorem deleteFile_at_once {context : Option AccessContext} {path : PathBuf} {parent gone : Path}
    (recedes : conduct.Recedes) (clear : on.Clear) (plain : since.tree.Unlinked [])
    (requested : Requested p relative context)
    (checked : Checked conduct config.sharedRoot relative parent path since on)
    (found : FoundIn parent (parentAndName relative).2 path on) (taken : on.removeFile path = .ok gone) :
    on.run (deleteFile (some config) p context) = (.ok { status := 204 }, on.without gone) := by
  apply (deleteFile_ok_iff _ _ _ _ _ _).mpr
  refine ⟨rfl, relative, parent, path, gone, requested, ?_, taken, rfl⟩
  obtain ⟨entries, directory⟩ := checked.directory_here recedes plain
  have canonical : on.tree.Canonical parent := .of_isDir directory rfl
  obtain ⟨name, form, rfl, unlinked⟩ := found
  obtain ⟨content, present, _⟩ := removeFile_unlinked unlinked taken
  refine ⟨checked.resolved.again recedes clear (by simp [directory]), checked.within,
    ⟨_, Disk.stat_here clear canonical directory, rfl⟩, _, ⟨Disk.lstat_here clear canonical present, ?_⟩, rfl⟩
  obtain ⟨metadata, seen, _⟩ := checked.found
  rcases seen.form with literal | ⟨⟨before, _, after, missing⟩, decoded⟩
  · exact .inl literal
  · refine .inr ⟨?_, decoded⟩
    obtain ⟨_, _, segment⟩ := parentAndName_valid (.of_validate requested.valid) requested.named
    have joined : PathBuf.join (pathBuf parent) (parentAndName relative).2 =
        pathBuf parent ++
        [(⟨asBytes (parentAndName relative).2, validName_segment segment⟩ : Name).bytes] := by
      simp [PathBuf.join, split_singleton segment.clean.1]
    rw [joined] at missing ⊢
    exact Disk.lstat_missing clear (recedes _ _ after) missing

theorem downloadInner_at_once {platform : Platform} {headers : HeaderMap} {canonical : Path} {content : Bytes}
    (recedes : conduct.Recedes) (clear : on.Clear) (valid : validateRelativePath p = .ok relative)
    (named : relative ≠ "") (below : config.sharedRoot <+: canonical)
    (resolved : Resolved conduct config.sharedRoot relative canonical since on)
    (present : on.tree.get canonical = some (.file content)) :
    on.run (downloadInner platform (some config) headers p) =
      (.ok (downloadResponse platform headers canonical content
        (on.metadata (canonical, .file content))), on) := by
  have place : on.tree.Canonical canonical := ⟨_, present, rfl⟩
  have opens := resolved.again recedes clear (by simp [present])
  have reached :=
    (canonicalEntryTarget_ok_iff on config.sharedRoot relative "The requested file could not be found."
    canonical on).mpr ⟨rfl, opens⟩
  have contained := (ensureWithinRoot_ok_iff config.sharedRoot canonical ()).mpr below
  have opened : on.run (openDownloadTarget canonical) =
      (.ok (content, on.metadata (canonical, .file content)), on) := by
    have regular : (on.metadata (canonical, .file content)).isFile := rfl
    simp [openDownloadTarget, Disk.run_bind, Disk.stat_here clear place present,
      Disk.openFile_here clear place present, Disk.fileMetadata_here clear, Disk.content, regular]
  simp [downloadInner, downloadTarget, Disk.run_bind, getAppConfig, valid, named, reached, contained, opened]

end Yafm
