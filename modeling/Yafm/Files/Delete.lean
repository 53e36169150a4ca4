import Yafm.Files.Directory

set_option autoImplicit false

namespace Yafm

open Text Posix Effect

-- The validator's answer to a `..` probe becomes the file endpoint's own not-found message.
def deleteRefusal (error : ApiError) : ApiError :=
  match error.kind with
  | .notFound => .notFound "The requested file could not be found."
  | _ => error

def parentAndName (relative : String) : String × String := (rsplitOnce '/' relative).getD ("", relative)

-- Everything `deleteFile` does before the removal itself.
def deleteTarget (config : Option AppConfig) (p : String) (context : Option AccessContext) :
    Storage ApiError PathBuf := do
  let config ← Fallible.ofExcept (getAppConfig config)
  let relative ← Fallible.ofExcept ((validateRelativePath p).mapError deleteRefusal)
  if relative = "" then throw (.badRequest "The requested path is invalid.")
  else if context.any fun context => !canDelete context.access context.groups relative then
    throw (.forbidden "The requested file cannot be deleted with this account.")
  else
    let (parent, name) := parentAndName relative
    let parentCanonical ← canonicalEntryTarget config.sharedRoot parent
      "The requested file could not be found."
    Fallible.ofExcept (ensureWithinRoot config.sharedRoot parentCanonical)
    if !(← isDir parentCanonical) then throw (.notFound "The requested file could not be found.")
    else
      let (target, metadata) ← entryMetadata parentCanonical name "The requested file could not be found."
      if !metadata.isFile then
        throw (.badRequest "Only regular files can be deleted; directories and symlinks are refused.")
      else return target

def deleteFile (config : Option AppConfig) (p : String) (context : Option AccessContext) :
    Storage ApiError Response := do
  let target ← deleteTarget config p context
  match ← Fs.removeFile target with
  | .error error => throw (removalError error)
  | .ok _ => return { status := 204 }

def Disk.hasDir (disk : Disk) (path : Path) : Prop :=
  ∃ metadata, disk.stat (pathBuf path) = .ok metadata ∧ metadata.isDir

theorem Disk.isDir_ok_iff (disk after : Disk) (path : Path) (answer : Bool) :
    disk.run (Yafm.isDir path) = (.ok answer, after) ↔ after = disk ∧ (answer = true ↔ disk.hasDir path) := by
  unfold Yafm.isDir Disk.hasDir
  rw [Disk.run_bind, run_metadata]
  cases stated : disk.stat (pathBuf path) with
  | ok metadata =>
    simp only [Disk.run_pure, Prod.mk.injEq, Except.ok.injEq, exists_eq_left']
    rw [Bool.eq_iff_iff]
    constructor <;> rintro ⟨left, right⟩ <;> exact ⟨right.symm, left.symm⟩
  | error error =>
    simp only [Disk.run_pure, Prod.mk.injEq, Except.ok.injEq, reduceCtorEq, false_and,
      exists_false, iff_false]
    constructor
    · rintro ⟨rfl, rfl⟩
      simp
    · rintro ⟨rfl, no⟩
      simpa using no

/-- The directory the handler resolved the parent to, and the file it found in it. -/
structure Removable (disk : Disk) (root : Path) (relative : String) (parent : Path) (target : PathBuf) :
    Prop where
  resolved : ∃ opened, Opens disk.canonicalize (pathBuf root) (parentAndName relative).1 opened parent
  within : root <+: parent
  directory : disk.hasDir parent
  found : ∃ metadata, Opens disk.lstat (pathBuf parent) (parentAndName relative).2 target metadata ∧
    metadata.isFile

structure Requested (p relative : String) (context : Option AccessContext) : Prop where
  valid : validateRelativePath p = .ok relative
  named : relative ≠ ""
  deletable : ∀ held ∈ context, canDelete held.access held.groups relative

theorem deleteTarget_ok_iff (disk after : Disk) (config : AppConfig) (p : String)
    (context : Option AccessContext) (target : PathBuf) :
    disk.run (deleteTarget (some config) p context) = (.ok target, after) ↔
      after = disk ∧ ∃ relative parent, Requested p relative context ∧
        Removable disk config.sharedRoot relative parent target := by
  constructor
  · intro ran
    unfold deleteTarget at ran
    obtain ⟨_, _, asked, configured⟩ := Disk.run_bind_ok ran
    obtain ⟨got, rfl⟩ := Disk.run_ofExcept_ok asked
    cases got
    obtain ⟨relative, _, asked, validated⟩ := Disk.run_bind_ok configured
    obtain ⟨valid, rfl⟩ := Disk.run_ofExcept_ok asked
    split at validated
    · cases validated
    next named =>
      split at validated
      · cases validated
      next deletable =>
        obtain ⟨parent, _, reached, resolved⟩ := Disk.run_bind_ok validated
        obtain ⟨rfl, opens⟩ := (canonicalEntryTarget_ok_iff _ _ _ _ _ _).mp reached
        obtain ⟨_, _, asked, contained⟩ := Disk.run_bind_ok resolved
        obtain ⟨granted, rfl⟩ := Disk.run_ofExcept_ok asked
        obtain ⟨answer, _, asked, classified⟩ := Disk.run_bind_ok contained
        obtain ⟨rfl, answered⟩ := (Disk.isDir_ok_iff _ _ _ _).mp asked
        split at classified
        · cases classified
        next directory =>
          obtain ⟨⟨entry, metadata⟩, _, asked, located⟩ := Disk.run_bind_ok classified
          obtain ⟨rfl, found⟩ := (entryMetadata_ok_iff _ _ _ _ _ _ _).mp asked
          dsimp only at located
          split at located
          · cases located
          next regular =>
            cases located
            refine ⟨rfl, relative, parent, ⟨?_, named, ?_⟩, opens, (ensureWithinRoot_ok_iff _ _ _).mp granted,
              answered.mp (by simpa using directory), metadata, found, by simpa using regular⟩
            · cases accepted : validateRelativePath p with
              | ok other => simpa [accepted, Except.mapError] using valid
              | error error => simp [accepted, Except.mapError] at valid
            · intro held present
              cases present
              simpa using deletable
  · rintro ⟨rfl, relative, parent, ⟨valid, named, deletable⟩,
      ⟨opens, within, directory, metadata, found, regular⟩⟩
    have permitted : context.any (fun held => !canDelete held.access held.groups relative) = false := by
      cases context with
      | none => rfl
      | some held => simpa using deletable held rfl
    have reached := (canonicalEntryTarget_ok_iff after config.sharedRoot (parentAndName relative).1
      "The requested file could not be found." parent after).mpr ⟨rfl, opens⟩
    have contained := (ensureWithinRoot_ok_iff config.sharedRoot parent ()).mpr within
    have asked := (Disk.isDir_ok_iff after after parent true).mpr ⟨rfl, by simp [directory]⟩
    have located := (entryMetadata_ok_iff after parent (parentAndName relative).2
      "The requested file could not be found." target metadata after).mpr ⟨rfl, found⟩
    simp [deleteTarget, Disk.run_bind, getAppConfig, valid, Except.mapError, named, permitted,
      reached, contained, asked, located, regular]

theorem deleteTarget_reads (config : Option AppConfig) (p : String) (context : Option AccessContext) :
    (deleteTarget config p context).Only Op.Reads := by
  apply Fallible.only_bind (by simp)
  intro config
  apply Fallible.only_bind (by simp)
  intro relative
  split
  · simp
  split
  · simp
  apply Fallible.only_bind (canonicalEntryTarget_reads _ _ _)
  intro parent
  apply Fallible.only_bind (by simp)
  intro _
  apply Fallible.only_bind
  · apply Fallible.only_bind (Fallible.only_call trivial)
    intro found
    split <;> simp
  intro directory
  split
  · simp
  apply Fallible.only_bind (entryMetadata_reads _ _ _)
  intro found
  dsimp only
  split <;> simp

theorem deleteFile_ok_iff (disk after : Disk) (config : AppConfig) (p : String)
    (context : Option AccessContext) (response : Response) :
    disk.run (deleteFile (some config) p context) = (.ok response, after) ↔
      response = { status := 204 } ∧ ∃ relative parent target gone, Requested p relative context ∧
        Removable disk config.sharedRoot relative parent target ∧ disk.removeFile target = .ok gone ∧
        after = disk.without gone := by
  constructor
  · intro ran
    unfold deleteFile at ran
    obtain ⟨target, _, asked, removed⟩ := Disk.run_bind_ok ran
    obtain ⟨rfl, relative, parent, requested, removable⟩ := (deleteTarget_ok_iff _ _ _ _ _ _).mp asked
    obtain ⟨outcome, middle, asked, ended⟩ := Disk.run_bind_ok removed
    rw [run_removeFile, Disk.remove] at asked
    split at asked
    next gone taken =>
      cases asked
      cases ended
      exact ⟨rfl, relative, parent, target, gone, requested, removable, taken, rfl⟩
    next =>
      cases asked
      cases ended
  · rintro ⟨rfl, relative, parent, target, gone, requested, removable, taken, rfl⟩
    have asked := (deleteTarget_ok_iff disk disk config p context target).mpr
      ⟨rfl, relative, parent, requested, removable⟩
    simp [deleteFile, Disk.run_bind, asked, Disk.remove, taken]

theorem deleteFile_error {disk after : Disk} {config : Option AppConfig} {p : String}
    {context : Option AccessContext} {error : ApiError}
    (ran : disk.run (deleteFile config p context) = (.error error, after)) : after = disk := by
  have same := Disk.run_reads (deleteTarget_reads config p context) disk
  rw [deleteFile, Disk.run_bind] at ran
  split at ran
  next target middle asked =>
    rw [asked] at same
    dsimp only at same
    subst same
    rw [Disk.run_bind, run_removeFile, Disk.remove] at ran
    cases taken : Disk.removeFile _ target with
    | ok gone =>
      rw [taken] at ran
      cases ran
    | error refused =>
      rw [taken] at ran
      cases ran
      rfl
  next refused middle asked =>
    rw [asked] at same
    cases ran
    exact same

-- A single segment: its literal bytes, or what its escapes decode to.
def SegmentForm (segment : String) (bytes : Bytes) : Prop :=
  bytes = asBytes segment ∨ percentDecodeRelativePath segment = .ok [bytes]

theorem decodeComponents_length {parts : List String} {decoded : List Bytes}
    (accepted : decodeComponents parts = .ok decoded) : decoded.length ≤ parts.length := by
  induction parts generalizing decoded with
  | nil =>
    cases accepted
    simp
  | cons part rest ih =>
    simp only [decodeComponents] at accepted
    split at accepted
    · cases accepted
    split at accepted
    · cases accepted
    obtain ⟨others, onward, same⟩ := map_ok accepted
    have shorter := ih onward
    subst same
    split <;> simp <;> omega

theorem opens_segment {α : Type} {look : PathBuf → Except IoError α} {base opened : PathBuf}
    {segment : String} {result : α} (single : '/' ∉ segment.toList)
    (opens : Opens look base segment opened result) :
    opened = base ∨ ∃ bytes, opened = base ++ [bytes] ∧ SegmentForm segment bytes := by
  obtain ⟨_, rfl | ⟨_, decoded, accepted, rfl⟩⟩ := opens
  · exact Or.inr ⟨asBytes segment, by simp [PathBuf.join, split_singleton single], Or.inl rfl⟩
  · have short := decodeComponents_length accepted
    rw [split_singleton single, List.length_singleton] at short
    match decoded, short with
    | [], _ => exact Or.inl (by simp)
    | [bytes], _ => exact Or.inr ⟨bytes, rfl, Or.inr accepted⟩

theorem parentAndName_single (relative : String) : '/' ∉ (parentAndName relative).2.toList := by
  have parts : relative = join '/' (split '/' relative) := (join_split '/' relative).symm
  unfold parentAndName rsplitOnce
  dsimp only
  split
  next short =>
    obtain ⟨only, single⟩ : ∃ only, split '/' relative = [only] := by
      rw [← List.length_eq_one_iff]
      have := List.length_pos_iff.mpr (split_ne_nil '/' relative)
      omega
    rw [single, join_singleton] at parts
    subst parts
    have only : relative ∈ split '/' relative := by simp [single]
    exact mem_split only
  next =>
    rw [Option.getD_some, List.getLastD_eq_getLast?,
      List.getLast?_eq_some_getLast (split_ne_nil '/' relative)]
    exact mem_split (List.getLast_mem _)

theorem Disk.hasDir.get {disk : Disk} {path : Path} (canonical : disk.tree.Canonical path)
    (directory : disk.hasDir path) : ∃ entries, disk.tree.get path = some (.dir entries) := by
  obtain ⟨metadata, stated, directory⟩ := directory
  obtain ⟨node, found, rfl⟩ := Disk.stat_canonical canonical stated
  obtain ⟨entries, rfl⟩ := Disk.isDir_metadata directory
  exact ⟨entries, found⟩

theorem Removable.removed {disk : Disk} {root parent : Path} {relative : String} {target : PathBuf}
    {gone : Path} (canonical : disk.tree.Canonical parent)
    (removable : Removable disk root relative parent target) (taken : disk.removeFile target = .ok gone) :
    ∃ name content, SegmentForm (parentAndName relative).2 name.bytes ∧
      disk.tree.get (parent ++ [name]) = some (.file content) ∧ gone = parent ++ [name] := by
  obtain ⟨metadata, opens, regular⟩ := removable.found
  obtain ⟨todo, parsed, unlinked⟩ := Disk.answered_ok taken
  obtain ⟨node, front, name, rfl, held, notDir⟩ := unlink_ok unlinked
  rcases opens_segment (parentAndName_single relative) opens with rfl | ⟨bytes, rfl, form⟩
  · -- a name that decodes to nothing leaves the directory itself, which cannot be unlinked
    rw [Disk.components_pathBuf, Option.some.injEq] at parsed
    obtain ⟨above, last, rfl, rfl, ends⟩ := List.map_eq_append_iff.mp parsed
    obtain ⟨name, rfl, same⟩ := List.map_eq_singleton_iff.mp ends
    cases same
    have present : disk.tree.get (above ++ [name]) = some node :=
      (entry_canonical (canonical.above (List.prefix_append above [_])) held).2
    obtain ⟨entries, directory⟩ := removable.directory.get canonical
    rw [present, Option.some.injEq] at directory
    rw [directory] at notDir
    cases notDir
  · rw [components_append, Disk.components_pathBuf] at parsed
    cases step : component bytes with
    | none => simp [components, step] at parsed
    | some last =>
      have split : parent.map Component.name = front ∧ last = .name name := by
        simpa [components, step] using parsed
      obtain ⟨rfl, rfl⟩ := split
      obtain ⟨place, present⟩ := entry_canonical canonical held
      obtain ⟨again, reparsed, mapped⟩ := Disk.answered_ok opens.1
      rw [components_append, Disk.components_pathBuf] at reparsed
      have again : parent.map Component.name ++ [.name name] = again := by
        simpa [components, step] using reparsed
      obtain ⟨stated, same, rfl⟩ := map_ok mapped
      rw [← again, lstat_name, held, Except.ok.injEq] at same
      subst same
      obtain ⟨content, rfl⟩ : ∃ content, node = .file content := Disk.isFile_metadata regular
      refine ⟨name, content, ?_, present, place⟩
      rw [component_eq_name step] at form
      exact form

end Yafm
