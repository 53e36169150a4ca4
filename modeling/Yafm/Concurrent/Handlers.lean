import Yafm.Concurrent.Sharing
import Yafm.Spelling.Delete

set_option autoImplicit false

-- What a handler has checked may change before it acts on it. No link appears on a way that had none, so
-- what it opens or removes is where it was found.

namespace Yafm

open Text Posix Effect Sharing

variable {ι : Type} [DecidableEq ι] {conduct : Conduct} {root : Path} {removable : Name → Prop}
  {who : ι} {state : Sharing ι}

def Untouched (who : ι) (_ : ApiError) (now : Sharing ι) : Prop := now.own who = []

theorem untouched_steady {error : ApiError} {before after : Sharing ι}
    (untouched : Untouched who error before) (others : Others conduct who before after) :
    Untouched who error after :=
  others.own.trans untouched

theorem sure_look_bind {β : Type} {good : β → Sharing ι → Prop} {bad : ApiError → Sharing ι → Prop}
    (op : Op) {rest : op.Answer → Storage ApiError β} (reads : op.Reads)
    (silent : ∀ on answer, op.done on answer = none)
    (pledged : ∀ now, Others conduct who state now → Pledges root removable op now)
    (onward : ∀ now, Others conduct who state now →
      (rest (Disk.answer op now.disk).1).Sure (discipline conduct root removable who) good bad now) :
    (Fallible.call op >>= rest : Storage ApiError β).Sure
      (discipline conduct root removable who) good bad state := by
  apply Fallible.sure_call_bind
  intro now others
  refine ⟨pledged now others, ?_⟩
  intro answer after replied
  have same := Responds.same replied reads (silent _ answer)
  subst same
  have answered : (Disk.answer op after.disk).1 = answer := congrArg Prod.fst replied.1
  subst answered
  exact onward after others

-- The question had this answer at some point of the run between the two disks.
def Seen {α : Type} (conduct : Conduct) (look : Disk → PathBuf → α) (path : PathBuf) (answer : α)
    (since now : Disk) : Prop :=
  ∃ on, conduct.may since on ∧ conduct.may on now ∧ look on path = answer

theorem Seen.later {α : Type} {look : Disk → PathBuf → α} {path : PathBuf} {answer : α}
    {before since now after : Disk} (seen : Seen conduct look path answer since now)
    (first : conduct.may before since) (last : conduct.may now after) :
    Seen conduct look path answer before after := by
  obtain ⟨on, earlier, onward, found⟩ := seen
  exact ⟨on, conduct.trans first earlier, conduct.trans onward last, found⟩

theorem sure_look {bad : ApiError → Sharing ι → Prop} (op : Op) (reads : op.Reads)
    (silent : ∀ on answer, op.done on answer = none)
    (pledged : ∀ now, Others conduct who state now → Pledges root removable op now) :
    (Fallible.call op : Storage ApiError op.Answer).Sure (discipline conduct root removable who)
      (fun answer later => Others conduct who state later ∧ ∃ on, conduct.may state.disk on ∧
        conduct.may on later.disk ∧ (Disk.answer op on).1 = answer)
      bad state := by
  apply Fallible.sure_call
  intro now others
  refine ⟨pledged now others, ?_⟩
  intro answer after replied later onward
  have same := Responds.same replied reads (silent _ answer)
  subst same
  exact ⟨(discipline conduct root removable who).trans others onward, after.disk,
    others.changed, onward.changed, congrArg Prod.fst replied.1⟩

-- The two forms that a text may be opened under.
def Form (relative : String) (parts : List Bytes) : Prop :=
  parts = (split '/' relative).map asBytes ∨ percentDecodeRelativePath relative = .ok parts

/-- What a resolution has seen of the two forms by the time it opens one: the decoded one after the literal
was missing. -/
structure OpensSeen {α : Type} (conduct : Conduct) (look : Disk → PathBuf → Except IoError α) (base : PathBuf)
    (relative : String) (opened : PathBuf) (result : α) (since now : Disk) : Prop where
  found : Seen conduct look opened (.ok result) since now
  form : opened = base.join relative ∨ Seen conduct look (base.join relative) (.error .notFound) since now ∧
    ∃ decoded, percentDecodeRelativePath relative = .ok decoded ∧ opened = base ++ decoded

theorem OpensSeen.later {α : Type} {look : Disk → PathBuf → Except IoError α} {base opened : PathBuf}
    {relative : String} {result : α} {before since now after : Disk}
    (seen : OpensSeen conduct look base relative opened result since now)
    (first : conduct.may before since) (last : conduct.may now after) :
    OpensSeen conduct look base relative opened result before after := by
  refine ⟨seen.found.later first last, ?_⟩
  rcases seen.form with literal | ⟨missing, decoded⟩
  · exact .inl literal
  · exact .inr ⟨missing.later first last, decoded⟩

theorem sure_literalThenDecoded {α : Type} {find : PathBuf → Storage ApiError (Except IoError α)}
    (look : Disk → PathBuf → Except IoError α) {base : PathBuf} {relative message : String}
    (ready : Ready who state)
    (finds : ∀ parts, Form relative parts → ∀ now, Others conduct who state now →
      (find (base ++ parts)).Sure (discipline conduct root removable who)
        (fun outcome later => Others conduct who now later ∧
          Seen conduct look (base ++ parts) outcome now.disk later.disk)
        (Untouched who) now) :
    (literalThenDecoded find base relative message).Sure (discipline conduct root removable who)
      (fun located later => Others conduct who state later ∧
        OpensSeen conduct look base relative located.1 located.2 state.disk later.disk)
      (Untouched who) state := by
  unfold literalThenDecoded
  have refl := (discipline conduct root removable who).refl
  have trans := @(discipline conduct root removable who).trans
  apply Fallible.Sure.bind (finds _ (.inl rfl) state (refl state)) (fun _ _ _ => untouched_steady)
  intro literal now there
  split
  next result =>
    apply Fallible.sure_pure
    exact fun later onward => ⟨trans there.1 onward, there.2.later (conduct.refl _) onward.changed, .inl rfl⟩
  · apply Fallible.sure_ofExcept_bind _ fun error later onward =>
      (ready.later (trans there.1 onward)).untouched
    intro decoded accepted
    apply Fallible.Sure.bind (finds decoded (.inr accepted) now there.1) (fun _ _ _ => untouched_steady)
    intro outcome middle here
    split
    next result =>
      apply Fallible.sure_pure
      intro later onward
      have missing := there.2.later (conduct.refl _) (trans here.1 onward).changed
      exact ⟨trans (trans there.1 here.1) onward, here.2.later there.1.changed onward.changed,
        .inr ⟨missing, decoded, accepted, rfl⟩⟩
    · apply Fallible.sure_throw
      exact fun later onward => (ready.later (trans (trans there.1 here.1) onward)).untouched
  · apply Fallible.sure_throw
    exact fun later onward => (ready.later (trans there.1 onward)).untouched

theorem canonicalize_plain {disk : Disk} {path : PathBuf} {canonical : Path} (plain : disk.tree.Unlinked [])
    (reached : disk.canonicalize path = .ok canonical) : disk.tree.Unlinked canonical := by
  obtain ⟨todo, _, walked⟩ := Disk.answered_ok reached
  exact (walk_canonical _ _ _ _ _ _ (plain.canonical (Node.get_nil _)) walked).unlinked

-- The directory or file that a path was resolved to, when it was, and on what grounds.
def Resolved (conduct : Conduct) (root : Path) (relative : String) (canonical : Path) (since now : Disk) :
    Prop :=
  ∃ opened, OpensSeen conduct Disk.canonicalize (pathBuf root) relative opened canonical since now

theorem Resolved.later {relative : String} {canonical : Path} {before since now after : Disk}
    (resolved : Resolved conduct root relative canonical since now) (first : conduct.may before since)
    (last : conduct.may now after) : Resolved conduct root relative canonical before after := by
  obtain ⟨opened, seen⟩ := resolved
  exact ⟨opened, seen.later first last⟩

theorem Resolved.unlinked {relative : String} {canonical : Path} {since now : Disk}
    (resolved : Resolved conduct root relative canonical since now) (plain : since.tree.Unlinked []) :
    now.tree.Unlinked canonical := by
  obtain ⟨opened, ⟨on, before, after, reached⟩, _⟩ := resolved
  exact (canonicalize_plain (plain.later (conduct.links before)) reached).later (conduct.links after)

theorem sure_canonicalEntryTarget {relative message : String} (ready : Ready who state) :
    (canonicalEntryTarget root relative message).Sure (discipline conduct root removable who)
      (fun canonical later => Others conduct who state later ∧
        Resolved conduct root relative canonical state.disk later.disk)
      (Untouched who) state := by
  unfold canonicalEntryTarget
  apply (sure_literalThenDecoded Disk.canonicalize ready _).bind fun _ _ _ => untouched_steady
  · intro found now there
    apply Fallible.sure_pure
    exact fun later onward => ⟨(discipline conduct root removable who).trans there.1 onward, found.1,
      there.2.later (conduct.refl _) onward.changed⟩
  · intro parts form now others
    exact sure_look (.canonicalize _) trivial (fun _ _ => rfl) fun _ _ => trivial

theorem sure_isDir {path : Path} (within : state.Within root path) :
    (isDir path).Sure (discipline conduct root removable who)
      (fun answer later => Others conduct who state later ∧ (answer = true → ∃ metadata,
        Seen conduct Disk.stat (pathBuf path) (.ok metadata) state.disk later.disk ∧ metadata.isDir))
      (Untouched who) state := by
  unfold isDir
  apply sure_look_bind (.metadata _) trivial (fun _ _ => rfl) fun now others =>
    ⟨path, rfl, within.later others.links⟩
  intro now there
  split
  next metadata found =>
    apply Fallible.sure_pure
    intro later onward
    exact ⟨(discipline conduct root removable who).trans there onward,
      fun directory => ⟨metadata, ⟨now.disk, there.changed, onward.changed, found⟩, directory⟩⟩
  · apply Fallible.sure_pure
    exact fun later onward => ⟨(discipline conduct root removable who).trans there onward, nofun⟩

theorem component_eq_parent {bytes : Bytes} (parsed : component bytes = some .parent) :
    bytes = asBytes ".." := by
  unfold component at parsed
  split at parsed
  · cases parsed
  split at parsed
  next parent => exact parent
  split at parsed <;> cases parsed

theorem lstat_file {disk : Disk} {parent : Path} {part : Bytes} {metadata : Metadata}
    (unlinked : disk.tree.Unlinked parent) (plain : PlainBytes part)
    (found : disk.lstat (pathBuf parent ++ [part]) = .ok metadata) (regular : metadata.isFile) :
    ∃ name : Name, part = name.bytes ∧ disk.tree.Unlinked (parent ++ [name]) := by
  obtain ⟨todo, parsed, mapped⟩ := Disk.answered_ok found
  obtain ⟨located, stated, rfl⟩ := map_ok mapped
  rw [components_append, Disk.components_pathBuf] at parsed
  cases step : component part with
  | none => simp [components, step] at parsed
  | some last =>
    have whole : parent.map Component.name ++ [last] = todo := by simpa [components, step] using parsed
    rw [← whole] at stated
    cases last with
    | parent => exact absurd (component_eq_parent step) plain.descending
    | current =>
      have directory := lstat_dot unlinked stated
      obtain ⟨content, file⟩ : ∃ content, located.2 = .file content := Disk.isFile_metadata regular
      rw [file] at directory
      cases directory
    | name name =>
      rw [lstat_name] at stated
      obtain ⟨place, present⟩ := entry_unlinked unlinked stated
      refine ⟨name, component_eq_name step, ?_⟩
      obtain ⟨content, file⟩ : ∃ content, located.2 = .file content := Disk.isFile_metadata regular
      exact Node.Canonical.unlinked ⟨located.2, present, by rw [file]; rfl⟩

theorem form_single {segment : String} {parts : List Bytes} (plain : PlainSegment segment)
    (form : Form segment parts) :
    ∃ part, parts = [part] ∧ PlainBytes part ∧ SegmentForm segment part := by
  have single := split_singleton plain.clean.1
  rcases form with rfl | decoded
  · exact ⟨asBytes segment, by simp [single], plainBytes_segment plain, .inl rfl⟩
  · have accepted := decoded
    rw [percentDecodeRelativePath, single] at accepted
    obtain ⟨rfl, each⟩ := decodeComponents_ok (by simpa using plain.named) accepted
    exact ⟨percentDecodeBytes segment, rfl, each _ (by simp), .inr decoded⟩

def FoundIn (parent : Path) (segment : String) (path : PathBuf) (now : Disk) : Prop :=
  ∃ name, SegmentForm segment name.bytes ∧ path = pathBuf (parent ++ [name]) ∧
  now.tree.Unlinked (parent ++ [name])

theorem FoundIn.later {parent : Path} {segment : String} {path : PathBuf} {before after : Disk}
    (found : FoundIn parent segment path before) (changed : conduct.may before after) :
    FoundIn parent segment path after := by
  obtain ⟨name, form, same, unlinked⟩ := found
  exact ⟨name, form, same, unlinked.later (conduct.links changed)⟩

theorem OpensSeen.foundIn {parent : Path} {segment : String} {path : PathBuf} {metadata : Metadata}
    {since now : Disk}
    (seen : OpensSeen conduct Disk.lstat (pathBuf parent) segment path metadata since now)
    (unlinked : since.tree.Unlinked parent) (plain : PlainSegment segment) (regular : metadata.isFile) :
    FoundIn parent segment path now := by
  obtain ⟨parts, rfl, form⟩ : ∃ parts, path = pathBuf parent ++ parts ∧ Form segment parts := by
    rcases seen.form with literal | ⟨_, decoded, accepted, same⟩
    · exact ⟨_, literal, .inl rfl⟩
    · exact ⟨decoded, same, .inr accepted⟩
  obtain ⟨part, rfl, solid, spelled⟩ := form_single plain form
  obtain ⟨on, before, after, found⟩ := seen.found
  obtain ⟨name, rfl, still⟩ := lstat_file (unlinked.later (conduct.links before)) solid found regular
  exact ⟨name, spelled, by simp [pathBuf], still.later (conduct.links after)⟩

theorem sure_entryMetadata {parent : Path} {segment message : String} (ready : Ready who state)
    (within : state.Within root parent) (plain : PlainSegment segment) :
    (entryMetadata parent segment message).Sure (discipline conduct root removable who)
      (fun located later => Others conduct who state later ∧
        OpensSeen conduct Disk.lstat (pathBuf parent) segment located.1 located.2 state.disk later.disk)
      (Untouched who) state := by
  unfold entryMetadata
  apply sure_literalThenDecoded Disk.lstat ready
  intro parts form now others
  obtain ⟨part, rfl, solid, _⟩ := form_single plain form
  exact sure_look (.symlinkMetadata _) trivial (fun _ _ => rfl) fun later onward =>
    ⟨parent, part, rfl, within.later
      ((discipline conduct root removable who).trans others onward).links, solid.descending⟩

/-- What the handler has checked by the time it removes a path, each part of it when it was asked for. -/
structure Checked (conduct : Conduct) (root : Path) (relative : String) (parent : Path) (target : PathBuf)
    (since now : Disk) : Prop where
  resolved : Resolved conduct root (parentAndName relative).1 parent since now
  within : root <+: parent
  directory : ∃ metadata, Seen conduct Disk.stat (pathBuf parent) (.ok metadata) since now ∧ metadata.isDir
  found : ∃ metadata, OpensSeen conduct Disk.lstat (pathBuf parent) (parentAndName relative).2
    target metadata since now ∧
    metadata.isFile

theorem Checked.later {relative : String} {parent : Path} {target : PathBuf} {since now after : Disk}
    (checked : Checked conduct root relative parent target since now) (last : conduct.may now after) :
    Checked conduct root relative parent target since after := by
  obtain ⟨metadata, seen, directory⟩ := checked.directory
  obtain ⟨other, opens, regular⟩ := checked.found
  exact ⟨checked.resolved.later (conduct.refl _) last, checked.within,
    ⟨metadata, seen.later (conduct.refl _) last, directory⟩,
    other, opens.later (conduct.refl _) last, regular⟩

theorem sure_deleteTarget {config : AppConfig} {p : String} {context : Option AccessContext}
    (ready : Ready who state) :
    (deleteTarget (some config) p context).Sure (discipline conduct config.sharedRoot removable who)
      (fun target later => Others conduct who state later ∧ ∃ relative parent, Requested p relative context ∧
        Checked conduct config.sharedRoot relative parent target state.disk later.disk ∧
        FoundIn parent (parentAndName relative).2 target later.disk)
      (Untouched who) state := by
  have trans := @(discipline conduct config.sharedRoot removable who).trans
  have quiet : ∀ (error : ApiError) later, Others conduct who state later → Untouched who error later :=
    fun _ later others => (ready.later others).untouched
  unfold deleteTarget
  apply Fallible.sure_ofExcept_bind _ quiet
  intro settings configured
  cases configured
  apply Fallible.sure_ofExcept_bind _ quiet
  intro relative accepted
  have valid := mapError_ok_iff.mp accepted
  split
  · exact Fallible.sure_throw (quiet _)
  next named =>
    split
    · exact Fallible.sure_throw (quiet _)
    next deletable =>
      obtain ⟨_, _, plain⟩ := parentAndName_valid (.of_validate valid) named
      have requested : Requested p relative context := by
        refine ⟨valid, named, ?_⟩
        intro held present
        cases present
        simpa using deletable
      apply (sure_canonicalEntryTarget ready).bind fun _ _ _ => untouched_steady
      intro parent now there
      have quiet : ∀ (error : ApiError) later, Others conduct who now later → Untouched who error later :=
        fun _ later others => (ready.later (trans there.1 others)).untouched
      apply Fallible.sure_ofExcept_bind _ quiet
      intro granted contained
      have below := (ensureWithinRoot_ok_iff _ _ _).mp contained
      have unlinked := there.2.unlinked ready.plain
      apply (sure_isDir ⟨below, unlinked⟩).bind fun _ _ _ => untouched_steady
      intro answer checked here
      split
      · exact Fallible.sure_throw fun later others => quiet _ later (trans here.1 others)
      next isDirectory =>
        apply (sure_entryMetadata (ready.later (trans there.1 here.1))
          ⟨below, unlinked.later here.1.links⟩ plain).bind fun _ _ _ => untouched_steady
        intro located found last
        have arrived := trans there.1 (trans here.1 last.1)
        dsimp only
        split
        · exact Fallible.sure_throw fun later others => (ready.later (trans arrived others)).untouched
        next regular =>
          apply Fallible.sure_pure
          intro later others
          have isFile : located.2.isFile := by simpa using regular
          have seen := last.2.later (conduct.refl _) others.changed
          obtain ⟨metadata, directory, isDir⟩ := here.2 (by simpa using isDirectory)
          exact ⟨trans arrived others, relative, parent, requested,
            ⟨there.2.later (conduct.refl _) (trans here.1 (trans last.1 others)).changed, below,
              ⟨metadata, directory.later there.1.changed (trans last.1 others).changed, isDir⟩,
              _, last.2.later (trans there.1 here.1).changed others.changed, isFile⟩,
            seen.foundIn (unlinked.later here.1.links) plain isFile⟩

-- The one removal that a request has made, and what it had checked for it.
def Took (conduct : Conduct) (root : Path) (p : String) (context : Option AccessContext) (who : ι)
    (since : Disk) (now : Sharing ι) : Prop :=
  ∃ path on gone relative parent, now.own who = [.removed path on] ∧ Requested p relative context ∧
    Checked conduct root relative parent path since on ∧ FoundIn parent (parentAndName relative).2 path on ∧
    on.removeFile path = .ok gone

theorem sure_deleteFile {config : AppConfig} {p : String} {context : Option AccessContext}
    (ready : Ready who state)
    (permits : ∀ relative name, Requested p relative context →
      SegmentForm (parentAndName relative).2 name.bytes →
      removable name) :
    (deleteFile (some config) p context).Sure (discipline conduct config.sharedRoot removable who)
      (fun response later => response = { status := 204 } ∧
        Took conduct config.sharedRoot p context who state.disk later)
      (Untouched who) state := by
  have trans := @(discipline conduct config.sharedRoot removable who).trans
  unfold deleteFile
  apply (sure_deleteTarget ready).bind fun _ _ _ => untouched_steady
  rintro target now ⟨others, relative, parent, requested, checked, found⟩
  apply Fallible.sure_call_bind
  intro current there
  have still := found.later there.changed
  obtain ⟨name, form, rfl, unlinked⟩ := still
  refine ⟨⟨parent, name, rfl, checked.within, unlinked, permits relative name requested form⟩, ?_⟩
  intro answer after replied
  have own := replied.own_self
  rw [(ready.later (trans others there)).untouched, List.nil_append] at own
  cases answer with
  | error refused =>
    apply Fallible.sure_throw
    intro later onward
    exact onward.own.trans own
  | ok =>
    have answered := congrArg Prod.fst replied.1
    simp only [Disk.answer, Disk.remove] at answered
    split at answered
    next gone taken =>
      apply Fallible.sure_pure
      intro later onward
      exact ⟨rfl, _, _, gone, relative, parent, onward.own.trans own, requested,
        checked.later there.changed, ⟨name, form, rfl, unlinked⟩, taken⟩
    · cases answered

-- What a download holds: a regular file below the root, as it was on the disk that it was opened on.
def Held (root : Path) (who : ι) (opened : Path × Bytes × Metadata) (on : Disk) (now : Sharing ι) : Prop :=
  now.own who = [.opened (pathBuf opened.1) on opened.2.1] ∧ root <+: opened.1 ∧
    on.tree.get opened.1 = some (.file opened.2.1) ∧ opened.2.2 = on.metadata (opened.1, .file opened.2.1)

theorem Held.later {opened : Path × Bytes × Metadata} {on : Disk} {before after : Sharing ι}
    (held : Held root who opened on before) (others : Others conduct who before after) :
    Held root who opened on after :=
  ⟨others.own.trans held.1, held.2⟩

def NoRemoval (who : ι) (_ : ApiError) (now : Sharing ι) : Prop :=
  ∀ done ∈ now.own who, done.isRemoval = false

theorem Untouched.noRemoval {error : ApiError} {now : Sharing ι} (untouched : Untouched who error now) :
    NoRemoval who error now := by
  intro done member
  rw [untouched] at member
  cases member

theorem noRemoval_steady {error : ApiError} {before after : Sharing ι} (kept : NoRemoval who error before)
    (others : Others conduct who before after) : NoRemoval who error after := by
  rw [NoRemoval, others.own]
  exact kept

theorem openFile_unlinked {disk : Disk} {path : Path} {file : OpenFile} (unlinked : disk.tree.Unlinked path)
    (found : disk.openFile (pathBuf path) = .ok file) (regular : file.metadata.isFile) :
    disk.tree.get path = some (.file file.content) ∧
    file.metadata = disk.metadata (path, .file file.content) := by
  obtain ⟨todo, parsed, mapped⟩ := Disk.answered_ok found
  obtain ⟨⟨place, node⟩, located, rfl⟩ := map_ok mapped
  rw [Disk.components_pathBuf, Option.some.injEq] at parsed
  rw [← parsed] at located
  obtain ⟨same, present⟩ := stat_unlinked unlinked located
  dsimp only at same present
  subst same
  obtain ⟨content, rfl⟩ : ∃ content, node = .file content := Disk.isFile_metadata regular
  exact ⟨present, rfl⟩

theorem sure_openDownloadTarget {canonical : Path} (ready : Ready who state)
    (within : state.Within root canonical) :
    (openDownloadTarget canonical).Sure (discipline conduct root removable who)
      (fun opened later => ∃ on, conduct.may state.disk on ∧ Held root who (canonical, opened) on later)
      (NoRemoval who) state := by
  have trans := @(discipline conduct root removable who).trans
  have quiet : ∀ (error : ApiError) later, Others conduct who state later → NoRemoval who error later :=
    fun error _ others => Untouched.noRemoval (ready.later others).untouched
  unfold openDownloadTarget
  apply sure_look_bind (.metadata _) trivial (fun _ _ => rfl) fun now others =>
    ⟨canonical, rfl, within.later others.links⟩
  intro now there
  split
  · exact Fallible.sure_throw fun later others => quiet _ later (trans there others)
  next expected =>
    apply Fallible.sure_call_bind
    intro current others
    have here := trans there others
    have inside := within.later here.links
    refine ⟨⟨canonical, rfl, inside⟩, ?_⟩
    intro answer after replied
    have own := replied.own_self
    rw [(ready.later here).untouched, List.nil_append] at own
    cases answer with
    | error refused =>
      apply Fallible.sure_throw
      exact fun later onward => Untouched.noRemoval (onward.own.trans own)
    | ok file =>
      have removes : ∀ (error : ApiError) later, Others conduct who after later →
          NoRemoval who error later := by
        intro error later onward done member
        rw [onward.own, own] at member
        cases List.mem_singleton.mp member
        rfl
      have found : current.disk.openFile (pathBuf canonical) = .ok file := congrArg Prod.fst replied.1
      apply sure_look_bind (.fileMetadata file) trivial (fun _ _ => rfl) fun _ _ => trivial
      intro middle further
      split
      · exact Fallible.sure_throw fun later onward => removes _ later (trans further onward)
      next metadata described =>
        obtain rfl := Disk.fileMetadata_ok described
        split
        · exact Fallible.sure_throw fun later onward => removes _ later (trans further onward)
        next regular =>
          obtain ⟨present, same⟩ := openFile_unlinked inside.2 found (by
            by_contra other
            simp [other] at regular)
          apply Fallible.sure_pure
          intro later onward
          exact ⟨current.disk, here.changed, (trans further onward).own.trans own, inside.1, present, same⟩

-- What a request has opened for its answer, and how it was led there.
def Served (conduct : Conduct) (root : Path) (p : String) (who : ι) (opened : Path × Bytes × Metadata)
    (since : Disk) (now : Sharing ι) : Prop :=
  ∃ on relative, Held root who opened on now ∧ validateRelativePath p = .ok relative ∧ relative ≠ "" ∧
    Resolved conduct root relative opened.1 since on

theorem Served.later {p : String} {opened : Path × Bytes × Metadata} {since : Disk} {before after : Sharing ι}
    (served : Served conduct root p who opened since before) (others : Others conduct who before after) :
    Served conduct root p who opened since after := by
  obtain ⟨on, relative, held, valid, named, resolved⟩ := served
  exact ⟨on, relative, held.later others, valid, named, resolved⟩

theorem sure_downloadTarget {config : AppConfig} {p : String} (ready : Ready who state) :
    (downloadTarget (some config) p).Sure (discipline conduct config.sharedRoot removable who)
      (fun opened later => Served conduct config.sharedRoot p who opened state.disk later)
        (NoRemoval who) state := by
  have trans := @(discipline conduct config.sharedRoot removable who).trans
  have quiet : ∀ (error : ApiError) later, Others conduct who state later → NoRemoval who error later :=
    fun error _ others => Untouched.noRemoval (ready.later others).untouched
  unfold downloadTarget
  apply Fallible.sure_ofExcept_bind _ quiet
  intro settings configured
  cases configured
  apply Fallible.sure_ofExcept_bind _ quiet
  intro relative valid
  split
  · exact Fallible.sure_throw (quiet _)
  next named =>
    apply Fallible.Sure.bind ((sure_canonicalEntryTarget ready).mono (fun _ _ same => same)
      fun _ _ => Untouched.noRemoval) fun _ _ _ => noRemoval_steady
    intro canonical now there
    apply Fallible.sure_ofExcept_bind _ fun error later others =>
      Untouched.noRemoval (ready.later (trans there.1 others)).untouched
    intro granted contained
    have within : now.Within config.sharedRoot canonical :=
      ⟨(ensureWithinRoot_ok_iff _ _ _).mp contained, there.2.unlinked ready.plain⟩
    apply (sure_openDownloadTarget (ready.later there.1) within).bind fun error before after kept others => by
      exact noRemoval_steady kept others
    rintro opened middle ⟨on, onward, held⟩
    apply Fallible.sure_pure
    exact fun later others => ⟨on, relative, held.later others, valid, named,
      there.2.later (conduct.refl _) onward⟩

theorem sure_downloadInner {platform : Platform} {config : AppConfig} {headers : HeaderMap} {p : String}
    (ready : Ready who state) :
    (downloadInner platform (some config) headers p).Sure (discipline conduct config.sharedRoot removable who)
      (fun response later => ∃ opened, Served conduct config.sharedRoot p who opened state.disk later ∧
        response = downloadResponse platform headers opened.1 opened.2.1 opened.2.2)
      (NoRemoval who) state := by
  unfold downloadInner
  apply (sure_downloadTarget ready).bind fun _ _ _ => noRemoval_steady
  intro opened now served
  apply Fallible.sure_pure
  exact fun later others => ⟨opened, served.later others, rfl⟩

section

variable {platform : Platform} {config : AppConfig} {context : Option AccessContext} {relative : String}
  {canonical : Path}

theorem sure_listEntry {item : Name} (ready : Ready who state) :
    (listEntry platform config context relative canonical item).Sure
      (discipline conduct config.sharedRoot removable who)
      (fun _ later => Others conduct who state later) (Untouched who) state := by
  have trans := @(discipline conduct config.sharedRoot removable who).trans
  unfold listEntry
  dsimp only
  split
  · exact Fallible.sure_pure fun later others => others
  split
  · exact Fallible.sure_pure fun later others => others
  apply sure_look_bind (.canonicalize _) trivial (fun _ _ => rfl) fun _ _ => trivial
  intro now there
  split
  · exact Fallible.sure_pure fun later others => trans there others
  next resolved reached =>
    split
    · exact Fallible.sure_pure fun later others => trans there others
    next within =>
      have inside : now.Within config.sharedRoot resolved :=
        ⟨(ensureWithinRoot_ok_iff _ _ _).mp within, canonicalize_plain (ready.later there).plain reached⟩
      apply sure_look_bind (.metadata _) trivial (fun _ _ => rfl) fun middle others =>
        ⟨resolved, rfl, inside.later others.links⟩
      intro middle here
      split
      all_goals exact Fallible.sure_pure fun later others => trans there (trans here others)

theorem sure_listEntries {items : List Name} (ready : Ready who state) :
    (listEntries platform config context relative canonical items).Sure
      (discipline conduct config.sharedRoot removable who)
      (fun _ later => Others conduct who state later) (Untouched who) state := by
  have trans := @(discipline conduct config.sharedRoot removable who).trans
  induction items generalizing state with
  | nil => exact Fallible.sure_pure fun later others => others
  | cons item rest ih =>
    apply (sure_listEntry ready).bind fun _ _ _ => untouched_steady
    intro shown now there
    apply (ih (ready.later there)).bind fun _ _ _ => untouched_steady
    intro others middle here
    exact Fallible.sure_pure fun later onward => trans there (trans here onward)

theorem sure_directory {p : String} (ready : Ready who state) :
    (directory platform (some config) p context).Sure (discipline conduct config.sharedRoot removable who)
      (fun response later => response.status = 200 ∧ later.own who = []) (Untouched who) state := by
  have trans := @(discipline conduct config.sharedRoot removable who).trans
  have quiet : ∀ (error : ApiError) later, Others conduct who state later → Untouched who error later :=
    fun _ later others => (ready.later others).untouched
  unfold directory
  apply Fallible.sure_ofExcept_bind _ quiet
  intro settings configured
  cases configured
  apply Fallible.sure_ofExcept_bind _ quiet
  intro relative _
  apply (sure_canonicalEntryTarget ready).bind fun _ _ _ => untouched_steady
  intro canonical now there
  have quiet : ∀ (error : ApiError) later, Others conduct who now later → Untouched who error later :=
    fun _ later others => (ready.later (trans there.1 others)).untouched
  apply Fallible.sure_ofExcept_bind _ quiet
  intro granted contained
  have within : now.Within config.sharedRoot canonical :=
    ⟨(ensureWithinRoot_ok_iff _ _ _).mp contained, there.2.unlinked ready.plain⟩
  apply (sure_isDir within).bind fun _ _ _ => untouched_steady
  intro answer checked here
  split
  · exact Fallible.sure_throw fun later others => quiet _ later (trans here.1 others)
  apply sure_look_bind (.readDir _) trivial (fun _ _ => rfl) fun later others =>
    ⟨canonical, rfl, within.later (trans here.1 others).links⟩
  intro opened before
  split
  · exact Fallible.sure_throw fun later others => quiet _ later (trans here.1 (trans before others))
  apply sure_look_bind (.nextEntries _) trivial (fun _ _ => rfl) fun later others =>
    ⟨canonical, rfl, within.later (trans here.1 (trans before others)).links⟩
  intro read after
  have arrived := trans there.1 (trans here.1 (trans before after))
  split
  · exact Fallible.sure_throw fun later others => (ready.later (trans arrived others)).untouched
  apply (sure_listEntries (ready.later arrived)).bind fun _ _ _ => untouched_steady
  intro entries last listed
  exact Fallible.sure_pure fun later others =>
    ⟨rfl, (ready.later (trans arrived (trans listed others))).untouched⟩

end

end Yafm
