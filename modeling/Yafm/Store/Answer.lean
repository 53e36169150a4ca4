import Yafm.Files.Order
import Yafm.Shared.Shrinking
import Yafm.Spelling.Delete
import Yafm.Store.Service

set_option autoImplicit false

namespace Yafm

open Text Posix Effect

def lookTwice {α : Type} (look : PathBuf → Except IoError α) (base : PathBuf) (relative message : String) :
    Except ApiError (PathBuf × α) :=
  match look (base.join relative) with
  | .ok found => .ok (base.join relative, found)
  | .error .notFound => do
    let decoded ← percentDecodeRelativePath relative
    match look (base ++ decoded) with
    | .ok found => .ok (base ++ decoded, found)
    | .error error => .error (notFoundOrUnavailable error message)
  | .error error => .error (notFoundOrUnavailable error message)

theorem run_literalThenDecoded {α : Type} {find : PathBuf → Storage ApiError (Except IoError α)}
    {look : PathBuf → Except IoError α} {disk : Disk}
    (reads : ∀ path, disk.run (find path) = (.ok (look path), disk)) (base : PathBuf)
    (relative message : String) :
    disk.run (literalThenDecoded find base relative message) =
      (lookTwice look base relative message, disk) := by
  unfold literalThenDecoded lookTwice
  rw [Disk.run_bind, reads]
  cases look (base.join relative) with
  | ok found => rfl
  | error error =>
    cases error with
    | notFound =>
      dsimp only
      rw [Disk.run_bind, Disk.run_ofExcept]
      cases percentDecodeRelativePath relative with
      | error error => rfl
      | ok decoded =>
        dsimp only
        rw [Disk.run_bind, reads]
        dsimp only [bind, Except.bind]
        cases look (base ++ decoded) <;> rfl
    | _ => rfl

theorem notFoundOrUnavailable_missError (miss : Catalog.Miss) (message : String) :
    notFoundOrUnavailable (missError miss) message = refusalError message miss.refusal := by
  cases miss <;> rfl

def Outcome.leaves {share : Share} : Outcome share.catalog → Share
  | .erases path file => share.without path file
  | _ => share

namespace Share

variable {share : Share} (clear : share.disk.Clear)
include clear

theorem run_canonicalEntryTarget {relative : String} (valid : ValidPath relative) (message : String) :
    share.disk.run (canonicalEntryTarget share.root relative message) =
      (((share.catalog.locate [] (address relative)).mapError (refusalError message)).map (share.root ++ ·),
        share.disk) := by
  have top : (share.entry []).isSome := by rw [show share.entry [] = _ from share.catalog.top]; rfl
  have resolves (parts : List Bytes) (spells : ∀ part ∈ parts, Spells part) :
      share.disk.canonicalize (pathBuf share.root ++ parts) =
        ((share.catalog.descend [] (steps parts)).mapError missError).map (share.root ++ ·) := by
    have found := canonicalize_descend clear top spells
    rwa [List.append_nil] at found
  unfold canonicalEntryTarget
  rw [Disk.run_bind, run_literalThenDecoded (run_canonicalize share.disk)]
  unfold lookTwice Catalog.locate address PathBuf.join
  rw [resolves _ (spells_literal valid)]
  dsimp only
  cases share.catalog.descend [] (steps ((split '/' relative).map asBytes)) with
  | ok path => rfl
  | error miss =>
    cases miss with
    | inadmissible | blocked => rfl
    | missing =>
      cases decoded : percentDecodeRelativePath relative with
      | error error => rfl
      | ok parts =>
        have spells : ∀ part ∈ parts, Spells part :=
          spells_decoded valid.named (by rw [← ValidPath.percentDecode_eq]; exact decoded)
        dsimp only [Except.mapError, Except.map, missError, bind, Except.bind]
        rw [resolves parts spells]
        cases share.catalog.descend [] (steps parts) with
        | ok path => rfl
        | error miss => cases miss <;> rfl

theorem run_entryMetadata {here : Path} (directory : share.entry here = some .directory) {name : String}
    (plain : PlainSegment name) (message : String) :
    (∀ refusal, share.catalog.locate here (address name) = .error refusal →
      share.disk.run (entryMetadata (share.root ++ here) name message) =
        (.error (refusalError message refusal), share.disk)) ∧
    ∀ path, share.catalog.locate here (address name) = .ok path →
      ∃ part node, share.catalog.advance here (stepOf part) = .ok path ∧
        share.disk.tree.get (share.root ++ path) = some node ∧
        share.disk.run (entryMetadata (share.root ++ here) name message) =
          (.ok (pathBuf (share.root ++ here) ++ [part], share.disk.metadata (share.root ++ path, node)),
            share.disk) := by
  have single : split '/' name = [name] := split_singleton plain.clean.1
  have literal := lstat_advance clear (by rw [directory]; rfl : (share.entry here).isSome)
    (spells_segment plain)
  unfold entryMetadata
  rw [run_literalThenDecoded (run_symlinkMetadata share.disk)]
  unfold lookTwice Catalog.locate address PathBuf.join
  rw [single]
  simp only [List.map_cons, List.map_nil, steps, Catalog.descend_single]
  cases advanced : share.catalog.advance here (stepOf (asBytes name)) with
  | ok path =>
    obtain ⟨node, found, described⟩ := literal.2 path advanced
    constructor
    · intro refusal refused
      cases refused
    · intro other same
      cases same
      exact ⟨asBytes name, node, advanced, found, by rw [described]⟩
  | error miss =>
    have missed := literal.1 miss advanced
    rw [missed]
    cases miss with
    | inadmissible | blocked =>
      exact ⟨fun refusal refused => by cases refused; rfl, fun path reached => by cases reached⟩
    | missing =>
      cases decoded : percentDecodeRelativePath name with
      | error error =>
        exact ⟨fun refusal refused => by cases refused; rfl, fun path reached => by cases reached⟩
      | ok parts =>
        -- one segment decodes to one part
        obtain ⟨rfl, plainParts⟩ := decodeComponents_ok (by simpa using plain.named)
          (show decodeComponents [name] = .ok parts by rw [← single]; exact decoded)
        have spells : Spells (percentDecodeBytes name) := (plainParts _ (by simp)).spells
        have second := lstat_advance clear (by rw [directory]; rfl : (share.entry here).isSome) spells
        simp only [missError, Except.map, steps, List.map_cons, List.map_nil,
          Catalog.descend_single, bind, Except.bind]
        cases again : share.catalog.advance here (stepOf (percentDecodeBytes name)) with
        | ok path =>
          obtain ⟨node, found, described⟩ := second.2 path again
          constructor
          · intro refusal refused
            cases refused
          · intro other same
            cases same
            exact ⟨percentDecodeBytes name, node, again, found, by rw [described]⟩
        | error miss =>
          rw [second.1 miss again]
          constructor
          · intro refusal refused
            cases refused
            dsimp only
            rw [notFoundOrUnavailable_missError]
          · intro path reached
            cases reached

omit clear

def rendering (share : Share) (platform : Platform) (showHidden : Bool) : Rendering :=
  ⟨platform, share.root, showHidden, share.disk.modified, share.disk.clock⟩

theorem ensureWithinRoot_below (share : Share) (path : Path) :
    ensureWithinRoot share.root (share.root ++ path) = .ok () :=
  (ensureWithinRoot_ok_iff _ _ _).mpr (List.prefix_append _ _)

section

variable {platform : Platform} {showHidden : Bool} {context : AccessContext} {headers : HeaderMap}
  {p relative : String}

include clear

theorem open_file {path : Path} {content : Bytes} (file : share.entry path = some (.file content)) :
    share.disk.run (openDownloadTarget (share.root ++ path)) =
      (.ok (content, (share.rendering platform showHidden).fileMetadata path content), share.disk) := by
  have present : (share.entry path).isSome := by rw [file]; rfl
  obtain ⟨node, found, described⟩ := stat_entry clear present
  obtain ⟨_, again, opened⟩ := openFile_entry clear present
  rw [share.entry_file file, Option.some.injEq] at found again
  subst found
  subst again
  unfold openDownloadTarget
  rw [Disk.run_bind, run_metadata, described]
  dsimp only
  rw [Disk.run_bind, run_openFile, opened]
  dsimp only
  rw [Disk.run_bind, run_fileMetadata, fileMetadata_clear clear]
  simp [Disk.metadata, Disk.fileType, Metadata.isFile, Disk.content, Disk.length,
    rendering, Rendering.fileMetadata]

theorem open_directory {path : Path} (directory : share.entry path = some .directory) :
    share.disk.run (openDownloadTarget (share.root ++ path)) =
      (.error (.notFound missingFile), share.disk) := by
  have present : (share.entry path).isSome := by rw [directory]; rfl
  obtain ⟨entries, there⟩ := share.entry_dir directory
  obtain ⟨node, found, described⟩ := stat_entry clear present
  obtain ⟨_, again, opened⟩ := openFile_entry clear present
  rw [there, Option.some.injEq] at found again
  subst found
  subst again
  unfold openDownloadTarget
  rw [Disk.run_bind, run_metadata, described]
  dsimp only
  rw [Disk.run_bind, run_openFile, opened]
  dsimp only
  rw [Disk.run_bind, run_fileMetadata, fileMetadata_clear clear]
  rfl

theorem download_answers (valid : validateRelativePath p = .ok relative) :
    let ran := share.disk.run (downloadInner platform (some ⟨share.root, showHidden⟩) headers p)
    ran.2 = share.disk ∧ (share.rendering platform showHidden).Says share.catalog context headers relative
      (settled ran.1) (fetchOutcome share.catalog relative) := by
  intro ran
  have top : (share.entry []).isSome := by rw [show share.entry [] = _ from share.catalog.top]; rfl
  have reads := run_canonicalEntryTarget clear (.of_validate valid) missingFile
  unfold missingFile at reads
  unfold fetchOutcome
  by_cases named : relative = ""
  · have refused : ran = (.error (.badRequest "The requested path is invalid."), share.disk) := by
      simp [ran, downloadInner, downloadTarget, Disk.run_bind, getAppConfig, valid, named]
    rw [if_pos named, refused]
    exact ⟨rfl, rfl⟩
  rw [if_neg named]
  cases located : share.catalog.locate [] (address relative) with
  | error refusal =>
    rw [located] at reads
    have refused : ran = (.error (refusalError missingFile refusal), share.disk) := by
      simp [ran, downloadInner, downloadTarget, Disk.run_bind, getAppConfig, valid, named, reads, missingFile,
        Except.mapError, Except.map]
    rw [refused]
    exact ⟨rfl, rfl⟩
  | ok path =>
    rw [located] at reads
    have reached :
        share.disk.run (canonicalEntryTarget share.root relative "The requested file could not be found.") =
        (.ok (share.root ++ path), share.disk) := reads
    obtain ⟨entry, there⟩ := Option.isSome_iff_exists.mp (share.catalog.locate_ok top located).2
    rw [show share.catalog.entry path = share.entry path from rfl] at there
    cases entry with
    | file content =>
      have opened : share.disk.run (openDownloadTarget (share.root ++ path)) =
          (.ok (content, (share.rendering platform showHidden).fileMetadata path content), share.disk) :=
        open_file clear there
      have given : ran = (.ok (downloadResponse platform headers (share.root ++ path) content
          ((share.rendering platform showHidden).fileMetadata path content)), share.disk) := by
        simp [ran, downloadInner, downloadTarget, Disk.run_bind, getAppConfig, valid, named, reached,
          ensureWithinRoot_below, opened]
      dsimp only
      rw [given, show share.catalog.entry path = _ from there]
      exact ⟨rfl, rfl⟩
    | directory =>
      have refused : ran = (.error (.notFound missingFile), share.disk) := by
        simp [ran, downloadInner, downloadTarget, Disk.run_bind, getAppConfig, valid, named, reached,
          ensureWithinRoot_below, open_directory clear there]
      dsimp only
      rw [refused, show share.catalog.entry path = _ from there]
      exact ⟨rfl, rfl⟩

theorem isDir_directory {path : Path} (directory : share.entry path = some .directory) :
    share.disk.run (isDir (share.root ++ path)) = (.ok true, share.disk) := by
  obtain ⟨entries, there⟩ := share.entry_dir directory
  obtain ⟨node, found, described⟩ := stat_entry clear (by rw [directory]; rfl : (share.entry path).isSome)
  rw [there, Option.some.injEq] at found
  subst found
  unfold isDir
  rw [Disk.run_bind, run_metadata, described]
  rfl

theorem isDir_file {path : Path} {content : Bytes} (file : share.entry path = some (.file content)) :
    share.disk.run (isDir (share.root ++ path)) = (.ok false, share.disk) := by
  obtain ⟨node, found, described⟩ := stat_entry clear (by rw [file]; rfl : (share.entry path).isSome)
  rw [share.entry_file file, Option.some.injEq] at found
  subst found
  unfold isDir
  rw [Disk.run_bind, run_metadata, described]
  rfl

omit clear in
inductive Targets (share : Share) : Outcome share.catalog → Except ApiError PathBuf → Prop
  | refused (error : ApiError) : Targets share (.refused error) (.error error)
  | erases (here : Path) (name : Name) (file : share.catalog.isFile (here ++ [name])) :
    Targets share (.erases (here ++ [name]) file) (.ok (pathBuf (share.root ++ here) ++ [name.bytes]))

omit clear in
theorem advance_file {here path : Path} {part : Bytes} {content : Bytes}
    (advanced : share.catalog.advance here (stepOf part) = .ok path)
    (file : share.entry path = some (.file content)) :
    ∃ name : Name, part = name.bytes ∧ path = here ++ [name] := by
  unfold Catalog.advance at advanced
  split at advanced
  next directory =>
    split at advanced
    · cases advanced
      rw [show share.entry here = _ from directory] at file
      cases file
    next name valid =>
      split at advanced
      · cases advanced
        refine ⟨name, ?_, rfl⟩
        unfold stepOf at valid
        split at valid
        · cases valid
          rfl
        · cases valid
      · cases advanced
  · cases advanced

theorem deleteTarget_targets (valid : validateRelativePath p = .ok relative) :
    ∃ answer, share.disk.run (deleteTarget (some ⟨share.root, showHidden⟩) p (some context)) =
      (answer, share.disk) ∧
      share.Targets (eraseOutcome share.catalog context relative) answer := by
  have top : (share.entry []).isSome := by rw [show share.entry [] = _ from share.catalog.top]; rfl
  have accepted : (validateRelativePath p).mapError deleteRefusal = .ok relative := by rw [valid]; rfl
  unfold deleteTarget eraseOutcome
  simp only [Disk.run_bind, getAppConfig, Disk.run_ofExcept, accepted]
  by_cases named : relative = ""
  · simp only [if_pos named]
    exact ⟨_, rfl, .refused _⟩
  by_cases allowed : canDelete context.access context.groups relative
  case neg =>
    simp only [if_neg named, allowed, Option.any_some, Bool.not_false, if_true]
    exact ⟨_, rfl, .refused _⟩
  simp only [if_neg named, allowed, Option.any_some, Bool.not_true, Bool.false_eq_true, if_false]
  obtain ⟨_, above, plain⟩ := parentAndName_valid (.of_validate valid) named
  rw [Disk.run_bind, run_canonicalEntryTarget clear above]
  cases located : share.catalog.locate [] (address (parentAndName relative).1) with
  | error refusal => exact ⟨_, rfl, .refused _⟩
  | ok here =>
    dsimp only [Except.mapError, Except.map]
    rw [Disk.run_bind, Disk.run_ofExcept, ensureWithinRoot_below]
    dsimp only
    obtain ⟨entry, there⟩ := Option.isSome_iff_exists.mp (share.catalog.locate_ok top located).2
    rw [show share.catalog.entry here = share.entry here from rfl] at there ⊢
    cases entry with
    | file content =>
      rw [there, Disk.run_bind, isDir_file clear there]
      exact ⟨_, rfl, .refused _⟩
    | directory =>
      rw [there, Disk.run_bind, isDir_directory clear there]
      simp only [Bool.not_true, Bool.false_eq_true, if_false]
      obtain ⟨refuses, reaches⟩ := run_entryMetadata clear there plain missingFile
      rw [Disk.run_bind]
      cases entered : share.catalog.locate here (address (parentAndName relative).2) with
      | error refusal =>
        have refused := refuses refusal entered
        unfold missingFile at refused
        rw [refused]
        exact ⟨_, rfl, .refused _⟩
      | ok path =>
        obtain ⟨part, node, advanced, found, described⟩ := reaches path entered
        unfold missingFile at described
        rw [described]
        dsimp only
        have kind := (share.entry_of_get found).1
        cases node with
        | symlink target => exact absurd found (share.free path target)
        | dir entries =>
          have folder : (share.disk.metadata (share.root ++ path, .dir entries)).isFile = false := rfl
          simp only [folder, Bool.not_false, if_true]
          split
          next content file =>
            rw [show share.catalog.entry path = _ from kind] at file
            cases file
          · exact ⟨_, rfl, .refused _⟩
        | file content =>
          have regular : (share.disk.metadata (share.root ++ path, .file content)).isFile = true := rfl
          simp only [regular, Bool.not_true, Bool.false_eq_true, if_false]
          obtain ⟨name, rfl, rfl⟩ := advance_file advanced kind
          split
          · exact ⟨_, rfl, .erases here name _⟩
          next other => exact absurd kind (other content)

theorem delete_answers (valid : validateRelativePath p = .ok relative) :
    let ran := share.disk.run (deleteFile (some ⟨share.root, showHidden⟩) p (some context))
    let outcome := eraseOutcome share.catalog context relative
    ran.2 = outcome.leaves.disk ∧
      (share.rendering platform showHidden).Says share.catalog context headers relative
        (settled ran.1) outcome := by
  intro ran outcome
  obtain ⟨answer, targeted, targets⟩ :
      ∃ answer, share.disk.run (deleteTarget (some ⟨share.root, showHidden⟩) p (some context)) =
        (answer, share.disk) ∧
        share.Targets outcome answer := deleteTarget_targets clear valid
  have started : ran = share.disk.run (deleteFile (some ⟨share.root, showHidden⟩) p (some context)) := rfl
  unfold deleteFile at started
  rw [Disk.run_bind, targeted] at started
  generalize outcome = result at targets ⊢
  cases targets with
  | refused error =>
    rw [started]
    exact ⟨rfl, rfl⟩
  | erases here name file =>
    dsimp only at started
    rw [Disk.run_bind, run_removeFile, share.removeFile_entry file clear rfl] at started
    rw [started]
    exact ⟨rfl, rfl⟩

theorem canonicalize_child {here : Path} (directory : share.entry here = some .directory) {name : Name}
    (there : (share.entry (here ++ [name])).isSome) :
    share.disk.canonicalize (pathBuf (share.root ++ here) ++ [name.bytes]) =
      .ok (share.root ++ (here ++ [name])) := by
  have spells : ∀ part ∈ [name.bytes], Spells part := by simpa using .inr (.inr name.valid)
  have advances : share.catalog.advance here (stepOf name.bytes) = .ok (here ++ [name]) := by
    rw [stepOf, dif_pos name.valid]
    have child : (share.catalog.entry (here ++ [name])).isSome := there
    simp [Catalog.advance, show share.catalog.entry here = _ from directory, child]
  rw [canonicalize_descend clear (by rw [directory]; rfl) spells]
  simp only [steps, List.map_cons, List.map_nil, Catalog.descend_single, advances]
  rfl

theorem describe_child (platform : Platform) (showHidden : Bool) {path : Path}
    {entry : Catalog.Entry Bytes} (there : share.entry path = some entry) :
    ∃ metadata, share.disk.stat (pathBuf (share.root ++ path)) = .ok metadata ∧ ∀ context child text,
      describeEntry platform context child text metadata =
        describeEntry platform context child text
          ((share.rendering platform showHidden).metadata path entry) := by
  obtain ⟨node, found, described⟩ := stat_entry clear (by rw [there]; rfl : (share.entry path).isSome)
  refine ⟨_, described, fun context child text => ?_⟩
  rw [(share.entry_of_get found).1] at there
  cases node with
  | file content =>
    cases there
    rfl
  | dir entries =>
    cases there
    rfl
  | symlink target => exact absurd found (share.free path target)

theorem shownEntry_eq {here : Path} (directory : share.entry here = some .directory) {name : Name}
    (there : (share.entry (here ++ [name])).isSome) :
    shownEntry share.disk platform ⟨share.root, showHidden⟩ (some context) relative
      (share.root ++ here) name =
      (share.rendering platform showHidden).shown share.catalog context relative here name := by
  obtain ⟨entry, held⟩ := Option.isSome_iff_exists.mp there
  obtain ⟨metadata, described, same⟩ := describe_child clear platform showHidden held
  have resolved := canonicalize_child clear directory there
  unfold shownEntry listEntry Rendering.shown
  dsimp only
  by_cases hidden : (!showHidden && startsWith "." (percentEncodeEntryName name.bytes)) = true
  · have refused : ((share.rendering platform showHidden).showHidden ||
        !startsWith "." (percentEncodeEntryName name.bytes)) = false := by
      cases showHidden <;> simp_all [rendering]
    rw [if_pos hidden, refused]
    rfl
  have listed : (showHidden || !startsWith "." (percentEncodeEntryName name.bytes)) = true := by
    cases showHidden <;> simp_all
  rw [if_neg hidden]
  by_cases visible : isPathVisible context.access context.groups
    (childPath relative (percentEncodeEntryName name.bytes))
  · have child : share.catalog.entry (here ++ [name]) = some entry := held
    simp only [Option.any_some, visible, Bool.not_true, Bool.false_eq_true, if_false]
    rw [Disk.run_bind, run_canonicalize, resolved]
    dsimp only
    rw [ensureWithinRoot_below]
    dsimp only
    rw [Disk.run_bind, run_metadata, described]
    simp [same, child, rendering, listed, Except.toOption]
  · simp only [Option.any_some, visible, Bool.not_false, if_true, Bool.and_false,
      Bool.false_eq_true, if_false]
    rfl

omit clear in
theorem lookup_isSome (entries : List (Name × Node Bytes)) (name : Name) :
    name ∈ entries.map Prod.fst ↔ (lookup entries name).isSome := by
  rw [lookup, Option.isSome_map, List.find?_isSome, List.mem_map]
  simp only [decide_eq_true_eq]

-- No directory below the root holds a name twice.
def Tidy (share : Share) : Prop :=
  ∀ path entries, share.disk.tree.get (share.root ++ path) = some (.dir entries) →
  (entries.map Prod.fst).Nodup

theorem list_answers (tidy : share.Tidy) (valid : validateRelativePath p = .ok relative) :
    let ran := share.disk.run (directory platform (some ⟨share.root, showHidden⟩) p (some context))
    ran.2 = share.disk ∧ (share.rendering platform showHidden).Says share.catalog context headers relative
      (settled ran.1) (listOutcome share.catalog relative) := by
  intro ran
  have top : (share.entry []).isSome := by rw [show share.entry [] = _ from share.catalog.top]; rfl
  have started :
      ran = share.disk.run (directory platform (some ⟨share.root, showHidden⟩) p (some context)) := rfl
  unfold directory at started
  simp only [Disk.run_bind, getAppConfig, Disk.run_ofExcept, valid] at started
  rw [run_canonicalEntryTarget clear (.of_validate valid)] at started
  unfold listOutcome
  cases located : share.catalog.locate [] (address relative) with
  | error refusal =>
    rw [located] at started
    rw [started]
    exact ⟨rfl, rfl⟩
  | ok here =>
    rw [located] at started
    dsimp only [Except.mapError, Except.map] at started
    rw [ensureWithinRoot_below] at started
    dsimp only at started
    obtain ⟨entry, there⟩ := Option.isSome_iff_exists.mp (share.catalog.locate_ok top located).2
    have held : share.entry here = some entry := there
    dsimp only
    rw [there]
    cases entry with
    | file content =>
      rw [isDir_file clear held] at started
      dsimp only at started
      rw [started]
      exact ⟨rfl, rfl⟩
    | directory =>
      rw [isDir_directory clear held] at started
      obtain ⟨entries, found, opened, read⟩ := list_entry clear held
      simp only [Bool.not_true, Bool.false_eq_true, if_false, Disk.run_bind, run_readDir,
        opened, run_nextEntries, read, run_listEntries, Disk.run_pure] at started
      have names : (Disk.listing entries).map Prod.fst = entries.map Prod.fst := by simp [Disk.listing]
      have present (name : Name) : name ∈ entries.map Prod.fst ↔ (share.entry (here ++ [name])).isSome := by
        rw [lookup_isSome, share.entry_isSome, ← List.append_assoc, Node.get_concat, found]
      have same : (entries.map Prod.fst).filterMap
          (shownEntry share.disk platform ⟨share.root, showHidden⟩ (some context)
            relative (share.root ++ here)) =
          (entries.map Prod.fst).filterMap
            ((share.rendering platform showHidden).shown share.catalog context relative here) :=
        List.filterMap_congr fun name member => shownEntry_eq clear held ((present name).mp member)
      rw [started, names, same]
      exact ⟨rfl, entries.map Prod.fst, tidy here entries found, present, rfl⟩

end

theorem Tidy.without (tidy : share.Tidy) {path : Path} (file : share.catalog.isFile path) :
    (share.without path file).Tidy := by
  intro here left found
  obtain ⟨entries, there, fewer⟩ := names_remove found
  exact (tidy here entries there).sublist fewer

section

variable (outcome : Outcome share.catalog)

@[simp] theorem catalog_leaves : outcome.leaves.catalog = outcome.after := by
  cases outcome with
  | erases path file => exact share.catalog_without file
  | refused | lists | gives => rfl

@[simp] theorem root_leaves : outcome.leaves.root = share.root := by
  cases outcome <;> rfl

@[simp] theorem rendering_leaves (platform : Platform) (showHidden : Bool) :
    outcome.leaves.rendering platform showHidden = outcome.dated (share.rendering platform showHidden) := by
  cases outcome <;> rfl

theorem clear_leaves (clear : share.disk.Clear) : outcome.leaves.disk.Clear := by
  cases outcome <;> exact clear

theorem Tidy.leaves (tidy : share.Tidy) : outcome.leaves.Tidy := by
  cases outcome with
  | erases path file => exact tidy.without file
  | refused | lists | gives => exact tidy

end

end Share

end Yafm
