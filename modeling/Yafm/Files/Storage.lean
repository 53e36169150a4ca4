import Yafm.Access.Evaluate
import Yafm.Shared.Effect

set_option autoImplicit false

namespace Yafm

open Text Posix Effect

-- A path as the handlers build it: its parts, the slashes between them left out.
abbrev PathBuf := List Bytes

def pathBuf (path : Path) : PathBuf := path.map Name.bytes

-- Nanoseconds since the Unix epoch, which a file may predate.
abbrev Time := Int

inductive FileType where
  | file
  | directory
  | symlink
  deriving DecidableEq, Repr

structure Metadata where
  fileType : FileType
  len : Nat
  modified : Option Time
  -- stands for the device and inode numbers
  identity : Path
  deriving DecidableEq

def Metadata.isFile (metadata : Metadata) : Bool := metadata.fileType = .file

def Metadata.isDir (metadata : Metadata) : Bool := metadata.fileType = .directory

/-- Its name may go or lead to another file meanwhile, but nobody writes into the file itself. -/
structure OpenFile where
  content : Bytes
  metadata : Metadata
  deriving DecidableEq

inductive Op where
  | canonicalize (path : PathBuf)
  | metadata (path : PathBuf)
  | symlinkMetadata (path : PathBuf)
  | readDir (path : PathBuf)
  | nextEntries (path : PathBuf)
  | openFile (path : PathBuf)
  | fileMetadata (file : OpenFile)
  | removeFile (path : PathBuf)
  deriving DecidableEq

def Op.Answer : Op → Type
  | .canonicalize _ => Except IoError Path
  | .metadata _ => Except IoError Metadata
  | .symlinkMetadata _ => Except IoError Metadata
  | .readDir _ => Except IoError Unit
  | .nextEntries _ => Except IoError (List (Name × FileType))
  | .openFile _ => Except IoError OpenFile
  | .fileMetadata _ => Except IoError Metadata
  | .removeFile _ => Except IoError Unit

abbrev Storage (ε α : Type) := Fallible Op.Answer ε α

/-- A refusal is for permissions, a read-only mount, a path too long for the system, an I/O error;
it is never reported as a missing file. -/
structure Disk where
  tree : Node Bytes
  modified : Path → Option Time
  -- the times at which the coming removals are made
  clock : Nat → Option Time
  -- the bytes of the longest name, 255 on most file systems
  nameMax : Option Nat
  faults : Op → Option IoError
  present : ∀ op, faults op ≠ some .notFound

namespace Disk

def fileType : Node Bytes → FileType
  | .file _ => .file
  | .symlink _ => .symlink
  | .dir _ => .directory

def length : Node Bytes → Nat
  | .file content => content.length
  | .symlink target => target.length
  | .dir entries => entries.length

def metadata (disk : Disk) (located : Path × Node Bytes) : Metadata :=
  ⟨fileType located.2, length located.2, disk.modified located.1, located.1⟩

def content : Node Bytes → Bytes
  | .file content => content
  | _ => []

-- What the system answers: a refusal, an error for a part with a NUL byte, or what the tree says.
def answered {α : Type} (disk : Disk) (op : Op) (path : PathBuf)
    (act : List Component → Except IoError α) : Except IoError α :=
  match disk.faults op with
  | some error => .error error
  | none =>
    match components path with
    | some todo => act todo
    | none => .error .invalidInput

-- Nothing is refused: what fails does so because of the tree. A mount without the permissions, or a tree
-- deeper than the longest path of the system, is no such disk.
def Clear (disk : Disk) : Prop := ∀ op, disk.faults op = none

theorem Clear.answered {α : Type} {disk : Disk} (clear : disk.Clear) {op : Op} {path : PathBuf}
    {todo : List Component} {act : List Component → Except IoError α} (parsed : components path = some todo) :
    disk.answered op path act = act todo := by
  simp [Disk.answered, clear op, parsed]

def Fits (disk : Disk) (name : Bytes) : Prop := ∀ longest ∈ disk.nameMax, name.length ≤ longest

def canonicalize (disk : Disk) (path : PathBuf) : Except IoError Path :=
  disk.answered (.canonicalize path) path (Posix.canonicalize disk.nameMax disk.tree)

def stat (disk : Disk) (path : PathBuf) : Except IoError Metadata :=
  disk.answered (.metadata path) path fun todo => (Posix.stat disk.nameMax disk.tree todo).map disk.metadata

def lstat (disk : Disk) (path : PathBuf) : Except IoError Metadata :=
  disk.answered (.symlinkMetadata path) path fun todo =>
    (Posix.lstat disk.nameMax disk.tree todo).map disk.metadata

def listing (entries : List (Name × Node Bytes)) : List (Name × FileType) :=
  entries.map fun entry => (entry.1, fileType entry.2)

def readDir (disk : Disk) (path : PathBuf) : Except IoError Unit :=
  disk.answered (.readDir path) path fun todo => (Posix.readDir disk.nameMax disk.tree todo).map fun _ => ()

def nextEntries (disk : Disk) (path : PathBuf) : Except IoError (List (Name × FileType)) :=
  disk.answered (.nextEntries path) path fun todo => (Posix.readDir disk.nameMax disk.tree todo).map listing

-- A directory opens as well: only its metadata tells it from a file.
def openFile (disk : Disk) (path : PathBuf) : Except IoError OpenFile :=
  disk.answered (.openFile path) path fun todo =>
    (Posix.stat disk.nameMax disk.tree todo).map fun located => ⟨content located.2, disk.metadata located⟩

def fileMetadata (disk : Disk) (file : OpenFile) : Except IoError Metadata :=
  match disk.faults (.fileMetadata file) with
  | some error => .error error
  | none => .ok file.metadata

def removeFile (disk : Disk) (path : PathBuf) : Except IoError Path :=
  disk.answered (.removeFile path) path (Posix.unlink disk.nameMax disk.tree)

-- A removal is a change of the directory that held the entry.
def without (disk : Disk) (target : Path) : Disk :=
  { disk with
    tree := disk.tree.remove target
    modified := Function.update disk.modified target.dropLast (disk.clock 0)
    clock := fun later => disk.clock (later + 1) }

def remove (disk : Disk) (path : PathBuf) : Except IoError Unit × Disk :=
  match disk.removeFile path with
  | .ok target => (.ok (), disk.without target)
  | .error error => (.error error, disk)

def answer : (op : Op) → Disk → op.Answer × Disk
  | .canonicalize path, disk => (disk.canonicalize path, disk)
  | .metadata path, disk => (disk.stat path, disk)
  | .symlinkMetadata path, disk => (disk.lstat path, disk)
  | .readDir path, disk => (disk.readDir path, disk)
  | .nextEntries path, disk => (disk.nextEntries path, disk)
  | .openFile path, disk => (disk.openFile path, disk)
  | .fileMetadata file, disk => (disk.fileMetadata file, disk)
  | .removeFile path, disk => disk.remove path

@[simp] theorem without_tree (disk : Disk) (target : Path) :
    (disk.without target).tree = disk.tree.remove target := rfl

@[simp] theorem without_faults (disk : Disk) (target : Path) :
    (disk.without target).faults = disk.faults := rfl

@[simp] theorem without_nameMax (disk : Disk) (target : Path) :
    (disk.without target).nameMax = disk.nameMax := rfl

theorem fileMetadata_ok {disk : Disk} {file : OpenFile} {metadata : Metadata}
    (described : disk.fileMetadata file = .ok metadata) : metadata = file.metadata := by
  unfold fileMetadata at described
  split at described
  · cases described
  · cases described
    rfl

theorem answered_ok {α : Type} {disk : Disk} {op : Op} {path : PathBuf}
    {act : List Component → Except IoError α} {result : α}
    (reached : disk.answered op path act = .ok result) :
    ∃ todo, components path = some todo ∧ act todo = .ok result := by
  unfold answered at reached
  split at reached
  · cases reached
  · split at reached
    next todo parsed => exact ⟨todo, parsed, reached⟩
    · cases reached

theorem components_pathBuf (path : Path) : components (pathBuf path) = some (path.map .name) :=
  components_names path

theorem located_canonical {α : Type} {disk : Disk} {op : Op} {path : Path}
    {read : Path × Node Bytes → α} {result : α} (canonical : disk.tree.Canonical path)
    (found : (disk.answered op (pathBuf path) fun todo => (Posix.stat disk.nameMax disk.tree todo).map read) =
      .ok result) :
    ∃ node, disk.tree.get path = some node ∧ result = read (path, node) := by
  obtain ⟨todo, parsed, mapped⟩ := answered_ok found
  obtain ⟨⟨target, node⟩, located, same⟩ := map_ok mapped
  obtain ⟨reached, present⟩ := Posix.stat_ok located
  rw [components_pathBuf, Option.some.injEq] at parsed
  rw [← parsed, canonicalize_self canonical, Except.ok.injEq] at reached
  dsimp only at reached present
  subst reached
  exact ⟨node, present, same.symm⟩

theorem stat_canonical {disk : Disk} {path : Path} {metadata : Metadata}
    (canonical : disk.tree.Canonical path) (found : disk.stat (pathBuf path) = .ok metadata) :
    ∃ node, disk.tree.get path = some node ∧ metadata = disk.metadata (path, node) :=
  located_canonical canonical found

theorem openFile_canonical {disk : Disk} {path : Path} {opened : OpenFile}
    (canonical : disk.tree.Canonical path) (found : disk.openFile (pathBuf path) = .ok opened) :
    ∃ node, disk.tree.get path = some node ∧ opened = ⟨content node, disk.metadata (path, node)⟩ :=
  located_canonical canonical found

theorem isFile_metadata {disk : Disk} {path : Path} {node : Node Bytes}
    (regular : (disk.metadata (path, node)).isFile) : ∃ content, node = .file content := by
  cases node with
  | file content => exact ⟨content, rfl⟩
  | symlink | dir => cases regular

theorem isDir_metadata {disk : Disk} {path : Path} {node : Node Bytes}
    (directory : (disk.metadata (path, node)).isDir) : ∃ entries, node = .dir entries := by
  cases node with
  | dir entries => exact ⟨entries, rfl⟩
  | symlink | file => cases directory

theorem canonicalize_ok {disk : Disk} {path : PathBuf} {canonical : Path} (directory : disk.tree.isDir)
    (reached : disk.canonicalize path = .ok canonical) : disk.tree.Canonical canonical := by
  obtain ⟨todo, _, reached⟩ := answered_ok reached
  exact canonicalize_canonical directory reached

theorem nextEntries_canonical {disk : Disk} {path : Path} {items : List (Name × FileType)}
    (canonical : disk.tree.Canonical path) (found : disk.nextEntries (pathBuf path) = .ok items) :
    ∃ entries, disk.tree.get path = some (.dir entries) ∧ items = listing entries := by
  obtain ⟨todo, parsed, mapped⟩ := answered_ok found
  obtain ⟨entries, read, same⟩ := map_ok mapped
  rw [components_pathBuf, Option.some.injEq] at parsed
  unfold Posix.readDir at read
  split at read
  next target opened located =>
    obtain ⟨reached, present⟩ := Posix.stat_ok located
    rw [← parsed, canonicalize_self canonical, Except.ok.injEq] at reached
    dsimp only at reached present
    subst reached
    cases read
    exact ⟨entries, present, same.symm⟩
  · cases read
  · cases read

end Disk

namespace Fs

variable {ε : Type}

def canonicalize (path : PathBuf) : Storage ε (Except IoError Path) := Fallible.call (Op.canonicalize path)
def metadata (path : PathBuf) : Storage ε (Except IoError Metadata) := Fallible.call (Op.metadata path)
def symlinkMetadata (path : PathBuf) : Storage ε (Except IoError Metadata) :=
  Fallible.call (Op.symlinkMetadata path)
def readDir (path : PathBuf) : Storage ε (Except IoError Unit) := Fallible.call (Op.readDir path)
def nextEntries (path : PathBuf) : Storage ε (Except IoError (List (Name × FileType))) :=
  Fallible.call (Op.nextEntries path)
def openFile (path : PathBuf) : Storage ε (Except IoError OpenFile) := Fallible.call (Op.openFile path)
def fileMetadata (file : OpenFile) : Storage ε (Except IoError Metadata) :=
  Fallible.call (Op.fileMetadata file)
def removeFile (path : PathBuf) : Storage ε (Except IoError Unit) := Fallible.call (Op.removeFile path)

end Fs

def Disk.run {ε α : Type} (disk : Disk) (program : Storage ε α) : Except ε α × Disk :=
  Fallible.run Disk.answer program disk

namespace Disk

variable {ε α β : Type} (disk : Disk)

@[simp] theorem run_pure (value : α) : disk.run (pure value : Storage ε α) = (.ok value, disk) := rfl

@[simp] theorem run_throw (error : ε) : disk.run (throw error : Storage ε α) = (.error error, disk) := rfl

@[simp] theorem run_ofExcept (outcome : Except ε α) :
    disk.run (Fallible.ofExcept outcome : Storage ε α) = (outcome, disk) :=
  Fallible.run_ofExcept Disk.answer outcome disk

theorem run_ofExcept_ok {disk after : Disk} {outcome : Except ε α} {value : α}
    (ran : disk.run (Fallible.ofExcept outcome : Storage ε α) = (.ok value, after)) :
    outcome = .ok value ∧ after = disk := by
  rw [run_ofExcept, Prod.mk.injEq] at ran
  exact ⟨ran.1, ran.2.symm⟩

theorem run_bind (program : Storage ε α) (rest : α → Storage ε β) :
    disk.run (program >>= rest) =
      match disk.run program with
      | (.ok value, after) => after.run (rest value)
      | (.error error, after) => (.error error, after) := by
  rw [Disk.run, Fallible.run_bind, Disk.run]
  rcases Fallible.run Disk.answer program disk with ⟨outcome, after⟩
  cases outcome <;> rfl

theorem run_bind_ok_iff {disk after : Disk} {program : Storage ε α} {rest : α → Storage ε β} {result : β} :
    disk.run (program >>= rest) = (.ok result, after) ↔
      ∃ value middle, disk.run program = (.ok value, middle) ∧
      middle.run (rest value) = (.ok result, after) := by
  constructor
  · exact Fallible.run_bind_ok Disk.answer
  · rintro ⟨value, middle, first, second⟩
    rw [run_bind, first, ← second]

theorem run_bind_ok {disk after : Disk} {program : Storage ε α} {rest : α → Storage ε β} {result : β}
    (ran : disk.run (program >>= rest) = (.ok result, after)) :
    ∃ value middle, disk.run program = (.ok value, middle) ∧ middle.run (rest value) = (.ok result, after) :=
  run_bind_ok_iff.mp ran

end Disk

def Op.Reads : Op → Prop
  | .removeFile _ => False
  | _ => True

theorem answer_reads (op : Op) (disk : Disk) (reads : op.Reads) : (Disk.answer op disk).2 = disk := by
  cases op with
  | removeFile path => exact reads.elim
  | canonicalize | metadata | symlinkMetadata | readDir | nextEntries | openFile | fileMetadata => rfl

theorem Disk.run_reads {ε α : Type} {program : Storage ε α} (reads : program.Only Op.Reads) (disk : Disk) :
    (disk.run program).2 = disk :=
  Fallible.run_state Disk.answer answer_reads reads disk

section

variable {ε : Type} (disk : Disk) (path : PathBuf)

@[simp] theorem run_canonicalize :
    disk.run (Fs.canonicalize path : Storage ε _) = (.ok (disk.canonicalize path), disk) := rfl

@[simp] theorem run_metadata : disk.run (Fs.metadata path : Storage ε _) = (.ok (disk.stat path), disk) := rfl

@[simp] theorem run_symlinkMetadata :
    disk.run (Fs.symlinkMetadata path : Storage ε _) = (.ok (disk.lstat path), disk) := rfl

@[simp] theorem run_readDir : disk.run (Fs.readDir path : Storage ε _) =
    (.ok (disk.readDir path), disk) := rfl

@[simp] theorem run_nextEntries :
    disk.run (Fs.nextEntries path : Storage ε _) = (.ok (disk.nextEntries path), disk) := rfl

@[simp] theorem run_removeFile :
    disk.run (Fs.removeFile path : Storage ε _) = (.ok (disk.remove path).1, (disk.remove path).2) := rfl

@[simp] theorem run_openFile : disk.run (Fs.openFile path : Storage ε _) =
    (.ok (disk.openFile path), disk) := rfl

@[simp] theorem run_fileMetadata (file : OpenFile) :
    disk.run (Fs.fileMetadata file : Storage ε _) = (.ok (disk.fileMetadata file), disk) := rfl

end

end Yafm
