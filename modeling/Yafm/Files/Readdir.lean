import Yafm.Files.Directory

set_option autoImplicit false

namespace Yafm

open Text Posix Effect

/-- For each directory a way to put its entries in some order. -/
structure ReaddirOrder where
  arrange : PathBuf → List (Name × FileType) → List (Name × FileType)
  perm : ∀ path items, (arrange path items).Perm items

theorem ReaddirOrder.exists_arrange {items arranged : List (Name × FileType)} (path : PathBuf)
    (perm : arranged.Perm items) : ∃ order : ReaddirOrder, order.arrange path items = arranged := by
  classical
  refine ⟨⟨fun query given => if query = path ∧ given = items then arranged
    else given, fun query given => ?_⟩, ?_⟩
  · split
    next same => rw [same.2]; exact perm
    next => exact List.Perm.refl given
  · simp

def Disk.answerIn (order : ReaddirOrder) : (op : Op) → Disk → op.Answer × Disk
  | .nextEntries path, disk => ((disk.nextEntries path).map (order.arrange path), disk)
  | .canonicalize path, disk => (disk.canonicalize path, disk)
  | .metadata path, disk => (disk.stat path, disk)
  | .symlinkMetadata path, disk => (disk.lstat path, disk)
  | .readDir path, disk => (disk.readDir path, disk)
  | .openFile path, disk => (disk.openFile path, disk)
  | .fileMetadata file, disk => (disk.fileMetadata file, disk)
  | .removeFile path, disk => disk.remove path

def Disk.runIn {ε α : Type} (order : ReaddirOrder) (disk : Disk) (program : Storage ε α) :
    Except ε α × Disk :=
  Fallible.run (Disk.answerIn order) program disk

def Op.Unordered : Op → Prop
  | .nextEntries _ => False
  | _ => True

theorem answerIn_unordered (order : ReaddirOrder) {op : Op} (unordered : op.Unordered) :
    Disk.answerIn order op = Disk.answer op := by
  cases op with
  | nextEntries path => exact unordered.elim
  | canonicalize | metadata | symlinkMetadata | readDir | openFile | fileMetadata | removeFile => rfl

namespace Disk

variable {ε α β : Type} (order : ReaddirOrder) (disk : Disk)

@[simp] theorem runIn_pure (value : α) :
    disk.runIn order (pure value : Storage ε α) = (.ok value, disk) := rfl

@[simp] theorem runIn_throw (error : ε) :
    disk.runIn order (throw error : Storage ε α) = (.error error, disk) := rfl

@[simp] theorem runIn_ofExcept (outcome : Except ε α) :
    disk.runIn order (Fallible.ofExcept outcome : Storage ε α) = (outcome, disk) :=
  Fallible.run_ofExcept (answerIn order) outcome disk

theorem runIn_bind (program : Storage ε α) (rest : α → Storage ε β) :
    disk.runIn order (program >>= rest) =
      match disk.runIn order program with
      | (.ok value, after) => after.runIn order (rest value)
      | (.error error, after) => (.error error, after) := by
  rw [runIn, Fallible.run_bind, runIn]
  rcases Fallible.run (answerIn order) program disk with ⟨outcome, after⟩
  cases outcome <;> rfl

@[simp] theorem runIn_canonicalize (path : PathBuf) :
    disk.runIn order (Fs.canonicalize path : Storage ε _) = (.ok (disk.canonicalize path), disk) := rfl

@[simp] theorem runIn_metadata (path : PathBuf) :
    disk.runIn order (Fs.metadata path : Storage ε _) = (.ok (disk.stat path), disk) := rfl

@[simp] theorem runIn_readDir (path : PathBuf) :
    disk.runIn order (Fs.readDir path : Storage ε _) = (.ok (disk.readDir path), disk) := rfl

@[simp] theorem runIn_nextEntries (path : PathBuf) :
    disk.runIn order (Fs.nextEntries path : Storage ε _) =
      (.ok ((disk.nextEntries path).map (order.arrange path)), disk) := rfl

def stored : ReaddirOrder := ⟨fun _ items => items, fun _ items => .refl items⟩

theorem runIn_stored (program : Storage ε α) : disk.runIn stored program = disk.run program := by
  have same : answerIn stored = answer := by
    funext op state
    cases op with
    | nextEntries path =>
      rw [answerIn, answer]
      cases state.nextEntries path <;> rfl
    | canonicalize | metadata | symlinkMetadata | readDir | openFile | fileMetadata | removeFile => rfl
  rw [runIn, same, run]

theorem runIn_unordered {program : Storage ε α} (unordered : program.Only Op.Unordered) :
    disk.runIn order program = disk.run program :=
  Fallible.run_congr (fun _ other => answerIn_unordered order other) unordered disk

theorem runIn_reads {program : Storage ε α} (reads : program.Only Op.Reads)
    (unordered : program.Only Op.Unordered) :
    disk.runIn order program = ((disk.run program).1, disk) := by
  rw [runIn_unordered order disk unordered, Prod.ext_iff]
  exact ⟨rfl, run_reads reads disk⟩

variable {order disk}

theorem runIn_bind_eq {program : Storage ε α} {rest : α → Storage ε β} {outcome : Except ε α}
    {next : α → Except ε β} (ran : disk.runIn order program = (outcome, disk))
    (onward : ∀ value, disk.runIn order (rest value) = (next value, disk)) :
    disk.runIn order (program >>= rest) = (outcome >>= next, disk) := by
  rw [runIn_bind, ran]
  cases outcome with
  | error error => rfl
  | ok value => exact onward value

end Disk

end Yafm
