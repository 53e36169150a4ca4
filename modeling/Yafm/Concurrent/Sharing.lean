import Yafm.Files.Containment
import Yafm.Shared.Descent
import Yafm.Shared.Interference

set_option autoImplicit false

-- Requests run their operations on one disk, in any order, while other programs use it too. The history is
-- a ghost: it records what each request has taken away or opened, and the disk it did so on.

namespace Yafm

open Text Posix Effect

theorem pathBuf_inj (left right : Path) : pathBuf left = pathBuf right ↔ left = right :=
  (List.map_injective_iff.mpr Name.bytes_injective).eq_iff

inductive Done where
  | removed (path : PathBuf) (on : Disk)
  | opened (path : PathBuf) (on : Disk) (content : Bytes)

def Done.isRemoval : Done → Bool
  | .removed _ _ => true
  | .opened _ _ _ => false

def Done.taken : Done → Option PathBuf
  | .removed path _ => some path
  | .opened _ _ _ => none

def Op.done (on : Disk) : (op : Op) → op.Answer → Option Done
  | .removeFile path, answer => (Except.toOption answer).map fun _ => .removed path on
  | .openFile path, answer => (Except.toOption answer).map fun (file : OpenFile) =>
    .opened path on file.content
  | .fileMetadata _, _ => none
  | .canonicalize _, _ => none
  | .metadata _, _ => none
  | .symlinkMetadata _, _ => none
  | .readDir _, _ => none
  | .nextEntries _, _ => none

/-- How a disk may change under a request: never by a new link, and always by a file that is
removed. -/
structure Conduct where
  may : Disk → Disk → Prop
  refl : ∀ disk, may disk disk
  trans : ∀ {first second third}, may first second → may second third → may first third
  links : ∀ {before after}, may before after → after.tree.LinksWithin before.tree
  removal : ∀ {disk : Disk} {path content}, path ≠ [] → disk.tree.get path = some (.file content) →
    may disk (disk.without path)

structure Sharing (ι : Type) where
  disk : Disk
  history : List (ι × Done)

variable {ι : Type} [DecidableEq ι]

namespace Sharing

def own (sharing : Sharing ι) (who : ι) : List Done :=
  (sharing.history.filter fun entry => entry.1 = who).map Prod.snd

def taken (sharing : Sharing ι) : List (ι × PathBuf) :=
  sharing.history.filterMap fun entry => entry.2.taken.map fun path => (entry.1, path)

def Responds (who : ι) (op : Op) (now : Sharing ι) (answer : op.Answer) (after : Sharing ι) : Prop :=
  Disk.answer op now.disk = (answer, after.disk) ∧
    after.history = now.history ++ (op.done now.disk answer).toList.map fun done => (who, done)

structure Others (conduct : Conduct) (who : ι) (before after : Sharing ι) : Prop where
  changed : conduct.may before.disk after.disk
  own : after.own who = before.own who

-- An entry below the root, named so that no link is on the way to it.
def Within (sharing : Sharing ι) (root path : Path) : Prop := root <+: path ∧ sharing.disk.tree.Unlinked path

-- Outside the root nothing but names is resolved: what is read, opened or removed is named below it, with
-- no link left to follow, and only an entry of a permitted name is removed.
def Pledges (root : Path) (removable : Name → Prop) : Op → Sharing ι → Prop
  | .canonicalize _, _ => True
  | .metadata path, now => ∃ target, path = pathBuf target ∧ now.Within root target
  | .symlinkMetadata path, now =>
    ∃ parent part, path = pathBuf parent ++ [part] ∧ now.Within root parent ∧ part ≠ asBytes ".."
  | .readDir path, now => ∃ target, path = pathBuf target ∧ now.Within root target
  | .nextEntries path, now => ∃ target, path = pathBuf target ∧ now.Within root target
  | .openFile path, now => ∃ target, path = pathBuf target ∧ now.Within root target
  -- by no name: the file is open
  | .fileMetadata _, _ => True
  | .removeFile path, now => ∃ parent name, path = pathBuf (parent ++ [name]) ∧ root <+: parent ∧
      now.disk.tree.Unlinked (parent ++ [name]) ∧ removable name

def discipline (conduct : Conduct) (root : Path) (removable : Name → Prop) (who : ι) :
    Discipline Op.Answer (Sharing ι) where
  rely := Others conduct who
  reply := Responds who
  pledge := Pledges root removable
  refl sharing := ⟨conduct.refl sharing.disk, rfl⟩
  trans first second := ⟨conduct.trans first.changed second.changed, second.own.trans first.own⟩

structure Ready (who : ι) (sharing : Sharing ι) : Prop where
  untouched : sharing.own who = []
  plain : sharing.disk.tree.Unlinked []

omit [DecidableEq ι] in
theorem Within.later {before after : Sharing ι} {root path : Path} (within : before.Within root path)
    (links : after.disk.tree.LinksWithin before.disk.tree) : after.Within root path :=
  ⟨within.1, within.2.later links⟩

theorem Others.links {conduct : Conduct} {who : ι} {before after : Sharing ι}
    (others : Others conduct who before after) : after.disk.tree.LinksWithin before.disk.tree :=
  conduct.links others.changed

theorem Ready.later {conduct : Conduct} {who : ι} {before after : Sharing ι} (ready : Ready who before)
    (others : Others conduct who before after) : Ready who after :=
  ⟨others.own.trans ready.untouched, ready.plain.later others.links⟩

section

variable {who : ι} {op : Op} {now after : Sharing ι} {answer : op.Answer}

omit [DecidableEq ι] in
theorem Responds.same (answers : Responds who op now answer after) (reads : op.Reads)
    (silent : op.done now.disk answer = none) : after = now := by
  obtain ⟨answered, recorded⟩ := answers
  have kept := answer_reads op now.disk reads
  rw [answered] at kept
  rw [silent, Option.toList_none, List.map_nil, List.append_nil] at recorded
  cases now
  cases after
  simp only at kept recorded
  rw [kept, recorded]

theorem Responds.own_self (answers : Responds who op now answer after) :
    after.own who = now.own who ++ (op.done now.disk answer).toList := by
  rw [own, own, answers.2]
  cases op.done now.disk answer <;> simp

theorem Responds.own_other (answers : Responds who op now answer after) {other : ι} (apart : who ≠ other) :
    after.own other = now.own other := by
  rw [own, own, answers.2]
  cases op.done now.disk answer <;> simp [apart]

end

theorem removeFile_unlinked {disk : Disk} {parent gone : Path} {name : Name}
    (unlinked : disk.tree.Unlinked (parent ++ [name]))
    (taken : disk.removeFile (pathBuf (parent ++ [name])) = .ok gone) :
    ∃ content, disk.tree.get (parent ++ [name]) = some (.file content) ∧ gone = parent ++ [name] := by
  obtain ⟨todo, parsed, removed⟩ := Disk.answered_ok taken
  rw [Disk.components_pathBuf, Option.some.injEq, List.map_append, List.map_singleton] at parsed
  obtain ⟨node, front, last, split, found, notDir⟩ := unlink_ok removed
  rw [← parsed] at split
  obtain ⟨rfl, same⟩ := List.append_inj' split rfl
  cases same
  obtain ⟨place, present⟩ := entry_unlinked (unlinked.above (List.prefix_append parent [name])) found
  have plain := unlinked.plain present
  cases node with
  | file content => exact ⟨content, present, place⟩
  | symlink => cases plain
  | dir => cases notDir

omit [DecidableEq ι] in
theorem Responds.tree {who : ι} {op : Op} {now after : Sharing ι} {answer : op.Answer}
    (answers : Responds who op now answer after) {root : Path} {removable : Name → Prop}
    (pledged : Pledges root removable op now) :
    (after.disk = now.disk ∧ ∀ done, op.done now.disk answer = some done → done.isRemoval = false) ∨
      ∃ parent name content, op = .removeFile (pathBuf (parent ++ [name])) ∧
      root <+: parent ∧ removable name ∧
        op.done now.disk answer = some (.removed (pathBuf (parent ++ [name])) now.disk) ∧
        now.disk.tree.Unlinked (parent ++ [name]) ∧ now.disk.tree.get (parent ++ [name]) =
          some (.file content) ∧
        after.disk = now.disk.without (parent ++ [name]) := by
  obtain ⟨answered, _⟩ := answers
  cases op with
  | canonicalize | metadata | symlinkMetadata | readDir | nextEntries | fileMetadata =>
    have kept := congrArg Prod.snd answered
    exact .inl ⟨kept.symm, fun done none => by cases none⟩
  | openFile =>
    have kept := congrArg Prod.snd answered
    refine .inl ⟨kept.symm, ?_⟩
    intro done some
    obtain ⟨opened, _, rfl⟩ := Option.map_eq_some_iff.mp some
    rfl
  | removeFile =>
    obtain ⟨parent, name, rfl, inside, unlinked, permitted⟩ := pledged
    simp only [Disk.answer, Disk.remove] at answered
    split at answered
    next gone taken =>
      obtain ⟨rfl, same⟩ := Prod.mk.inj answered
      obtain ⟨content, present, rfl⟩ := removeFile_unlinked unlinked taken
      exact .inr ⟨parent, name, content, rfl, inside, permitted, rfl, unlinked, present, same.symm⟩
    next error refused =>
      obtain ⟨rfl, same⟩ := Prod.mk.inj answered
      exact .inl ⟨same.symm, fun done none => by cases none⟩

omit [DecidableEq ι] in
theorem Responds.changed {who : ι} {op : Op} {now after : Sharing ι} {answer : op.Answer}
    (answers : Responds who op now answer after) {root : Path} {removable : Name → Prop}
    (pledged : Pledges root removable op now) (conduct : Conduct) : conduct.may now.disk after.disk := by
  rcases answers.tree pledged with ⟨same, _⟩ | ⟨parent, name, content, _, _, _, _, _, present, gone⟩
  · rw [same]
    exact conduct.refl now.disk
  · rw [gone]
    exact conduct.removal (by simp) present

-- What one request does is what the others rely on.
theorem Responds.others {who other : ι} {op : Op} {now after : Sharing ι} {answer : op.Answer}
    {root : Path} {removable : Name → Prop} (answers : Responds who op now answer after)
    (pledged : Pledges root removable op now) (conduct : Conduct) (apart : who ≠ other) :
    Others conduct other now after :=
  ⟨answers.changed pledged conduct, answers.own_other apart⟩

end Sharing

end Yafm
