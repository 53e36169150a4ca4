import Yafm.Files.Storage

set_option autoImplicit false

namespace Yafm

open Text Posix Effect

/-- A path as it is given: relative paths start at the working directory. -/
structure FsPath where
  absolute : Bool
  parts : List Bytes
  deriving DecidableEq

namespace FsPath

def ofText (text : String) : FsPath := ⟨startsWith "/" text, pathParts (asBytes text)⟩

def resolve (cwd : Path) (path : FsPath) : PathBuf :=
  if path.absolute then path.parts else pathBuf cwd ++ path.parts

-- The last part that is not skipped, unless it goes up.
def fileName (path : FsPath) : Option Bytes := (nameParts path.parts).getLast?.filter (· ≠ asBytes "..")

-- What follows the last dot of the file name, a leading dot not counted.
def extension (path : FsPath) : Option Bytes :=
  path.fileName.bind fun name =>
    let (after, rest) := name.reverse.span (· ≠ asciiByte '.')
    if rest.length ≤ 1 then none else some after.reverse

end FsPath

def usageError : String := "Usage: backend [config-path]"

def configPathRequiredError : String :=
  "Configuration path argument is required unless ./config.yaml or ./config.json exists in " ++
    "the current working directory."

def firstFile : List FsPath → Storage String FsPath
  | [] => throw configPathRequiredError
  | candidate :: rest => do
    match ← Fs.metadata candidate.parts with
    | .ok metadata => if metadata.isFile then return candidate else firstFile rest
    | .error _ => firstFile rest

-- The config files that are looked for when none is named.
def defaultConfigs (cwd : Path) : List FsPath :=
  ["config.yaml", "config.json"].map fun name => ⟨true, pathBuf cwd ++ [asBytes name]⟩

def resolveConfigPath (args : List String) (cwd : Path) : Storage String FsPath :=
  match args with
  | [] => firstFile (defaultConfigs cwd)
  | [path] => return .ofText path
  | _ => throw usageError

structure StartupOptions where
  checkAccess : Bool
  groups : List String
  configPath : FsPath

structure StartupFlags where
  checkAccess : Bool := false
  groups : Option String := none
  positional : List String := []
  deriving DecidableEq

def groupsMissingError : String :=
  "Usage: backend --check-access --groups <comma-separated groups> [config-path]"

def groupsWithoutCheckError : String :=
  "Usage: --groups requires --check-access; the groups scenario is only evaluated by the access check."

def checkWithoutGroupsError : String :=
  "Usage: --check-access requires --groups; the check walks the real shared root for the scenario's groups."

def groupsEmptyError : String :=
  "Usage: --groups requires at least one group name; the access check walks the real shared " ++
    "root for the scenario's groups."

def readFlags : List String → StartupFlags → Except String StartupFlags
  | [], flags => .ok flags
  | "--check-access" :: rest, flags => readFlags rest { flags with checkAccess := true }
  | ["--groups"], _ => .error groupsMissingError
  | "--groups" :: raw :: rest, flags => readFlags rest { flags with groups := some raw }
  | arg :: rest, flags => readFlags rest { flags with positional := flags.positional ++ [arg] }

def scenarioGroups (raw : String) : List String := ((split ',' raw).map trim).filter (· ≠ "")

def checkFlags (flags : StartupFlags) : Except String (List String) :=
  match flags.groups with
  | none => if flags.checkAccess then .error checkWithoutGroupsError else .ok []
  | some raw =>
    if !flags.checkAccess then .error groupsWithoutCheckError
    else if scenarioGroups raw = [] then .error groupsEmptyError
    else .ok (scenarioGroups raw)

def resolveStartupOptions (args : List String) (cwd : Path) : Storage String StartupOptions := do
  let flags ← Fallible.ofExcept (readFlags args {})
  let groups ← Fallible.ofExcept (checkFlags flags)
  let configPath ← resolveConfigPath flags.positional cwd
  return ⟨flags.checkAccess, groups, configPath⟩

inductive Argument where
  | checkAccess
  | groups (raw : String)
  | positional (arg : String)

namespace Argument

def spelled : Argument → List String
  | checkAccess => ["--check-access"]
  | groups raw => ["--groups", raw]
  | positional arg => [arg]

-- What follows `--groups` may be spelled like a flag; any other argument may not.
def Plain : Argument → Prop
  | positional arg => arg ≠ "--check-access" ∧ arg ≠ "--groups"
  | _ => True

def apply (flags : StartupFlags) : Argument → StartupFlags
  | checkAccess => { flags with checkAccess := true }
  | groups raw => { flags with groups := some raw }
  | positional arg => { flags with positional := flags.positional ++ [arg] }

def isCheck : Argument → Bool
  | checkAccess => true
  | _ => false

def raw : Argument → Option String
  | groups raw => some raw
  | _ => none

def text : Argument → Option String
  | positional arg => some arg
  | _ => none

end Argument

def spelling (arguments : List Argument) : List String := arguments.flatMap Argument.spelled

theorem readFlags_spelled (arguments : List Argument) (plain : ∀ argument ∈ arguments, argument.Plain)
    (rest : List String) (flags : StartupFlags) :
    readFlags (spelling arguments ++ rest) flags = readFlags rest (arguments.foldl Argument.apply flags) := by
  induction arguments generalizing flags with
  | nil => rfl
  | cons argument others ih =>
    rw [List.forall_mem_cons] at plain
    have onward := ih plain.2 (argument.apply flags)
    cases argument with
    | checkAccess | groups raw => exact onward
    | positional arg =>
      obtain ⟨check, groups⟩ := plain.1
      rw [List.foldl_cons, ← onward]
      simp only [spelling, List.flatMap_cons, Argument.spelled, List.cons_append]
      rw [readFlags]
      · rfl
      · exact fun same => check same
      · exact fun same _ => groups same
      · exact fun _ _ same _ => groups same

-- Every command line is spelled in one way, save that nothing may follow a last `--groups`.
theorem spelling_cases (args : List String) (flags : StartupFlags) :
    ∃ arguments, (∀ argument ∈ arguments, argument.Plain) ∧
      (args = spelling arguments ∨ args = spelling arguments ++ ["--groups"]) := by
  fun_induction readFlags args flags with
  | case1 => exact ⟨[], by simp, .inl rfl⟩
  | case2 rest flags ih =>
    obtain ⟨arguments, plain, same⟩ := ih
    refine ⟨.checkAccess :: arguments, List.forall_mem_cons.mpr ⟨trivial, plain⟩, ?_⟩
    exact same.imp (fun same => by rw [same]; rfl) (fun same => by rw [same]; rfl)
  | case3 => exact ⟨[], by simp, .inr rfl⟩
  | case4 raw rest flags ih =>
    obtain ⟨arguments, plain, same⟩ := ih
    refine ⟨.groups raw :: arguments, List.forall_mem_cons.mpr ⟨trivial, plain⟩, ?_⟩
    exact same.imp (fun same => by rw [same]; rfl) (fun same => by rw [same]; rfl)
  | case5 arg rest flags check alone followed ih =>
    obtain ⟨arguments, plain, same⟩ := ih
    have other : arg ≠ "--groups" := by
      intro groups
      cases rest with
      | nil => exact alone groups rfl
      | cons raw rest => exact followed raw rest groups rfl
    refine ⟨.positional arg :: arguments, List.forall_mem_cons.mpr ⟨⟨check, other⟩, plain⟩, ?_⟩
    exact same.imp (fun same => by rw [same]; rfl) (fun same => by rw [same]; rfl)

-- What a command line says: whether to check, the last groups it names, and the rest in order.
def summary (arguments : List Argument) : StartupFlags where
  checkAccess := arguments.any Argument.isCheck
  groups := (arguments.filterMap Argument.raw).getLast?
  positional := arguments.filterMap Argument.text

theorem foldl_apply (arguments : List Argument) (flags : StartupFlags) :
    arguments.foldl Argument.apply flags =
      ⟨flags.checkAccess || (summary arguments).checkAccess, (summary arguments).groups.or flags.groups,
        flags.positional ++ (summary arguments).positional⟩ := by
  induction arguments generalizing flags with
  | nil => simp [summary]
  | cons argument rest ih =>
    rw [List.foldl_cons, ih]
    cases argument with
    | checkAccess | positional arg =>
      simp [summary, Argument.apply, Argument.isCheck, Argument.raw, Argument.text, List.filterMap_cons]
    | groups raw =>
      simp only [summary, Argument.apply, List.any_cons, Argument.isCheck, Argument.raw, Argument.text,
        List.filterMap_cons, Bool.false_or, List.getLast?_cons]
      cases (rest.filterMap Argument.raw).getLast? <;> rfl

theorem readFlags_spelling {arguments : List Argument} (plain : ∀ argument ∈ arguments, argument.Plain) :
    readFlags (spelling arguments) {} = .ok (summary arguments) := by
  have read := readFlags_spelled arguments plain [] {}
  rw [List.append_nil, foldl_apply] at read
  simpa [readFlags] using read

theorem readFlags_ok_iff {args : List String} {flags : StartupFlags} :
    readFlags args {} = .ok flags ↔
      ∃ arguments, (∀ argument ∈ arguments, argument.Plain) ∧ args = spelling arguments ∧
      flags = summary arguments := by
  constructor
  · intro read
    obtain ⟨arguments, plain, rfl | rfl⟩ := spelling_cases args {}
    · rw [readFlags_spelling plain] at read
      exact ⟨arguments, plain, rfl, (Except.ok.inj read).symm⟩
    · rw [readFlags_spelled arguments plain] at read
      cases read
  · rintro ⟨arguments, plain, rfl, rfl⟩
    exact readFlags_spelling plain

theorem checkFlags_ok_iff {flags : StartupFlags} {groups : List String} :
    checkFlags flags = .ok groups ↔
      if flags.checkAccess then groups ≠ [] ∧ ∃ raw, flags.groups = some raw ∧ groups = scenarioGroups raw
      else groups = [] ∧ flags.groups = none := by
  unfold checkFlags
  cases flags.groups with
  | none => cases flags.checkAccess <;> simp [eq_comm]
  | some raw =>
    cases flags.checkAccess with
    | false => simp
    | true =>
      simp only [Bool.not_true, Bool.false_eq_true, if_false, if_true, Option.some.injEq, exists_eq_left']
      split
      next empty => simp [empty]
      next named =>
        rw [Except.ok.injEq]
        constructor
        · rintro rfl
          exact ⟨named, rfl⟩
        · rintro ⟨_, rfl⟩
          rfl

section

variable {disk : Disk} {cwd : Path}

def Disk.hasFile (disk : Disk) (path : PathBuf) : Bool := (disk.stat path).toOption.any Metadata.isFile

theorem run_firstFile (candidates : List FsPath) :
    disk.run (firstFile candidates) =
      (((candidates.find? fun candidate => disk.hasFile candidate.parts).map .ok).getD
        (.error configPathRequiredError), disk) := by
  induction candidates with
  | nil => rfl
  | cons candidate rest ih =>
    unfold firstFile
    rw [Disk.run_bind, run_metadata, List.find?_cons]
    cases found : disk.stat candidate.parts with
    | error error =>
      rw [show disk.hasFile candidate.parts = false by simp [Disk.hasFile, found, Except.toOption]]
      exact ih
    | ok metadata =>
      rw [show disk.hasFile candidate.parts = metadata.isFile by simp [Disk.hasFile, found, Except.toOption]]
      cases regular : metadata.isFile with
      | true => simp [regular]
      | false => simpa [regular] using ih

def Settles (disk : Disk) (cwd : Path) (named : List String) (path : FsPath) : Prop :=
  (∃ arg, named = [arg] ∧ path = .ofText arg) ∨
    (named = [] ∧ (defaultConfigs cwd).find? (fun candidate => disk.hasFile candidate.parts) = some path)

theorem resolveConfigPath_ok_iff {named : List String} {path : FsPath} :
    (disk.run (resolveConfigPath named cwd)).1 = .ok path ↔ Settles disk cwd named path := by
  unfold resolveConfigPath
  split
  next =>
    rw [run_firstFile]
    simp only [Settles, defaultConfigs]
    cases List.find? _ _ <;> simp
  next arg => simp [Settles, eq_comm]
  next several none one =>
    constructor
    · intro ran
      cases ran
    · rintro (⟨arg, same, _⟩ | ⟨same, _⟩)
      · exact (one arg same).elim
      · exact (none same).elim

attribute [local irreducible] Fallible.Only

theorem firstFile_reads (candidates : List FsPath) : (firstFile candidates).Only Op.Reads := by
  induction candidates with
  | nil => simp [firstFile]
  | cons candidate rest ih =>
    unfold firstFile
    refine Fallible.only_bind (Fallible.only_call trivial) fun found => ?_
    split
    · split
      · simp
      · exact ih
    · exact ih

theorem resolveStartupOptions_reads (args : List String) (cwd : Path) :
    (resolveStartupOptions args cwd).Only Op.Reads := by
  unfold resolveStartupOptions resolveConfigPath
  refine Fallible.only_bind (by simp) fun flags => ?_
  refine Fallible.only_bind (by simp) fun groups => ?_
  refine Fallible.only_bind ?_ fun path => by simp
  split
  · exact firstFile_reads _
  · simp
  · simp

theorem resolveStartupOptions_ok_iff {args : List String} {options : StartupOptions} :
    (disk.run (resolveStartupOptions args cwd)).1 = .ok options ↔
      ∃ flags, readFlags args {} = .ok flags ∧ options.checkAccess = flags.checkAccess ∧
        checkFlags flags = .ok options.groups ∧
        (disk.run (resolveConfigPath flags.positional cwd)).1 = .ok options.configPath := by
  obtain ⟨checkAccess, groups, configPath⟩ := options
  unfold resolveStartupOptions
  rw [Disk.run_bind, Disk.run_ofExcept]
  cases read : readFlags args {} with
  | error error => simp
  | ok flags =>
    dsimp only
    rw [Disk.run_bind, Disk.run_ofExcept]
    cases checked : checkFlags flags with
    | error error => simp [checked]
    | ok named =>
      dsimp only
      rw [Disk.run_bind]
      cases settled : disk.run (resolveConfigPath flags.positional cwd) with
      | mk outcome after => cases outcome <;> simp [checked, settled, eq_comm]

-- The command lines that are accepted, and what they ask for: flags and config path in any order, the last
-- `--groups` counting, with groups exactly where there is a check and at most one config path.
theorem resolveStartupOptions_iff (disk : Disk) (cwd : Path) (args : List String) (options : StartupOptions) :
    (disk.run (resolveStartupOptions args cwd)).1 = .ok options ↔
      ∃ arguments : List Argument, (∀ argument ∈ arguments, argument.Plain) ∧ args = spelling arguments ∧
        options.checkAccess = arguments.any Argument.isCheck ∧
        (if options.checkAccess then
            options.groups ≠ [] ∧ ∃ raw, (arguments.filterMap Argument.raw).getLast? = some raw ∧
              options.groups = scenarioGroups raw
          else options.groups = [] ∧ arguments.filterMap Argument.raw = []) ∧
        Settles disk cwd (arguments.filterMap Argument.text) options.configPath := by
  rw [resolveStartupOptions_ok_iff]
  constructor
  · rintro ⟨flags, read, check, groups, settled⟩
    obtain ⟨arguments, plain, spelled, rfl⟩ := readFlags_ok_iff.mp read
    rw [checkFlags_ok_iff, ← check] at groups
    exact ⟨arguments, plain, spelled, check, by simpa [summary] using groups,
      resolveConfigPath_ok_iff.mp settled⟩
  · rintro ⟨arguments, plain, spelled, check, groups, settled⟩
    refine ⟨summary arguments, readFlags_ok_iff.mpr ⟨arguments, plain, spelled, rfl⟩, check, ?_,
      resolveConfigPath_ok_iff.mpr settled⟩
    rw [checkFlags_ok_iff, show (summary arguments).checkAccess = options.checkAccess from check.symm]
    simpa [summary] using groups

end

end Yafm
