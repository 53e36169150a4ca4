import Yafm.Shared.Text

set_option autoImplicit false

-- File names are byte strings. A path resolves component by component and follows symbolic links.

namespace Posix

open Text

def ValidName (bytes : Bytes) : Prop :=
  bytes ≠ [] ∧ asciiByte '/' ∉ bytes ∧ (0 : UInt8) ∉ bytes ∧ bytes ≠ asBytes "." ∧ bytes ≠ asBytes ".."

instance (bytes : Bytes) : Decidable (ValidName bytes) := by
  unfold ValidName
  infer_instance

structure Name where
  bytes : Bytes
  valid : ValidName bytes
  deriving DecidableEq

@[ext] theorem Name.ext {a b : Name} (same : a.bytes = b.bytes) : a = b := by
  cases a
  cases b
  cases same
  rfl

theorem Name.bytes_injective : Function.Injective Name.bytes := fun _ _ => Name.ext

-- A path from the top of the tree that no link or dot component is left in.
abbrev Path := List Name

inductive Node (α : Type) where
  | file (data : α)
  | symlink (target : Bytes)
  | dir (entries : List (Name × Node α))

inductive Kind (α : Type) where
  | file (data : α)
  | symlink (target : Bytes)
  | dir

inductive IoError where
  | notFound
  | permissionDenied
  | notADirectory
  | isADirectory
  | filesystemLoop
  | readOnlyFilesystem
  | invalidInput
  | invalidFilename
  | other
  deriving DecidableEq, Repr

variable {α : Type}

def Node.kind : Node α → Kind α
  | .file data => .file data
  | .symlink target => .symlink target
  | .dir _ => .dir

def Node.isDir : Node α → Bool
  | .dir _ => true
  | _ => false

def Node.isFile : Node α → Bool
  | .file _ => true
  | _ => false

def Node.isSymlink : Node α → Bool
  | .symlink _ => true
  | _ => false

def lookup (entries : List (Name × Node α)) (name : Name) : Option (Node α) :=
  (entries.find? fun entry => entry.1 = name).map Prod.snd

theorem lookup_of_mem {entries : List (Name × Node α)} {name : Name} {node : Node α}
    (distinct : (entries.map Prod.fst).Nodup) (member : (name, node) ∈ entries) :
    lookup entries name = some node := by
  induction entries with
  | nil => cases member
  | cons entry rest ih =>
    rw [List.map_cons, List.nodup_cons] at distinct
    rcases List.mem_cons.mp member with rfl | later
    · simp [lookup]
    · have other : entry.1 ≠ name := fun same => distinct.1 (same ▸ List.mem_map_of_mem later)
      have onward := ih distinct.2 later
      rw [lookup] at onward ⊢
      rwa [List.find?_cons_of_neg (by simpa using other)]

def Node.get : Node α → Path → Option (Node α)
  | node, [] => some node
  | .dir entries, name :: rest =>
    match lookup entries name with
    | some child => child.get rest
    | none => none
  | _, _ :: _ => none

@[simp] theorem Node.get_nil (node : Node α) : node.get [] = some node := by
  cases node <;> rfl

theorem Node.get_cons (node : Node α) (name : Name) (rest : Path) :
    node.get (name :: rest) = (node.get [name]).bind fun child => child.get rest := by
  cases node with
  | file | symlink => rfl
  | dir entries =>
    simp only [Node.get]
    cases lookup entries name <;> simp

theorem Node.get_append (node : Node α) (front back : Path) :
    node.get (front ++ back) = (node.get front).bind fun child => child.get back := by
  induction front generalizing node with
  | nil => simp
  | cons name rest ih =>
    rw [List.cons_append, Node.get_cons, Node.get_cons node name rest, Option.bind_assoc]
    simp only [ih]

theorem Node.get_singleton (node : Node α) (name : Name) :
    node.get [name] = match node with
      | .dir entries => lookup entries name
      | _ => none := by
  cases node with
  | file | symlink => rfl
  | dir entries =>
    simp only [Node.get]
    cases lookup entries name <;> rfl

theorem Node.get_concat (node : Node α) (path : Path) (name : Name) :
    node.get (path ++ [name]) = match node.get path with
      | some (.dir entries) => lookup entries name
      | _ => none := by
  rw [Node.get_append]
  cases found : node.get path with
  | none => rfl
  | some child =>
    rw [Option.bind_some, Node.get_singleton]
    cases child <;> rfl

theorem Node.isDir_of_get_append {node parent : Node α} {front back : Path}
    (found : node.get front = some parent) (below : back ≠ []) (inside : (node.get (front ++ back)).isSome) :
    parent.isDir := by
  rw [Node.get_append, found, Option.bind_some] at inside
  cases parent with
  | dir => rfl
  | file | symlink =>
    cases back with
    | nil => exact absurd rfl below
    | cons name rest => simp [Node.get] at inside

theorem Node.get_prefix {node leaf : Node α} {front path : Path} (leads : front <+: path)
    (found : node.get path = some leaf) : ∃ child, node.get front = some child := by
  obtain ⟨back, rfl⟩ := leads
  rw [Node.get_append] at found
  obtain ⟨child, here, _⟩ := Option.bind_eq_some_iff.mp found
  exact ⟨child, here⟩

inductive Component where
  | current
  | parent
  | name (name : Name)
  deriving DecidableEq

-- An empty part, as between two slashes, stays in the directory. A name with a NUL byte is no name.
def component (bytes : Bytes) : Option Component :=
  if bytes = [] ∨ bytes = asBytes "." then some .current
  else if bytes = asBytes ".." then some .parent
  else if valid : ValidName bytes then some (.name ⟨bytes, valid⟩)
  else none

def components (parts : List Bytes) : Option (List Component) := parts.mapM component

def pathParts (path : Bytes) : List Bytes := path.splitOn (asciiByte '/')

def isAbsolute (path : Bytes) : Bool := path.head? = some (asciiByte '/')

-- What a directory answers for a name it does not hold; a file system may have a longest name.
def absent (limit : Option Nat) (name : Name) : IoError :=
  if limit.any fun longest => longest < name.bytes.length then .invalidFilename else .notFound

@[simp] theorem absent_unlimited (name : Name) : absent none name = .notFound := rfl

theorem absent_notFound_iff (limit : Option Nat) (name : Name) :
    absent limit name = .notFound ↔ ∀ longest ∈ limit, name.bytes.length ≤ longest := by
  cases limit <;> simp [absent]

def walkWith (limit : Option Nat) (root : Node α) (follow : Path → List Component → Except IoError Path) :
    Path → List Component → Except IoError Path
  | here, [] => .ok here
  | here, .current :: rest =>
    match root.get here with
    | some (.dir _) => walkWith limit root follow here rest
    | _ => .error .notADirectory
  | here, .parent :: rest =>
    match root.get here with
    | some (.dir _) => walkWith limit root follow here.dropLast rest
    | _ => .error .notADirectory
  | here, .name name :: rest =>
    match root.get here with
    | some (.dir entries) =>
      match lookup entries name with
      | none => .error (absent limit name)
      | some (.symlink target) =>
        match components (pathParts target) with
        | none => .error .invalidInput
        | some link => follow (if isAbsolute target then [] else here) (link ++ rest)
      | some _ => walkWith limit root follow (here ++ [name]) rest
    | _ => .error .notADirectory

-- Resolution that follows at most `links` symbolic links.
def walk (limit : Option Nat) (root : Node α) : Nat → Path → List Component → Except IoError Path
  | 0 => walkWith limit root fun _ _ => .error .filesystemLoop
  | links + 1 => walkWith limit root (walk limit root links)

def maxLinks : Nat := 40

def canonicalize (limit : Option Nat) (root : Node α) (path : List Component) : Except IoError Path :=
  walk limit root maxLinks [] path

def stat (limit : Option Nat) (root : Node α) (path : List Component) : Except IoError (Path × Node α) :=
  match canonicalize limit root path with
  | .error error => .error error
  | .ok canonical =>
    match root.get canonical with
    | some node => .ok (canonical, node)
    | none => .error .notFound

-- The entry that the directory at a path holds under a name, which may be a link.
def entry (limit : Option Nat) (root : Node α) (path : List Component) (name : Name) :
    Except IoError (Path × Node α) :=
  match canonicalize limit root path with
  | .error error => .error error
  | .ok parent =>
    match root.get parent with
    | some (.dir entries) =>
      match lookup entries name with
      | some node => .ok (parent ++ [name], node)
      | none => .error (absent limit name)
    | _ => .error .notADirectory

def lstat (limit : Option Nat) (root : Node α) (path : List Component) : Except IoError (Path × Node α) :=
  match path.getLast? with
  | some (.name name) => entry limit root path.dropLast name
  | _ => stat limit root path

def readDir (limit : Option Nat) (root : Node α) (path : List Component) :
    Except IoError (List (Name × Node α)) :=
  match stat limit root path with
  | .ok (_, .dir entries) => .ok entries
  | .ok _ => .error .notADirectory
  | .error error => .error error

def Node.remove : Node α → Path → Node α
  | .dir entries, [name] => .dir (entries.filter fun entry => entry.1 ≠ name)
  | .dir entries, name :: rest =>
    .dir (entries.map fun entry => if entry.1 = name then (entry.1, entry.2.remove rest) else entry)
  | node, _ => node

-- The entry that goes: the last component, in the directory that holds it, unless it is a directory itself.
def unlink (limit : Option Nat) (root : Node α) (path : List Component) : Except IoError Path :=
  match path.getLast? with
  | some (.name name) =>
    match entry limit root path.dropLast name with
    | .ok (_, .dir _) => .error .isADirectory
    | .ok (target, _) => .ok target
    | .error error => .error error
  | _ => .error .isADirectory

variable {limit : Option Nat}

-- An entry that is there and is no link itself; the directories above it are directories.
def Node.Canonical (root : Node α) (path : Path) : Prop :=
  ∃ node, root.get path = some node ∧ node.isSymlink = false

theorem Node.isSymlink_of_isDir {node : Node α} (directory : node.isDir) : node.isSymlink = false := by
  cases node with
  | file | symlink => cases directory
  | dir => rfl

theorem Node.Canonical.above {root : Node α} {front path : Path} (canonical : root.Canonical path)
    (leads : front <+: path) : root.Canonical front := by
  obtain ⟨node, found, plain⟩ := canonical
  obtain ⟨back, rfl⟩ := leads
  obtain ⟨child, here⟩ := Node.get_prefix (List.prefix_append front back) found
  refine ⟨child, here, ?_⟩
  by_cases empty : back = []
  · subst empty
    rw [List.append_nil, here] at found
    cases found
    exact plain
  · exact Node.isSymlink_of_isDir (Node.isDir_of_get_append here empty (by simp [found]))

theorem Node.Canonical.of_isDir {root node : Node α} {path : Path} (found : root.get path = some node)
    (directory : node.isDir) : root.Canonical path :=
  ⟨node, found, Node.isSymlink_of_isDir directory⟩

theorem walkWith_canonical (limit : Option Nat) (root : Node α)
    (follow : Path → List Component → Except IoError Path)
    (onward : ∀ here todo canonical, root.Canonical here → follow here todo = .ok canonical →
      root.Canonical canonical)
    (todo : List Component) (here canonical : Path) (start : root.Canonical here)
    (reached : walkWith limit root follow here todo = .ok canonical) : root.Canonical canonical := by
  induction todo generalizing here with
  | nil =>
    cases reached
    exact start
  | cons step rest ih =>
    cases step with
    | current =>
      simp only [walkWith] at reached
      split at reached
      · exact ih here start reached
      · cases reached
    | parent =>
      simp only [walkWith] at reached
      split at reached
      · exact ih here.dropLast (start.above (List.dropLast_prefix here)) reached
      · cases reached
    | name name =>
      simp only [walkWith] at reached
      split at reached
      next entries found =>
        split at reached
        · cases reached
        · split at reached
          · cases reached
          · refine onward _ _ _ ?_ reached
            split
            · exact start.above List.nil_prefix
            · exact start
        next child plain present =>
          refine ih _ ⟨child, ?_, ?_⟩ reached
          · rw [Node.get_concat, found]
            exact present
          · cases child with
            | file | dir => rfl
            | symlink target => exact absurd rfl (plain target)
      · cases reached

theorem walk_canonical (limit : Option Nat) (root : Node α) (links : Nat) (here : Path)
    (todo : List Component) (canonical : Path) (start : root.Canonical here)
    (reached : walk limit root links here todo = .ok canonical) : root.Canonical canonical := by
  induction links generalizing here todo canonical with
  | zero =>
    exact walkWith_canonical limit root _ (fun _ _ _ _ impossible => by simp at impossible)
      _ _ _ start reached
  | succ links ih =>
    exact walkWith_canonical limit root _ (fun here todo canonical => ih here todo canonical)
      _ _ _ start reached

theorem canonicalize_canonical {root : Node α} {path : List Component} {canonical : Path}
    (directory : root.isDir) (reached : canonicalize limit root path = .ok canonical) :
    root.Canonical canonical :=
  walk_canonical limit root maxLinks [] path canonical (.of_isDir (Node.get_nil root) directory) reached

theorem walk_nil (limit : Option Nat) (root : Node α) (links : Nat) (here : Path) :
    walk limit root links here [] = .ok here := by
  cases links <;> rfl

theorem walk_name {root node : Node α} {here : Path} {name : Name} (links : Nat) (rest : List Component)
    (found : root.get (here ++ [name]) = some node) (plain : node.isSymlink = false) :
    walk limit root links here (.name name :: rest) = walk limit root links (here ++ [name]) rest := by
  rw [Node.get_concat] at found
  split at found
  next entries directory =>
    cases node with
    | symlink => cases plain
    | file | dir => cases links <;> simp only [walk, walkWith, directory, found]
  · cases found

theorem walk_names {root node : Node α} {here : Path} {names : Path} (links : Nat) (rest : List Component)
    (found : root.get (here ++ names) = some node) (plain : node.isSymlink = false) :
    walk limit root links here (names.map .name ++ rest) = walk limit root links (here ++ names) rest := by
  induction names generalizing here with
  | nil => simp
  | cons name others ih =>
    have step : here ++ name :: others = here ++ [name] ++ others := by simp
    rw [step] at found
    have canonical : root.Canonical (here ++ [name]) :=
      Node.Canonical.above ⟨node, found, plain⟩ (List.prefix_append _ others)
    obtain ⟨child, present, plainChild⟩ := canonical
    rw [List.map_cons, List.cons_append, walk_name links _ present plainChild, ih found, step]

theorem canonicalize_append {root : Node α} {path : Path} (canonical : root.Canonical path)
    (rest : List Component) :
    canonicalize limit root (path.map .name ++ rest) = walk limit root maxLinks path rest := by
  obtain ⟨node, found, plain⟩ := canonical
  have step :
      walk limit root maxLinks [] (path.map .name ++ rest) = walk limit root maxLinks ([] ++ path) rest :=
    walk_names maxLinks rest (by simpa using found) plain
  simpa [canonicalize] using step

theorem canonicalize_self {root : Node α} {path : Path} (canonical : root.Canonical path) :
    canonicalize limit root (path.map .name) = .ok path := by
  have step : canonicalize limit root (path.map .name ++ []) = _ := canonicalize_append canonical []
  rwa [List.append_nil, walk_nil] at step

theorem walk_missing {root : Node α} {here front : Path} {entries : List (Name × Node α)} {name : Name}
    (links : Nat) (rest : List Component) (found : root.get (here ++ front) = some (.dir entries))
    (missing : lookup entries name = none) :
    walk limit root links here (front.map .name ++ .name name :: rest) = .error (absent limit name) := by
  rw [walk_names links _ found rfl]
  cases links <;> simp only [walk, walkWith, found, missing]

theorem walk_through_leaf {root leaf : Node α} {here front : Path} (links : Nat) (step : Component)
    (rest : List Component) (found : root.get (here ++ front) = some leaf) (plain : leaf.isSymlink = false)
    (notDir : leaf.isDir = false) :
    walk limit root links here (front.map .name ++ step :: rest) = .error .notADirectory := by
  rw [walk_names links _ found plain]
  cases leaf with
  | symlink => cases plain
  | dir => cases notDir
  | file => cases links <;> cases step <;> simp only [walk, walkWith, found]

theorem component_name (name : Name) : component name.bytes = some (.name name) := by
  obtain ⟨nonempty, _, _, notCurrent, notParent⟩ := name.valid
  simp [component, nonempty, notCurrent, notParent, name.valid]

theorem component_eq_name {bytes : Bytes} {name : Name} (parsed : component bytes = some (.name name)) :
    bytes = name.bytes := by
  unfold component at parsed
  split at parsed
  · cases parsed
  split at parsed
  · cases parsed
  split at parsed
  · cases parsed
    rfl
  · cases parsed

theorem components_append (front back : List Bytes) :
    components (front ++ back) = (components front).bind fun left => (components back).map (left ++ ·) := by
  induction front with
  | nil => simp [components]
  | cons part rest ih =>
    simp only [components, List.cons_append, List.mapM_cons] at ih ⊢
    rw [ih]
    cases component part with
    | none => rfl
    | some step => cases rest.mapM component <;> cases back.mapM component <;> rfl

theorem components_names (path : Path) : components (path.map Name.bytes) = some (path.map .name) := by
  induction path with
  | nil => rfl
  | cons name rest ih =>
    simp only [components, List.map_cons, List.mapM_cons, component_name] at ih ⊢
    rw [ih]
    rfl

-- A part that names an entry, or stays in the directory.
def Spells (part : Bytes) : Prop := part = [] ∨ part = asBytes "." ∨ ValidName part

theorem exists_path {parts : List Bytes} (valid : ∀ part ∈ parts, ValidName part) :
    ∃ path : Path, path.map Name.bytes = parts := by
  refine ⟨parts.pmap Name.mk valid, ?_⟩
  simp [List.map_pmap]

theorem stat_ok {root : Node α} {path : List Component} {located : Path × Node α}
    (found : stat limit root path = .ok located) :
    canonicalize limit root path = .ok located.1 ∧ root.get located.1 = some located.2 := by
  unfold stat at found
  split at found
  · cases found
  next canonical reached =>
    split at found
    next node present =>
      cases found
      exact ⟨reached, present⟩
    · cases found

theorem entry_ok {root : Node α} {path : List Component} {name : Name} {located : Path × Node α}
    (found : entry limit root path name = .ok located) :
    ∃ parent entries, canonicalize limit root path = .ok parent ∧ root.get parent = some (.dir entries) ∧
      located.1 = parent ++ [name] ∧ root.get located.1 = some located.2 := by
  unfold entry at found
  split at found
  · cases found
  next parent reached =>
    split at found
    next entries directory =>
      split at found
      next node present =>
        cases found
        refine ⟨parent, entries, reached, directory, rfl, ?_⟩
        rw [Node.get_concat, directory]
        exact present
      · cases found
    · cases found

theorem entry_canonical {root : Node α} {parent : Path} {name : Name} {located : Path × Node α}
    (canonical : root.Canonical parent) (found : entry limit root (parent.map .name) name = .ok located) :
    located.1 = parent ++ [name] ∧ root.get (parent ++ [name]) = some located.2 := by
  obtain ⟨holder, entries, reached, _, place, present⟩ := entry_ok found
  rw [canonicalize_self canonical, Except.ok.injEq] at reached
  subst reached
  exact ⟨place, place ▸ present⟩

theorem lstat_name (limit : Option Nat) (root : Node α) (path : List Component) (name : Name) :
    lstat limit root (path ++ [.name name]) = entry limit root path name := by
  simp [lstat]

theorem unlink_ok {root : Node α} {path : List Component} {target : Path}
    (removed : unlink limit root path = .ok target) :
    ∃ node front name, path = front ++ [.name name] ∧ entry limit root front name = .ok (target, node) ∧
      node.isDir = false := by
  unfold unlink at removed
  split at removed
  next name last =>
    split at removed
    · cases removed
    next target node notDir found =>
      cases removed
      refine ⟨node, path.dropLast, name, ?_, found, ?_⟩
      · exact (List.dropLast_append_getLast? _ last).symm
      · cases node with
        | dir entries => exact absurd rfl (notDir entries)
        | file | symlink => rfl
    · cases removed
  · cases removed

def Node.SymlinkFree (root : Node α) (top : Path) : Prop :=
  ∀ path target, root.get (top ++ path) ≠ some (.symlink target)

def names (todo : List Component) : Path :=
  todo.filterMap fun step => match step with
    | .name name => some name
    | _ => none

@[simp] theorem names_map (path : Path) : names (path.map .name) = path := by
  simp [names, List.filterMap_map]

theorem Node.SymlinkFree.plain {root node : Node α} {top path : Path} (free : root.SymlinkFree top)
    (found : root.get (top ++ path) = some node) : node.isSymlink = false := by
  cases node with
  | file | dir => rfl
  | symlink target => exact absurd found (free path target)

theorem walk_symlinkFree {root : Node α} {top : Path} (free : root.SymlinkFree top) (links : Nat)
    (todo : List Component) (descending : Component.parent ∉ todo) (sub canonical : Path)
    (reached : walk limit root links (top ++ sub) todo = .ok canonical) :
    canonical = top ++ (sub ++ names todo) := by
  induction todo generalizing sub with
  | nil =>
    rw [walk_nil] at reached
    cases reached
    simp [names]
  | cons step rest ih =>
    rw [List.mem_cons, not_or] at descending
    cases step with
    | parent => exact absurd rfl descending.1
    | current =>
      have onward : walk limit root links (top ++ sub) rest = .ok canonical := by
        cases links <;>
        · simp only [walk, walkWith] at reached
          split at reached
          · exact reached
          · cases reached
      simpa [names] using ih descending.2 sub onward
    | name name =>
      cases found : root.get (top ++ sub ++ [name]) with
      | some node =>
        have below : root.get (top ++ (sub ++ [name])) = some node := by rw [← List.append_assoc, found]
        have plain := free.plain below
        rw [walk_name links rest found plain, List.append_assoc] at reached
        simpa [names] using ih descending.2 (sub ++ [name]) reached
      | none =>
        rw [Node.get_concat] at found
        cases links <;>
        · simp only [walk, walkWith] at reached
          split at reached
          next entries directory =>
            rw [directory] at found
            simp only at found
            rw [found] at reached
            cases reached
          · cases reached

def chain : Path → Node α → Node α
  | [], leaf => leaf
  | name :: rest, leaf => .dir [(name, chain rest leaf)]

def Node.isLeaf : Node α → Bool
  | .file _ => true
  | .symlink _ => false
  | .dir entries => entries.isEmpty

theorem Node.get_leaf {leaf node : Node α} {path : Path} (bare : leaf.isLeaf)
    (found : leaf.get path = some node) :
    path = [] ∧ node = leaf := by
  cases path with
  | nil => exact ⟨rfl, (Option.some.inj (by simpa using found)).symm⟩
  | cons name rest =>
    cases leaf with
    | file | symlink => simp [Node.get] at found
    | dir entries =>
      cases entries with
      | nil => simp [Node.get, lookup] at found
      | cons => cases bare

theorem chain_get_append (front back : Path) (leaf : Node α) :
    (chain (front ++ back) leaf).get front = some (chain back leaf) := by
  induction front with
  | nil => simp
  | cons name rest ih => simpa [chain, Node.get, lookup] using ih

theorem chain_get_some {path query : Path} {leaf node : Node α} (bare : leaf.isLeaf)
    (found : (chain path leaf).get query = some node) :
    ∃ back, path = query ++ back ∧ node = chain back leaf := by
  induction path generalizing query with
  | nil =>
    obtain ⟨rfl, rfl⟩ := Node.get_leaf bare found
    exact ⟨[], rfl, rfl⟩
  | cons name rest ih =>
    cases query with
    | nil => exact ⟨name :: rest, rfl, by simpa using found.symm⟩
    | cons other below =>
      by_cases same : name = other
      · subst same
        obtain ⟨back, rfl, rfl⟩ := ih (by simpa [chain, Node.get, lookup] using found)
        exact ⟨back, rfl, rfl⟩
      · simp [chain, Node.get, lookup, same] at found

theorem chain_symlinkFree {path : Path} {leaf : Node α} (bare : leaf.isLeaf) :
    (chain path leaf).SymlinkFree [] := by
  intro query target found
  obtain ⟨back, _, link⟩ := chain_get_some bare found
  cases back with
  | nil =>
    rw [chain] at link
    rw [← link] at bare
    cases bare
  | cons => cases link

theorem prefix_or_diverges (query path : Path) :
    query <+: path ∨ ∃ front name rest, query = front ++ name :: rest ∧ front <+: path ∧
      ¬front ++ [name] <+: path := by
  induction query generalizing path with
  | nil => exact Or.inl List.nil_prefix
  | cons name rest ih =>
    cases path with
    | nil => exact Or.inr ⟨[], name, rest, rfl, List.nil_prefix, by simp⟩
    | cons other below =>
      by_cases same : name = other
      · subst same
        rcases ih below with inside | ⟨front, next, tail, rfl, leads, leaves⟩
        · exact Or.inl (by simpa using inside)
        · exact Or.inr ⟨name :: front, next, tail, rfl, by simpa using leads, by simpa using leaves⟩
      · exact Or.inr ⟨[], name, rest, rfl, List.nil_prefix, by simpa using same⟩

theorem walk_chain_missing {path query : Path} {leaf : Node α} (links : Nat) (outside : ¬query <+: path)
    (open' : leaf = .dir [] ∨ ¬path <+: query) :
    walk none (chain path leaf) links [] (query.map .name) = .error .notFound := by
  rcases prefix_or_diverges query path with inside | ⟨front, name, rest, rfl, ⟨back, rfl⟩, leaves⟩
  · exact absurd inside outside
  · have here := chain_get_append front back leaf
    have missing : ∃ entries, chain back leaf = .dir entries ∧ lookup entries name = none := by
      cases back with
      | nil =>
        rcases open' with rfl | apart
        · exact ⟨[], rfl, rfl⟩
        · exact absurd (by simp) apart
      | cons next below =>
        refine ⟨_, rfl, ?_⟩
        have different : next ≠ name := by
          rintro rfl
          exact leaves ⟨below, by simp⟩
        simp [lookup, different]
    obtain ⟨entries, directory, gone⟩ := missing
    rw [List.map_append, List.map_cons]
    have entered : (chain (front ++ back) leaf).get ([] ++ front) = some (.dir entries) := by
      rw [List.nil_append, here, directory]
    exact walk_missing links _ entered gone

theorem Node.isDir_prefix {root : Node α} {front back : Path} {entries : List (Name × Node α)}
    (found : root.get (front ++ back) = some (.dir entries)) :
    ∃ above, root.get front = some (.dir above) := by
  obtain ⟨child, here⟩ := Node.get_prefix (List.prefix_append front back) found
  have directory : child.isDir := by
    by_cases empty : back = []
    · rw [empty, List.append_nil, here, Option.some.injEq] at found
      rw [found]
      rfl
    · exact Node.isDir_of_get_append here empty (by simp [found])
  cases child with
  | dir above => exact ⟨above, here⟩
  | file | symlink => cases directory

theorem entry_chain (dirs : Path) (last name : Name) (leaf : Node α) :
    entry none (chain (dirs ++ [last]) leaf) (dirs.map .name) name =
      if name = last then .ok (dirs ++ [last], leaf) else .error .notFound := by
  have here : (chain (dirs ++ [last]) leaf).get dirs = some (.dir [(last, leaf)]) :=
    chain_get_append dirs [last] leaf
  have canonical : (chain (dirs ++ [last]) leaf).Canonical dirs := .of_isDir here rfl
  simp only [entry, canonicalize_self canonical, here]
  by_cases same : name = last
  · subst same
    simp [lookup]
  · simp [lookup, Ne.symm same, same]

theorem walk_reaches {root : Node α} {todo : List Component} {here : Path} {entries : List (Name × Node α)}
    (links : Nat) (descending : Component.parent ∉ todo)
    (found : root.get (here ++ names todo) = some (.dir entries)) :
    walk limit root links here todo = .ok (here ++ names todo) := by
  induction todo generalizing here with
  | nil => simp [walk_nil, names]
  | cons step rest ih =>
    rw [List.mem_cons, not_or] at descending
    cases step with
    | parent => exact absurd rfl descending.1
    | current =>
      have below : root.get (here ++ names rest) = some (.dir entries) := by simpa [names] using found
      have onward := ih descending.2 below
      obtain ⟨above, directory⟩ := Node.isDir_prefix found
      cases links <;> simpa [walk, walkWith, directory, names] using onward
    | name name =>
      have below : root.get (here ++ [name] ++ names rest) = some (.dir entries) := by
        simpa [names] using found
      obtain ⟨above, directory⟩ := Node.isDir_prefix below
      rw [walk_name links rest directory rfl, ih descending.2 below]
      simp [names]

-- The names among the parts: an empty part and a dot stay in the directory.
def nameParts (parts : List Bytes) : List Bytes := parts.filter fun part => part ≠ [] && part ≠ asBytes "."

theorem components_names_eq {parts : List Bytes} {todo : List Component}
    (parsed : components parts = some todo) (descending : asBytes ".." ∉ parts) :
    Component.parent ∉ todo ∧ (names todo).map Name.bytes = nameParts parts := by
  induction parts generalizing todo with
  | nil =>
    cases parsed
    simp [names, nameParts]
  | cons part rest ih =>
    rw [List.mem_cons, not_or] at descending
    simp only [components, List.mapM_cons] at parsed ih
    cases step : component part with
    | none => simp [step] at parsed
    | some first =>
      cases onward : rest.mapM component with
      | none => simp [step, onward] at parsed
      | some others =>
        obtain ⟨noParent, same⟩ := ih onward descending.2
        have whole : first :: others = todo := by simpa [step, onward] using parsed
        subst whole
        unfold component at step
        split at step
        next still =>
          cases step
          have dropped : nameParts (part :: rest) = nameParts rest := by
            rcases still with rfl | rfl <;> simp [nameParts]
          exact ⟨by simpa using noParent, by rw [dropped, ← same]; simp [names]⟩
        next moves =>
          split at step
          next up => exact absurd up.symm descending.1
          next =>
            split at step
            next valid =>
              cases step
              rw [not_or] at moves
              refine ⟨by simpa using noParent, ?_⟩
              simp [names, nameParts, moves.1, moves.2] at same ⊢
              exact same
            · cases step

theorem components_of_spells {parts : List Bytes} (spells : ∀ part ∈ parts, Spells part) :
    ∃ todo, components parts = some todo := by
  induction parts with
  | nil => exact ⟨[], rfl⟩
  | cons part rest ih =>
    obtain ⟨todo, parsed⟩ := ih fun other member => spells other (List.mem_cons_of_mem _ member)
    simp only [components] at parsed ⊢
    rcases spells part (by simp) with rfl | rfl | name
    · exact ⟨.current :: todo, by simp [component, parsed]⟩
    · exact ⟨.current :: todo, by simp [component, parsed]⟩
    · exact ⟨.name ⟨part, name⟩ :: todo, by
        simp [parsed, component_name ⟨part, name⟩]⟩

-- the only part that leads up is not among them
theorem not_parent_of_spells {parts : List Bytes} (spells : ∀ part ∈ parts, Spells part) :
    asBytes ".." ∉ parts := by
  intro member
  rcases spells _ member with empty | dot | name
  · exact absurd empty (by decide)
  · exact absurd dot (by decide)
  · exact name.2.2.2.2 rfl

theorem steps_of_spells {parts : List Bytes} (spells : ∀ part ∈ parts, Spells part) :
    ∃ todo, components parts = some todo ∧ Component.parent ∉ todo ∧
    (names todo).map Name.bytes = nameParts parts := by
  obtain ⟨todo, parsed⟩ := components_of_spells spells
  exact ⟨todo, parsed, components_names_eq parsed (not_parent_of_spells spells)⟩

theorem exists_path_of_spells {parts : List Bytes} (spells : ∀ part ∈ parts, Spells part) :
    ∃ path : Path, path.map Name.bytes = nameParts parts := by
  refine exists_path fun part member => ?_
  obtain ⟨inside, kept⟩ := List.mem_filter.mp member
  simp only [ne_eq, Bool.and_eq_true, decide_eq_true_eq] at kept
  exact ((spells part inside).resolve_left kept.1).resolve_left kept.2

theorem lookup_filter (entries : List (Name × Node α)) (name other : Name) :
    lookup (entries.filter fun entry => entry.1 ≠ name) other =
      if other = name then none else lookup entries other := by
  induction entries with
  | nil => simp [lookup]
  | cons entry rest ih =>
    simp only [lookup] at ih ⊢
    by_cases dropped : entry.1 = name <;> by_cases hit : entry.1 = other <;>
      by_cases same : other = name <;> simp_all

theorem lookup_map (entries : List (Name × Node α)) (change : Node α → Node α) (name other : Name) :
    lookup (entries.map fun entry => if entry.1 = name then (entry.1, change entry.2) else entry) other =
      if other = name then (lookup entries other).map change else lookup entries other := by
  induction entries with
  | nil => simp [lookup]
  | cons entry rest ih =>
    simp only [lookup] at ih ⊢
    by_cases changed : entry.1 = name <;> by_cases hit : entry.1 = other <;>
      by_cases same : other = name <;> simp_all

theorem Node.kind_remove (node : Node α) (name : Name) (rest : Path) :
    (node.remove (name :: rest)).kind = node.kind := by
  cases node with
  | file | symlink => rfl
  | dir entries => cases rest <;> rfl

theorem kind_get_remove {root leaf : Node α} {path : Path} (nonempty : path ≠ [])
    (found : root.get path = some leaf) (notDir : leaf.isDir = false) (query : Path) :
    ((root.remove path).get query).map Node.kind =
      if query = path then none else (root.get query).map Node.kind := by
  induction path generalizing root query with
  | nil => exact absurd rfl nonempty
  | cons name rest ih =>
    cases query with
    | nil => simp [Node.kind_remove]
    | cons other below =>
      cases root with
      | file | symlink => simp [Node.get] at found
      | dir entries =>
        cases rest with
        | nil =>
          simp only [Node.remove, Node.get, lookup_filter]
          by_cases same : other = name
          · subst same
            cases below with
            | nil => simp
            | cons next others =>
              have leafAt : lookup entries other = some leaf := by
                simpa [Node.get_singleton] using found
              cases leaf <;> simp_all [Node.get, Node.isDir]
          · simp [same]
        | cons next others =>
          rw [Node.get_cons] at found
          obtain ⟨child, present, inside⟩ := Option.bind_eq_some_iff.mp found
          rw [Node.get_singleton] at present
          have changed := lookup_map entries (fun child => child.remove (next :: others)) name other
          simp only at changed present
          simp only [Node.remove, Node.get, changed]
          by_cases same : other = name
          · subst same
            simp only [present, if_true, Option.map_some]
            rw [ih (by simp) inside below]
            simp
          · simp [same]

end Posix
