import Yafm.Shared.Catalog
import Yafm.Spelling.Read

set_option autoImplicit false

namespace Yafm

open Text Posix Effect

def entryOfKind : Kind Bytes → Option (Catalog.Entry Bytes)
  | .file content => some (.file content)
  | .dir => some .directory
  | .symlink _ => none

theorem entryOfKind_dir {node : Node Bytes} (directory : entryOfKind node.kind = some .directory) :
    ∃ entries, node = .dir entries := by
  cases node with
  | dir entries => exact ⟨entries, rfl⟩
  | file | symlink => cases directory

theorem entryOfKind_file {node : Node Bytes} {content : Bytes}
    (file : entryOfKind node.kind = some (.file content)) : node = .file content := by
  cases node with
  | file other =>
    cases file
    rfl
  | dir | symlink => cases file

namespace Share

variable (share : Share)

def entry (path : Path) : Option (Catalog.Entry Bytes) :=
  ((share.disk.tree.get (share.root ++ path)).map Node.kind).bind entryOfKind

theorem entry_dir {path : Path} (directory : share.entry path = some .directory) :
    ∃ entries, share.disk.tree.get (share.root ++ path) = some (.dir entries) := by
  obtain ⟨kind, held, same⟩ := Option.bind_eq_some_iff.mp directory
  obtain ⟨node, found, rfl⟩ := Option.map_eq_some_iff.mp held
  obtain ⟨entries, rfl⟩ := entryOfKind_dir same
  exact ⟨entries, found⟩

theorem entry_file {path : Path} {content : Bytes} (file : share.entry path = some (.file content)) :
    share.disk.tree.get (share.root ++ path) = some (.file content) := by
  obtain ⟨kind, held, same⟩ := Option.bind_eq_some_iff.mp file
  obtain ⟨node, found, rfl⟩ := Option.map_eq_some_iff.mp held
  rw [found, entryOfKind_file same]

theorem entry_of_get {path : Path} {node : Node Bytes}
    (found : share.disk.tree.get (share.root ++ path) = some node) :
    share.entry path = entryOfKind node.kind ∧ (entryOfKind node.kind).isSome := by
  refine ⟨by rw [entry, found]; rfl, ?_⟩
  cases node with
  | file | dir => rfl
  | symlink target => exact absurd found (share.free path target)

theorem entry_isSome (path : Path) :
    (share.entry path).isSome = (share.disk.tree.get (share.root ++ path)).isSome := by
  cases found : share.disk.tree.get (share.root ++ path) with
  | none => simp [entry, found]
  | some node =>
    obtain ⟨same, present⟩ := share.entry_of_get found
    rw [same, present]
    rfl

def catalog : Catalog Name Bytes where
  entry := share.entry
  admits name := absent share.disk.nameMax name = .notFound
  top := by
    obtain ⟨entries, found⟩ := share.shares
    have there : share.disk.tree.get (share.root ++ []) = some (.dir entries) := by
      rw [List.append_nil]
      exact found
    rw [(share.entry_of_get there).1]
    rfl
  below path name present := by
    have there : (share.disk.tree.get (share.root ++ path ++ [name])).isSome := by
      rw [List.append_assoc, ← share.entry_isSome]
      exact Option.isSome_iff_ne_none.mpr present
    rw [Node.get_concat] at there
    split at there
    next entries found => rw [(share.entry_of_get found).1]; rfl
    · cases there

end Share

def stepOf (part : Bytes) : Option Name := if valid : ValidName part then some ⟨part, valid⟩ else none

def steps (parts : List Bytes) : Catalog.Steps Name := parts.map stepOf

def componentOf : Option Name → Component
  | none => .current
  | some name => .name name

theorem component_stepOf {part : Bytes} (spells : Spells part) :
    component part = some (componentOf (stepOf part)) := by
  rcases spells with rfl | rfl | valid
  · decide
  · decide
  · rw [stepOf, dif_pos valid]
    exact component_name ⟨part, valid⟩

theorem components_steps {parts : List Bytes} (spells : ∀ part ∈ parts, Spells part) :
    components parts = some ((steps parts).map componentOf) := by
  induction parts with
  | nil => rfl
  | cons part rest ih =>
    rw [List.forall_mem_cons] at spells
    have onward := ih spells.2
    simp only [components] at onward ⊢
    rw [List.mapM_cons, component_stepOf spells.1, onward]
    rfl

def missError : Catalog.Miss → IoError
  | .missing => .notFound
  | .inadmissible => .invalidFilename
  | .blocked => .notADirectory

namespace Share

variable (share : Share)

theorem absent_eq (name : Name) : absent share.disk.nameMax name =
    missError (if share.catalog.admits name then .missing else .inadmissible) := by
  unfold catalog absent
  dsimp only
  split <;> simp [missError, *]

theorem walkWith_descend (follow : Path → List Component → Except IoError Path)
    (todo : Catalog.Steps Name) (here : Path) :
    walkWith share.disk.nameMax share.disk.tree follow (share.root ++ here) (todo.map componentOf) =
      ((share.catalog.descend here todo).mapError missError).map (share.root ++ ·) := by
  induction todo generalizing here with
  | nil => rfl
  | cons step rest ih =>
    rw [List.map_cons, Catalog.descend]
    cases there : share.entry here with
    | none =>
      have gone : share.disk.tree.get (share.root ++ here) = none := by
        rw [← Option.isNone_iff_eq_none, ← Option.not_isSome, ← share.entry_isSome, there]
        rfl
      have blocked : share.catalog.advance here step = .error .blocked := by
        simp [Catalog.advance, catalog, there]
      cases step <;> simp only [componentOf, walkWith, gone, blocked] <;> rfl
    | some entry =>
      cases entry with
      | file content =>
        have leaf := share.entry_file there
        have blocked : share.catalog.advance here step = .error .blocked := by
          simp [Catalog.advance, catalog, there]
        cases step <;> simp only [componentOf, walkWith, leaf, blocked] <;> rfl
      | directory =>
        obtain ⟨entries, found⟩ := share.entry_dir there
        cases step with
        | none =>
          have stays : share.catalog.advance here none = .ok here := by simp [Catalog.advance, catalog, there]
          simp only [componentOf, walkWith, found, stays]
          exact ih here
        | some name =>
          have child : share.disk.tree.get (share.root ++ (here ++ [name])) = lookup entries name := by
            rw [← List.append_assoc, Node.get_concat, found]
          have present := share.entry_isSome (here ++ [name])
          rw [child] at present
          cases held : lookup entries name with
          | none =>
            rw [held] at present
            have missing : share.catalog.advance here (some name) =
                .error (if share.catalog.admits name then .missing else .inadmissible) := by
              simp [Catalog.advance, catalog, there, present]
            simp only [componentOf, walkWith, found, held, missing, share.absent_eq name]
            rfl
          | some node =>
            rw [held] at child present
            have advances : share.catalog.advance here (some name) = .ok (here ++ [name]) := by
              simp [Catalog.advance, catalog, there, present]
            cases node with
            | symlink target => exact absurd child (share.free _ target)
            | file | dir =>
              simp only [componentOf, walkWith, found, held, advances, List.append_assoc]
              exact ih _

theorem walk_descend (links : Nat) (todo : Catalog.Steps Name) (here : Path) :
    walk share.disk.nameMax share.disk.tree links (share.root ++ here) (todo.map componentOf) =
      ((share.catalog.descend here todo).mapError missError).map (share.root ++ ·) := by
  cases links <;> exact share.walkWith_descend _ todo here

variable {share}

theorem canonical_of_entry {path : Path} (present : (share.entry path).isSome) :
    share.disk.tree.Canonical (share.root ++ path) := by
  rw [entry_isSome] at present
  obtain ⟨node, found⟩ := Option.isSome_iff_exists.mp present
  exact ⟨node, found, share.free.plain found⟩

section

variable (clear : share.disk.Clear) {here : Path} (present : (share.entry here).isSome)

theorem parsed_below (here : Path) {parts : List Bytes} (spells : ∀ part ∈ parts, Spells part) :
    components (pathBuf (share.root ++ here) ++ parts) =
      some ((share.root ++ here).map .name ++ (steps parts).map componentOf) := by
  rw [components_append, Disk.components_pathBuf, components_steps spells]
  rfl

include clear present

theorem canonicalize_descend {parts : List Bytes} (spells : ∀ part ∈ parts, Spells part) :
    share.disk.canonicalize (pathBuf (share.root ++ here) ++ parts) =
      ((share.catalog.descend here (steps parts)).mapError missError).map (share.root ++ ·) := by
  rw [Disk.canonicalize, clear.answered (parsed_below here spells),
    canonicalize_append (canonical_of_entry present)]
  exact share.walk_descend maxLinks (steps parts) here

theorem stat_entry : ∃ node, share.disk.tree.get (share.root ++ here) = some node ∧
    share.disk.stat (pathBuf (share.root ++ here)) =
      .ok (share.disk.metadata (share.root ++ here, node)) := by
  obtain ⟨node, found, plain⟩ := canonical_of_entry present
  refine ⟨node, found, ?_⟩
  rw [Disk.stat, clear.answered (Disk.components_pathBuf _), Posix.stat,
    canonicalize_self ⟨node, found, plain⟩]
  simp only [found]
  rfl

theorem openFile_entry : ∃ node, share.disk.tree.get (share.root ++ here) = some node ∧
    share.disk.openFile (pathBuf (share.root ++ here)) =
      .ok ⟨Disk.content node, share.disk.metadata (share.root ++ here, node)⟩ := by
  obtain ⟨node, found, plain⟩ := canonical_of_entry present
  refine ⟨node, found, ?_⟩
  rw [Disk.openFile, clear.answered (Disk.components_pathBuf _), Posix.stat,
    canonicalize_self ⟨node, found, plain⟩]
  simp only [found]
  rfl

omit present in
theorem fileMetadata_clear (file : OpenFile) : share.disk.fileMetadata file = .ok file.metadata := by
  rw [Disk.fileMetadata, clear]

theorem lstat_advance {part : Bytes} (spells : Spells part) :
    (∀ miss, share.catalog.advance here (stepOf part) = .error miss →
      share.disk.lstat (pathBuf (share.root ++ here) ++ [part]) = .error (missError miss)) ∧
    ∀ path, share.catalog.advance here (stepOf part) = .ok path →
      ∃ node, share.disk.tree.get (share.root ++ path) = some node ∧
        share.disk.lstat (pathBuf (share.root ++ here) ++ [part]) =
          .ok (share.disk.metadata (share.root ++ path, node)) := by
  have same := clear.lstat_identity (List.prefix_append share.root here) (canonical_of_entry present) spells
  rw [canonicalize_descend clear present (by simpa using spells)] at same
  simp only [steps, List.map_cons, List.map_nil, Catalog.descend] at same
  constructor
  · intro miss missed
    rw [missed] at same
    cases found : share.disk.lstat (pathBuf (share.root ++ here) ++ [part]) with
    | error error =>
      rw [found] at same
      exact congrArg Except.error (Except.error.inj same)
    | ok metadata =>
      rw [found] at same
      cases same
  · intro path reached
    rw [reached] at same
    obtain ⟨metadata, found, identity⟩ := map_ok same
    obtain ⟨todo, _, mapped⟩ := Disk.answered_ok found
    obtain ⟨⟨target, node⟩, located, rfl⟩ := map_ok mapped
    have there := lstat_ok located
    obtain rfl : target = share.root ++ path := identity
    exact ⟨node, there, found⟩

end

theorem list_entry (clear : share.disk.Clear) {here : Path} (directory : share.entry here = some .directory) :
    ∃ entries, share.disk.tree.get (share.root ++ here) = some (.dir entries) ∧
      share.disk.readDir (pathBuf (share.root ++ here)) = .ok () ∧
      share.disk.nextEntries (pathBuf (share.root ++ here)) = .ok (Disk.listing entries) := by
  obtain ⟨entries, found⟩ := share.entry_dir directory
  have read :
      Posix.readDir share.disk.nameMax share.disk.tree ((share.root ++ here).map .name) = .ok entries := by
    rw [Posix.readDir, Posix.stat, canonicalize_self ⟨_, found, rfl⟩]
    simp [found]
  refine ⟨entries, found, ?_, ?_⟩
  · rw [Disk.readDir, clear.answered (Disk.components_pathBuf _), read]
    rfl
  · rw [Disk.nextEntries, clear.answered (Disk.components_pathBuf _), read]
    rfl

section

variable (share) {path : Path} (file : share.catalog.isFile path)
include file

theorem nonempty_of_file : share.root ++ path ≠ [] := by
  intro top
  obtain ⟨content, held⟩ := file
  have found := share.entry_file held
  rw [top, Node.get_nil, Option.some.injEq] at found
  have directory := share.shares.isDir
  rw [found] at directory
  cases directory

theorem kind_get_without (query : Path) :
    ((share.disk.tree.remove (share.root ++ path)).get (share.root ++ query)).map Node.kind =
      if query = path then none else (share.disk.tree.get (share.root ++ query)).map Node.kind := by
  have nonempty := share.nonempty_of_file file
  obtain ⟨content, held⟩ := file
  rw [kind_get_remove nonempty (share.entry_file held) rfl]
  simp

omit file in
def without (path : Path) (file : share.catalog.isFile path) : Share where
  disk := share.disk.without (share.root ++ path)
  root := share.root
  shares := by
    have kept := share.kind_get_without file []
    have other : [] ≠ path := by
      rintro rfl
      obtain ⟨content, held⟩ := file
      have found := share.entry_file held
      obtain ⟨entries, directory⟩ := share.shares
      rw [List.append_nil, directory] at found
      cases found
    obtain ⟨entries, directory⟩ := share.shares
    rw [if_neg other, List.append_nil, directory] at kept
    obtain ⟨node, found, same⟩ := Option.map_eq_some_iff.mp kept
    cases node with
    | dir others => exact ⟨others, found⟩
    | file | symlink => cases same
  free query target linked := by
    have kept := share.kind_get_without file query
    rw [show share.disk.tree.remove (share.root ++ path) =
      _ from (share.disk.without_tree _).symm, linked] at kept
    split at kept
    · cases kept
    · obtain ⟨node, found, same⟩ := Option.map_eq_some_iff.mp kept.symm
      cases node with
      | symlink other => exact share.free query other found
      | file | dir => cases same

theorem catalog_without : (share.without path file).catalog = share.catalog.erase path file := by
  ext1 query
  · change (((share.disk.tree.remove (share.root ++ path)).get (share.root ++ query)).map
      Node.kind).bind entryOfKind = _
    rw [share.kind_get_without file, Catalog.erase_entry]
    split <;> rfl
  · rfl

theorem removeFile_entry (clear : share.disk.Clear) {here : Path} {name : Name}
    (below : path = here ++ [name]) :
    share.disk.remove (pathBuf (share.root ++ here) ++ [name.bytes]) =
      (.ok (), (share.without path file).disk) := by
  subst below
  obtain ⟨content, file⟩ := file
  have found := share.entry_file file
  rw [← List.append_assoc] at found
  obtain ⟨entries, directory⟩ := share.entry_dir (share.catalog.below here name (by simp [file]))
  have place : share.disk.tree.Canonical (share.root ++ here) := .of_isDir directory rfl
  have parsed : components (pathBuf (share.root ++ here) ++ [name.bytes]) =
      some ((share.root ++ here).map .name ++ [.name name]) := by
    rw [components_append, Disk.components_pathBuf]
    simp [components, component_name]
  have held : lookup entries name = some (.file content) := by
    rw [← found, Node.get_concat, directory]
  have taken : share.disk.removeFile (pathBuf (share.root ++ here) ++ [name.bytes]) =
      .ok (share.root ++ (here ++ [name])) := by
    rw [Disk.removeFile, clear.answered parsed, unlink, List.getLast?_concat]
    dsimp only
    rw [List.dropLast_concat, Posix.entry, canonicalize_self place]
    simp [directory, held]
  rw [Disk.remove, taken]
  rfl

end

end Share

end Yafm
