import Yafm.Files.Containment
import Yafm.Decoding
import Yafm.Shared.Descent

set_option autoImplicit false

namespace Yafm

open Text Posix Effect

/-- A shared root with no symbolic link in it. -/
structure Share where
  disk : Disk
  root : Path
  shares : disk.Shares root
  free : disk.tree.SymlinkFree root

namespace Share

def Utf8 (share : Share) : Prop :=
  ∀ path, (share.disk.tree.get (share.root ++ path)).isSome → ∀ name ∈ path, (fromUtf8 name.bytes).isSome

theorem canonical_root (share : Share) : share.disk.tree.Canonical share.root := by
  obtain ⟨entries, found⟩ := share.shares
  exact Node.Canonical.of_isDir found rfl

theorem canonicalize_ok {share : Share} {parts : PathBuf} {canonical : Path}
    (spells : ∀ part ∈ parts, Spells part)
    (reached : share.disk.canonicalize (pathBuf share.root ++ parts) = .ok canonical) :
    ∃ sub, canonical = share.root ++ sub ∧ sub.map Name.bytes = nameParts parts ∧
      (share.disk.tree.get canonical).isSome := by
  have canonical' := Disk.canonicalize_ok share.shares.isDir reached
  obtain ⟨todo, parsed, walked⟩ := Disk.answered_ok reached
  obtain ⟨rest, below, noParent, same⟩ := steps_of_spells spells
  have whole : share.root.map Component.name ++ rest = todo := by
    simpa [components_append, Disk.components_pathBuf, below] using parsed
  rw [← whole, canonicalize_append share.canonical_root] at walked
  have place := walk_symlinkFree share.free maxLinks rest noParent [] canonical (by simpa using walked)
  obtain ⟨node, found, _⟩ := canonical'
  exact ⟨names rest, by simpa using place, same, by simp [found]⟩

end Share

theorem Disk.Clear.canonicalize_join {share : Share} (clear : share.disk.Clear) {front back : List Bytes}
    (spells : ∀ part ∈ front ++ back, Spells part) :
    share.disk.canonicalize (pathBuf share.root ++ (front ++ back)) =
      (share.disk.canonicalize (pathBuf share.root ++ front)).bind fun here =>
        share.disk.canonicalize (pathBuf here ++ back) := by
  have spellsFront : ∀ part ∈ front, Spells part := fun part member => spells part (by simp [member])
  obtain ⟨todo, parsedFront, noParent, _⟩ := steps_of_spells spellsFront
  obtain ⟨rest, parsedBack⟩ := components_of_spells fun part member =>
    spells part (List.mem_append_right front member)
  have whole (path : Path) (parts : List Bytes) (steps : List Component)
    (parsed : components parts = some steps) :
      components (pathBuf path ++ parts) = some (path.map .name ++ steps) := by
    rw [components_append, Disk.components_pathBuf, parsed]
    rfl
  have both : components (front ++ back) = some (todo ++ rest) := by
    rw [components_append, parsedFront, parsedBack]
    rfl
  have split : walk share.disk.nameMax share.disk.tree maxLinks (share.root ++ []) (todo ++ rest) = _ :=
    walk_append share.free maxLinks noParent rest []
  rw [List.append_nil] at split
  simp only [Disk.canonicalize, clear.answered (whole share.root _ _ both),
    clear.answered (whole share.root _ _ parsedFront), Posix.canonicalize_append share.canonical_root]
  rw [split]
  cases reached : walk share.disk.nameMax share.disk.tree maxLinks share.root todo with
  | error error => rfl
  | ok here =>
    have canonical : share.disk.tree.Canonical here := by
      rw [← Posix.canonicalize_append share.canonical_root] at reached
      exact canonicalize_canonical share.shares.isDir reached
    change walk share.disk.nameMax share.disk.tree maxLinks here rest =
      share.disk.answered (.canonicalize (pathBuf here ++ back)) (pathBuf here ++ back)
        (Posix.canonicalize share.disk.nameMax share.disk.tree)
    rw [clear.answered (whole here _ _ parsedBack), Posix.canonicalize_append canonical]

theorem Disk.Clear.lstat_identity {share : Share} (clear : share.disk.Clear) {here : Path}
    (within : share.root <+: here) (canonical : share.disk.tree.Canonical here) {part : Bytes}
    (spells : Spells part) :
    (share.disk.lstat (pathBuf here ++ [part])).map Metadata.identity =
      share.disk.canonicalize (pathBuf here ++ [part]) := by
  have single : ∀ other ∈ [part], Spells other := by simpa using spells
  obtain ⟨todo, parsed, descending, _⟩ := steps_of_spells single
  obtain ⟨step, rfl⟩ : ∃ step, todo = [step] := by
    cases read : component part with
    | none => simp [components, read] at parsed
    | some step => exact ⟨step, by simpa [components, read, eq_comm] using parsed⟩
  have whole : components (pathBuf here ++ [part]) = some (here.map .name ++ [step]) := by
    rw [components_append, Disk.components_pathBuf, parsed]
    rfl
  have notParent : step ≠ .parent := by
    rintro rfl
    simp at descending
  have located : (Posix.lstat share.disk.nameMax _ _).map Prod.fst = _ :=
    lstat_location share.free within canonical notParent
  rw [Disk.lstat, clear.answered whole, Disk.canonicalize, clear.answered whole, ← located]
  cases Posix.lstat share.disk.nameMax share.disk.tree (here.map .name ++ [step]) <;> rfl

def chainDisk (path : Path) (leaf : Node Bytes) : Disk :=
  { tree := chain path leaf
    modified := fun _ => none
    clock := fun _ => none
    nameMax := none
    faults := fun _ => none
    present := fun _ => nofun }

theorem chainDisk_answered {α : Type} {path : Path} {leaf : Node Bytes} {op : Op} {parts : PathBuf}
    {todo : List Component} {act : List Component → Except IoError α}
    (parsed : components parts = some todo) :
    (chainDisk path leaf).answered op parts act = act todo := by
  simp [Disk.answered, chainDisk, parsed]

theorem chainDisk_missing {path query : Path} {leaf : Node Bytes} (outside : ¬query <+: path)
    (apart : leaf = .dir [] ∨ ¬path <+: query) :
    (chainDisk path leaf).canonicalize (query.map Name.bytes) = .error .notFound := by
  rw [Disk.canonicalize, chainDisk_answered (components_names query)]
  exact walk_chain_missing maxLinks outside apart

theorem chainDisk_reaches {front back : Path} {leaf : Node Bytes} {parts : PathBuf}
    (spells : ∀ part ∈ parts, Spells part) (same : nameParts parts = front.map Name.bytes)
    (directory : (chain back leaf).isDir) :
    (chainDisk (front ++ back) leaf).canonicalize parts = .ok front := by
  obtain ⟨todo, parsed, noParent, spelled⟩ := steps_of_spells spells
  have steps : names todo = front := by
    apply List.map_injective_iff.mpr Name.bytes_injective
    rw [spelled, same]
  rw [Disk.canonicalize, chainDisk_answered parsed, Posix.canonicalize]
  have there : (chain (front ++ back) leaf).get ([] ++ names todo) = some (chain back leaf) := by
    rw [List.nil_append, steps, chain_get_append]
  cases below : chain back leaf with
  | dir entries =>
    rw [below] at there
    have walked : walk none _ maxLinks _ todo = _ := walk_reaches maxLinks noParent there
    rwa [List.nil_append, steps] at walked
  | file | symlink =>
    rw [below] at directory
    cases directory

def chainShare (path : Path) (leaf : Node Bytes) (bare : leaf.isLeaf)
    (directory : (chain path leaf).isDir) : Share where
  disk := chainDisk path leaf
  root := []
  shares := by
    cases top : chain path leaf with
    | dir entries => exact ⟨entries, by simp [chainDisk, top]⟩
    | file | symlink =>
      rw [top] at directory
      cases directory
  free := chain_symlinkFree bare

def forkShare (left right : Path) : Share where
  disk :=
    { tree := fork left right
      modified := fun _ => none
      clock := fun _ => none
      nameMax := none
      faults := fun _ => none
      present := fun _ => nofun }
  root := []
  shares := (fork_bare left right).get (by simp)
  free := (fork_bare left right).symlinkFree []

theorem forkShare_clear (left right : Path) : (forkShare left right).disk.Clear := fun _ => rfl

theorem forkShare_canonicalize {left right path : Path} {parts : List Bytes}
    (spells : ∀ part ∈ parts, Spells part) (same : path.map Name.bytes = nameParts parts) :
    (forkShare left right).disk.canonicalize (pathBuf (forkShare left right).root ++ parts) =
      if path <+: left ∨ path <+: right then .ok path else .error .notFound := by
  obtain ⟨todo, parsed, descending, bytes⟩ := steps_of_spells spells
  have spelled : names todo = path := List.map_injective_iff.mpr Name.bytes_injective (bytes.trans same.symm)
  have top : ((fork left right : Node Bytes).get []).isSome := by simp
  have walked := walk_bare (fork_bare left right) maxLinks descending top
  rw [List.nil_append, spelled] at walked
  have whole : components (pathBuf (forkShare left right).root ++ parts) = some todo := parsed
  rw [Disk.canonicalize, (forkShare_clear left right).answered whole]
  change walk none (fork left right) maxLinks [] todo = _
  simp only [walked, fork_isSome]

theorem chainShare_utf8 {path : Path} {leaf : Node Bytes} {bare : leaf.isLeaf}
    {directory : (chain path leaf).isDir} (utf8 : ∀ name ∈ path, (fromUtf8 name.bytes).isSome) :
    (chainShare path leaf bare directory).Utf8 := by
  intro query present name member
  obtain ⟨node, found⟩ := Option.isSome_iff_exists.mp present
  obtain ⟨back, whole, _⟩ := chain_get_some bare found
  have whole : path = query ++ back := whole
  exact utf8 name (by simp [whole, member])

end Yafm
