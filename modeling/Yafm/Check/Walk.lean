import Yafm.Check.Report
import Yafm.Files.Readdir
import Yafm.Files.Containment
import Yafm.Shared.Sorting
import Yafm.Shared.Worklist

set_option autoImplicit false

namespace Yafm

open Text Posix Effect Worklist Sorting

/-- A shared root below which every directory can be read and holds each name once. -/
structure CheckedTree where
  disk : Disk
  root : Path
  shares : disk.Shares root
  distinct : ∀ path entries, disk.tree.get (root ++ path) = some (.dir entries) → (entries.map Prod.fst).Nodup
  readable : ∀ path, disk.faults (.readDir path) = none ∧ disk.faults (.nextEntries path) = none

def entryNames : List String → Option Path
  | [] => some []
  | segment :: rest =>
    if valid : ValidName (asBytes segment) then
      (entryNames rest).map (⟨asBytes segment, valid⟩ :: ·) else none

def CheckedTree.nodeAt (tree : CheckedTree) (segments : List String) : Option (Node Bytes) :=
  (entryNames segments).bind fun path => tree.disk.tree.get (tree.root ++ path)

theorem entryNames_eq_some {segments : List String} {path : Path} :
    entryNames segments = some path ↔ path.map Name.bytes = segments.map asBytes := by
  induction segments generalizing path with
  | nil => cases path <;> simp [entryNames]
  | cons segment rest ih =>
    unfold entryNames
    split
    next valid =>
      rw [Option.map_eq_some_iff]
      constructor
      · rintro ⟨names, onward, rfl⟩
        rw [List.map_cons, List.map_cons, ih.mp onward]
      · intro same
        obtain ⟨name, names, rfl, named, onward⟩ := List.map_eq_cons_iff.mp same
        have first : (⟨asBytes segment, valid⟩ : Name) = name := Name.ext named.symm
        exact ⟨names, ih.mpr onward, by rw [first]⟩
    next invalid =>
      refine iff_of_false (by simp) ?_
      intro same
      obtain ⟨name, names, rfl, named, _⟩ := List.map_eq_cons_iff.mp same
      exact invalid (named ▸ name.valid)

theorem childPath_injective {relative left right : String}
    (same : childPath relative left = childPath relative right) : left = right := by
  unfold childPath at same
  split at same
  · exact same
  · simpa [String.ext_iff] using same

section

variable (access : AccessConfig) (groups : List String) (relative : String)

def subdirOf (item : Name × FileType) : Option String :=
  (fromUtf8 item.1.bytes).bind fun name =>
    if (evaluate access groups (pathSegments relative ++ [name])).isHidden = false ∧ item.2 = .directory then
      some (childPath relative name)
    else none

def blockedOf (item : Name × FileType) : Option BlockedEntry :=
  (fromUtf8 item.1.bytes).bind fun name =>
    match evaluate access groups (pathSegments relative ++ [name]) with
    | .visible _ => none
    | .hidden denial => some ⟨name, item.2 = .directory, denial⟩

theorem subdirOf_name {item : Name × FileType} {child : String}
    (made : subdirOf access groups relative item = some child) :
    ∃ name, fromUtf8 item.1.bytes = some name ∧ child = childPath relative name := by
  obtain ⟨name, named, kept⟩ := Option.bind_eq_some_iff.mp made
  split at kept
  · exact ⟨name, named, (Option.some.inj kept).symm⟩
  · cases kept

theorem blockedOf_name {item : Name × FileType} {entry : BlockedEntry}
    (made : blockedOf access groups relative item = some entry) :
    fromUtf8 item.1.bytes = some entry.name := by
  obtain ⟨name, named, kept⟩ := Option.bind_eq_some_iff.mp made
  split at kept
  · cases kept
  · cases kept
    exact named

theorem examine_eq (rules : List CheckRule) (items : List (Name × FileType)) :
    (examine access groups relative rules items).blocked =
      items.filterMap (blockedOf access groups relative) ∧
      (examine access groups relative rules items).subdirs =
        items.filterMap (subdirOf access groups relative) := by
  have onward (found : Examined) :
      (items.foldl (examineItem access groups relative) found).blocked =
          found.blocked ++ items.filterMap (blockedOf access groups relative) ∧
        (items.foldl (examineItem access groups relative) found).subdirs =
          found.subdirs ++ items.filterMap (subdirOf access groups relative) := by
    induction items generalizing found with
    | nil => simp
    | cons item rest ih =>
      rw [List.foldl_cons, (ih _).1, (ih _).2]
      cases text : fromUtf8 item.1.bytes with
      | none => simp [examineItem, blockedOf, subdirOf, text]
      | some name =>
        cases decided : evaluate access groups (pathSegments relative ++ [name]) with
        | hidden denial =>
          simp [examineItem, blockedOf, subdirOf, text, decided, AccessDecision.isHidden]
        | visible source =>
          by_cases directory : item.2 = .directory <;>
            simp [examineItem, blockedOf, subdirOf, text, decided, directory, AccessDecision.isHidden]
  simpa [examine] using onward ⟨[], [], rules⟩

def CheckRule.noticed (segments : List String) (rule : CheckRule) (item : Name × FileType) : Bool :=
  (fromUtf8 item.1.bytes).any fun name => rule.covers (segments ++ [name]) || rule.denies (segments ++ [name])

def CheckRule.use (hit : Bool) (rule : CheckRule) : CheckRule := { rule with used := rule.used || hit }

theorem examine_rules (rules : List CheckRule) (items : List (Name × FileType)) :
    (examine access groups relative rules items).rules =
      rules.map fun rule => rule.use (items.any (rule.noticed (pathSegments relative))) := by
  have onward (found : Examined) :
      (items.foldl (examineItem access groups relative) found).rules =
        found.rules.map fun rule => rule.use (items.any (rule.noticed (pathSegments relative))) := by
    induction items generalizing found with
    | nil => simp [CheckRule.use]
    | cons item rest ih =>
      have marked (name : String) (text : fromUtf8 item.1.bytes = some name) :
          (fun rule => CheckRule.use (rest.any (rule.noticed (pathSegments relative))) rule) ∘
              CheckRule.markChild (pathSegments relative ++ [name]) =
            fun rule => rule.use ((item :: rest).any (rule.noticed (pathSegments relative))) := by
        funext rule
        have unmoved : (rule.markChild (pathSegments relative ++ [name])).noticed (pathSegments relative) =
            rule.noticed (pathSegments relative) := rfl
        simp only [Function.comp_apply, CheckRule.use, unmoved]
        simp [CheckRule.markChild, CheckRule.noticed, text, Bool.or_assoc]
      rw [List.foldl_cons, ih]
      cases text : fromUtf8 item.1.bytes with
      | none => simp [examineItem, text, CheckRule.noticed]
      | some name =>
        have rules : (examineItem access groups relative found item).rules =
            found.rules.map (·.markChild (pathSegments relative ++ [name])) := by
          simp only [examineItem, text]
          split
          · split <;> rfl
          · rfl
        rw [rules, List.map_map, marked name text]
  exact onward ⟨[], [], rules⟩

end

def VisibleThroughout (access : AccessConfig) (groups segments : List String) : Prop :=
  ∀ front, front <+: segments → (evaluate access groups front).isHidden = false

theorem visibleThroughout_concat {access : AccessConfig} {groups segments : List String} {text : String} :
    VisibleThroughout access groups (segments ++ [text]) ↔
      VisibleThroughout access groups segments ∧
      (evaluate access groups (segments ++ [text])).isHidden = false := by
  constructor
  · exact fun all => ⟨fun front leads => all front (leads.trans (List.prefix_append _ _)),
      all _ (List.prefix_refl _)⟩
  · rintro ⟨above, last⟩ front leads
    rcases List.prefix_concat_iff.mp leads with rfl | inside
    · exact last
    · exact above front inside

namespace CheckedTree

variable (tree : CheckedTree)

theorem nodeAt_eq_some {segments : List String} {node : Node Bytes} :
    tree.nodeAt segments = some node ↔
      ∃ path : Path, path.map Name.bytes = segments.map asBytes ∧
      tree.disk.tree.get (tree.root ++ path) = some node := by
  simp [CheckedTree.nodeAt, Option.bind_eq_some_iff, entryNames_eq_some]

theorem canonical_root : tree.disk.tree.Canonical tree.root := by
  obtain ⟨entries, found⟩ := tree.shares
  exact .of_isDir found rfl

theorem nodeAt_root : ∃ entries, tree.nodeAt [] = some (.dir entries) := by
  obtain ⟨entries, found⟩ := tree.shares
  exact ⟨entries, (nodeAt_eq_some tree).mpr ⟨[], rfl, by simpa using found⟩⟩

theorem nodeAt_names {segments : List String} {node : Node Bytes} (here : tree.nodeAt segments = some node) :
    ∀ segment ∈ segments, ValidName (asBytes segment) := by
  obtain ⟨path, same, _⟩ := (nodeAt_eq_some tree).mp here
  intro segment member
  have inside : asBytes segment ∈ path.map Name.bytes := same ▸ List.mem_map_of_mem member
  obtain ⟨name, _, bytes⟩ := List.mem_map.mp inside
  exact bytes ▸ name.valid

theorem nodeAt_concat {segments : List String} {entries : List (Name × Node Bytes)} {text : String}
    {node : Node Bytes} (here : tree.nodeAt segments = some (.dir entries)) :
    tree.nodeAt (segments ++ [text]) = some node ↔
      ∃ name, name.bytes = asBytes text ∧ (name, node) ∈ entries := by
  obtain ⟨path, same, found⟩ := (nodeAt_eq_some tree).mp here
  constructor
  · intro below
    obtain ⟨longer, spelled, there⟩ := (nodeAt_eq_some tree).mp below
    rw [List.map_append, ← same] at spelled
    obtain ⟨front, last, rfl, front_same, last_same⟩ := List.map_eq_append_iff.mp spelled
    obtain rfl : front = path := List.map_injective_iff.mpr Name.bytes_injective front_same
    obtain ⟨name, rfl, named⟩ := List.map_eq_singleton_iff.mp last_same
    rw [← List.append_assoc, Node.get_concat, found] at there
    obtain ⟨entry, hit, rfl⟩ := Option.map_eq_some_iff.mp there
    have same_name : entry.1 = name := by simpa using List.find?_some hit
    exact ⟨entry.1, by rw [same_name, named], List.mem_of_find?_eq_some hit⟩
  · rintro ⟨name, named, member⟩
    refine (nodeAt_eq_some tree).mpr ⟨path ++ [name], by simp [same, named], ?_⟩
    rw [← List.append_assoc, Node.get_concat, found]
    exact lookup_of_mem (tree.distinct path entries found) member

theorem nodeAt_above {segments : List String} {text : String} {node : Node Bytes}
    (below : tree.nodeAt (segments ++ [text]) = some node) :
    ∃ entries, tree.nodeAt segments = some (.dir entries) := by
  obtain ⟨longer, spelled, there⟩ := (nodeAt_eq_some tree).mp below
  rw [List.map_append] at spelled
  obtain ⟨front, last, rfl, front_same, last_same⟩ := List.map_eq_append_iff.mp spelled
  obtain ⟨name, rfl, named⟩ := List.map_eq_singleton_iff.mp last_same
  rw [← List.append_assoc, Node.get_concat] at there
  split at there
  next entries found => exact ⟨entries, (nodeAt_eq_some tree).mpr ⟨front, front_same, found⟩⟩
  · cases there

theorem nodeAt_dir {front back : List String} (below : (tree.nodeAt (front ++ back)).isSome)
    (longer : back ≠ []) :
    ∃ entries, tree.nodeAt front = some (.dir entries) := by
  induction back using List.reverseRecOn with
  | nil => exact absurd rfl longer
  | append_singleton middle text ih =>
    obtain ⟨node, found⟩ := Option.isSome_iff_exists.mp below
    rw [← List.append_assoc] at found
    obtain ⟨entries, above⟩ := tree.nodeAt_above found
    by_cases last : middle = []
    · rw [last, List.append_nil] at above
      exact ⟨entries, above⟩
    · exact ih (by simp [above]) last

theorem pathSegments_join {segments : List String} {node : Node Bytes}
    (here : tree.nodeAt segments = some node) : pathSegments (join '/' segments) = segments := by
  have named := tree.nodeAt_names here
  by_cases empty : segments = []
  · subst empty
    rfl
  · have parts : split '/' (join '/' segments) = segments := by
      apply split_join empty
      intro segment member slash
      exact (named segment member).2.1 ((asciiByte_mem_asBytes (by decide) segment).mpr slash)
    rw [pathSegments, parts, if_neg]
    intro blank
    rw [blank] at parts
    have single : segments = [""] := parts.symm.trans (by decide)
    exact (named "" (single ▸ List.mem_singleton_self _)).1 rfl

theorem childPath_join {segments : List String} {text : String} {node : Node Bytes}
    (here : tree.nodeAt segments = some node) :
    childPath (join '/' segments) text = join '/' (segments ++ [text]) := by
  by_cases empty : segments = []
  · subst empty
    simp [childPath, join]
  · have solid : join '/' segments ≠ "" := by
      intro blank
      have parts := tree.pathSegments_join here
      rw [blank] at parts
      exact empty parts.symm
    rw [childPath, if_neg solid, join_append '/' empty (by simp), join_singleton]

theorem components_join {segments : List String} {path : Path}
    (same : path.map Name.bytes = segments.map asBytes) {entries : List (Name × Node Bytes)}
    (found : tree.disk.tree.get (tree.root ++ path) = some (.dir entries)) :
    ∃ todo, components ((pathBuf tree.root).join (join '/' segments)) = some todo ∧
      Posix.canonicalize tree.disk.nameMax tree.disk.tree todo = .ok (tree.root ++ path) := by
  have here : tree.nodeAt segments = some (.dir entries) := (nodeAt_eq_some tree).mpr ⟨path, same, found⟩
  by_cases empty : segments = []
  · subst empty
    obtain rfl : path = [] := List.map_eq_nil_iff.mp same
    refine ⟨tree.root.map .name ++ [.current], ?_, ?_⟩
    · have parts : (pathBuf tree.root).join (join '/' []) = pathBuf tree.root ++ [[]] := rfl
      have last : components [[]] = some [Component.current] := by decide
      rw [parts, components_append, Disk.components_pathBuf, last]
      rfl
    · rw [canonicalize_append tree.canonical_root]
      rw [List.append_nil] at found ⊢
      simp only [walk, maxLinks, walkWith, found]
  · refine ⟨(tree.root ++ path).map .name, ?_, canonicalize_self (.of_isDir found rfl)⟩
    have solid : join '/' segments ≠ "" := by
      intro blank
      have parts := tree.pathSegments_join here
      rw [blank] at parts
      exact empty parts.symm
    have parts := tree.pathSegments_join here
    rw [pathSegments, if_neg solid] at parts
    rw [PathBuf.join, parts, ← same, pathBuf, ← List.map_append, components_names]

theorem reads {segments : List String} {entries : List (Name × Node Bytes)}
    (here : tree.nodeAt segments = some (.dir entries)) :
    tree.disk.readDir ((pathBuf tree.root).join (join '/' segments)) = .ok () ∧
      tree.disk.nextEntries ((pathBuf tree.root).join (join '/' segments)) = .ok (Disk.listing entries) := by
  obtain ⟨path, same, found⟩ := (nodeAt_eq_some tree).mp here
  obtain ⟨todo, parsed, reached⟩ := tree.components_join same found
  have opened : Posix.readDir tree.disk.nameMax tree.disk.tree todo = .ok entries := by
    simp only [Posix.readDir, Posix.stat, reached, found]
  simp only [Disk.readDir, Disk.nextEntries, Disk.answered, (tree.readable _).1,
    (tree.readable _).2, parsed, opened]
  exact ⟨rfl, rfl⟩

def items (relative : String) : List (Name × FileType) :=
  match tree.disk.nextEntries ((pathBuf tree.root).join relative) with
  | .ok items => items
  | .error _ => []

theorem runIn_readDirectory (order : ReaddirOrder) (platform : Platform) {segments : List String}
    {entries : List (Name × Node Bytes)} (here : tree.nodeAt segments = some (.dir entries)) :
    tree.disk.runIn order (readDirectory platform tree.root (join '/' segments)) =
      (.ok (order.arrange ((pathBuf tree.root).join (join '/' segments))
        (tree.items (join '/' segments))), tree.disk) := by
  obtain ⟨opens, lists⟩ := tree.reads here
  unfold readDirectory items
  simp only [Disk.runIn_bind, Disk.runIn_readDir, Disk.runIn_nextEntries, opens, lists,
    Except.map, Disk.runIn_pure]

section

variable (access : AccessConfig) (groups : List String)

def expand (relative : String) : List String :=
  if (evaluate access groups (pathSegments relative)).isHidden then []
  else sortSubdirs ((tree.items relative).filterMap (subdirOf access groups relative))

def describe (relative : String) : Visit :=
  let decision := evaluate access groups (pathSegments relative)
  ⟨relative, decision,
    if decision.isHidden then []
    else sortBlocked ((tree.items relative).filterMap (blockedOf access groups relative))⟩

theorem describe_here {segments : List String} {node : Node Bytes} (here : tree.nodeAt segments = some node) :
    pathSegments (tree.describe access groups (join '/' segments)).relative = segments ∧
      (tree.describe access groups (join '/' segments)).decision = evaluate access groups segments :=
  ⟨tree.pathSegments_join here, congrArg (evaluate access groups) (tree.pathSegments_join here)⟩

def IsDirectory (relative : String) : Prop :=
  ∃ segments entries, relative = join '/' segments ∧ tree.nodeAt segments = some (.dir entries)

theorem mem_items {segments : List String} {entries : List (Name × Node Bytes)}
    (here : tree.nodeAt segments = some (.dir entries)) (text : String) (kind : FileType) :
    (∃ item ∈ tree.items (join '/' segments), fromUtf8 item.1.bytes = some text ∧ item.2 = kind) ↔
      ∃ node, tree.nodeAt (segments ++ [text]) = some node ∧ Disk.fileType node = kind := by
  have listed : tree.items (join '/' segments) = Disk.listing entries := by rw [items, (tree.reads here).2]
  simp only [listed, Disk.listing, List.mem_map, tree.nodeAt_concat here, fromUtf8_eq_some]
  constructor
  · rintro ⟨_, ⟨⟨name, node⟩, member, rfl⟩, named, same⟩
    exact ⟨node, ⟨name, named.symm, member⟩, same⟩
  · rintro ⟨node, ⟨name, named, member⟩, same⟩
    exact ⟨_, ⟨(name, node), member, rfl⟩, named.symm, same⟩

theorem mem_expand {segments : List String} {entries : List (Name × Node Bytes)}
    (here : tree.nodeAt segments = some (.dir entries)) (next : String) :
    next ∈ tree.expand access groups (join '/' segments) ↔
      (evaluate access groups segments).isHidden = false ∧ ∃ text sub, next = join '/' (segments ++ [text]) ∧
        (evaluate access groups (segments ++ [text])).isHidden = false ∧
        tree.nodeAt (segments ++ [text]) = some (.dir sub) := by
  rw [expand, tree.pathSegments_join here]
  split
  next hidden => simp [hidden]
  next visible =>
    rw [Bool.not_eq_true] at visible
    simp only [sortSubdirs, List.mem_insertionSort, List.mem_filterMap, subdirOf, tree.pathSegments_join here,
      Option.bind_eq_some_iff, Option.ite_none_right_eq_some, tree.childPath_join here,
      Option.some.injEq, visible, true_and]
    constructor
    · rintro ⟨item, member, text, named, ⟨shown, directory⟩, rfl⟩
      obtain ⟨node, below, kind⟩ := (tree.mem_items here text .directory).mp ⟨item, member, named, directory⟩
      cases node with
      | dir sub => exact ⟨text, sub, rfl, shown, below⟩
      | file | symlink => cases kind
    · rintro ⟨text, sub, rfl, shown, below⟩
      obtain ⟨item, member, named, directory⟩ := (tree.mem_items here text .directory).mpr ⟨_, below, rfl⟩
      exact ⟨item, member, text, named, ⟨shown, directory⟩, rfl⟩

theorem mem_blocked {segments : List String} {entries : List (Name × Node Bytes)}
    (here : tree.nodeAt segments = some (.dir entries)) (entry : BlockedEntry) :
    entry ∈ (tree.describe access groups (join '/' segments)).blocked ↔
      (evaluate access groups segments).isHidden = false ∧
        evaluate access groups (segments ++ [entry.name]) = .hidden entry.denial ∧
        ∃ node, tree.nodeAt (segments ++ [entry.name]) = some node ∧ entry.isDir = node.isDir := by
  have kinds (node : Node Bytes) : decide (Disk.fileType node = .directory) = node.isDir := by
    cases node <;> rfl
  simp only [describe, tree.pathSegments_join here]
  split
  next hidden => simp [hidden]
  next visible =>
    rw [Bool.not_eq_true] at visible
    simp only [sortBlocked, List.mem_insertionSort, List.mem_filterMap, blockedOf,
      tree.pathSegments_join here, Option.bind_eq_some_iff, visible, true_and]
    constructor
    · rintro ⟨item, member, text, named, made⟩
      split at made
      · cases made
      next denial decided =>
        cases made
        obtain ⟨node, below, kind⟩ := (tree.mem_items here text item.2).mp ⟨item, member, named, rfl⟩
        exact ⟨decided, node, below, by rw [← kinds, kind]⟩
    · rintro ⟨decided, node, below, kind⟩
      obtain ⟨item, member, named, same⟩ := (tree.mem_items here entry.name _).mpr ⟨node, below, rfl⟩
      refine ⟨item, member, entry.name, named, ?_⟩
      rw [decided, same, kinds, ← kind]

theorem root_directory : ∀ relative ∈ [""], tree.IsDirectory relative := by
  intro relative member
  obtain ⟨top, found⟩ := tree.nodeAt_root
  exact ⟨[], top, List.mem_singleton.mp member, found⟩

theorem IsDirectory.expand {relative next : String} (directory : tree.IsDirectory relative)
    (below : next ∈ tree.expand access groups relative) : tree.IsDirectory next := by
  obtain ⟨segments, entries, rfl, here⟩ := directory
  obtain ⟨_, text, sub, rfl, _, there⟩ := (tree.mem_expand access groups here next).mp below
  exact ⟨segments ++ [text], sub, rfl, there⟩

def track (rules : List CheckRule) (relative : String) : List CheckRule :=
  let segments := pathSegments relative
  let marked := rules.map (·.markDirectory segments)
  if (evaluate access groups segments).isHidden then marked
  else marked.map fun rule => rule.use ((tree.items relative).any (rule.noticed segments))

theorem blocked_unique {segments : List String} {entries : List (Name × Node Bytes)}
    (here : tree.nodeAt segments = some (.dir entries)) {left right : BlockedEntry}
    (one : left ∈ (tree.describe access groups (join '/' segments)).blocked)
    (other : right ∈ (tree.describe access groups (join '/' segments)).blocked)
    (same : left.name = right.name) : left = right := by
  obtain ⟨_, denied, node, below, kind⟩ := (tree.mem_blocked access groups here left).mp one
  obtain ⟨_, refused, twin, there, sort⟩ := (tree.mem_blocked access groups here right).mp other
  rw [← same, denied, AccessDecision.hidden.injEq] at refused
  rw [← same, below, Option.some.injEq] at there
  rw [← there, ← kind] at sort
  cases left
  cases right
  simp_all

theorem examine_perm {segments : List String} {entries : List (Name × Node Bytes)}
    (here : tree.nodeAt segments = some (.dir entries))
    (visible : ¬(evaluate access groups segments).isHidden) {items : List (Name × FileType)}
    (perm : items.Perm (tree.items (join '/' segments))) (rules : List CheckRule) :
    sortSubdirs (examine access groups (join '/' segments) rules items).subdirs =
        tree.expand access groups (join '/' segments) ∧
      sortBlocked (examine access groups (join '/' segments) rules items).blocked =
        (tree.describe access groups (join '/' segments)).blocked ∧
      (examine access groups (join '/' segments) rules items).rules =
        rules.map fun rule => rule.use ((tree.items (join '/' segments)).any (rule.noticed segments)) := by
  obtain ⟨blocked, subdirs⟩ := examine_eq access groups (join '/' segments) rules items
  have place := tree.pathSegments_join here
  rw [blocked, subdirs, examine_rules, expand, describe, place, if_neg visible]
  dsimp only
  rw [if_neg visible]
  refine ⟨?_, ?_, ?_⟩
  · exact insertionSort_eq_of_perm (perm.filterMap _) fun left _ right _ => le_antisymm
  · refine insertionSort_eq_of_perm (perm.filterMap _) fun left one right other before after => ?_
    have listed (entry : BlockedEntry)
      (member : entry ∈ items.filterMap (blockedOf access groups (join '/' segments))) :
        entry ∈ (tree.describe access groups (join '/' segments)).blocked := by
      rw [describe, place]
      dsimp only
      rw [if_neg visible, sortBlocked, List.mem_insertionSort]
      exact (perm.filterMap _).mem_iff.mp member
    exact tree.blocked_unique access groups here (listed left one) (listed right other)
      (le_antisymm before after)
  · simp only [perm.any_eq]

theorem runIn_walk (order : ReaddirOrder) (platform : Platform) {queue visited : List String}
    (walked : Visits (tree.expand access groups) queue visited)
    (directories : ∀ relative ∈ queue, tree.IsDirectory relative) (fuel : Nat) (rules : List CheckRule) :
    tree.disk.runIn order (walkDirectories access groups platform tree.root fuel queue rules) =
      (.ok (if visited.length ≤ fuel then
        some (visited.map (tree.describe access groups), visited.foldl (tree.track access groups) rules)
        else none), tree.disk) := by
  induction walked generalizing fuel rules with
  | done =>
    unfold walkDirectories
    simp
  | @pop relative queue visited onward ih =>
    cases fuel with
    | zero =>
      unfold walkDirectories
      simp
    | succ fuel =>
      have directory := directories relative List.mem_cons_self
      have below : ∀ next ∈ tree.expand access groups relative ++ queue, tree.IsDirectory next := by
        intro next member
        rcases List.mem_append.mp member with inside | later
        · exact IsDirectory.expand tree access groups directory inside
        · exact directories next (List.mem_cons_of_mem _ later)
      obtain ⟨segments, entries, rfl, here⟩ := directory
      unfold walkDirectories
      dsimp only
      rw [tree.pathSegments_join here]
      by_cases hidden : (evaluate access groups segments).isHidden
      · have bare : tree.expand access groups (join '/' segments) = [] := by
          rw [expand, tree.pathSegments_join here, if_pos hidden]
        rw [bare, List.nil_append] at ih below
        have told : (⟨join '/' segments, evaluate access groups segments, []⟩ : Visit) =
            tree.describe access groups (join '/' segments) := by
          rw [describe, tree.pathSegments_join here, if_pos hidden]
        have tracked :
            tree.track access groups rules (join '/' segments) = rules.map (·.markDirectory segments) := by
          rw [track, tree.pathSegments_join here, if_pos hidden]
        rw [if_pos hidden, Disk.runIn_bind, ih below, List.map_cons, List.foldl_cons, told, tracked]
        dsimp only
        by_cases enough : visited.length ≤ fuel
        · simp [enough]
        · simp [enough]
      · have told : (⟨join '/' segments, evaluate access groups segments,
            (tree.describe access groups (join '/' segments)).blocked⟩ : Visit) =
            tree.describe access groups (join '/' segments) := by
          rw [describe, tree.pathSegments_join here]
        have tracked : tree.track access groups rules (join '/' segments) =
            (rules.map (·.markDirectory segments)).map fun rule =>
              rule.use ((tree.items (join '/' segments)).any (rule.noticed segments)) := by
          rw [track, tree.pathSegments_join here, if_neg hidden]
        obtain ⟨leaves, blocks, marks⟩ := tree.examine_perm access groups here hidden
          (order.perm ((pathBuf tree.root).join (join '/' segments)) (tree.items (join '/' segments)))
          (rules.map (·.markDirectory segments))
        rw [if_neg hidden, Disk.runIn_bind, tree.runIn_readDirectory order platform here]
        dsimp only
        rw [leaves, blocks, marks, told, ← tracked, Disk.runIn_bind, ih below, List.map_cons, List.foldl_cons]
        dsimp only
        by_cases enough : visited.length ≤ fuel
        · simp [enough]
        · simp [enough]

def report (visited : List String) : CheckReport :=
  let rules := visited.foldl (tree.track access groups) (checkRules access)
  let unmatched := (rules.filter fun rule => !rule.used).map CheckRule.label
  ⟨groups, tree.root, visited.map (tree.describe access groups), unmatched.insertionSort (· ≤ ·)⟩

theorem runIn_accessCheck (order : ReaddirOrder) (platform : Platform) {visited : List String}
    (walked : Visits (tree.expand access groups) [""] visited) (fuel : Nat) :
    tree.disk.runIn order (runAccessCheck platform tree.root access groups fuel) =
      (.ok (if visited.length ≤ fuel then some (tree.report access groups visited) else none),
        tree.disk) := by
  rw [runAccessCheck, Disk.runIn_bind, tree.runIn_walk access groups order platform
    walked tree.root_directory]
  by_cases enough : visited.length ≤ fuel
  · simp only [enough, if_true]
    rfl
  · simp only [enough, if_false]
    rfl

theorem exists_visits : ∃ visited, Visits (tree.expand access groups) [""] visited := by
  let size (relative : String) : Nat := ((tree.nodeAt (pathSegments relative)).map sizeOf).getD 0
  apply Worklist.exists_visits tree.IsDirectory size
  · intro above directory below member
    refine ⟨IsDirectory.expand tree access groups directory member, ?_⟩
    obtain ⟨segments, entries, rfl, here⟩ := directory
    obtain ⟨_, text, sub, rfl, _, there⟩ := (tree.mem_expand access groups here below).mp member
    obtain ⟨name, _, inside⟩ := (tree.nodeAt_concat here).mp there
    have smaller := List.sizeOf_lt_of_mem inside
    simp only [size, tree.pathSegments_join here, tree.pathSegments_join there, here, there, Option.map_some,
      Option.getD_some, Node.dir.sizeOf_spec, Prod.mk.sizeOf_spec] at smaller ⊢
    omega
  · exact tree.root_directory

theorem leads_down {relative : String}
    (leads : Relation.ReflTransGen (fun above below => below ∈ tree.expand access groups above) "" relative) :
    ∃ segments entries, relative = join '/' segments ∧ tree.nodeAt segments = some (.dir entries) ∧
      (segments = [] ∨ VisibleThroughout access groups segments) := by
  induction leads with
  | refl =>
    obtain ⟨top, found⟩ := tree.nodeAt_root
    exact ⟨[], top, rfl, found, .inl rfl⟩
  | tail _ below ih =>
    obtain ⟨above, entries, rfl, found, shown⟩ := ih
    obtain ⟨visible, text, sub, rfl, last, there⟩ := (tree.mem_expand access groups found _).mp below
    refine ⟨above ++ [text], sub, rfl, there, .inr (visibleThroughout_concat.mpr ⟨?_, last⟩)⟩
    rcases shown with rfl | all
    · exact fun front leads => List.prefix_nil.mp leads ▸ visible
    · exact all

theorem mem_visited {visited : List String} (walked : Visits (tree.expand access groups) [""] visited)
    (relative : String) :
    relative ∈ visited ↔
      ∃ segments entries, relative = join '/' segments ∧ tree.nodeAt segments = some (.dir entries) ∧
      (segments = [] ∨ VisibleThroughout access groups segments) := by
  rw [walked.mem_iff]
  constructor
  · rintro ⟨start, member, leads⟩
    obtain rfl := List.mem_singleton.mp member
    exact tree.leads_down access groups leads
  · rintro ⟨segments, entries, rfl, here, shown⟩
    refine ⟨"", List.mem_singleton_self _, ?_⟩
    induction segments using List.reverseRecOn generalizing entries with
    | nil => exact .refl
    | append_singleton above text ih =>
      obtain ⟨entries', found⟩ := tree.nodeAt_above here
      have all : VisibleThroughout access groups (above ++ [text]) := by simpa using shown
      obtain ⟨allAbove, last⟩ := visibleThroughout_concat.mp all
      refine .tail (ih entries' found (.inr allAbove)) ?_
      exact (tree.mem_expand access groups found _).mpr
        ⟨allAbove above (List.prefix_refl _), text, entries, rfl, last, here⟩

end

end CheckedTree

end Yafm
