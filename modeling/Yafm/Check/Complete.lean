import Yafm.Check.Walk

set_option autoImplicit false

namespace Yafm

open Text Posix Effect Worklist Sorting

def Branches (left right : List String) : Prop :=
  ∃ above before after, above ++ [before] <+: left ∧ above ++ [after] <+: right ∧ before < after

-- A directory before what lies below it, and of two siblings the smaller with everything below it first.
def Precedes (earlier later : List String) : Prop :=
  (earlier <+: later ∧ earlier ≠ later) ∨ Branches earlier later

theorem Branches.extend {left right left' right' : List String} (branches : Branches left right)
    (one : left <+: left') (other : right <+: right') : Branches left' right' := by
  obtain ⟨above, before, after, leftLeads, rightLeads, less⟩ := branches
  exact ⟨above, before, after, leftLeads.trans one, rightLeads.trans other, less⟩

theorem Precedes.ne {earlier later : List String} (precedes : Precedes earlier later) : earlier ≠ later := by
  rintro rfl
  rcases precedes with ⟨_, apart⟩ | ⟨above, before, after, one, other, less⟩
  · exact apart rfl
  · have same := (List.prefix_of_prefix_length_le one other (by simp)).eq_of_length (by simp)
    exact less.ne (by simpa using same)

namespace CheckedTree

variable (tree : CheckedTree) (access : AccessConfig) (groups : List String)

theorem items_apart {segments : List String} {entries : List (Name × Node Bytes)}
    (here : tree.nodeAt segments = some (.dir entries)) :
    (tree.items (join '/' segments)).Pairwise fun left right =>
      ∀ text, fromUtf8 left.1.bytes = some text →
      ∀ other, fromUtf8 right.1.bytes = some other → text ≠ other := by
  obtain ⟨path, _, found⟩ := (nodeAt_eq_some tree).mp here
  have listed : tree.items (join '/' segments) = Disk.listing entries := by rw [items, (tree.reads here).2]
  rw [listed, Disk.listing, List.pairwise_map]
  refine (List.pairwise_map.mp (tree.distinct path entries found)).imp ?_
  rintro left right apart text named _ other rfl
  rw [fromUtf8_eq_some] at named other
  exact apart (Name.ext (named.symm.trans other))

theorem blocked_ascending {segments : List String} {entries : List (Name × Node Bytes)}
    (here : tree.nodeAt segments = some (.dir entries)) :
    (tree.describe access groups (join '/' segments)).blocked.Pairwise fun left right =>
      left.name < right.name := by
  have apart :
      ((tree.items (join '/' segments)).filterMap (blockedOf access groups (join '/' segments))).Pairwise
      fun left right => left.name ≠ right.name := by
    refine (tree.items_apart here).filterMap _ ?_
    intro left right names entry made twin seen
    exact names _ (blockedOf_name access groups _ made) _ (blockedOf_name access groups _ seen)
  rw [describe]
  dsimp only
  split
  · exact .nil
  · exact (pairwise_insertionSort_and Ne.symm apart).imp fun ordered => lt_of_le_of_ne ordered.1 ordered.2

theorem expand_ascending {segments : List String} {entries : List (Name × Node Bytes)}
    (here : tree.nodeAt segments = some (.dir entries)) :
    (tree.expand access groups (join '/' segments)).Pairwise fun left right =>
      ∃ before after, left = join '/' (segments ++ [before]) ∧
      right = join '/' (segments ++ [after]) ∧ before < after := by
  have apart :
      ((tree.items (join '/' segments)).filterMap (subdirOf access groups (join '/' segments))).Pairwise
      fun left right => ∃ before after, left = childPath (join '/' segments) before ∧
        right = childPath (join '/' segments) after ∧ before ≠ after := by
    refine (tree.items_apart here).filterMap _ ?_
    intro left right names child made twin seen
    obtain ⟨before, named, rfl⟩ := subdirOf_name access groups _ made
    obtain ⟨after, called, rfl⟩ := subdirOf_name access groups _ seen
    exact ⟨before, after, rfl, rfl, names before named after called⟩
  have back {left right : String} : (∃ before after, left = childPath (join '/' segments) before ∧
      right = childPath (join '/' segments) after ∧ before ≠ after) →
      ∃ before after, right = childPath (join '/' segments) before ∧
        left = childPath (join '/' segments) after ∧ before ≠ after := by
    rintro ⟨before, after, rfl, rfl, apart⟩
    exact ⟨after, before, rfl, rfl, apart.symm⟩
  rw [expand]
  split
  · exact .nil
  · refine (pairwise_insertionSort_and back apart).imp ?_
    rintro _ _ ⟨ordered, before, after, rfl, rfl, apart⟩
    refine ⟨before, after, tree.childPath_join here, tree.childPath_join here,
      lt_of_le_of_ne (le_of_not_gt ?_) apart⟩
    intro backward
    refine not_lt_of_ge ordered ?_
    simp only [childPath]
    split
    · exact backward
    · simpa only [String.lt_iff, String.toList_append] using List.append_left_lt (String.lt_iff.mp backward)

theorem expand_below {above below : String} (directory : tree.IsDirectory above)
    (member : below ∈ tree.expand access groups above) :
    ∃ text, pathSegments below = pathSegments above ++ [text] := by
  obtain ⟨segments, entries, rfl, here⟩ := directory
  obtain ⟨_, text, sub, rfl, _, there⟩ := (tree.mem_expand access groups here below).mp member
  exact ⟨text, by rw [tree.pathSegments_join here, tree.pathSegments_join there]⟩

theorem leads_below {earlier later : String} (directory : tree.IsDirectory earlier)
    (leads : Relation.TransGen (fun above below => below ∈ tree.expand access groups above) earlier later) :
    tree.IsDirectory later ∧ pathSegments earlier <+: pathSegments later ∧
      (pathSegments earlier).length < (pathSegments later).length := by
  induction leads with
  | single member =>
    obtain ⟨text, longer⟩ := tree.expand_below access groups directory member
    rw [longer]
    exact ⟨IsDirectory.expand tree access groups directory member, List.prefix_append _ _, by simp⟩
  | tail _ member ih =>
    obtain ⟨middle, leads, shorter⟩ := ih
    obtain ⟨text, longer⟩ := tree.expand_below access groups middle member
    rw [longer]
    refine ⟨IsDirectory.expand tree access groups middle member, leads.trans (List.prefix_append _ _), ?_⟩
    rw [List.length_append]
    exact Nat.lt_add_right _ shorter

theorem expand_branches {above : String} (directory : tree.IsDirectory above) :
    (tree.expand access groups above).Pairwise fun left right =>
      Branches (pathSegments left) (pathSegments right) := by
  obtain ⟨segments, entries, rfl, here⟩ := directory
  refine (tree.expand_ascending access groups here).imp_of_mem ?_
  rintro _ _ left right ⟨before, after, rfl, rfl, less⟩
  have spelled (text : String) (member : join '/' (segments ++ [text]) ∈
    tree.expand access groups (join '/' segments)) :
      pathSegments (join '/' (segments ++ [text])) = segments ++ [text] := by
    obtain ⟨_, other, sub, same, _, there⟩ := (tree.mem_expand access groups here _).mp member
    rw [← tree.childPath_join here, ← tree.childPath_join here] at same
    obtain rfl : text = other := childPath_injective same
    exact tree.pathSegments_join there
  rw [spelled before left, spelled after right]
  exact ⟨segments, before, after, List.prefix_refl _, List.prefix_refl _, less⟩

theorem visited_depthFirst {visited : List String}
    (walked : Visits (tree.expand access groups) [""] visited) :
    (visited.map pathSegments).Pairwise Precedes := by
  have inherited (left right : String) (one : tree.IsDirectory left) (other : tree.IsDirectory right)
      (branches : Branches (pathSegments left) (pathSegments right)) :
      (∀ below ∈ tree.expand access groups left, Branches (pathSegments below) (pathSegments right)) ∧
        ∀ below ∈ tree.expand access groups right, Branches (pathSegments left) (pathSegments below) := by
    constructor
    · intro below member
      obtain ⟨text, longer⟩ := tree.expand_below access groups one member
      rw [longer]
      exact branches.extend (List.prefix_append _ _) (List.prefix_refl _)
    · intro below member
      obtain ⟨text, longer⟩ := tree.expand_below access groups other member
      rw [longer]
      exact branches.extend (List.prefix_refl _) (List.prefix_append _ _)
  have ordered := walked.pairwise tree.IsDirectory
    (fun _ directory _ => IsDirectory.expand tree access groups directory)
    (fun _ directory => tree.expand_branches access groups directory) inherited tree.root_directory
    (List.pairwise_singleton _ _)
  rw [List.pairwise_map]
  refine ordered.imp_of_mem ?_
  rintro earlier later member _ (leads | branches)
  · have directory : tree.IsDirectory earlier := by
      obtain ⟨segments, entries, same, here, _⟩ := (tree.mem_visited access groups walked earlier).mp member
      exact ⟨segments, entries, same, here⟩
    obtain ⟨_, leads, shorter⟩ := tree.leads_below access groups directory leads
    exact .inl ⟨leads, fun same => absurd (congrArg List.length same) (Nat.ne_of_lt shorter)⟩
  · exact .inr branches

end CheckedTree

/-- The report has an entry for each directory that is visible all the way down, and for the root. -/
structure CompleteWalk (tree : CheckedTree) (access : AccessConfig) (groups : List String)
    (report : CheckReport) (visited : List (List String)) : Prop where
  visits : report.visits.map Visit.relative = visited.map (join '/')
  decided : report.visits.map Visit.decision = visited.map (evaluate access groups)
  rootFirst : visited.head? = some []
  exactly : ∀ segments, segments ∈ visited ↔ (∃ entries, tree.nodeAt segments = some (.dir entries)) ∧
    (segments = [] ∨ VisibleThroughout access groups segments)
  once : visited.Nodup
  depthFirst : visited.Pairwise Precedes
  blocked : ∀ visit ∈ report.visits, ∀ entry, entry ∈ visit.blocked ↔ visit.decision.isHidden = false ∧
    evaluate access groups (pathSegments visit.relative ++ [entry.name]) = .hidden entry.denial ∧
    ∃ node, tree.nodeAt (pathSegments visit.relative ++ [entry.name]) = some node ∧ entry.isDir = node.isDir
  ascending : ∀ visit ∈ report.visits, visit.blocked.Pairwise fun left right => left.name < right.name

theorem completeWalk {tree : CheckedTree} {access : AccessConfig} {groups visited : List String}
    (walked : Visits (tree.expand access groups) [""] visited) {report : CheckReport}
    (told : report.visits = visited.map (tree.describe access groups)) :
    CompleteWalk tree access groups report (visited.map pathSegments) := by
  have each (relative : String) (member : relative ∈ visited) :
      ∃ segments entries, relative = join '/' segments ∧ pathSegments relative = segments ∧
        tree.nodeAt segments = some (.dir entries) := by
    obtain ⟨segments, entries, rfl, here, _⟩ := (tree.mem_visited access groups walked relative).mp member
    exact ⟨segments, entries, rfl, tree.pathSegments_join here, here⟩
  have depthFirst := tree.visited_depthFirst access groups walked
  constructor
  case visits =>
    rw [told, List.map_map, List.map_map, List.map_inj_left]
    intro relative member
    obtain ⟨segments, _, rfl, spelled, _⟩ := each relative member
    exact congrArg (join '/') spelled.symm
  case decided =>
    rw [told, List.map_map, List.map_map]
    rfl
  case rootFirst =>
    cases walked
    rfl
  case exactly =>
    intro segments
    rw [List.mem_map]
    constructor
    · rintro ⟨relative, member, rfl⟩
      obtain ⟨segments, entries, rfl, here, shown⟩ :=
        (tree.mem_visited access groups walked relative).mp member
      rw [tree.pathSegments_join here]
      exact ⟨⟨entries, here⟩, shown⟩
    · rintro ⟨⟨entries, here⟩, shown⟩
      exact ⟨join '/' segments, (tree.mem_visited access groups walked _).mpr
        ⟨segments, entries, rfl, here, shown⟩, tree.pathSegments_join here⟩
  case once => exact depthFirst.imp Precedes.ne
  case depthFirst => exact depthFirst
  case blocked =>
    intro visit member entry
    rw [told, List.mem_map] at member
    obtain ⟨relative, inside, rfl⟩ := member
    obtain ⟨segments, entries, rfl, spelled, here⟩ := each relative inside
    obtain ⟨place, decided⟩ := tree.describe_here access groups here
    rw [place, decided]
    exact tree.mem_blocked access groups here entry
  case ascending =>
    intro visit member
    rw [told, List.mem_map] at member
    obtain ⟨relative, inside, rfl⟩ := member
    obtain ⟨segments, entries, rfl, _, here⟩ := each relative inside
    exact tree.blocked_ascending access groups here

theorem accessCheck_complete (platform : Platform) (tree : CheckedTree) (access : AccessConfig)
    (groups : List String) :
    ∃ report visited, CompleteWalk tree access groups report visited ∧
      ∃ enough, ∀ (order : ReaddirOrder) fuel, enough ≤ fuel →
        (tree.disk.runIn order (runAccessCheck platform tree.root access groups fuel)).1 =
          .ok (some report) := by
  obtain ⟨visited, walked⟩ := tree.exists_visits access groups
  refine ⟨tree.report access groups visited, visited.map pathSegments,
    completeWalk walked rfl, visited.length, ?_⟩
  intro order fuel enough
  rw [tree.runIn_accessCheck access groups order platform walked, if_pos enough]

end Yafm
