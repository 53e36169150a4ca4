import Yafm.Check.Walk
import Yafm.Files.Share

set_option autoImplicit false

namespace Yafm

open Text Posix Effect Worklist

/-- A share that the check reads to the end: nothing is refused, and names are text and stand once in a
directory. -/
structure CheckedShare extends Share where
  utf8 : toShare.Utf8
  distinct : ∀ path entries, disk.tree.get (root ++ path) = some (.dir entries) → (entries.map Prod.fst).Nodup
  readable : ∀ op, disk.faults op = none

def Share.nodeAt (share : Share) (segments : List String) : Option (Node Bytes) :=
  (entryNames segments).bind fun path => share.disk.tree.get (share.root ++ path)

def CheckedShare.tree (share : CheckedShare) : CheckedTree :=
  ⟨share.disk, share.root, share.shares, share.distinct, fun _ => ⟨share.readable _, share.readable _⟩⟩

-- The entry is listed as blocked, or lies below a directory of which the report says so.
def CheckReport.Blocks (report : CheckReport) (segments : List String) : Prop :=
  ∃ visit ∈ report.visits, (visit.decision.isHidden ∧ pathSegments visit.relative <+: segments) ∨
    ∃ entry ∈ visit.blocked, pathSegments visit.relative ++ [entry.name] = segments ∨
      (entry.isDir ∧ pathSegments visit.relative ++ [entry.name] <+: segments)

-- The entry has a visible line of its own, or is not listed as blocked under a directory that has one.
def CheckReport.Shows (report : CheckReport) (segments : List String) : Prop :=
  ∃ visit ∈ report.visits, visit.decision.isHidden = false ∧ (pathSegments visit.relative = segments ∨
    ∃ name, segments = pathSegments visit.relative ++ [name] ∧ ∀ entry ∈ visit.blocked, entry.name ≠ name)

def CheckedShare.Reports (share : CheckedShare) (platform : Platform) (access : AccessConfig)
    (groups : List String) (report : CheckReport) : Prop :=
  ∃ fuel, (share.disk.run (runAccessCheck platform share.root access groups fuel)).1 = .ok (some report)

def ReportTellsTruth (platform : Platform) (access : AccessConfig) (groups : List String)
    (share : CheckedShare) : Prop :=
  (∃ report, share.Reports platform access groups report) ∧
  ∀ report, share.Reports platform access groups report → ∀ segments, (share.nodeAt segments).isSome →
    (report.Blocks segments ↔ isPathVisible access groups (join '/' segments) = false) ∧
    (report.Shows segments ↔ isPathVisible access groups (join '/' segments) = true)

section

variable {share : CheckedShare} {platform : Platform} {access : AccessConfig} {groups : List String}

theorem run_accessCheck {visited : List String}
    (walked : Visits (share.tree.expand access groups) [""] visited) (fuel : Nat) :
    (share.disk.run (runAccessCheck platform share.root access groups fuel)).1 =
      .ok (if visited.length ≤ fuel then some (share.tree.report access groups visited) else none) := by
  have ran := share.tree.runIn_accessCheck access groups Disk.stored platform walked fuel
  rw [Disk.runIn_stored] at ran
  exact congrArg Prod.fst ran

theorem CheckedShare.Reports.visits {report : CheckReport}
    (reported : share.Reports platform access groups report) :
    ∃ visited, Visits (share.tree.expand access groups) [""] visited ∧
      report.visits = visited.map (share.tree.describe access groups) := by
  obtain ⟨fuel, reported⟩ := reported
  obtain ⟨visited, walked⟩ := share.tree.exists_visits access groups
  rw [run_accessCheck walked] at reported
  split at reported
  · cases reported
    exact ⟨visited, walked, rfl⟩
  · cases reported

theorem exists_report : ∃ report, share.Reports platform access groups report := by
  obtain ⟨visited, walked⟩ := share.tree.exists_visits access groups
  exact ⟨share.tree.report access groups visited, visited.length,
    by rw [run_accessCheck walked, if_pos (Nat.le_refl _)]⟩

theorem exists_first_hidden {segments : List String} (hides : ¬VisibleThroughout access groups segments) :
    (evaluate access groups []).isHidden ∨ ∃ front text back, segments = front ++ text :: back ∧
      VisibleThroughout access groups front ∧ (evaluate access groups (front ++ [text])).isHidden := by
  induction segments using List.reverseRecOn with
  | nil =>
    left
    by_contra visible
    exact hides fun front leads => List.prefix_nil.mp leads ▸ Bool.eq_false_iff.mpr visible
  | append_singleton front text ih =>
    by_cases above : VisibleThroughout access groups front
    · right
      refine ⟨front, text, [], rfl, above, ?_⟩
      by_contra visible
      exact hides (visibleThroughout_concat.mpr ⟨above, Bool.eq_false_iff.mpr visible⟩)
    · rcases ih above with root | ⟨front', text', back, rfl, rest⟩
      · exact .inl root
      · exact .inr ⟨front', text', back ++ [text], by simp, rest⟩

section

variable {report : CheckReport} (reported : share.Reports platform access groups report)
  {segments : List String}
include reported

theorem visit_iff (visit : Visit) :
    visit ∈ report.visits ↔ ∃ above entries, share.tree.nodeAt above = some (.dir entries) ∧
      (above = [] ∨ VisibleThroughout access groups above) ∧
      share.tree.describe access groups (join '/' above) = visit := by
  obtain ⟨visited, walked, same⟩ := reported.visits
  rw [same, List.mem_map]
  simp only [share.tree.mem_visited access groups walked]
  constructor
  · rintro ⟨_, ⟨above, entries, rfl, here, shown⟩, described⟩
    exact ⟨above, entries, here, shown, described⟩
  · rintro ⟨above, entries, here, shown, described⟩
    exact ⟨_, ⟨above, entries, rfl, here, shown⟩, described⟩

theorem blocks_iff (present : (share.tree.nodeAt segments).isSome) :
    report.Blocks segments ↔ ¬VisibleThroughout access groups segments := by
  constructor
  · rintro ⟨visit, member, told⟩ all
    obtain ⟨above, entries, here, shown, rfl⟩ := (visit_iff reported _).mp member
    obtain ⟨place, decided⟩ := share.tree.describe_here access groups here
    rw [place, decided] at told
    rcases told with ⟨hidden, leads⟩ | ⟨entry, listed, told⟩
    · rw [all above leads] at hidden
      cases hidden
    · obtain ⟨_, denied, _⟩ := (share.tree.mem_blocked access groups here entry).mp listed
      have leads : above ++ [entry.name] <+: segments := by
        rcases told with same | ⟨_, leads⟩
        · exact same ▸ List.prefix_refl _
        · exact leads
      have visible := all _ leads
      rw [denied] at visible
      cases visible
  · intro hides
    rcases exists_first_hidden hides with root | ⟨front, text, back, rfl, above, hidden⟩
    · obtain ⟨top, found⟩ := share.tree.nodeAt_root
      exact ⟨_, (visit_iff reported _).mpr ⟨[], top, found, .inl rfl, rfl⟩, .inl ⟨root, List.nil_prefix⟩⟩
    · obtain ⟨entries, here⟩ := share.tree.nodeAt_dir present (List.cons_ne_nil text back)
      obtain ⟨place, _⟩ := share.tree.describe_here access groups here
      obtain ⟨denial, denied⟩ : ∃ denial, evaluate access groups (front ++ [text]) = .hidden denial := by
        cases decided : evaluate access groups (front ++ [text]) with
        | hidden denial => exact ⟨denial, rfl⟩
        | visible source =>
          rw [decided] at hidden
          cases hidden
      have path : front ++ text :: back = (front ++ [text]) ++ back := by simp
      have below : ∃ node, share.tree.nodeAt (front ++ [text]) = some node ∧ (back ≠ [] → node.isDir) := by
        by_cases last : back = []
        · obtain ⟨node, found⟩ := Option.isSome_iff_exists.mp present
          exact ⟨node, by simpa [last] using found, fun longer => absurd last longer⟩
        · rw [path] at present
          obtain ⟨sub, found⟩ := share.tree.nodeAt_dir present last
          exact ⟨_, found, fun _ => rfl⟩
      obtain ⟨node, found, directory⟩ := below
      have listed := (share.tree.mem_blocked access groups here ⟨text, node.isDir, denial⟩).mpr
        ⟨above front (List.prefix_refl _), denied, node, found, rfl⟩
      refine ⟨_, (visit_iff reported _).mpr ⟨front, entries, here, .inr above, rfl⟩, .inr ⟨_, listed, ?_⟩⟩
      rw [place, path]
      by_cases last : back = []
      · exact .inl (by rw [last, List.append_nil])
      · exact .inr ⟨directory last, List.prefix_append _ _⟩

theorem shows_iff (present : (share.tree.nodeAt segments).isSome) :
    report.Shows segments ↔ VisibleThroughout access groups segments := by
  constructor
  · rintro ⟨visit, member, visible, told⟩
    obtain ⟨above, entries, here, shown, rfl⟩ := (visit_iff reported _).mp member
    obtain ⟨place, decided⟩ := share.tree.describe_here access groups here
    rw [decided] at visible
    rw [place] at told
    have all : VisibleThroughout access groups above := by
      rcases shown with rfl | all
      · exact fun front leads => List.prefix_nil.mp leads ▸ visible
      · exact all
    rcases told with rfl | ⟨name, rfl, unlisted⟩
    · exact all
    · refine visibleThroughout_concat.mpr ⟨all, ?_⟩
      obtain ⟨node, found⟩ := Option.isSome_iff_exists.mp present
      cases judged : evaluate access groups (above ++ [name]) with
      | visible source => rfl
      | hidden denial =>
        have listed := (share.tree.mem_blocked access groups here ⟨name, node.isDir, denial⟩).mpr
          ⟨visible, judged, node, found, rfl⟩
        exact absurd rfl (unlisted _ listed)
  · intro all
    rcases List.eq_nil_or_concat' segments with rfl | ⟨above, text, rfl⟩
    · obtain ⟨top, found⟩ := share.tree.nodeAt_root
      exact ⟨_, (visit_iff reported _).mpr ⟨[], top, found, .inl rfl, rfl⟩,
        all [] (List.prefix_refl _), .inl rfl⟩
    · obtain ⟨node, found⟩ := Option.isSome_iff_exists.mp present
      obtain ⟨entries, here⟩ := share.tree.nodeAt_above found
      obtain ⟨place, decided⟩ := share.tree.describe_here access groups here
      obtain ⟨allAbove, last⟩ := visibleThroughout_concat.mp all
      refine ⟨_, (visit_iff reported _).mpr ⟨above, entries, here, .inr allAbove, rfl⟩,
        ?_, .inr ⟨text, ?_, ?_⟩⟩
      · rw [decided]
        exact allAbove above (List.prefix_refl _)
      · rw [place]
      · rintro entry listed rfl
        obtain ⟨_, denied, _⟩ := (share.tree.mem_blocked access groups here entry).mp listed
        rw [denied] at last
        cases last

end

end

section

variable {access : AccessConfig} {groups segments : List String}

theorem Covered.root (covered : Covered access groups segments) :
    (evaluate access groups []).isHidden = false := by
  rw [evaluate_root]
  rcases covered with ⟨path, member, _⟩ | covering
  · exact .inl (List.ne_nil_of_mem member)
  · obtain ⟨cover, member⟩ := List.exists_mem_of_ne_nil _ covering
    obtain ⟨grant, held, inside, _⟩ := mem_covering.mp member
    exact .inr ⟨_, held, List.ne_nil_of_mem inside⟩

-- Denies reach down, so only what no allow path covers is hidden above something visible.
theorem visibleThroughout_iff (visible : (evaluate access groups segments).isHidden = false) :
    VisibleThroughout access groups segments ↔ ∀ above, above <+: segments → above ≠ [] →
      Covered access groups above := by
  constructor
  · exact fun all above leads below => ((evaluate_visible_iff access groups below).mp (all above leads)).1
  · intro covered above leads
    by_cases root : above = []
    · subst root
      by_cases top : segments = []
      · rwa [top] at visible
      · exact ((evaluate_visible_iff access groups top).mp visible).1.root
    · have below : segments ≠ [] := fun empty => root (List.prefix_nil.mp (empty ▸ leads))
      obtain ⟨_, free⟩ := (evaluate_visible_iff access groups below).mp visible
      refine (evaluate_visible_iff access groups root).mpr ⟨covered above leads root, fun denied => free ?_⟩
      obtain ⟨extension, rfl⟩ := leads
      exact denied.append extension

theorem isPathVisible_join (spelled : pathSegments (join '/' segments) = segments) :
    isPathVisible access groups (join '/' segments) = true ↔
      (evaluate access groups segments).isHidden = false ∧
      ∀ decoded, decodeEquivalent (join '/' segments) = some decoded →
      isHidden access groups decoded = false := by
  have literal : isHidden access groups (join '/' segments) = (evaluate access groups segments).isHidden := by
    rw [isHidden, spelled]
  unfold isPathVisible
  rw [literal]
  cases hidden : (evaluate access groups segments).isHidden with
  | true => simp
  | false =>
    cases equivalent : decodeEquivalent (join '/' segments) with
    | none => simp
    | some decoded =>
      by_cases same : decoded = join '/' segments
      · simp [same, literal, hidden]
      · simp [same]

end

/-- Whether an entry that is visible as it is spelled has a folder above it that no allow path
covers is whether its percent-decoded form is hidden. -/
def CheckAgrees (access : AccessConfig) (groups : List String) (share : CheckedShare) : Prop :=
  ∀ segments, (share.nodeAt segments).isSome → (evaluate access groups segments).isHidden = false →
    ((∃ above, above <+: segments ∧ above ≠ [] ∧ ¬Covered access groups above) ↔
      ∃ decoded, decodeEquivalent (join '/' segments) = some decoded ∧ isHidden access groups decoded)

section

variable {platform : Platform} {access : AccessConfig} {groups : List String} {share : CheckedShare}

theorem checkAgrees_entry {segments : List String} (present : (share.tree.nodeAt segments).isSome) :
    (VisibleThroughout access groups segments ↔ isPathVisible access groups (join '/' segments) = true) ↔
      ((evaluate access groups segments).isHidden = false →
        ((∃ above, above <+: segments ∧ above ≠ [] ∧ ¬Covered access groups above) ↔
          ∃ decoded, decodeEquivalent (join '/' segments) = some decoded ∧
          isHidden access groups decoded)) := by
  obtain ⟨node, found⟩ := Option.isSome_iff_exists.mp present
  rw [isPathVisible_join (share.tree.pathSegments_join found)]
  by_cases visible : (evaluate access groups segments).isHidden = false
  · simp only [visibleThroughout_iff visible, visible, true_and, true_imp_iff]
    have folders : (∀ above, above <+: segments → above ≠ [] → Covered access groups above) ↔
        ¬∃ above, above <+: segments ∧ above ≠ [] ∧ ¬Covered access groups above := by
      push Not
      rfl
    have names : (∀ decoded, decodeEquivalent (join '/' segments) = some decoded →
          isHidden access groups decoded = false) ↔
        ¬∃ decoded, decodeEquivalent (join '/' segments) = some decoded ∧ isHidden access groups decoded := by
      simp
    rw [folders, names, not_iff_not]
  · have hides : ¬VisibleThroughout access groups segments := fun all => visible (all _ (List.prefix_refl _))
    simp [visible, hides]

theorem ReportTellsTruth.agrees (tells : ReportTellsTruth platform access groups share) :
    CheckAgrees access groups share := by
  obtain ⟨⟨report, reported⟩, tells⟩ := tells
  intro segments present
  refine (checkAgrees_entry present).mp ?_
  rw [← shows_iff reported present]
  exact (tells report reported segments present).2

theorem CheckAgrees.tells (agrees : CheckAgrees access groups share) :
    ReportTellsTruth platform access groups share := by
  refine ⟨exists_report, ?_⟩
  intro report reported segments present
  have same := (checkAgrees_entry present).mpr (agrees segments present)
  rw [blocks_iff reported present, shows_iff reported present, same]
  simp

end

theorem reportTellsTruth_iff (platform : Platform) (access : AccessConfig) (groups : List String)
    (share : CheckedShare) :
    ReportTellsTruth platform access groups share ↔ CheckAgrees access groups share :=
  ⟨ReportTellsTruth.agrees, CheckAgrees.tells⟩

def chainChecked (path : Path) (leaf : Node Bytes) (bare : leaf.isLeaf) (directory : (chain path leaf).isDir)
    (utf8 : ∀ name ∈ path, (fromUtf8 name.bytes).isSome) : CheckedShare where
  toShare := chainShare path leaf bare directory
  utf8 := chainShare_utf8 utf8
  distinct := by
    intro query entries found
    obtain ⟨back, _, same⟩ := chain_get_some bare found
    cases back with
    | nil =>
      rw [chain] at same
      rw [← same] at bare
      have none : entries = [] := List.isEmpty_iff.mp bare
      simp [none]
    | cons name rest =>
      cases same
      simp
  readable _ := rfl

def nestedRules : Rules := ⟨[["projects", "public"]], [], []⟩

def nestedShare : CheckedShare :=
  chainChecked [entryName "projects", entryName "public"] (.dir []) rfl rfl (by decide +kernel)

theorem nestedRules_accepted : nestedRules.config.Accepted := by
  have allow : Writable ["projects", "public"] := .of_isWritable (by decide +kernel)
  exact Rules.config_accepted
    ⟨by simp [nestedRules, WritableAllow, allow], by simp [nestedRules],
      by simp [nestedRules], by decide, by decide⟩

-- The report says that everything under `projects` is blocked, and the server lists `projects/public`.
theorem not_reportTellsTruth_nested :
    nestedRules.config.Accepted ∧ ¬ReportTellsTruth noPlatform nestedRules.config [] nestedShare := by
  refine ⟨nestedRules_accepted, ?_⟩
  intro tells
  have uncovered : ¬Covered nestedRules.config [] ["projects"] := by
    unfold Covered
    decide +kernel
  obtain ⟨decoded, equivalent, hidden⟩ :=
    (tells.agrees ["projects", "public"] (by decide +kernel) (by decide +kernel)).mp
    ⟨["projects"], by decide, by decide, uncovered⟩
  have same : decodeEquivalent (join '/' ["projects", "public"]) = some "projects/public" := by decide +kernel
  have shown : isHidden nestedRules.config [] "projects/public" = false := by decide +kernel
  rw [same, Option.some.injEq] at equivalent
  rw [← equivalent, shown] at hidden
  cases hidden

end Yafm
