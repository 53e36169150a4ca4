import Yafm.Access.Config

set_option autoImplicit false

namespace Yafm

open Text

inductive AccessDenial where
  | noAllow
  | denied (pattern source : String)
  deriving DecidableEq, Repr

inductive AccessDecision where
  | visible (allowSource : String)
  | hidden (denial : AccessDenial)
  deriving DecidableEq, Repr

def AccessDecision.isHidden : AccessDecision → Bool
  | .visible _ => false
  | .hidden _ => true

def AccessDecision.IsDenied (decision : AccessDecision) : Prop :=
  ∃ pattern source, decision = .hidden (.denied pattern source)

def AccessConfig.held (access : AccessConfig) (groups : List String) : List (String × Grant) :=
  access.grants.entries.filter fun held => groups.contains held.1

def AccessConfig.covering (access : AccessConfig) (groups segments : List String) :
    List (String × AllowEntry) :=
  (access.held groups).flatMap fun held =>
    (held.2.allow.filter fun entry => allowCovers entry.path segments).map fun entry => (held.1, entry)

def AllowEntry.source (entry : AllowEntry) (group : String) : String :=
  "\"/" ++ entry.path ++ "\" (grant " ++ group ++ ")"

-- The deny that hides a path, with the global denies asked first.
def AccessConfig.denial (access : AccessConfig) (covering : List (String × AllowEntry))
    (segments : List String) : Option AccessDenial :=
  match access.globalDeny.find? fun pattern => pattern.matches segments with
  | some pattern => some (.denied pattern.raw "global deny")
  | none => covering.findSome? fun cover =>
    (cover.2.deny.find? fun pattern => pattern.matches segments).map fun pattern =>
      .denied pattern.raw ("allow-specific deny under " ++ cover.2.source cover.1)

def evaluate (access : AccessConfig) (groups segments : List String) : AccessDecision :=
  if segments = [] then
    if !access.globalAllow.isEmpty || (access.held groups).any fun held => !held.2.allow.isEmpty then
      .visible "allow entries exist for the scenario's groups"
    else .hidden .noAllow
  else
    let coveredByGlobal := access.globalAllow.any fun path => allowCovers path segments
    match coveredByGlobal, access.covering groups segments with
    | false, [] => .hidden .noAllow
    | _, covering =>
      match access.denial covering segments with
      | some denial => .hidden denial
      | none =>
        if coveredByGlobal then .visible "global allow"
        else .visible ("allow " ++ (covering.head?.map fun cover => cover.2.source cover.1).getD "")

def isHidden (access : AccessConfig) (groups : List String) (relative : String) : Bool :=
  (evaluate access groups (pathSegments relative)).isHidden

def decodeSegments : List String → Option (List String)
  | [] => some []
  | component :: rest =>
    let bytes := percentDecodeBytes component
    if hidesSeparator bytes || bytes = asBytes ".." then none
    else
      match fromUtf8 bytes with
      | some text => (decodeSegments rest).map (text :: ·)
      | none => none

def decodeEquivalent (relative : String) : Option String :=
  (decodeSegments (split '/' relative)).map (join '/')

def isPathVisible (access : AccessConfig) (groups : List String) (relative : String) : Bool :=
  if isHidden access groups relative then false
  else
    match decodeEquivalent relative with
    | some decoded => if decoded ≠ relative then !isHidden access groups decoded else true
    | none => true

def canDelete (access : AccessConfig) (groups : List String) (relative : String) : Bool :=
  if relative = "" || !isPathVisible access groups relative then false
  else
    (access.held groups).any fun held =>
      held.2.delete && held.2.allow.any fun entry => allowCovers entry.path (pathSegments relative)

def Covered (access : AccessConfig) (groups segments : List String) : Prop :=
  (∃ path ∈ access.globalAllow, allowCovers path segments) ∨ access.covering groups segments ≠ []

def Denied (access : AccessConfig) (groups segments : List String) : Prop :=
  (∃ pattern ∈ access.globalDeny, pattern.matches segments) ∨
    ∃ cover ∈ access.covering groups segments, ∃ pattern ∈ cover.2.deny, pattern.matches segments

theorem mem_held {access : AccessConfig} {groups : List String} {held : String × Grant} :
    held ∈ access.held groups ↔ held ∈ access.grants.entries ∧ held.1 ∈ groups := by
  simp [AccessConfig.held]

theorem mem_covering {access : AccessConfig} {groups segments : List String} {cover : String × AllowEntry} :
    cover ∈ access.covering groups segments ↔
      ∃ grant, (cover.1, grant) ∈ access.held groups ∧ cover.2 ∈ grant.allow ∧
        allowCovers cover.2.path segments := by
  obtain ⟨group, entry⟩ := cover
  simp only [AccessConfig.covering, List.mem_flatMap, List.mem_map, List.mem_filter, Prod.mk.injEq]
  constructor
  · rintro ⟨⟨name, grant⟩, held, other, ⟨member, covers⟩, rfl, rfl⟩
    exact ⟨grant, held, member, covers⟩
  · rintro ⟨grant, held, member, covers⟩
    exact ⟨(group, grant), held, entry, ⟨member, covers⟩, rfl, rfl⟩

theorem denial_none_iff (access : AccessConfig) (groups segments : List String) :
    access.denial (access.covering groups segments) segments = none ↔ ¬Denied access groups segments := by
  unfold AccessConfig.denial Denied
  split
  next pattern found =>
    have matched := List.find?_some found
    have member := List.mem_of_find?_eq_some found
    simp only [reduceCtorEq, false_iff, not_not]
    exact Or.inl ⟨pattern, member, matched⟩
  next free =>
    simp_all

theorem denial_isDenied {access : AccessConfig} {covering : List (String × AllowEntry)}
    {segments : List String} {denial : AccessDenial}
    (found : access.denial covering segments = some denial) :
    ∃ pattern source, denial = .denied pattern source := by
  unfold AccessConfig.denial at found
  split at found
  · cases found
    exact ⟨_, _, rfl⟩
  · obtain ⟨cover, _, here⟩ := List.exists_of_findSome?_eq_some found
    obtain ⟨pattern, _, same⟩ := Option.map_eq_some_iff.mp here
    exact ⟨_, _, same.symm⟩

theorem evaluate_below (access : AccessConfig) (groups : List String) {segments : List String}
    (below : segments ≠ []) :
    (¬Covered access groups segments ∧ evaluate access groups segments = .hidden .noAllow) ∨
    (Covered access groups segments ∧ Denied access groups segments ∧
      (evaluate access groups segments).IsDenied) ∨
    (Covered access groups segments ∧ ¬Denied access groups segments ∧
      (evaluate access groups segments).isHidden = false) := by
  have globalIff : (∃ path ∈ access.globalAllow, allowCovers path segments) ↔
      (access.globalAllow.any fun path => allowCovers path segments) = true := by simp
  unfold evaluate
  rw [if_neg below]
  simp only [Covered, globalIff]
  split
  next uncovered noEntry => exact Or.inl ⟨by simp [uncovered, noEntry], rfl⟩
  next covered =>
    have covers : (access.globalAllow.any fun path => allowCovers path segments) = true ∨
        access.covering groups segments ≠ [] := by
      by_contra neither
      rw [not_or, not_not, Bool.not_eq_true] at neither
      exact covered neither.1 neither.2
    cases found : access.denial (access.covering groups segments) segments with
    | some denial =>
      obtain ⟨pattern, source, rfl⟩ := denial_isDenied found
      have denied : Denied access groups segments := by
        by_contra free
        rw [(denial_none_iff access groups segments).mpr free] at found
        cases found
      exact Or.inr (Or.inl ⟨covers, denied, pattern, source, rfl⟩)
    | none =>
      refine Or.inr (Or.inr ⟨covers, (denial_none_iff access groups segments).mp found, ?_⟩)
      dsimp only
      split <;> rfl

theorem evaluate_root (access : AccessConfig) (groups : List String) :
    (evaluate access groups []).isHidden = false ↔
      access.globalAllow ≠ [] ∨ ∃ held ∈ access.held groups, held.2.allow ≠ [] := by
  simp only [evaluate, if_true]
  split
  next some =>
    simp only [AccessDecision.isHidden, true_iff]
    simpa using some
  next none =>
    simp only [AccessDecision.isHidden, Bool.true_eq_false, false_iff]
    simpa using none

theorem evaluate_root_not_denied (access : AccessConfig) (groups : List String) :
    ¬(evaluate access groups []).IsDenied := by
  rintro ⟨pattern, source, decided⟩
  simp only [evaluate, if_true] at decided
  split at decided <;> cases decided

theorem evaluate_visible_iff (access : AccessConfig) (groups : List String) {segments : List String}
    (below : segments ≠ []) :
    (evaluate access groups segments).isHidden = false ↔
      Covered access groups segments ∧ ¬Denied access groups segments := by
  rcases evaluate_below access groups below with
    ⟨uncovered, decided⟩ | ⟨covered, denied, pattern, source, decided⟩ | ⟨covered, free, visible⟩
  · simp [decided, AccessDecision.isHidden, uncovered]
  · simp [decided, AccessDecision.isHidden, denied]
  · simp [visible, covered, free]

theorem evaluate_denied_iff (access : AccessConfig) (groups segments : List String) :
    (evaluate access groups segments).IsDenied ↔
      segments ≠ [] ∧ Covered access groups segments ∧ Denied access groups segments := by
  by_cases below : segments = []
  · subst below
    simp [evaluate_root_not_denied]
  · rcases evaluate_below access groups below with
      ⟨uncovered, decided⟩ | ⟨covered, denied, decided⟩ | ⟨covered, free, visible⟩
    · simp [decided, AccessDecision.IsDenied, uncovered]
    · simp [decided, below, covered, denied]
    · simp only [free, and_false, iff_false]
      rintro ⟨pattern, source, decided⟩
      rw [decided] at visible
      cases visible

theorem Covered.append {access : AccessConfig} {groups segments : List String} (extension : List String)
    (covered : Covered access groups segments) : Covered access groups (segments ++ extension) := by
  rcases covered with ⟨path, member, covers⟩ | nonempty
  · exact Or.inl ⟨path, member, allowCovers_append extension covers⟩
  · obtain ⟨cover, member⟩ := List.exists_mem_of_ne_nil _ nonempty
    obtain ⟨grant, held, inside, covers⟩ := mem_covering.mp member
    exact Or.inr
      (List.ne_nil_of_mem (mem_covering.mpr ⟨grant, held, inside, allowCovers_append extension covers⟩))

theorem Denied.append {access : AccessConfig} {groups segments : List String} (extension : List String)
    (denied : Denied access groups segments) : Denied access groups (segments ++ extension) := by
  rcases denied with ⟨pattern, member, hit⟩ | ⟨cover, covers, pattern, member, hit⟩
  · exact Or.inl ⟨pattern, member, DenyPattern.matches_append extension hit⟩
  · obtain ⟨grant, held, inside, leads⟩ := mem_covering.mp covers
    exact Or.inr ⟨cover, mem_covering.mpr ⟨grant, held, inside, allowCovers_append extension leads⟩,
      pattern, member, DenyPattern.matches_append extension hit⟩

theorem evaluate_denied_append (access : AccessConfig) (groups segments extension : List String)
    (denied : (evaluate access groups segments).IsDenied) :
    (evaluate access groups (segments ++ extension)).IsDenied := by
  rw [evaluate_denied_iff] at denied ⊢
  obtain ⟨below, covered, hit⟩ := denied
  exact ⟨by simp [below], covered.append extension, hit.append extension⟩

theorem evaluate_denied_append_starred :
    (evaluate (Rules.config ⟨[[]], [["a", "**", "c?*"]], []⟩) []
      (["a", "x", "y", "cd"] ++ ["e", "f"])).IsDenied :=
  evaluate_denied_append _ _ _ _ ⟨"/a/**/c?*", "global deny", by decide⟩

def DeleteCovered (access : AccessConfig) (groups segments : List String) : Prop :=
  ∃ held ∈ access.held groups, held.2.delete ∧ ∃ entry ∈ held.2.allow, allowCovers entry.path segments

theorem canDelete_iff (access : AccessConfig) (groups : List String) (relative : String) :
    canDelete access groups relative ↔ relative ≠ "" ∧ isPathVisible access groups relative ∧
      DeleteCovered access groups (pathSegments relative) := by
  unfold canDelete
  split
  next refused =>
    simp only [Bool.false_eq_true, false_iff]
    rintro ⟨named, visible, _⟩
    simp [named, visible] at refused
  next accepted =>
    have checked : relative ≠ "" ∧ isPathVisible access groups relative := by simpa using accepted
    simp [DeleteCovered, checked.1, checked.2]

namespace Rules

theorem allowCovers_join {path segments : List String} (writable : WritableAllow path) :
    allowCovers (join '/' path) segments ↔ path <+: segments := by
  rw [allowCovers_iff]
  rcases writable with rfl | writable
  · simp [join]
  · have solid : join '/' path ≠ "" := by
      intro empty
      have parts := writable.split_join
      rw [empty] at parts
      exact writable.named "" (by rw [← parts]; decide) rfl
    simp [solid, writable.split_join]

theorem mem_held {rules : Rules} {groups : List String} {held : String × Grant} :
    held ∈ rules.config.held groups ↔ rules.grant ≠ [] ∧ group ∈ groups ∧
      held = (group, ⟨true, rules.grant.map fun path => ⟨join '/' path, []⟩⟩) := by
  rw [Yafm.mem_held]
  by_cases empty : rules.grant = []
  · simp [config, empty, OrderedMap.empty]
  · simp only [config, empty, if_false, OrderedMap.entries_singleton, List.mem_singleton,
      ne_eq, not_false_eq_true, true_and]
    constructor
    · rintro ⟨rfl, member⟩
      exact ⟨member, rfl⟩
    · rintro ⟨member, rfl⟩
      exact ⟨rfl, member⟩

variable {rules : Rules} (writable : rules.Writable) (groups segments : List String)
include writable

theorem covered_iff :
    Covered rules.config groups segments ↔
      (∃ path ∈ rules.allow, path <+: segments) ∨ group ∈ groups ∧
      ∃ path ∈ rules.grant, path <+: segments := by
  refine or_congr ?_ ?_
  · simp only [config, List.mem_map]
    constructor
    · rintro ⟨_, ⟨path, member, rfl⟩, covers⟩
      exact ⟨path, member, (allowCovers_join (writable.allow path member)).mp covers⟩
    · rintro ⟨path, member, leads⟩
      exact ⟨_, ⟨path, member, rfl⟩, (allowCovers_join (writable.allow path member)).mpr leads⟩
  · constructor
    · intro nonempty
      obtain ⟨cover, member⟩ := List.exists_mem_of_ne_nil _ nonempty
      obtain ⟨grant, held, inside, covers⟩ := mem_covering.mp member
      obtain ⟨_, named, same⟩ := mem_held.mp held
      obtain ⟨_, rfl⟩ := Prod.mk.inj same
      obtain ⟨path, listed, same⟩ := List.mem_map.mp inside
      rw [← same] at covers
      exact ⟨named, path, listed, (allowCovers_join (writable.grant path listed)).mp covers⟩
    · rintro ⟨named, path, listed, leads⟩
      refine List.ne_nil_of_mem (a := (group, ⟨join '/' path, []⟩)) (mem_covering.mpr ⟨_, mem_held.mpr
        ⟨List.ne_nil_of_mem listed, named, rfl⟩, List.mem_map_of_mem listed, ?_⟩)
      exact (allowCovers_join (writable.grant path listed)).mpr leads

omit writable in
theorem denied_iff :
    Denied rules.config groups segments ↔ ∃ pattern ∈ rules.deny, (denyPattern pattern).matches segments := by
  constructor
  · rintro (⟨_, member, hit⟩ | ⟨cover, covers, pattern, member, _⟩)
    · obtain ⟨pattern, listed, rfl⟩ := List.mem_map.mp member
      exact ⟨pattern, listed, hit⟩
    · obtain ⟨grant, held, inside, _⟩ := mem_covering.mp covers
      obtain ⟨_, _, same⟩ := mem_held.mp held
      obtain ⟨_, rfl⟩ := Prod.mk.inj same
      obtain ⟨path, _, same⟩ := List.mem_map.mp inside
      rw [← same] at member
      cases member
  · rintro ⟨pattern, listed, hit⟩
    exact Or.inl ⟨denyPattern pattern, List.mem_map_of_mem listed, hit⟩

theorem visible_iff (below : segments ≠ []) :
    (evaluate rules.config groups segments).isHidden = false ↔
      ((∃ path ∈ rules.allow, path <+: segments) ∨ group ∈ groups ∧ ∃ path ∈ rules.grant, path <+: segments) ∧
        ∀ pattern ∈ rules.deny, (denyPattern pattern).matches segments = false := by
  rw [evaluate_visible_iff _ _ below, covered_iff writable, denied_iff]
  simp

theorem deleteCovered_iff :
    DeleteCovered rules.config groups segments ↔
      group ∈ groups ∧ ∃ path ∈ rules.grant, path <+: segments := by
  constructor
  · rintro ⟨held, member, _, entry, inside, covers⟩
    obtain ⟨_, named, rfl⟩ := mem_held.mp member
    obtain ⟨path, listed, rfl⟩ := List.mem_map.mp inside
    exact ⟨named, path, listed, (allowCovers_join (writable.grant path listed)).mp covers⟩
  · rintro ⟨named, path, listed, leads⟩
    exact ⟨_, mem_held.mpr ⟨List.ne_nil_of_mem listed, named, rfl⟩, rfl, ⟨join '/' path, []⟩,
      List.mem_map_of_mem listed, (allowCovers_join (writable.grant path listed)).mpr leads⟩

end Rules

end Yafm
