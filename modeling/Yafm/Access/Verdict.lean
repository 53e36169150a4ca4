import Yafm.Access.Evaluate
import Mathlib.Data.Set.Basic

set_option autoImplicit false

namespace Yafm

open Text

/-- What a user's rules come to once order, repetition and grouping are forgotten. -/
structure RuleSets where
  globalAllow : Set String
  globalDeny : Set DenyPattern
  -- an allow path with the denies that only count below it
  entries : Set (String × Set DenyPattern)

namespace RuleSets

variable (rules : RuleSets) (segments : List String)

def Allows : Prop :=
  (∃ path ∈ rules.globalAllow, allowCovers path segments) ∨
  ∃ entry ∈ rules.entries, allowCovers entry.1 segments

def Denies : Prop :=
  (∃ pattern ∈ rules.globalDeny, pattern.matches segments) ∨
    ∃ entry ∈ rules.entries, allowCovers entry.1 segments ∧ ∃ pattern ∈ entry.2, pattern.matches segments

-- The visible root: any allow shows the root itself, and below it every deny in scope wins.
def Visible : Prop :=
  if segments = [] then rules.globalAllow.Nonempty ∨ rules.entries.Nonempty
  else rules.Allows segments ∧ ¬rules.Denies segments

end RuleSets

def AccessConfig.Holds (access : AccessConfig) (groups : List String) (group : String)
    (entry : AllowEntry) : Prop :=
  group ∈ groups ∧ ∃ grant, (group, grant) ∈ access.grants.entries ∧ entry ∈ grant.allow

def AccessConfig.ruleSets (access : AccessConfig) (groups : List String) : RuleSets where
  globalAllow := {path | path ∈ access.globalAllow}
  globalDeny := {pattern | pattern ∈ access.globalDeny}
  entries := {entry | ∃ group held, access.Holds groups group held ∧
    entry = (held.path, {pattern | pattern ∈ held.deny})}

variable {access : AccessConfig} {groups segments : List String}

theorem mem_covering_holds {group : String} {entry : AllowEntry} :
    (group, entry) ∈ access.covering groups segments ↔
      access.Holds groups group entry ∧ allowCovers entry.path segments := by
  rw [mem_covering]
  simp only [mem_held, AccessConfig.Holds]
  constructor
  · rintro ⟨grant, ⟨listed, named⟩, inside, covers⟩
    exact ⟨⟨named, grant, listed, inside⟩, covers⟩
  · rintro ⟨⟨named, grant, listed, inside⟩, covers⟩
    exact ⟨grant, ⟨listed, named⟩, inside, covers⟩

theorem covered_iff_allows : Covered access groups segments ↔ (access.ruleSets groups).Allows segments := by
  refine or_congr Iff.rfl ?_
  constructor
  · intro some
    obtain ⟨⟨group, entry⟩, member⟩ := List.exists_mem_of_ne_nil _ some
    obtain ⟨held, covers⟩ := mem_covering_holds.mp member
    exact ⟨_, ⟨group, entry, held, rfl⟩, covers⟩
  · rintro ⟨_, ⟨group, entry, held, rfl⟩, covers⟩
    exact List.ne_nil_of_mem (mem_covering_holds.mpr ⟨held, covers⟩)

theorem denied_iff_denies : Denied access groups segments ↔ (access.ruleSets groups).Denies segments := by
  refine or_congr Iff.rfl ?_
  constructor
  · rintro ⟨⟨group, entry⟩, member, pattern, inside, hit⟩
    obtain ⟨held, covers⟩ := mem_covering_holds.mp member
    exact ⟨_, ⟨group, entry, held, rfl⟩, covers, pattern, inside, hit⟩
  · rintro ⟨_, ⟨group, entry, held, rfl⟩, covers, pattern, inside, hit⟩
    exact ⟨(group, entry), mem_covering_holds.mpr ⟨held, covers⟩, pattern, inside, hit⟩

theorem root_iff_nonempty :
    (access.globalAllow ≠ [] ∨ ∃ held ∈ access.held groups, held.2.allow ≠ []) ↔
      (access.ruleSets groups).globalAllow.Nonempty ∨ (access.ruleSets groups).entries.Nonempty := by
  have somePath : access.globalAllow ≠ [] ↔ (access.ruleSets groups).globalAllow.Nonempty := by
    constructor
    · exact List.exists_mem_of_ne_nil _
    · rintro ⟨path, inside⟩
      exact List.ne_nil_of_mem inside
  refine or_congr somePath ?_
  constructor
  · rintro ⟨⟨group, grant⟩, member, some⟩
    obtain ⟨listed, named⟩ := mem_held.mp member
    obtain ⟨entry, inside⟩ := List.exists_mem_of_ne_nil _ some
    exact ⟨_, group, entry, ⟨named, grant, listed, inside⟩, rfl⟩
  · rintro ⟨_, group, entry, ⟨named, grant, listed, inside⟩, rfl⟩
    exact ⟨(group, grant), mem_held.mpr ⟨listed, named⟩, List.ne_nil_of_mem inside⟩

theorem evaluate_ruleSets (access : AccessConfig) (groups segments : List String) :
    (evaluate access groups segments).isHidden = false ↔ (access.ruleSets groups).Visible segments := by
  unfold RuleSets.Visible
  by_cases root : segments = []
  · rw [if_pos root, root, evaluate_root, root_iff_nonempty]
  · rw [if_neg root, evaluate_visible_iff _ _ root, covered_iff_allows, denied_iff_denies]

/-- The same members in every list, whatever their order and however often they are repeated,
and the same entries for the user, in whichever of the user's grants they stand. -/
structure Rearranged (access : AccessConfig) (groups : List String) (other : AccessConfig)
    (others : List String) : Prop where
  globalAllow : ∀ path, path ∈ other.globalAllow ↔ path ∈ access.globalAllow
  globalDeny : ∀ pattern, pattern ∈ other.globalDeny ↔ pattern ∈ access.globalDeny
  kept : ∀ group entry, access.Holds groups group entry → ∃ holder moved, other.Holds others holder moved ∧
    moved.path = entry.path ∧ ∀ pattern, pattern ∈ moved.deny ↔ pattern ∈ entry.deny
  added : ∀ holder moved, other.Holds others holder moved → ∃ group entry, access.Holds groups group entry ∧
    moved.path = entry.path ∧ ∀ pattern, pattern ∈ moved.deny ↔ pattern ∈ entry.deny

theorem Rearranged.ruleSets_eq {other : AccessConfig} {others : List String}
    (same : Rearranged access groups other others) : other.ruleSets others = access.ruleSets groups := by
  have entries : (other.ruleSets others).entries = (access.ruleSets groups).entries := by
    ext ⟨path, denies⟩
    constructor
    · rintro ⟨holder, moved, holds, whole⟩
      obtain ⟨rfl, rfl⟩ := Prod.mk.inj whole
      obtain ⟨group, entry, held, path, denies⟩ := same.added holder moved holds
      exact ⟨group, entry, held, Prod.ext path (Set.ext denies)⟩
    · rintro ⟨group, entry, held, whole⟩
      obtain ⟨rfl, rfl⟩ := Prod.mk.inj whole
      obtain ⟨holder, moved, holds, path, denies⟩ := same.kept group entry held
      exact ⟨holder, moved, holds, Prod.ext path.symm (Set.ext fun pattern => (denies pattern).symm)⟩
  have allows : (other.ruleSets others).globalAllow = (access.ruleSets groups).globalAllow :=
    Set.ext same.globalAllow
  have denies : (other.ruleSets others).globalDeny = (access.ruleSets groups).globalDeny :=
    Set.ext same.globalDeny
  simp only [AccessConfig.ruleSets, RuleSets.mk.injEq] at entries allows denies ⊢
  exact ⟨allows, denies, entries⟩

def TrueDenial (access : AccessConfig) (groups segments : List String) (pattern source : String) : Prop :=
  (∃ deny ∈ access.globalDeny, deny.matches segments ∧ pattern = deny.raw ∧ source = "global deny") ∨
    ∃ group entry, access.Holds groups group entry ∧ allowCovers entry.path segments ∧
      ∃ deny ∈ entry.deny, deny.matches segments ∧ pattern = deny.raw ∧
        source = "allow-specific deny under " ++ entry.source group

-- An allow of the config that shows the path; an entry is named only where there is a first one to name.
def TrueAllow (access : AccessConfig) (groups segments : List String) (source : String) : Prop :=
  (source = "global allow" ∧ ∃ path ∈ access.globalAllow, allowCovers path segments) ∨
    ((∀ path ∈ access.globalAllow, allowCovers path segments = false) ∧
      ∃ group entry rest, access.covering groups segments = (group, entry) :: rest ∧
        access.Holds groups group entry ∧ allowCovers entry.path segments ∧
        source = "allow " ++ entry.source group)

theorem denial_true {pattern source : String}
    (found : access.denial (access.covering groups segments) segments = some (.denied pattern source)) :
    TrueDenial access groups segments pattern source := by
  unfold AccessConfig.denial at found
  split at found
  next deny first =>
    cases found
    have hit := List.find?_some first
    exact Or.inl ⟨deny, List.mem_of_find?_eq_some first, hit, rfl, rfl⟩
  next =>
    obtain ⟨⟨group, entry⟩, member, here⟩ := List.exists_of_findSome?_eq_some found
    obtain ⟨deny, first, same⟩ := Option.map_eq_some_iff.mp here
    cases same
    obtain ⟨held, covers⟩ := mem_covering_holds.mp member
    have hit := List.find?_some first
    exact Or.inr ⟨group, entry, held, covers, deny, List.mem_of_find?_eq_some first, hit, rfl, rfl⟩

theorem evaluate_denied_true {pattern source : String}
    (decided : evaluate access groups segments = .hidden (.denied pattern source)) :
    TrueDenial access groups segments pattern source := by
  have below : segments ≠ [] := by
    rintro rfl
    exact evaluate_root_not_denied access groups ⟨pattern, source, decided⟩
  unfold evaluate at decided
  rw [if_neg below] at decided
  dsimp only at decided
  split at decided
  · cases decided
  · split at decided
    next denial found =>
      cases decided
      exact denial_true found
    next =>
      split at decided <;> cases decided

theorem evaluate_visible_true {source : String} (below : segments ≠ [])
    (decided : evaluate access groups segments = .visible source) :
    TrueAllow access groups segments source := by
  unfold evaluate at decided
  rw [if_neg below] at decided
  dsimp only at decided
  split at decided
  · cases decided
  next covered =>
    split at decided
    · cases decided
    · split at decided
      next everyone =>
        cases decided
        exact Or.inl ⟨rfl, by simpa using everyone⟩
      next own =>
        cases decided
        rw [Bool.not_eq_true] at own
        obtain ⟨⟨group, entry⟩, rest, first⟩ := List.exists_cons_of_ne_nil (covered own)
        obtain ⟨held, covers⟩ := mem_covering_holds.mp (first ▸ List.mem_cons_self)
        refine Or.inr ⟨by simpa using own, group, entry, rest, first, held, covers, ?_⟩
        simp [first]

theorem evaluate_verdict (access : AccessConfig) (groups segments : List String) :
    ((evaluate access groups segments).isHidden = false ↔ (access.ruleSets groups).Visible segments) ∧
    (∀ other others, Rearranged access groups other others →
      (evaluate other others segments).isHidden = (evaluate access groups segments).isHidden) ∧
    (∀ pattern source, evaluate access groups segments = .hidden (.denied pattern source) →
      TrueDenial access groups segments pattern source) ∧
    (∀ source, segments ≠ [] → evaluate access groups segments = .visible source →
      TrueAllow access groups segments source) := by
  refine ⟨evaluate_ruleSets _ _ _, fun other others same => ?_, fun _ _ => evaluate_denied_true,
    fun _ => evaluate_visible_true⟩
  have verdict := evaluate_ruleSets other others segments
  rw [same.ruleSets_eq, ← evaluate_ruleSets] at verdict
  rwa [Bool.eq_iff_iff, ← not_iff_not, Bool.not_eq_true, Bool.not_eq_true]

end Yafm
