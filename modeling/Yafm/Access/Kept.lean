import Yafm.Access.Meaning

set_option autoImplicit false

namespace Yafm

open Text

/-- The rules of a block are all in the config, each under the trimmed name of its group, and
nothing else is. -/
structure Keeps (block : AccessConfigFile) (access : AccessConfig) : Prop where
  allow : List.Forall₂ (fun raw path => validateAllowPath raw = .ok path) block.allow access.globalAllow
  deny : List.Forall₂ (fun raw pattern => validateDenyPattern raw = .ok pattern) block.deny access.globalDeny
  grants : ∀ source ∈ block.grants.entries, ∃ grant, (trim source.1, grant) ∈ access.grants.entries ∧
    grant.delete = source.2.delete ∧
    ∀ entry ∈ source.2.allow, ∃ compiled ∈ grant.allow, validateAllowEntry entry = .ok compiled
  others : ∀ held ∈ access.grants.entries, ∃ source ∈ block.grants.entries, trim source.1 = held.1 ∧
    source.2.delete = held.2.delete ∧
    ∀ compiled ∈ held.2.allow, ∃ entry ∈ source.2.allow, validateAllowEntry entry = .ok compiled

def AllowEntryFile.SameRule (entry other : AllowEntryFile) : Prop :=
  normalizeRelativePath entry.path = normalizeRelativePath other.path ∧ entry.deny = other.deny

def GrantFile.RepeatedBy (grant later : GrantFile) : Prop :=
  later.delete = grant.delete ∧ ∀ entry ∈ grant.allow, ∃ other ∈ later.allow, entry.SameRule other

-- The last in the order of the keys, among the groups that trim to one name.
def LastNamed (grants : OrderedMap String GrantFile) (name : String) (last : String × GrantFile) : Prop :=
  last ∈ grants.entries ∧ trim last.1 = name ∧ ∀ other ∈ grants.entries,
    trim other.1 = name → other.1 ≤ last.1

-- Where several groups trim to one name, the last of them repeats the grants of all.
def LastRepeats (grants : OrderedMap String GrantFile) : Prop :=
  ∀ source ∈ grants.entries, ∀ last, LastNamed grants (trim source.1) last → source.2.RepeatedBy last.2

theorem LastNamed.unique {grants : OrderedMap String GrantFile} {name : String}
    {left right : String × GrantFile} (here : LastNamed grants name left)
    (there : LastNamed grants name right) : left = right := by
  apply grants.eq_of_key_eq here.1 there.1
  exact le_antisymm (there.2.2 left here.1 here.2.1) (here.2.2 right there.1 there.2.1)

theorem lastUnder_validated {sources : List (String × GrantFile)} {grants : List (String × Grant)}
    (sorted : sources.Pairwise fun left right => left.1 < right.1)
    (validated : List.Forall₂ (fun source held => validateGrant source.1 source.2 = .ok held) sources grants)
    {name : String} {grant : Grant} (kept : OrderedMap.lastUnder name grants = some grant) :
    ∃ last ∈ sources, trim last.1 = name ∧ (∀ other ∈ sources, trim other.1 = name → other.1 ≤ last.1) ∧
      validateGrant last.1 last.2 = .ok (name, grant) := by
  induction validated with
  | nil => cases kept
  | @cons source held rest others valid pairs ih =>
    obtain ⟨below, ordered⟩ := List.pairwise_cons.mp sorted
    cases later : OrderedMap.lastUnder name others with
    | some value =>
      rw [OrderedMap.lastUnder, later, Option.some_or] at kept
      obtain ⟨last, member, named, latest, valid⟩ := ih ordered (later.trans kept)
      refine ⟨last, List.mem_cons_of_mem _ member, named, ?_, valid⟩
      intro other inside same
      rcases List.mem_cons.mp inside with rfl | after
      · exact (below last member).le
      · exact latest other after same
    | none =>
      rw [OrderedMap.lastUnder, later, Option.none_or] at kept
      have named := (validateGrant_ok valid).1
      have onlyHere : ∀ other ∈ rest, trim other.1 ≠ name := by
        rintro other after rfl
        obtain ⟨compiled, inside, there⟩ := forall₂_mem_left pairs after
        obtain ⟨value, found⟩ := OrderedMap.lastUnder_isSome inside
        rw [(validateGrant_ok there).1, later] at found
        cases found
      split at kept
      next here =>
        cases kept
        subst here
        refine ⟨source, List.mem_cons_self, named.symm, ?_, valid⟩
        intro other inside same
        rcases List.mem_cons.mp inside with rfl | after
        · exact le_rfl
        · exact absurd same (onlyHere other after)
      · cases kept

theorem validateDenyPattern_raws {raws : List String} {patterns : List DenyPattern}
    (validated : raws.mapM validateDenyPattern = .ok patterns) : patterns.map DenyPattern.raw = raws := by
  induction mapM_ok_iff.mp validated with
  | nil => rfl
  | cons here _ ih => rw [List.map_cons, ih (mapM_ok_iff.mpr ‹_›), validateDenyPattern_ok here]

theorem validateAllowEntry_same {entry other : AllowEntryFile} {compiled : AllowEntry}
    (valid : validateAllowEntry other = .ok compiled) {accepted : AllowEntry}
    (here : validateAllowEntry entry = .ok accepted) : accepted = compiled ↔ entry.SameRule other := by
  obtain ⟨path, deny⟩ := validateAllowEntry_ok valid
  obtain ⟨ownPath, ownDeny⟩ := validateAllowEntry_ok here
  constructor
  · rintro rfl
    constructor
    · rw [← validateAllowPath_normalize ownPath, ← validateAllowPath_normalize path]
    · rw [← validateDenyPattern_raws ownDeny, ← validateDenyPattern_raws deny]
  · rintro ⟨samePath, sameDeny⟩
    rw [sameDeny, deny] at ownDeny
    have paths : accepted.path = compiled.path := by
      rw [validateAllowPath_normalize ownPath, samePath, ← validateAllowPath_normalize path]
    cases accepted
    cases compiled
    rw [AllowEntry.mk.injEq]
    exact ⟨paths, (Except.ok.inj ownDeny).symm⟩

theorem validateAccessConfig_keeps_iff {block : AccessConfigFile} {access : AccessConfig}
    (accepted : validateAccessConfig block = .ok access) : Keeps block access ↔ LastRepeats block.grants := by
  obtain ⟨allow, deny, grants, granted, built⟩ := validateAccessConfig_ok accepted
  have validated := mapM_ok_iff.mp granted
  have held {name : String} {grant : Grant} (member : (name, grant) ∈ access.grants.entries) :
      ∃ last, LastNamed block.grants name last ∧ validateGrant last.1 last.2 = .ok (name, grant) := by
    rw [built, OrderedMap.mem_ofList_iff] at member
    obtain ⟨last, inside, named, latest, valid⟩ := lastUnder_validated block.grants.sorted validated member
    exact ⟨last, ⟨inside, named, latest⟩, valid⟩
  constructor
  · intro keeps source member last latest
    obtain ⟨grant, inside, delete, entries⟩ := keeps.grants source member
    obtain ⟨kept, named, valid⟩ := held inside
    obtain rfl := named.unique latest
    obtain ⟨_, flag, compiled⟩ := validateGrant_ok valid
    refine ⟨flag.symm.trans delete, ?_⟩
    intro entry listed
    obtain ⟨rule, there, accepted⟩ := entries entry listed
    obtain ⟨other, among, same⟩ := mem_mapM_ok compiled there
    exact ⟨other, among, (validateAllowEntry_same same accepted).mp rfl⟩
  · intro repeats
    refine ⟨mapM_ok_iff.mp allow, mapM_ok_iff.mp deny, ?_, ?_⟩
    · intro source member
      obtain ⟨own, listed, here⟩ := forall₂_mem_left validated member
      obtain ⟨grant, found⟩ := OrderedMap.lastUnder_isSome listed
      obtain ⟨named, _, ownEntries⟩ := validateGrant_ok here
      rw [named, ← OrderedMap.mem_ofList_iff, ← built] at found
      obtain ⟨last, latest, valid⟩ := held found
      obtain ⟨delete, entries⟩ := repeats source member last latest
      obtain ⟨_, flag, compiled⟩ := validateGrant_ok valid
      refine ⟨grant, found, flag.trans delete, ?_⟩
      intro entry inside
      obtain ⟨other, among, same⟩ := entries entry inside
      obtain ⟨mine, _, accepted⟩ := forall₂_mem_left (mapM_ok_iff.mp ownEntries) inside
      obtain ⟨rule, there, valid⟩ := forall₂_mem_left (mapM_ok_iff.mp compiled) among
      obtain rfl := (validateAllowEntry_same valid accepted).mpr same
      exact ⟨mine, there, accepted⟩
    · rintro ⟨name, grant⟩ member
      obtain ⟨last, ⟨inside, named, _⟩, valid⟩ := held member
      obtain ⟨_, flag, compiled⟩ := validateGrant_ok valid
      exact ⟨last, inside, named, flag.symm, fun rule there => mem_mapM_ok compiled there⟩

theorem validateAccessConfig_keeps_repeated :
    Keeps ⟨["docs"], ["*.nfo"], OrderedMap.ofList
      [(" staff", ⟨true, [⟨"tv", []⟩]⟩), ("staff", ⟨true, [⟨"/tv", []⟩]⟩)]⟩
        ⟨["docs"], [⟨"*.nfo", false, [⟨"*.nfo", false⟩]⟩],
          OrderedMap.ofList [("staff", ⟨true, [⟨"tv", []⟩]⟩)]⟩ ↔
      LastRepeats (OrderedMap.ofList [(" staff", ⟨true, [⟨"tv", []⟩]⟩), ("staff", ⟨true, [⟨"/tv", []⟩]⟩)]) :=
  validateAccessConfig_keeps_iff rfl

-- Of two groups that differ in a blank only, the first loses its grant.
theorem not_validateAccessConfig_keeps :
    ¬∀ block access, validateAccessConfig block = .ok access → Keeps block access := by
  intro always
  let block : AccessConfigFile :=
    { grants := OrderedMap.ofList [("staff", ⟨true, [⟨"docs", []⟩]⟩), ("staff ", ⟨false, [⟨"tv", []⟩]⟩)] }
  have accepted : validateAccessConfig block =
      .ok ⟨[], [], OrderedMap.ofList [("staff", ⟨true, [⟨"docs", []⟩]⟩),
        ("staff", ⟨false, [⟨"tv", []⟩]⟩)]⟩ := rfl
  obtain ⟨grant, member, delete, _⟩ :=
    (always _ _ accepted).grants ("staff", ⟨true, [⟨"docs", []⟩]⟩) (List.Mem.head _)
  have only : ("staff", grant) ∈ [("staff", (⟨false, [⟨"tv", []⟩]⟩ : Grant))] := member
  obtain rfl : grant = ⟨false, [⟨"tv", []⟩]⟩ := by simpa using only
  cases delete

end Yafm
