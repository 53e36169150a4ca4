import Yafm.Decoding
import Yafm.Shared.Blank

set_option autoImplicit false

namespace Yafm

open Text Posix

/-- The path the frontend sends for an entry of the directory it shows. -/
def toChildPath (currentPath childName : String) : String :=
  if currentPath = "" then childName else currentPath ++ "/" ++ childName

structure EntryText (name : String) : Prop where
  named : name ≠ ""
  notDot : name ≠ "."
  descending : name ≠ ".."
  clean : '/' ∉ name.toList ∧ '\x00' ∉ name.toList

theorem PlainSegment.entryText {segment : String} (plain : PlainSegment segment) : EntryText segment :=
  ⟨plain.named, plain.notDot, plain.descending, plain.clean.1, plain.clean.2.2⟩

theorem entryText_of_valid {name : String} (valid : ValidName (asBytes name)) : EntryText name := by
  obtain ⟨nonempty, noSlash, noNul, notDot, notParent⟩ := valid
  refine ⟨?_, ?_, ?_, ?_, ?_⟩
  · rintro rfl
    exact nonempty rfl
  · rintro rfl
    exact notDot rfl
  · rintro rfl
    exact notParent rfl
  · exact fun inside => noSlash ((asciiByte_mem_asBytes (by decide) name).mpr inside)
  · exact fun inside => noNul ((asciiByte_mem_asBytes (c := '\x00') (by decide) name).mpr inside)

theorem toChildPath_eq {r : String} (canonical : join '/' (pathSegments r) = r) (name : String) :
    toChildPath r name = join '/' (pathSegments r ++ [name]) := by
  unfold toChildPath
  by_cases root : r = ""
  · subst root
    rw [if_pos rfl]
    exact (join_singleton '/' name).symm
  · rw [if_neg root]
    have filled : pathSegments r ≠ [] := by
      intro nothing
      rw [nothing] at canonical
      exact root canonical.symm
    rw [join_append '/' filled (by simp), canonical, join_singleton]

theorem collectParts_names {parts : List String} (names : ∀ part ∈ parts, EntryText part) :
    collectParts parts = .ok parts := by
  induction parts with
  | nil => rfl
  | cons part rest ih =>
    have name := names part (by simp)
    rw [collectParts.eq_4 _ _ name.notDot name.descending, ih fun other member =>
      names other (by simp [member])]
    rfl

theorem collectParts_sublist {raw parts : List String} (collected : collectParts raw = .ok parts) :
    parts.Sublist raw := by
  induction raw using collectParts.induct generalizing parts with
  | case1 =>
    cases collected
    exact List.Sublist.refl _
  | case2 rest ih => exact (ih collected).cons _
  | case3 rest => cases collected
  | case4 part rest notDot notParent ih =>
    rw [collectParts.eq_4 _ _ notDot notParent] at collected
    obtain ⟨others, onward, rfl⟩ := map_ok collected
    exact (ih onward).cons_cons part

theorem length_join_le {separator : Char} {parts raw : List String} (kept : parts.Sublist raw) :
    (join separator parts).toList.length ≤ (join separator raw).toList.length := by
  induction kept with
  | slnil => exact le_refl _
  | @cons parts raw dropped kept ih =>
    cases raw with
    | nil =>
      obtain rfl := List.sublist_nil.mp kept
      exact Nat.zero_le _
    | cons next rest =>
      rw [join_cons_cons, String.toList_append, List.length_append]
      exact Nat.le_add_left_of_le ih
  | @cons_cons parts raw part kept ih =>
    cases parts with
    | nil =>
      cases raw with
      | nil => exact le_refl _
      | cons next rest =>
        rw [join_singleton, join_cons_cons, String.toList_append, String.toList_append, List.append_assoc,
          List.length_append]
        exact Nat.le_add_right _ _
    | cons first others =>
      cases raw with
      | nil => cases kept
      | cons next rest =>
        rw [join_cons_cons, join_cons_cons]
        simp only [String.toList_append, List.length_append] at ih ⊢
        omega

-- The validator only ever shortens a path: where it changes nothing, nothing was trimmed.
theorem validateRelativePath_length {p r : String} (valid : validateRelativePath p = .ok r) :
    r.toList.length ≤ (trim p).toList.length := by
  unfold validateRelativePath at valid
  dsimp only at valid
  split at valid
  · cases valid
    exact Nat.zero_le _
  split at valid
  · cases valid
  · obtain ⟨parts, collected, rfl⟩ := map_ok valid
    have kept := (collectParts_sublist collected).trans List.filter_sublist
    have shorter : (join '/' parts).toList.length ≤ (join '/' _).toList.length := length_join_le kept
    rwa [join_split] at shorter

theorem validateRelativePath_solid {p : String} (valid : validateRelativePath p = .ok p) : Solid p := by
  obtain ⟨lead, core, trail, whole, trimmed, _, _, solid⟩ := exists_padding p
  have shorter := validateRelativePath_length valid
  rw [trimmed] at shorter
  have count := congrArg (fun text : String => text.toList.length) whole
  simp only [String.toList_append, List.length_append] at count
  have front : lead = "" := by
    apply String.toList_inj.mp
    exact List.length_eq_zero_iff.mp (by omega)
  have back : trail = "" := by
    apply String.toList_inj.mp
    exact List.length_eq_zero_iff.mp (by omega)
  rw [whole, front, back, String.empty_append, String.append_empty]
  exact solid

theorem trim_of_solid {p : String} (solid : Solid p) : trim p = p := trim_eq_self solid.first solid.last

theorem contains_join {c : Char} {parts : List String} (separates : c ≠ '/')
    (clean : ∀ part ∈ parts, c ∉ part.toList) : contains c (join '/' parts) = false := by
  rw [contains, ← Bool.not_eq_true, List.contains_iff_mem]
  intro inside
  obtain same | ⟨part, member, there⟩ := mem_join inside
  · exact separates same
  · exact clean part member there

section

variable {parts : List String} (names : ∀ part ∈ parts, EntryText part)
include names

theorem unnamed_not_mem : "" ∉ parts := fun member => (names "" member).named rfl

theorem split_names (filled : parts ≠ []) : split '/' (join '/' parts) = parts :=
  split_join filled fun part member => (names part member).clean.1

theorem join_relative (filled : parts ≠ []) : startsWith "/" (join '/' parts) = false := by
  by_contra absolute
  rw [Bool.not_eq_false, startsWith, List.isPrefixOf_iff_prefix] at absolute
  obtain ⟨rest, whole⟩ := absolute
  have cut : join '/' parts = "" ++ "/" ++ String.ofList rest := by
    apply String.toList_inj.mp
    simp [← whole]
  have segments := split_names names filled
  rw [cut] at segments
  exact unnamed_not_mem names (by rw [← segments, split_append]; simp [split_singleton])

theorem join_named (filled : parts ≠ []) : join '/' parts ≠ "" := by
  intro nothing
  have segments := split_names names filled
  rw [nothing] at segments
  exact unnamed_not_mem names (by rw [← segments]; decide)

theorem validateRelativePath_names (solid : Solid (join '/' parts))
    (noBackslash : ∀ part ∈ parts, '\\' ∉ part.toList) :
    validateRelativePath (join '/' parts) = .ok (join '/' parts) := by
  unfold validateRelativePath
  dsimp only
  rw [trim_of_solid solid]
  by_cases empty : parts = []
  · subst empty
    rfl
  · have noNul := contains_join (c := '\x00') (by decide) fun part member => (names part member).clean.2
    have noSlash := contains_join (c := '\\') (by decide) noBackslash
    have kept : parts.filter (fun part => part ≠ "") = parts := by
      rw [List.filter_eq_self]
      intro part member
      simpa using (names part member).named
    rw [if_neg (join_named names empty), noNul, noSlash, join_relative names empty,
      split_names names empty, kept, collectParts_names names]
    rfl

theorem not_backslash_of_valid (valid : validateRelativePath (join '/' parts) = .ok (join '/' parts)) :
    ∀ part ∈ parts, '\\' ∉ part.toList := by
  intro part member inside
  have plain := (validateRelativePath_ok valid).2
  have filled := List.ne_nil_of_mem member
  rw [pathSegments, if_neg (join_named names filled), split_names names filled] at plain
  exact (plain part member).clean.2.1 inside

theorem validateRelativePath_join_iff :
    validateRelativePath (join '/' parts) = .ok (join '/' parts) ↔
      Solid (join '/' parts) ∧ ∀ part ∈ parts, '\\' ∉ part.toList := by
  constructor
  · intro valid
    exact ⟨validateRelativePath_solid valid, not_backslash_of_valid names valid⟩
  · rintro ⟨solid, noBackslash⟩
    exact validateRelativePath_names names solid noBackslash

end

theorem validateRelativePath_childPath_iff {x r n : String} (valid : validateRelativePath x = .ok r)
    (entry : ValidName (asBytes n)) :
    (validateRelativePath r = .ok r ↔ Solid r) ∧
    (validateRelativePath (toChildPath r n) = .ok (toChildPath r n) ↔
      '\\' ∉ n.toList ∧ Solid (toChildPath r n)) := by
  obtain ⟨canonical, plain⟩ := validateRelativePath_ok valid
  have names : ∀ part ∈ pathSegments r, EntryText part := fun part member => (plain part member).entryText
  constructor
  · have whole := validateRelativePath_join_iff names
    rw [canonical] at whole
    rw [whole, and_iff_left_iff_imp]
    exact fun _ part member => (plain part member).clean.2.1
  · have child : ∀ part ∈ pathSegments r ++ [n], EntryText part := by
      intro part member
      rcases List.mem_append.mp member with inside | last
      · exact names part inside
      · rw [List.mem_singleton.mp last]
        exact entryText_of_valid entry
    rw [toChildPath_eq canonical, validateRelativePath_join_iff child]
    constructor
    · rintro ⟨solid, noBackslash⟩
      exact ⟨noBackslash n (by simp), solid⟩
    · rintro ⟨noBackslash, solid⟩
      refine ⟨solid, ?_⟩
      intro part member
      rcases List.mem_append.mp member with inside | last
      · exact (plain part inside).clean.2.1
      · rwa [List.mem_singleton.mp last]

theorem validateRelativePath_childPath_docs :
    (validateRelativePath "a b" = .ok "a b" ↔ Solid "a b") ∧
    (validateRelativePath (toChildPath "a b" "c d") = .ok (toChildPath "a b" "c d") ↔
      '\\' ∉ "c d".toList ∧ Solid (toChildPath "a b" "c d")) :=
  validateRelativePath_childPath_iff (x := " ./a b/") (by decide) (by decide)

-- A path that validation accepted, and a child of it, that validation changes; and a name that it refuses.
theorem not_validateRelativePath_childPath :
    (validateRelativePath "./ a" = .ok " a" ∧ validateRelativePath " a" = .ok "a") ∧
    (ValidName (asBytes "b ") ∧ validateRelativePath (toChildPath "docs" "b ") = .ok "docs/b") ∧
    ValidName (asBytes "b\\c") ∧
      validateRelativePath (toChildPath "docs" "b\\c") =
        .error (.badRequest "The requested path is invalid.") := by
  decide

end Yafm
