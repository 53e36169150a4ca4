import Yafm.Access.Meaning
import Yafm.ChildPath

set_option autoImplicit false

namespace Yafm

open Text Glob

def startsWithWhitespace (s : String) : Bool := s.toList.head?.any isWhitespace

-- A setting as the operator wrote it, without the leading slash.
def ownText (raw : String) : String := (stripPrefix "/" (trim raw)).getD (trim raw)

def Undotted (raw : String) : Prop := "." ∉ patternSegments raw

def wildcardFree (raw : String) : Bool := raw.toList.all fun c => c ≠ '*' && c ≠ '?'

theorem checkSegments_plain {subject : String} {segments : List String}
    (checked : checkSegments subject segments = .ok ()) :
    ∀ segment ∈ segments, segment ≠ "" ∧ segment ≠ ".." := by
  induction segments with
  | nil => simp
  | cons first rest ih =>
    rw [checkSegments] at checked
    split at checked
    · cases checked
    next named =>
      split at checked
      · cases checked
      next descending =>
        intro segment member
        rcases List.mem_cons.mp member with rfl | later
        · exact ⟨named, descending⟩
        · exact ih checked segment later

theorem mem_normalize {raw : String} {c : Char} (inside : c ∈ (normalizeRelativePath raw).toList) :
    c ∈ raw.toList := by
  obtain ⟨lead, trail, whole, _, _⟩ := exists_trim raw
  have trimmed : c ∈ (trim raw).toList :=
    (stripPrefix_suffix "/" (trim raw)).subset ((stripPrefix_suffix "./" _).subset inside)
  rw [whole, String.toList_append, String.toList_append]
  simp [trimmed]

theorem segments_plain {raw subject : String} (clean : ¬(contains '\x00' raw || contains '\\' raw) = true)
    (checked : checkSegments subject (patternSegments raw) = .ok ()) (undotted : Undotted raw) :
    ∀ segment ∈ patternSegments raw, PlainSegment segment := by
  intro segment member
  obtain ⟨named, descending⟩ := checkSegments_plain checked segment member
  simp only [contains, Bool.or_eq_true, List.contains_iff_mem, not_or] at clean
  have outside {c : Char} (absent : c ∉ raw.toList) : c ∉ segment.toList :=
    fun inside => absent (mem_normalize (mem_of_mem_split member inside))
  refine ⟨named, ?_, descending, mem_split member, outside clean.2, outside clean.1⟩
  rintro rfl
  exact undotted member

theorem validateAllowPath_plain {raw path : String} (valid : validateAllowPath raw = .ok path)
    (named : path ≠ "") (undotted : Undotted raw) :
    ∀ segment ∈ patternSegments raw, PlainSegment segment := by
  have normal := validateAllowPath_normalize valid
  unfold validateAllowPath at valid
  dsimp only at valid
  split at valid
  · cases valid
  next clean =>
    rw [if_neg (by rwa [← normal])] at valid
    obtain ⟨_, checked, _⟩ := bind_ok valid
    exact segments_plain clean checked undotted

theorem validateDenyPattern_plain {raw : String} {pattern : DenyPattern}
    (accepted : validateDenyPattern raw = .ok pattern) (undotted : Undotted raw) :
    ∀ segment ∈ patternSegments raw, PlainSegment segment := by
  unfold validateDenyPattern at accepted
  dsimp only at accepted
  split at accepted
  · cases accepted
  split at accepted
  · cases accepted
  next clean =>
    split at accepted
    · cases accepted
    obtain ⟨_, checked, _⟩ := bind_ok accepted
    exact segments_plain clean checked undotted

-- The text of a pattern with a letter in the place of each wildcard.
def fillText (pattern : String) : String := String.ofList (fill 'a' (charTokens pattern))

theorem fillText_chars (pattern : String) :
    (fillText pattern).toList = pattern.toList.map fun c => if c = '*' ∨ c = '?' then 'a' else c := by
  rw [fillText, String.toList_ofList, fill, charTokens, List.map_map]
  apply List.map_congr_left
  intro c _
  by_cases star : c = '*'
  · simp [token, star]
  · by_cases one : c = '?' <;> simp [token, star, one]

theorem segmentMatches_fillText (pattern : String) : segmentMatches pattern (fillText pattern) := by
  have short : String.utf8EncodeChar 'a' = [asciiByte 'a'] := utf8EncodeChar_ascii (by decide)
  rw [segmentMatches, globMatchChars_iff, byteTokens_asBytes, asBytes_eq, fillText, String.toList_ofList]
  exact matches_fill short _

theorem mem_fillText {pattern : String} {c : Char} (inside : c ∈ (fillText pattern).toList) :
    c = 'a' ∨ c ∈ pattern.toList := by
  rw [fillText_chars, List.mem_map] at inside
  obtain ⟨own, member, rfl⟩ := inside
  split
  · exact Or.inl rfl
  · exact Or.inr member

theorem fillText_dots {pattern dots : String} (only : ∀ c ∈ dots.toList, c = '.')
    (same : fillText pattern = dots) : pattern = dots := by
  have chars := congrArg String.toList same
  rw [fillText_chars] at chars
  have kept : ∀ c ∈ pattern.toList, (if c = '*' ∨ c = '?' then 'a' else c) = c := by
    intro c member
    have dot := only _ (chars ▸ List.mem_map_of_mem member)
    split at dot
    · exact absurd dot (by decide)
    next plain => rw [if_neg plain]
  rw [List.map_congr_left kept, List.map_id'] at chars
  exact String.toList_inj.mp chars

theorem PlainSegment.fillText {pattern : String} (plain : PlainSegment pattern) :
    PlainSegment (fillText pattern) where
  named empty := plain.named (fillText_dots (by simp) empty)
  notDot dot := plain.notDot (fillText_dots (by simp) dot)
  descending parent := plain.descending (fillText_dots (by simp) parent)
  clean := by
    refine ⟨fun slash => ?_, fun backslash => ?_, fun nul => ?_⟩
    · exact (mem_fillText slash).elim (by decide) plain.clean.1
    · exact (mem_fillText backslash).elim (by decide) plain.clean.2.1
    · exact (mem_fillText nul).elim (by decide) plain.clean.2.2

theorem linesUp_fillText (segments : List String) : LinesUp segments (segments.map fillText) := by
  induction segments with
  | nil => exact .done
  | cons segment rest ih =>
    by_cases star : segment = "**"
    · subst star
      by_cases last : rest = []
      · subst last
        exact .last (by simp)
      · exact .inner [Yafm.fillText "**"] last ih
    · exact .segment star (segmentMatches_fillText segment) ih

theorem fillText_literal {pattern : String} (literal : wildcardFree pattern) :
    fillText pattern = pattern := by
  apply String.toList_inj.mp
  rw [fillText_chars]
  refine (List.map_congr_left fun c member => ?_).trans (List.map_id _)
  simp only [wildcardFree, List.all_eq_true, Bool.and_eq_true, decide_eq_true_eq] at literal
  rw [if_neg (not_or.mpr (literal c member)), id]

theorem segmentMatches_literal {pattern : String} (literal : wildcardFree pattern) (segment : String) :
    segmentMatches pattern segment ↔ segment = pattern := by
  have tokens : byteTokens (asBytes pattern) = (asBytes pattern).map .literal := by
    unfold byteTokens
    apply List.map_congr_left
    intro byte inside
    have absent {wild : Char} (ascii : wild.toNat < 0x80) (apart : wild ∉ pattern.toList) :
        byte ≠ asciiByte wild := by
      rintro rfl
      exact apart ((asciiByte_mem_asBytes ascii pattern).mp inside)
    simp only [wildcardFree, List.all_eq_true, Bool.and_eq_true, decide_eq_true_eq] at literal
    rw [token, if_neg (absent (by decide) fun star => (literal _ star).1 rfl),
      if_neg (absent (by decide) fun one => (literal _ one).2 rfl)]
  have whole := matches_literals (asBytes pattern) [] (asBytes segment)
  rw [List.append_nil] at whole
  rw [segmentMatches, globMatchChars_iff, tokens, whole]
  simp [asBytes_injective.eq_iff]

theorem LinesUp.literal {pattern path : List String} (lines : LinesUp pattern path)
    (literal : ∀ segment ∈ pattern, wildcardFree segment) : path = pattern := by
  induction lines with
  | done => rfl
  | segment _ here _ ih =>
    rw [(segmentMatches_literal (literal _ (by simp)) _).mp here, ih fun other member =>
      literal other (by simp [member])]
  | inner => exact absurd (literal "**" (by simp)) (by decide)
  | last => exact absurd (literal "**" (by simp)) (by decide)

theorem LinesUp.dot {pattern path : List String} (lines : LinesUp pattern path) (dotted : "." ∈ pattern) :
    "." ∈ path := by
  induction lines with
  | done => cases dotted
  | segment _ here _ ih =>
    rcases List.mem_cons.mp dotted with rfl | later
    · simp [(segmentMatches_literal (by decide) _).mp here]
    · exact List.mem_cons_of_mem _ (ih later)
  | inner run _ _ ih =>
    rcases List.mem_cons.mp dotted with star | later
    · exact absurd star (by decide)
    · exact List.mem_append_right run (ih later)
  | last => simp at dotted

section

variable {pattern : DenyPattern} {segments : List String}
  (meaning : ∀ path, pattern.matches path ↔ DenyMeaning segments path)
include meaning

theorem matches_fillText (nonempty : segments ≠ []) : pattern.matches (segments.map fillText) := by
  rw [meaning]
  unfold DenyMeaning
  split
  next single => exact ⟨fillText single, by simp, segmentMatches_fillText single⟩
  · exact ⟨segments.map fillText, by simpa using nonempty, List.prefix_rfl, linesUp_fillText segments⟩

theorem matches_itself (nonempty : segments ≠ []) (literal : ∀ segment ∈ segments, wildcardFree segment) :
    pattern.matches segments := by
  have filled := matches_fillText meaning nonempty
  rwa [List.map_congr_left fun segment member =>
    fillText_literal (literal segment member), List.map_id'] at filled

theorem matches_dot {path : List String} (hit : pattern.matches path) (dotted : "." ∈ segments) :
    "." ∈ path := by
  rw [meaning] at hit
  unfold DenyMeaning at hit
  split at hit
  · obtain ⟨segment, member, here⟩ := hit
    obtain rfl := List.mem_singleton.mp dotted
    rwa [← (segmentMatches_literal (by decide) _).mp here]
  · obtain ⟨front, _, leads, lines⟩ := hit
    exact leads.subset (lines.dot dotted)

theorem matches_sublist {path : List String} (hit : pattern.matches path)
    (literal : ∀ segment ∈ segments, wildcardFree segment) : segments.Sublist path := by
  rw [meaning] at hit
  unfold DenyMeaning at hit
  split at hit
  · obtain ⟨segment, member, here⟩ := hit
    rw [(segmentMatches_literal (literal _ (by simp)) _).mp here] at member
    exact List.singleton_sublist.mpr member
  · obtain ⟨front, _, leads, lines⟩ := hit
    rw [lines.literal literal] at leads
    exact leads.sublist

end

theorem endsWithWhitespace_iff (s : String) :
    endsWithWhitespace s = false ↔ ∀ c ∈ s.toList.getLast?, isWhitespace c = false := by
  rw [endsWithWhitespace]
  cases s.toList.getLast? <;> simp

theorem startsWithWhitespace_iff (s : String) :
    startsWithWhitespace s = false ↔ ∀ c ∈ s.toList.head?, isWhitespace c = false := by
  rw [startsWithWhitespace]
  cases s.toList.head? <;> simp

-- A path can be asked for after a `./`, also where it starts with a blank.
theorem validateRelativePath_dotSlash {parts : List String} (plain : ∀ part ∈ parts, PlainSegment part)
    (nonempty : parts ≠ []) (trimmed : endsWithWhitespace (join '/' parts) = false) :
    validateRelativePath ("./" ++ join '/' parts) = .ok (join '/' parts) := by
  have names : ∀ part ∈ parts, EntryText part := fun part member => (plain part member).entryText
  have filled : (join '/' parts).toList ≠ [] := by simpa using join_named names nonempty
  have solid : trim ("./" ++ join '/' parts) = "./" ++ join '/' parts := by
    apply trim_eq_self
    · intro c first
      obtain rfl : c = '.' := by simpa using first.symm
      decide
    · rw [String.toList_append, List.getLast?_append_of_ne_nil _ filled]
      exact (endsWithWhitespace_iff _).mp trimmed
  have cut : split '/' ("./" ++ join '/' parts) = "." :: parts := by
    have whole := split_append '/' "." (join '/' parts)
    rwa [split_names names nonempty] at whole
  have kept : ("." :: parts).filter (fun part => part ≠ "") = "." :: parts := by
    rw [List.filter_eq_self]
    intro part member
    rcases List.mem_cons.mp member with rfl | inside
    · decide
    · simpa using (names part inside).named
  have outside {c : Char} (other : c ∉ "./".toList) (absent : contains c (join '/' parts) = false) :
      contains c ("./" ++ join '/' parts) = false := by
    simp only [contains, String.toList_append, ← Bool.not_eq_true, List.contains_iff_mem,
      List.mem_append] at absent ⊢
    exact fun inside => inside.elim other absent
  have noNul := outside (by decide) (contains_join (c := '\x00') (by decide) fun part member =>
    (names part member).clean.2)
  have noSlash := outside (by decide) (contains_join (c := '\\') (by decide) fun part member =>
    (plain part member).clean.2.1)
  have relative : startsWith "/" ("./" ++ join '/' parts) = false := by simp [startsWith, List.isPrefixOf]
  have written : ("./" ++ join '/' parts) ≠ "" := fun empty => by simpa using congrArg String.toList empty
  unfold validateRelativePath
  dsimp only
  rw [solid, if_neg written, noNul, noSlash, relative, cut, kept, collectParts, collectParts_names names]
  rfl

section

variable {raw : String} {pattern : DenyPattern}

theorem patternSegments_join (raw : String) :
    join '/' (patternSegments raw) = normalizeRelativePath raw := join_split _ _

theorem patternSegments_ne_nil (raw : String) : patternSegments raw ≠ [] := split_ne_nil _ _

theorem validateRelativePath_pattern (plain : ∀ segment ∈ patternSegments raw, PlainSegment segment) :
    validateRelativePath ("./" ++ normalizeRelativePath raw) = .ok (normalizeRelativePath raw) := by
  have asked := validateRelativePath_dotSlash plain (patternSegments_ne_nil raw)
  rw [patternSegments_join] at asked
  exact asked (endsWithWhitespace_normalize raw)

theorem pathSegments_pattern (plain : ∀ segment ∈ patternSegments raw, PlainSegment segment) :
    pathSegments (normalizeRelativePath raw) = patternSegments raw := by
  rw [← patternSegments_join, pathSegments_join plain]

theorem fillText_last {segments : List String} (trimmed : endsWithWhitespace (join '/' segments) = false)
    (plain : ∀ segment ∈ segments, PlainSegment segment) (nonempty : segments ≠ []) :
    endsWithWhitespace (join '/' (segments.map fillText)) = false := by
  obtain ⟨front, last, rfl⟩ := (List.eq_nil_or_concat' segments).resolve_left nonempty
  have written : last.toList ≠ [] := by simpa using (plain last (by simp)).named
  obtain ⟨lead, chars⟩ := join_last '/' front last
  obtain ⟨filled, others⟩ := join_last '/' (front.map fillText) (fillText last)
  rw [endsWithWhitespace_iff, chars, List.getLast?_append_of_ne_nil _ written] at trimmed
  rw [List.map_append, List.map_singleton, endsWithWhitespace_iff, others, fillText_chars,
    List.getLast?_append_of_ne_nil _ (by simpa using written), List.getLast?_map]
  intro c ending
  obtain ⟨own, found, rfl⟩ := Option.map_eq_some_iff.mp ending
  split
  · decide
  · exact trimmed own found

theorem exists_request (accepted : validateDenyPattern raw = .ok pattern) (undotted : Undotted raw) :
    ∃ p r, validateRelativePath p = .ok r ∧ pattern.matches (pathSegments r) := by
  have plain := validateDenyPattern_plain accepted undotted
  have nonempty := patternSegments_ne_nil raw
  have filled : ∀ segment ∈ (patternSegments raw).map fillText, PlainSegment segment := by
    intro segment member
    obtain ⟨own, inside, rfl⟩ := List.mem_map.mp member
    exact (plain own inside).fillText
  have trimmed := endsWithWhitespace_normalize raw
  rw [← patternSegments_join] at trimmed
  refine ⟨_, _, validateRelativePath_dotSlash filled (by simpa using nonempty)
    (fillText_last trimmed plain nonempty), ?_⟩
  rw [pathSegments_join filled]
  exact matches_fillText (denyPattern_meaning accepted) nonempty

theorem undotted_of_matches (accepted : validateDenyPattern raw = .ok pattern) {p r : String}
    (valid : validateRelativePath p = .ok r) (hit : pattern.matches (pathSegments r)) : Undotted raw := by
  by_contra dotted
  have dot := matches_dot (denyPattern_meaning accepted) hit (not_not.mp dotted)
  exact ((validateRelativePath_ok valid).2 "." dot).notDot rfl

theorem ownText_blank (blank : startsWithWhitespace (ownText raw)) :
    normalizeRelativePath raw = ownText raw := by
  have plain : stripPrefix "./" (ownText raw) = none := by
    cases found : stripPrefix "./" (ownText raw) with
    | none => rfl
    | some rest =>
      rw [stripPrefix_eq_some found, startsWithWhitespace] at blank
      simp at blank
      exact absurd blank (by decide)
  show (stripPrefix "./" (ownText raw)).getD (ownText raw) = ownText raw
  rw [plain, Option.getD_none]

theorem trim_shorter {text : String} (blank : startsWithWhitespace text) :
    (trim text).toList.length < text.toList.length := by
  obtain ⟨lead, trail, whole, before, _⟩ := exists_trim text
  have count := congrArg (fun text : String => text.toList.length) whole
  simp only [String.toList_append, List.length_append] at count
  by_contra longer
  have front : lead = "" := by
    apply String.toList_inj.mp
    exact List.length_eq_zero_iff.mp (by omega)
  have back : trail = "" := by
    apply String.toList_inj.mp
    exact List.length_eq_zero_iff.mp (by omega)
  rw [front, back, String.empty_append, String.append_empty] at whole
  rw [whole, (startsWithWhitespace_iff _).mpr (trim_solid text).first] at blank
  cases blank

theorem wildcardFree_segments (literal : wildcardFree raw) :
    ∀ segment ∈ patternSegments raw, wildcardFree segment := by
  intro segment member
  rw [wildcardFree, List.all_eq_true] at literal ⊢
  exact fun c inside => literal c (mem_normalize (mem_of_mem_split member inside))

theorem solid_of_matches (accepted : validateDenyPattern raw = .ok pattern) (literal : wildcardFree raw)
    {r : String} (valid : validateRelativePath (ownText raw) = .ok r)
    (hit : pattern.matches (pathSegments r)) : startsWithWhitespace (ownText raw) = false := by
  have kept := matches_sublist (denyPattern_meaning accepted) hit (wildcardFree_segments literal)
  have longer : (join '/' (patternSegments raw)).toList.length ≤ (join '/' (pathSegments r)).toList.length :=
    length_join_le kept
  have shorter := validateRelativePath_length valid
  by_contra blank
  rw [Bool.not_eq_false] at blank
  rw [patternSegments_join, (validateRelativePath_ok valid).1, ownText_blank blank] at longer
  have shrunk := trim_shorter blank
  omega

theorem validateRelativePath_ownText (plain : ∀ segment ∈ patternSegments raw, PlainSegment segment)
    (solid : startsWithWhitespace (ownText raw) = false) :
    validateRelativePath (ownText raw) = .ok (normalizeRelativePath raw) := by
  cases found : stripPrefix "./" (ownText raw) with
  | some rest =>
    have normal : normalizeRelativePath raw = rest := by
      show (stripPrefix "./" (ownText raw)).getD (ownText raw) = rest
      rw [found, Option.getD_some]
    have asked := validateRelativePath_pattern plain
    rwa [stripPrefix_eq_some found, ← normal]
  | none =>
    have normal : normalizeRelativePath raw = ownText raw := by
      show (stripPrefix "./" (ownText raw)).getD (ownText raw) = ownText raw
      rw [found, Option.getD_none]
    have names : ∀ part ∈ patternSegments raw, EntryText part :=
      fun part member => (plain part member).entryText
    have asked := validateRelativePath_names names
    rw [patternSegments_join, normal] at asked
    rw [normal]
    refine asked ⟨(startsWithWhitespace_iff _).mp solid, ?_⟩ fun part member => (plain part member).clean.2.1
    rw [← endsWithWhitespace_iff, ← normal]
    exact endsWithWhitespace_normalize raw

-- The allow covers the request for the path it names, and the path asks for itself.
def AllowNamesItself (path : String) : Prop :=
  validateRelativePath path = .ok path ∧ allowCovers path (pathSegments path)

def AllowIsReached (path : String) : Prop :=
  ∃ p r, validateRelativePath p = .ok r ∧ allowCovers path (pathSegments r)

-- Some request is denied, and where the pattern has no wildcards the request that its own text makes.
def DenyApplies (raw : String) (pattern : DenyPattern) : Prop :=
  (∃ p r, validateRelativePath p = .ok r ∧ pattern.matches (pathSegments r)) ∧
  (wildcardFree raw → ∃ r, validateRelativePath (ownText raw) = .ok r ∧ pattern.matches (pathSegments r))

theorem allowCovers_self (path : String) : allowCovers path (pathSegments path) := by
  rw [allowCovers_iff, pathSegments]
  by_cases root : path = ""
  · exact Or.inl root
  · rw [if_neg root]
    exact Or.inr List.prefix_rfl

theorem allowNamesItself_iff {path : String} (valid : validateAllowPath raw = .ok path) :
    AllowNamesItself path ↔ Undotted raw ∧ startsWithWhitespace (normalizeRelativePath raw) = false := by
  have normal := validateAllowPath_normalize valid
  by_cases root : path = ""
  · have segments : patternSegments raw = [""] := by
      rw [patternSegments, ← normal, root]
      decide
    rw [← normal, Undotted, segments, root]
    exact iff_of_true ⟨rfl, rfl⟩ ⟨by decide, rfl⟩
  · constructor
    · rintro ⟨itself, _⟩
      have solid := validateRelativePath_solid itself
      rw [← normal, startsWithWhitespace_iff]
      refine ⟨fun dotted => ?_, solid.first⟩
      have same : pathSegments path = patternSegments raw := by
        rw [pathSegments, if_neg root, patternSegments, ← normal]
      exact ((validateRelativePath_ok itself).2 "." (same ▸ dotted)).notDot rfl
    · rintro ⟨undotted, solid⟩
      have plain := validateAllowPath_plain valid root undotted
      have names : ∀ part ∈ patternSegments raw, EntryText part :=
        fun part member => (plain part member).entryText
      have asked := validateRelativePath_names names
      rw [patternSegments_join, ← normal] at asked
      rw [← normal, startsWithWhitespace_iff] at solid
      have ended := endsWithWhitespace_normalize raw
      rw [← normal, endsWithWhitespace_iff] at ended
      exact ⟨asked ⟨solid, ended⟩ fun part member => (plain part member).clean.2.1, allowCovers_self path⟩

theorem allowIsReached_iff {path : String} (valid : validateAllowPath raw = .ok path) :
    AllowIsReached path ↔ Undotted raw := by
  have normal := validateAllowPath_normalize valid
  by_cases root : path = ""
  · have segments : patternSegments raw = [""] := by
      rw [patternSegments, ← normal, root]
      decide
    rw [Undotted, segments, root]
    exact iff_of_true ⟨"", "", rfl, rfl⟩ (by decide)
  · constructor
    · rintro ⟨p, r, asked, covers⟩ dotted
      rw [allowCovers_iff] at covers
      rw [patternSegments, ← normal] at dotted
      exact ((validateRelativePath_ok asked).2 "." ((covers.resolve_left root).subset dotted)).notDot rfl
    · intro undotted
      have plain := validateAllowPath_plain valid root undotted
      refine ⟨_, _, validateRelativePath_pattern plain, ?_⟩
      rw [← normal]
      exact allowCovers_self path

theorem denyApplies_iff (accepted : validateDenyPattern raw = .ok pattern) :
    DenyApplies raw pattern ↔
      Undotted raw ∧ (wildcardFree raw → startsWithWhitespace (ownText raw) = false) := by
  constructor
  · rintro ⟨⟨p, r, asked, hit⟩, own⟩
    refine ⟨undotted_of_matches accepted asked hit, fun literal => ?_⟩
    obtain ⟨s, valid, itself⟩ := own literal
    exact solid_of_matches accepted literal valid itself
  · rintro ⟨undotted, solid⟩
    have plain := validateDenyPattern_plain accepted undotted
    refine ⟨exists_request accepted undotted, fun literal =>
      ⟨_, validateRelativePath_ownText plain (solid literal), ?_⟩⟩
    rw [pathSegments_pattern plain]
    exact matches_itself (denyPattern_meaning accepted) (patternSegments_ne_nil raw)
      (wildcardFree_segments literal)

end

theorem normalForm_iff (raw : String) :
    (∀ path, validateAllowPath raw = .ok path →
      (AllowNamesItself path ↔ Undotted raw ∧ startsWithWhitespace (normalizeRelativePath raw) = false) ∧
      (AllowIsReached path ↔ Undotted raw)) ∧
    (∀ pattern, validateDenyPattern raw = .ok pattern →
      (DenyApplies raw pattern ↔
        Undotted raw ∧ (wildcardFree raw → startsWithWhitespace (ownText raw) = false))) :=
  ⟨fun _ valid => ⟨allowNamesItself_iff valid, allowIsReached_iff valid⟩, fun _ accepted =>
    denyApplies_iff accepted⟩

-- The root as `.` is an allow that covers no request, and a deny with a dot segment hides nothing.
theorem not_normalForm :
    ¬((∀ raw path, validateAllowPath raw = .ok path → AllowNamesItself path) ∨
      (∀ raw pattern, validateDenyPattern raw = .ok pattern → DenyApplies raw pattern)) := by
  rintro (allows | denies)
  · have itself := allows "." "." (by decide)
    exact absurd itself.1 (by decide)
  · have accepted : validateDenyPattern "docs/./tax" =
        .ok ⟨"docs/./tax", true, ["docs", ".", "tax"].map compileSegment⟩ := by decide
    have undotted := ((denyApplies_iff accepted).mp (denies _ _ accepted)).1
    exact undotted (by decide)

end Yafm
