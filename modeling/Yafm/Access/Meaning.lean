import Yafm.Access.Config
import Yafm.Shared.Glob
import Mathlib.Data.List.Infix

set_option autoImplicit false

namespace Yafm

open Text Glob

-- The wildcards of a pattern over bytes or over characters; anything else stands for itself.
def token {α : Type} [DecidableEq α] (star one value : α) : Token α :=
  if value = star then .star else if value = one then .one else .literal value

def byteTokens (pattern : Bytes) : List (Token UInt8) := pattern.map (token (asciiByte '*') (asciiByte '?'))

def charTokens (pattern : String) : List (Token Char) := pattern.toList.map (token '*' '?')

theorem globMatchChars_iff (pattern segment : Bytes) :
    globMatchChars pattern segment ↔ Matches (byteTokens pattern) segment := by
  induction pattern generalizing segment with
  | nil => simp [globMatchChars, byteTokens]
  | cons first rest ih =>
    simp only [globMatchChars, byteTokens, List.map_cons, token]
    split
    next =>
      rw [matches_star, List.any_eq_true]
      constructor
      · rintro ⟨tail, suffix, matched⟩
        obtain ⟨run, rfl⟩ := (List.mem_tails _ _).mp suffix
        exact ⟨run, tail, rfl, (ih tail).mp matched⟩
      · rintro ⟨run, tail, rfl, matched⟩
        exact ⟨tail, (List.mem_tails _ _).mpr (List.suffix_append _ _), (ih tail).mpr matched⟩
    next =>
      split
      next =>
        rw [matches_one]
        cases segment with
        | nil => simp
        | cons head tail => simp [ih, byteTokens]
      next =>
        rw [matches_literal]
        cases segment with
        | nil => simp
        | cons head tail => simp [ih, byteTokens, and_assoc]

theorem byteTokens_asBytes (pattern : String) :
    byteTokens (asBytes pattern) = spell String.utf8EncodeChar (charTokens pattern) := by
  rw [asBytes_eq, byteTokens, spell, charTokens, List.map_flatMap, List.flatMap_map]
  congr 1
  funext c
  have apart {wild : Char} (ascii : wild.toNat < 0x80) (other : c ≠ wild) :
      asciiByte wild ∉ String.utf8EncodeChar c := by
    rw [asciiByte_mem_utf8EncodeChar ascii]
    exact other
  have own {wild : Char} (ascii : wild.toNat < 0x80) : String.utf8EncodeChar wild = [asciiByte wild] :=
    utf8EncodeChar_ascii ascii
  unfold token
  by_cases star : c = '*'
  · rw [star, own (by decide)]
    simp
  by_cases one : c = '?'
  · rw [one, own (by decide)]
    simp [asciiByte]
  · simp only [star, one, if_false]
    apply List.map_congr_left
    intro byte member
    rw [if_neg, if_neg]
    · rintro rfl
      exact apart (by decide) one member
    · rintro rfl
      exact apart (by decide) star member

theorem utf8Code : Synchronizing String.utf8EncodeChar where
  written c empty := by
    have size := String.length_utf8EncodeChar (c := c)
    rw [empty, List.length_nil] at size
    exact absurd size.symm c.utf8Size_pos.ne'
  aligned := utf8_aligned

/-- The language of a pattern over characters: what the rules promise for one segment. -/
def SegmentMeaning (pattern segment : String) : Prop := Matches (charTokens pattern) segment.toList

theorem segmentMatches_gaps (pattern segment : String) :
    segmentMatches pattern segment ↔
      Gaps (fun c => (String.utf8EncodeChar c).length) 0 false (charTokens pattern) segment.toList := by
  rw [segmentMatches, globMatchChars_iff, byteTokens_asBytes, asBytes_eq, matches_spell utf8Code]

theorem segmentMeaning_gaps (pattern segment : String) :
    SegmentMeaning pattern segment ↔ Gaps (fun _ => 1) 0 false (charTokens pattern) segment.toList :=
  matches_iff_gaps _ _

-- Each run of wildcards has no `?`, or a single one next to a `*`.
def steadyPattern (pattern : String) : Bool := isSteady (charTokens pattern)

def isAscii (text : String) : Bool := text.toList.all fun c => c.utf8Size = 1

example : steadyPattern "*.t?*t" := by decide
example : steadyPattern "a?b" = false := by decide
example : segmentMatches "?.txt" "é.txt" = false := by decide +kernel

theorem utf8_positive (c : Char) : 1 ≤ (String.utf8EncodeChar c).length := by
  rw [String.length_utf8EncodeChar]
  exact c.utf8Size_pos

theorem segmentMatches_of_steady {pattern : String} (steady : steadyPattern pattern) (segment : String) :
    segmentMatches pattern segment ↔ SegmentMeaning pattern segment := by
  rw [segmentMatches_gaps, segmentMeaning_gaps]
  exact (gaps_steady utf8_positive steady segment.toList).symm

theorem segmentMatches_of_ascii (pattern : String) {segment : String} (ascii : isAscii segment) :
    segmentMatches pattern segment ↔ SegmentMeaning pattern segment := by
  rw [segmentMatches_gaps, segmentMeaning_gaps]
  refine (gaps_light 0 false _ fun c member => ?_).symm
  rw [String.length_utf8EncodeChar]
  simpa using List.all_eq_true.mp ascii c member

theorem segmentMatches_meaning_iff (pattern segment : String) :
    ((∀ other, segmentMatches pattern other ↔ SegmentMeaning pattern other) ↔ steadyPattern pattern) ∧
    ((∀ other, segmentMatches other segment ↔ SegmentMeaning other segment) ↔ isAscii segment) := by
  refine ⟨⟨fun agree => ?_, segmentMatches_of_steady⟩,
    ⟨fun agree => ?_, fun ascii other => segmentMatches_of_ascii other ascii⟩⟩
  · rw [steadyPattern, ← @isSteady_iff _ _ utf8_positive 'a' 'é' rfl rfl]
    intro word
    have judged := agree (String.ofList word)
    rw [segmentMatches_gaps, segmentMeaning_gaps, String.toList_ofList] at judged
    exact judged.symm
  · -- one `?` for each character
    have judged := agree (String.ofList (List.replicate segment.toList.length '?'))
    have tokens : charTokens (String.ofList (List.replicate segment.toList.length '?')) =
        List.replicate segment.toList.length .one := by
      rw [charTokens, String.toList_ofList, List.map_replicate]
      rfl
    rw [segmentMatches_gaps, segmentMeaning_gaps, tokens] at judged
    refine List.all_eq_true.mpr fun c member => ?_
    have single := lights_of_ones utf8_positive judged.symm c member
    rw [String.length_utf8EncodeChar] at single
    simp [single]

-- A deny of `?.txt` leaves `é.txt` readable.
theorem not_segmentMatches_meaning : ¬∀ pattern segment, segmentMatches pattern segment ↔
    SegmentMeaning pattern segment := by
  intro agree
  have judged := (agree "?.txt" "é.txt").mpr
    (.one 'é' (.literal '.' (.literal 't' (.literal 'x' (.literal 't' .nil)))))
  exact absurd judged (by decide +kernel)

/-- How the segments of a pattern take those of a path: `**` takes any number, and at least one where it is
last. -/
inductive LinesUp : List String → List String → Prop
  | done : LinesUp [] []
  | segment {pattern segment : String} {rest path : List String} (ordinary : pattern ≠ "**")
      (here : segmentMatches pattern segment) (onward : LinesUp rest path) :
      LinesUp (pattern :: rest) (segment :: path)
  | inner {rest path : List String} (run : List String) (more : rest ≠ []) (onward : LinesUp rest path) :
      LinesUp ("**" :: rest) (run ++ path)
  | last {run : List String} (some : run ≠ []) : LinesUp ["**"] run

def patternSegments (raw : String) : List String := split '/' (normalizeRelativePath raw)

/-- What a deny pattern says of a path: one segment names an entry anywhere, several a front of
the path. -/
def DenyMeaning (pattern path : List String) : Prop :=
  match pattern with
  | [single] => ∃ segment ∈ path, segmentMatches single segment
  | _ => ∃ front, front ≠ [] ∧ front <+: path ∧ LinesUp pattern front

theorem LinesUp.nonempty {pattern path : List String} (lines : LinesUp pattern path) (named : pattern ≠ []) :
    path ≠ [] := by
  induction lines with
  | done => exact absurd rfl named
  | segment => simp
  | inner run more onward ih => simp [ih more]
  | last some => exact some

def TakesFront (pattern path : List String) : Prop := ∃ front, front <+: path ∧ LinesUp pattern front

theorem takesFront_nil (path : List String) : TakesFront [] path := ⟨[], List.nil_prefix, .done⟩

theorem not_takesFront_nil {pattern : List String} (named : pattern ≠ []) : ¬TakesFront pattern [] := by
  rintro ⟨front, leads, lines⟩
  exact lines.nonempty named (List.prefix_nil.mp leads)

theorem takesFront_star (rest : List String) {path : List String} (filled : path ≠ []) :
    TakesFront ("**" :: rest) path ↔ ∃ skip ≤ path.length, TakesFront rest (path.drop skip) := by
  constructor
  · rintro ⟨front, leads, lines⟩
    cases lines with
    | segment ordinary => exact absurd rfl ordinary
    | last some => exact ⟨0, Nat.zero_le _, takesFront_nil _⟩
    | inner run more onward =>
      rename_i taken
      obtain ⟨tail, rfl⟩ := leads
      refine ⟨run.length, by simp, taken, ?_, onward⟩
      rw [List.append_assoc, List.drop_left]
      exact List.prefix_append taken tail
  · rintro ⟨skip, within, front, leads, lines⟩
    by_cases last : rest = []
    · -- the last one takes a segment at least, and nothing has to follow
      subst last
      exact ⟨path, List.prefix_refl path, .last filled⟩
    · obtain ⟨tail, whole⟩ := leads
      refine ⟨path.take skip ++ front, ⟨tail, ?_⟩, .inner _ last lines⟩
      rw [List.append_assoc, whole, List.take_append_drop]

theorem takesFront_segment {text segment : String} {rest others : List String} (ordinary : text ≠ "**") :
    TakesFront (text :: rest) (segment :: others) ↔ segmentMatches text segment ∧ TakesFront rest others := by
  constructor
  · rintro ⟨front, leads, lines⟩
    cases lines with
    | inner | last => exact absurd rfl ordinary
    | segment _ here onward =>
      obtain ⟨rfl, later⟩ := List.cons_prefix_cons.mp leads
      exact ⟨here, _, later, onward⟩
  · rintro ⟨here, front, leads, lines⟩
    exact ⟨segment :: front, List.cons_prefix_cons.mpr ⟨rfl, leads⟩, .segment ordinary here lines⟩

theorem matchFrom_iff (pattern path : List String) (offset : Nat) :
    matchFrom (pattern.map compileSegment) path offset ↔ TakesFront pattern (path.drop offset) := by
  induction pattern generalizing offset with
  | nil => exact iff_of_true rfl (takesFront_nil _)
  | cons text rest ih =>
    rw [List.map_cons, matchFrom]
    cases here : path.drop offset with
    | nil => exact iff_of_false (by simp) (not_takesFront_nil (by simp))
    | cons segment others =>
      by_cases star : text = "**"
      · subst star
        have size : path.length - offset = (segment :: others).length := by rw [← here, List.length_drop]
        rw [takesFront_star rest (by simp)]
        simp only [compileSegment, decide_true, if_true, List.any_eq_true, List.mem_range,
          ih, size, Nat.lt_succ_iff]
        simp only [← List.drop_drop, here]
      · have onward : path.drop (offset + 1) = others := by
          rw [← List.drop_drop, here, List.drop_one, List.tail_cons]
        rw [takesFront_segment star]
        simp only [compileSegment, star, decide_false, Bool.false_eq_true, if_false,
          Bool.and_eq_true, ih, onward]

theorem validateDenyPattern_ok {raw : String} {pattern : DenyPattern}
    (accepted : validateDenyPattern raw = .ok pattern) :
    pattern = ⟨raw, (patternSegments raw).length > 1, (patternSegments raw).map compileSegment⟩ := by
  unfold validateDenyPattern at accepted
  dsimp only at accepted
  split at accepted
  · cases accepted
  split at accepted
  · cases accepted
  split at accepted
  · cases accepted
  obtain ⟨_, _, ended⟩ := bind_ok accepted
  exact (Except.ok.inj ended).symm

theorem denyPattern_meaning {raw : String} {pattern : DenyPattern}
    (accepted : validateDenyPattern raw = .ok pattern) (path : List String) :
    pattern.matches path ↔ DenyMeaning (patternSegments raw) path := by
  rw [validateDenyPattern_ok accepted]
  unfold DenyPattern.matches DenyMeaning
  obtain ⟨first, rest, parts⟩ := List.exists_cons_of_ne_nil (split_ne_nil '/' (normalizeRelativePath raw))
  rw [← patternSegments] at parts
  rw [parts]
  cases rest with
  | nil => simp [compileSegment]
  | cons next others =>
    have several : (first :: next :: others).length > 1 := by simp
    simp only [several, decide_true, if_true, matchFrom_iff, List.drop_zero]
    constructor
    · rintro ⟨front, leads, lines⟩
      exact ⟨front, lines.nonempty (by simp), leads, lines⟩
    · rintro ⟨front, _, leads, lines⟩
      exact ⟨front, leads, lines⟩

theorem denyPattern_meaning_starred :
    (⟨"/a/**/c?*", true, ["a", "**", "c?*"].map compileSegment⟩ : DenyPattern).matches
    ["a", "x", "y", "cd", "e"] ↔
      DenyMeaning (patternSegments "/a/**/c?*") ["a", "x", "y", "cd", "e"] :=
  denyPattern_meaning (by decide +kernel) _

end Yafm
