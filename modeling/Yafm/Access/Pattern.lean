import Yafm.Paths

set_option autoImplicit false

namespace Yafm

open Text

def globMatchChars : Bytes → Bytes → Bool
  | [], segment => segment.isEmpty
  | first :: rest, segment =>
    if first = asciiByte '*' then segment.tails.any fun tail => globMatchChars rest tail
    else if first = asciiByte '?' then
      match segment with
      | [] => false
      | _ :: tail => globMatchChars rest tail
    else
      match segment with
      | [] => false
      | head :: tail => head = first && globMatchChars rest tail

def segmentMatches (pattern segment : String) : Bool :=
  globMatchChars (asBytes pattern) (asBytes segment)

structure SegmentMatcher where
  pattern : String
  doubleStar : Bool
  deriving DecidableEq, Repr

structure DenyPattern where
  raw : String
  anchored : Bool
  segments : List SegmentMatcher
  deriving DecidableEq, Repr

def matchFrom : List SegmentMatcher → List String → Nat → Bool
  | [], _, _ => true
  | matcher :: rest, segments, offset =>
    match segments.drop offset with
    | [] => false
    | segment :: _ =>
      if matcher.doubleStar then
        (List.range (segments.length - offset + 1)).any fun skip => matchFrom rest segments (offset + skip)
      else
        segmentMatches matcher.pattern segment && matchFrom rest segments (offset + 1)

def DenyPattern.matches (pattern : DenyPattern) (segments : List String) : Bool :=
  if pattern.anchored then matchFrom pattern.segments segments 0
  else
    match pattern.segments with
    | [] => false
    | matcher :: _ => segments.any fun segment => segmentMatches matcher.pattern segment

def allowCovers (allowPath : String) (segments : List String) : Bool :=
  if allowPath = "" then true
  else (split '/' allowPath).isPrefixOf segments

theorem allowCovers_iff (allowPath : String) (segments : List String) :
    allowCovers allowPath segments ↔ allowPath = "" ∨ split '/' allowPath <+: segments := by
  unfold allowCovers
  split
  · simp_all
  · simp_all

theorem allowCovers_append {allowPath : String} {segments : List String} (extension : List String)
    (covers : allowCovers allowPath segments) : allowCovers allowPath (segments ++ extension) := by
  rw [allowCovers_iff] at covers ⊢
  exact covers.imp_right fun leads => leads.trans (List.prefix_append _ _)

theorem matchFrom_append (pattern : List SegmentMatcher) (segments extension : List String) (offset : Nat)
    (hit : matchFrom pattern segments offset) : matchFrom pattern (segments ++ extension) offset := by
  induction pattern generalizing offset with
  | nil => rfl
  | cons matcher rest ih =>
    simp only [matchFrom] at hit ⊢
    cases here : segments.drop offset with
    | nil => simp [here] at hit
    | cons segment others =>
      have inside : offset < segments.length := by
        by_contra outside
        rw [List.drop_eq_nil_of_le (not_lt.mp outside)] at here
        cases here
      have longer : (segments ++ extension).drop offset = segment :: (others ++ extension) := by
        rw [List.drop_append_of_le_length (le_of_lt inside), here, List.cons_append]
      simp only [here, longer] at hit ⊢
      split
      next star =>
        simp only [star, if_true, List.any_eq_true, List.mem_range] at hit ⊢
        obtain ⟨skip, within, matched⟩ := hit
        refine ⟨skip, ?_, ih _ matched⟩
        simp only [List.length_append]
        omega
      next plain =>
        simp only [plain, Bool.and_eq_true, if_false, Bool.false_eq_true] at hit ⊢
        exact ⟨hit.1, ih _ hit.2⟩

theorem DenyPattern.matches_append {pattern : DenyPattern} {segments : List String}
    (extension : List String) (hit : pattern.matches segments) :
    pattern.matches (segments ++ extension) := by
  unfold DenyPattern.matches at hit ⊢
  split at hit
  next anchored =>
    rw [if_pos anchored]
    exact matchFrom_append _ _ _ _ hit
  next bare =>
    rw [if_neg bare]
    split at hit
    · cases hit
    · simp only [List.any_append, Bool.or_eq_true]
      exact Or.inl hit

end Yafm
