import Yafm.Spelling.Rendered
import Mathlib.Data.List.Forall2
import Mathlib.Data.List.Infix

set_option autoImplicit false

-- A mask has a `?` for each byte of a name, and spells out what it can of a name that is no text. It
-- matches the rendered form of the path it was made from, and no other form of the same length.

namespace Yafm

open Text

theorem globMatchChars_starless {pattern segment : Bytes} (starless : asciiByte '*' ∉ pattern) :
    globMatchChars pattern segment ↔
      List.Forall₂ (fun first byte => first = asciiByte '?' ∨ first = byte) pattern segment := by
  induction pattern generalizing segment with
  | nil => cases segment <;> simp [globMatchChars]
  | cons first rest ih =>
    rw [List.mem_cons, not_or] at starless
    simp only [globMatchChars, if_neg (Ne.symm starless.1)]
    cases segment with
    | nil => by_cases any : first = asciiByte '?' <;> simp [any]
    | cons head tail =>
      rw [List.forall₂_cons, ← ih starless.2]
      by_cases any : first = asciiByte '?'
      · simp [any]
      · simp only [any, if_false, false_or, Bool.and_eq_true, decide_eq_true_eq]
        exact and_congr eq_comm Iff.rfl

theorem matchFrom_starless {patterns segments : List String} {offset : Nat} (starless : "**" ∉ patterns)
    (same : patterns.length = (segments.drop offset).length) :
    matchFrom (patterns.map compileSegment) segments offset ↔
      List.Forall₂ (fun pattern segment => segmentMatches pattern segment) patterns
        (segments.drop offset) := by
  induction patterns generalizing offset with
  | nil =>
    rw [List.length_eq_zero_iff.mp same.symm]
    exact ⟨fun _ => .nil, fun _ => rfl⟩
  | cons pattern rest ih =>
    rw [List.mem_cons, not_or] at starless
    cases here : segments.drop offset with
    | nil =>
      rw [here] at same
      exact absurd same (by simp)
    | cons segment others =>
      have onward : segments.drop (offset + 1) = others := by
        rw [← List.drop_drop, here]
        rfl
      have plain : (compileSegment pattern).doubleStar = false := by
        simpa [compileSegment] using Ne.symm starless.1
      have shorter : rest.length = (segments.drop (offset + 1)).length := by
        rw [here] at same
        simpa [onward] using same
      have step := ih starless.2 shorter
      rw [onward] at step
      rw [List.map_cons, matchFrom, here, List.forall₂_cons, ← step]
      simp only [plain, Bool.false_eq_true, if_false, Bool.and_eq_true]
      exact Iff.rfl

theorem denyPattern_starless {patterns segments : List String} (starless : "**" ∉ patterns)
    (nonempty : patterns ≠ []) (same : patterns.length = segments.length) :
    (denyPattern patterns).matches segments ↔
      List.Forall₂ (fun pattern segment => segmentMatches pattern segment) patterns segments := by
  unfold DenyPattern.matches denyPattern
  dsimp only
  split
  next anchored => exact @matchFrom_starless patterns segments 0 starless same
  next bare =>
    have single : patterns.length = 1 := by
      have := List.length_pos_iff.mpr nonempty
      simp only [decide_eq_true_eq] at bare
      omega
    obtain ⟨pattern, rfl⟩ := List.length_eq_one_iff.mp single
    obtain ⟨segment, rfl⟩ := List.length_eq_one_iff.mp (same.symm.trans single)
    simp [compileSegment]

def listsEscaped (byte : UInt8) : Bool :=
  !(isAsciiGraphic byte && byte ≠ asciiByte '%' && byte ≠ asciiByte '\\' && byte ≠ asciiByte '/')

theorem encodeEntryByte_eq (byte : UInt8) :
    encodeEntryByte byte = if listsEscaped byte then percentEscape byte else [byte] := by
  unfold encodeEntryByte listsEscaped
  split <;> simp_all

def startsEscaped : Bytes → Bool
  | byte :: high :: low :: _ => (escapeValue byte high low).any listsEscaped
  | _ => false

theorem escapeValue_some {byte high low value : UInt8} (escape : escapeValue byte high low = some value) :
    byte = asciiByte '%' ∧ isHexDigit high ∧ isHexDigit low := by
  unfold escapeValue at escape
  split at escape
  next percent =>
    unfold isHexDigit
    split at escape
    next upper lower => simp [percent, upper, lower]
    · cases escape
  · cases escape

theorem isHexDigit_not {byte : UInt8} (hex : isHexDigit byte) :
    byte ≠ asciiByte '%' ∧ byte ≠ asciiByte '*' ∧ byte ≠ asciiByte '?' := by
  have each (byte : UInt8) : isHexDigit byte = true →
      byte ≠ asciiByte '%' ∧ byte ≠ asciiByte '*' ∧ byte ≠ asciiByte '?' := by
    revert byte
    exact forall_byte (by decide +kernel)
  exact each byte hex

theorem startsEscaped_of_ne {byte : UInt8} {rest : Bytes} (plain : byte ≠ asciiByte '%') :
    startsEscaped (byte :: rest) = false := by
  match rest with
  | [] => rfl
  | [next] => rfl
  | high :: low :: tail => simp [startsEscaped, escapeValue, plain]

def escapedPlaces (bytes : Bytes) : Nat := bytes.tails.countP startsEscaped

theorem startsEscaped_short {byte : UInt8} {rest : Bytes}
    (short : ∀ high low tail, rest = high :: low :: tail → False) : startsEscaped (byte :: rest) = false := by
  match rest with
  | [] => rfl
  | [next] => rfl
  | high :: low :: tail => exact (short _ _ _ rfl).elim

theorem escapedPlaces_cons (byte : UInt8) (rest : Bytes) :
    escapedPlaces (byte :: rest) = escapedPlaces rest + if startsEscaped (byte :: rest) then 1 else 0 := by
  rw [escapedPlaces, List.tails_cons, List.countP_cons]
  rfl

theorem escapedPlaces_escape {byte high low value : UInt8} (tail : Bytes)
    (escape : escapeValue byte high low = some value) :
    escapedPlaces (byte :: high :: low :: tail) =
      escapedPlaces tail + if listsEscaped value then 1 else 0 := by
  obtain ⟨_, upper, lower⟩ := escapeValue_some escape
  rw [escapedPlaces_cons, escapedPlaces_cons high, escapedPlaces_cons low,
    startsEscaped_of_ne (isHexDigit_not upper).1, startsEscaped_of_ne (isHexDigit_not lower).1]
  simp [startsEscaped, escape]

theorem escapedPlaces_rendered (bytes : Bytes) :
    escapedPlaces (bytes.flatMap encodeEntryByte) = bytes.countP listsEscaped := by
  induction bytes with
  | nil => rfl
  | cons byte rest ih =>
    rw [List.flatMap_cons, List.countP_cons, encodeEntryByte_eq, ← ih]
    by_cases escaped : listsEscaped byte
    · rw [if_pos escaped, if_pos escaped]
      have counted := escapedPlaces_escape (rest.flatMap encodeEntryByte) (percentEscape_value byte)
      rwa [if_pos escaped] at counted
    · have plain : byte ≠ asciiByte '%' := by
        rintro rfl
        exact escaped (by decide)
      rw [if_neg escaped, if_neg escaped, List.singleton_append, escapedPlaces_cons,
        startsEscaped_of_ne plain]
      simp

-- Every escape of a text decodes to a byte; where all the bytes that need one come from escapes, the
-- rendered name is no longer than the text.
theorem escapedPlaces_le (text : Bytes) :
    escapedPlaces text ≤ (decodeEscapes text).countP listsEscaped ∧
      (escapedPlaces text = (decodeEscapes text).countP listsEscaped →
        ((decodeEscapes text).flatMap encodeEntryByte).length ≤ text.length) := by
  have plain {byte : UInt8} {rest : Bytes}
    (decoded : decodeEscapes (byte :: rest) = byte :: decodeEscapes rest)
      (starts : startsEscaped (byte :: rest) = false)
      (ih : escapedPlaces rest ≤ (decodeEscapes rest).countP listsEscaped ∧
        (escapedPlaces rest = (decodeEscapes rest).countP listsEscaped →
          ((decodeEscapes rest).flatMap encodeEntryByte).length ≤ rest.length)) :
      escapedPlaces (byte :: rest) ≤ (decodeEscapes (byte :: rest)).countP listsEscaped ∧
        (escapedPlaces (byte :: rest) = (decodeEscapes (byte :: rest)).countP listsEscaped →
          ((decodeEscapes (byte :: rest)).flatMap encodeEntryByte).length ≤ (byte :: rest).length) := by
    rw [decoded, escapedPlaces_cons, starts, List.countP_cons, List.flatMap_cons, encodeEntryByte_eq]
    by_cases escaped : listsEscaped byte
    · simp only [escaped, if_true, Bool.false_eq_true, if_false]
      omega
    · simp only [escaped, Bool.false_eq_true, if_false, List.singleton_append, List.length_cons]
      omega
  induction text using decodeEscapes.induct with
  | case1 byte high low tail value escape ih =>
    rw [decodeEscapes_cons_some tail escape, escapedPlaces_escape tail escape,
      List.countP_cons, List.flatMap_cons, encodeEntryByte_eq]
    by_cases escaped : listsEscaped value <;>
      simp only [escaped, if_true, Bool.false_eq_true, if_false, percentEscape,
        List.length_append, List.length_cons, List.length_nil] <;> omega
  | case2 byte high low tail none ih =>
    exact plain (by rw [decodeEscapes, none]) (by simp [startsEscaped, none]) ih
  | case3 byte rest short ih =>
    exact plain (decodeEscapes_cons_none fun high low others long => (short high low others long).elim)
      (startsEscaped_short short) ih
  | case4 => simp [decodeEscapes, escapedPlaces, startsEscaped]

-- Two bytes that a pattern byte could both stand for, when the first is spelled out but for its wildcards.
def Agrees (rendered byte : UInt8) : Prop :=
  rendered = byte ∨ rendered = asciiByte '*' ∨ rendered = asciiByte '?'

theorem Agrees.same {rendered byte : UInt8} (agrees : Agrees rendered byte)
    (spelled : rendered = asciiByte '%' ∨ isHexDigit rendered) : rendered = byte := by
  have percent : asciiByte '%' ≠ asciiByte '*' ∧ asciiByte '%' ≠ asciiByte '?' := by decide
  rcases spelled with rfl | hex
  · exact agrees.resolve_right (by simp [percent])
  · exact agrees.resolve_right (by simp [isHexDigit_not hex])

theorem startsEscaped_of_agrees {rendered text : Bytes} (agree : List.Forall₂ Agrees rendered text)
    (starts : startsEscaped rendered) : startsEscaped text := by
  match rendered, agree with
  | byte :: high :: low :: tail, .cons first (.cons second (.cons third _)) =>
    obtain ⟨value, escape, _⟩ := (Option.any_eq_true _ _).mp starts
    obtain ⟨percent, upper, lower⟩ := escapeValue_some escape
    rw [← first.same (Or.inl percent), ← second.same (Or.inr upper), ← third.same (Or.inr lower)]
    exact starts

theorem escapedPlaces_agrees {rendered text : Bytes} (agree : List.Forall₂ Agrees rendered text) :
    escapedPlaces rendered ≤ escapedPlaces text := by
  induction agree with
  | nil => exact Nat.le_refl _
  | @cons byte other rendered text here rest ih =>
    rw [escapedPlaces_cons, escapedPlaces_cons]
    by_cases starts : startsEscaped (byte :: rendered)
    · rw [if_pos starts, if_pos (startsEscaped_of_agrees (.cons here rest) starts)]
      omega
    · rw [if_neg starts]
      omega

theorem rendered_of_balanced {text : Bytes}
    (balanced : escapedPlaces text = (decodeEscapes text).countP listsEscaped)
    (agree : List.Forall₂ Agrees ((decodeEscapes text).flatMap encodeEntryByte) text) :
    (decodeEscapes text).flatMap encodeEntryByte = text := by
  have plain {byte : UInt8} {rest : Bytes}
    (decoded : decodeEscapes (byte :: rest) = byte :: decodeEscapes rest)
      (starts : startsEscaped (byte :: rest) = false)
      (balanced : escapedPlaces (byte :: rest) = (decodeEscapes (byte :: rest)).countP listsEscaped)
      (agree : List.Forall₂ Agrees ((decodeEscapes (byte :: rest)).flatMap encodeEntryByte) (byte :: rest))
      (ih : escapedPlaces rest = (decodeEscapes rest).countP listsEscaped →
        List.Forall₂ Agrees ((decodeEscapes rest).flatMap encodeEntryByte) rest →
          (decodeEscapes rest).flatMap encodeEntryByte = rest) :
      (decodeEscapes (byte :: rest)).flatMap encodeEntryByte = byte :: rest := by
    rw [decoded, escapedPlaces_cons, starts, List.countP_cons] at balanced
    have bound := (escapedPlaces_le rest).1
    by_cases escaped : listsEscaped byte
    · -- a raw byte that the listing escapes leaves too few escapes in the text
      simp only [escaped, if_true, Bool.false_eq_true, if_false] at balanced
      omega
    · rw [decoded, List.flatMap_cons, encodeEntryByte_eq, if_neg escaped, List.singleton_append] at agree ⊢
      simp only [escaped, Bool.false_eq_true, if_false, Nat.add_zero] at balanced
      rw [List.forall₂_cons] at agree
      rw [ih balanced agree.2]
  induction text using decodeEscapes.induct with
  | case1 byte high low tail value escape ih =>
    rw [decodeEscapes_cons_some tail escape, escapedPlaces_escape tail escape, List.countP_cons] at balanced
    rw [decodeEscapes_cons_some tail escape, List.flatMap_cons, encodeEntryByte_eq] at agree ⊢
    by_cases escaped : listsEscaped value
    · rw [if_pos escaped] at agree ⊢
      simp only [percentEscape, List.cons_append, List.nil_append, List.forall₂_cons] at agree ⊢
      obtain ⟨first, second, third, rest⟩ := agree
      obtain ⟨_, upper, lower⟩ := escapeValue_some (percentEscape_value value)
      rw [ih (by omega) rest, first.same (Or.inl rfl), second.same (Or.inr upper), third.same (Or.inr lower)]
    · -- an escape that the listing does not write makes the text too long
      simp only [escaped, Bool.false_eq_true, if_false, Nat.add_zero] at balanced
      have shorter := (escapedPlaces_le tail).2 balanced
      have lengths := agree.length_eq
      simp only [escaped, Bool.false_eq_true, if_false, List.singleton_append, List.length_cons] at lengths
      omega
  | case2 byte high low tail none ih =>
    exact plain (by rw [decodeEscapes, none]) (by simp [startsEscaped, none]) balanced agree ih
  | case3 byte rest short ih =>
    exact plain (decodeEscapes_cons_none fun high low others long => (short high low others long).elim)
      (startsEscaped_short short) balanced agree ih
  | case4 => simp [decodeEscapes]

theorem rendered_of_agrees {text : Bytes}
    (agree : List.Forall₂ Agrees ((decodeEscapes text).flatMap encodeEntryByte) text) :
    (decodeEscapes text).flatMap encodeEntryByte = text := by
  have most := (escapedPlaces_le text).1
  have least := escapedPlaces_agrees agree
  rw [escapedPlaces_rendered] at least
  exact rendered_of_balanced (by omega) agree

def maskBytes (name : Bytes) : Bytes :=
  match fromUtf8 name with
  | some _ => name.map fun _ => asciiByte '?'
  | none => (name.flatMap encodeEntryByte).map fun byte =>
    if byte = asciiByte '*' then asciiByte '?' else byte

def maskSegment (name : Bytes) : String := asciiText (maskBytes name)

theorem maskBytes_graphic (name : Bytes) :
    ∀ byte ∈ maskBytes name, isAsciiGraphic byte ∧ byte ≠ asciiByte '*' ∧ byte ≠ asciiByte '/' ∧
    byte ≠ asciiByte '\\' := by
  have wildcard : isAsciiGraphic (asciiByte '?') ∧ asciiByte '?' ≠ asciiByte '*' ∧
      asciiByte '?' ≠ asciiByte '/' ∧
      asciiByte '?' ≠ asciiByte '\\' := by decide
  intro byte member
  unfold maskBytes at member
  split at member
  · obtain ⟨_, _, rfl⟩ := List.mem_map.mp member
    exact wildcard
  · obtain ⟨other, inside, same⟩ := List.mem_map.mp member
    obtain ⟨source, _, within⟩ := List.mem_flatMap.mp inside
    split at same
    · rw [← same]
      exact wildcard
    next plain =>
      rw [← same]
      exact ⟨(encodeEntryByte_graphic source other within).1, plain,
        (encodeEntryByte_graphic source other within).2⟩

theorem asBytes_maskSegment (name : Bytes) : asBytes (maskSegment name) = maskBytes name :=
  asBytes_asciiText fun byte member => isAsciiGraphic_lt (maskBytes_graphic name byte member).1

theorem maskSegment_matches (name : Bytes) (segment : String) :
    segmentMatches (maskSegment name) segment ↔
      List.Forall₂ (fun first byte => first = asciiByte '?' ∨ first = byte)
        (maskBytes name) (asBytes segment) := by
  rw [segmentMatches, asBytes_maskSegment, globMatchChars_starless]
  exact fun member => (maskBytes_graphic name _ member).2.1 rfl

theorem maskSegment_text (text segment : String) :
    segmentMatches (maskSegment (asBytes text)) segment ↔
      (asBytes text).length = (asBytes segment).length := by
  rw [maskSegment_matches, maskBytes, fromUtf8_asBytes]
  constructor
  · intro matched
    simpa using matched.length_eq
  · intro same
    rw [List.forall₂_map_left_iff]
    exact List.forall₂_iff_zip.mpr ⟨same, fun _ => Or.inl rfl⟩

theorem maskSegment_rendered (name : Bytes) :
    segmentMatches (maskSegment name) (percentEncodeEntryName name) := by
  cases text : fromUtf8 name with
  | some text =>
    obtain rfl := (fromUtf8_eq_some _ _).mp text
    rw [percentEncodeEntryName_text, maskSegment_text]
  | none =>
    rw [maskSegment_matches, asBytes_percentEncodeEntryName text, maskBytes, text]
    dsimp only
    rw [List.forall₂_map_left_iff, List.forall₂_same]
    intro byte _
    split <;> simp

theorem maskSegment_literal {segment : String}
    (matched : segmentMatches (maskSegment (percentDecodeBytes segment)) segment) :
    segment = percentEncodeEntryName (percentDecodeBytes segment) := by
  cases text : fromUtf8 (percentDecodeBytes segment) with
  | some text =>
    have bytes := (fromUtf8_eq_some _ _).mp text
    rw [← bytes, maskSegment_text] at matched
    have same : percentDecodeBytes segment = asBytes segment := by
      by_contra changed
      have shorter := decodeEscapes_shrinks changed
      rw [bytes, percentDecodeBytes] at matched
      omega
    rw [same, percentEncodeEntryName_text]
  | none =>
    rw [maskSegment_matches, maskBytes, text] at matched
    dsimp only at matched
    rw [List.forall₂_map_left_iff] at matched
    have agree :
        List.Forall₂ Agrees ((percentDecodeBytes segment).flatMap encodeEntryByte) (asBytes segment) := by
      refine matched.imp fun rendered byte either => ?_
      split at either
      next star => exact Or.inr (Or.inl star)
      · rcases either with wildcard | same
        · exact Or.inr (Or.inr wildcard)
        · exact Or.inl same
    apply asBytes_injective
    rw [asBytes_percentEncodeEntryName text]
    exact (rendered_of_agrees agree).symm

theorem maskBytes_marked {name : Bytes} (named : name ≠ []) :
    asciiByte '?' ∈ maskBytes name ∨ asciiByte '%' ∈ maskBytes name := by
  unfold maskBytes
  cases text : fromUtf8 name with
  | some text =>
    obtain ⟨byte, rest, rfl⟩ := List.exists_cons_of_ne_nil named
    exact Or.inl (by simp)
  | none =>
    refine Or.inr ?_
    by_contra unmarked
    have plain : ∀ byte ∈ name, listsEscaped byte = false := by
      intro byte member
      by_contra escaped
      apply unmarked
      refine List.mem_map.mpr ⟨asciiByte '%', List.mem_flatMap.mpr ⟨byte, member, ?_⟩, by decide⟩
      rw [encodeEntryByte_eq, if_pos (by simpa using escaped)]
      exact List.mem_cons_self
    have ascii : ∀ byte ∈ name, byte < 0x80 := by
      intro byte member
      have safe := plain byte member
      simp only [listsEscaped, Bool.not_eq_false', Bool.and_eq_true] at safe
      exact isAsciiGraphic_lt safe.1.1.1
    have whole := (fromUtf8_eq_some name _).mpr (asBytes_asciiText ascii)
    rw [whole] at text
    cases text

theorem maskSegment_ne {name : Bytes} {special : String} (named : name ≠ [])
    (query : asciiByte '?' ∉ asBytes special) (percent : asciiByte '%' ∉ asBytes special) :
    maskSegment name ≠ special := by
  rintro rfl
  rw [asBytes_maskSegment] at query percent
  exact (maskBytes_marked named).elim query percent

theorem not_mem_maskSegment {name : Bytes} {c : Char} (ascii : c.toNat < 0x80)
    (outside : ∀ byte, isAsciiGraphic byte → byte ≠ asciiByte '/' →
      byte ≠ asciiByte '\\' → byte ≠ asciiByte c) :
    c ∉ (maskSegment name).toList := by
  rw [← asciiByte_mem_asBytes ascii, asBytes_maskSegment]
  intro member
  obtain ⟨graphic, _, slash, backslash⟩ := maskBytes_graphic name _ member
  exact outside _ graphic slash backslash rfl

theorem maskSegment_untrimmed (name : Bytes) : ∀ c ∈ (maskSegment name).toList, isWhitespace c = false := by
  exact graphic_untrimmed fun byte member => (maskBytes_graphic name byte member).1

theorem maskSegments_writable {names : List Bytes} (nonempty : names ≠ [])
    (named : ∀ name ∈ names, name ≠ []) : Writable (names.map maskSegment) where
  nonempty := by simpa using nonempty
  named := by
    intro segment member
    obtain ⟨name, inside, rfl⟩ := List.mem_map.mp member
    exact maskSegment_ne (named name inside) (by decide) (by decide)
  descending := by
    intro member
    obtain ⟨name, inside, same⟩ := List.mem_map.mp member
    exact maskSegment_ne (named name inside) (by decide) (by decide) same
  clean := by
    intro segment member
    obtain ⟨name, _, rfl⟩ := List.mem_map.mp member
    refine ⟨not_mem_maskSegment (by decide) fun byte _ slash _ => slash,
      not_mem_maskSegment (by decide) fun byte _ _ backslash => backslash, not_mem_maskSegment (by decide) ?_⟩
    rintro byte graphic _ _ rfl
    exact absurd graphic (by decide)
  untrimmed := by
    intro last found c ends
    obtain ⟨name, _, rfl⟩ := List.mem_map.mp (List.mem_of_getLast? found)
    exact maskSegment_untrimmed name c (List.mem_of_getLast? ends)
  undotted := by
    intro next rest same
    obtain ⟨name, others, rfl, first, _⟩ := List.map_eq_cons_iff.mp same
    exact maskSegment_ne (named name (by simp)) (by decide) (by decide) first

def maskRules (names : List Bytes) (grant : List (List String)) : Rules :=
  ⟨[[]], [names.map maskSegment], grant⟩

section

variable {names : List Bytes} {grant : List (List String)} (nonempty : names ≠ [])
  (named : ∀ name ∈ names, name ≠ [])
  (granted : ∀ path ∈ grant, WritableAllow path)
include nonempty named granted

theorem maskRules_writable : (maskRules names grant).Writable :=
  ⟨by simp [maskRules, WritableAllow],
    by simpa [maskRules] using maskSegments_writable nonempty named,
    granted, by simp [maskRules], by simp [maskRules]⟩

theorem maskRules_visible_iff (groups : List String) {segments : List String}
    (same : names.length = segments.length) :
    (evaluate (maskRules names grant).config groups segments).isHidden = false ↔
      ¬List.Forall₂ (fun name segment => segmentMatches (maskSegment name) segment) names segments := by
  have below : segments ≠ [] := by
    rintro rfl
    exact nonempty (List.length_eq_zero_iff.mp same)
  have starless : "**" ∉ names.map maskSegment := by
    intro member
    obtain ⟨name, inside, same⟩ := List.mem_map.mp member
    exact maskSegment_ne (named name inside) (by decide) (by decide) same
  have matched := denyPattern_starless starless (by simpa using nonempty) (by simpa using same)
  rw [List.forall₂_map_left_iff] at matched
  rw [Rules.visible_iff (maskRules_writable nonempty named granted) _ _ below, ← matched]
  simp [maskRules]

theorem maskRules_denies (groups : List String) :
    (evaluate (maskRules names grant).config groups (names.map percentEncodeEntryName)).IsDenied := by
  have covered : Covered (maskRules names grant).config groups (names.map percentEncodeEntryName) := by
    rw [Rules.covered_iff (maskRules_writable nonempty named granted)]
    exact Or.inl ⟨[], by simp [maskRules], List.nil_prefix⟩
  rw [evaluate_denied_iff]
  refine ⟨by simpa using nonempty, covered, ?_⟩
  by_contra free
  have visible := (evaluate_visible_iff _ _ (by simpa using nonempty)).mpr ⟨covered, free⟩
  rw [maskRules_visible_iff nonempty named granted _ (by simp)] at visible
  apply visible
  rw [List.forall₂_map_right_iff, List.forall₂_same]
  exact fun name _ => maskSegment_rendered name

end

end Yafm
