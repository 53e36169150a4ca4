import Yafm.Access.Evaluate

set_option autoImplicit false

namespace Yafm

open Text

theorem decodeEscapes_cons_some {byte high low value : UInt8} (tail : Bytes)
    (escape : escapeValue byte high low = some value) :
    decodeEscapes (byte :: high :: low :: tail) = value :: decodeEscapes tail := by
  rw [decodeEscapes, escape]

theorem decodeEscapes_cons_none {byte : UInt8} {rest : Bytes}
    (plain : ∀ high low tail, rest = high :: low :: tail → escapeValue byte high low = none) :
    decodeEscapes (byte :: rest) = byte :: decodeEscapes rest := by
  match rest with
  | [] => rfl
  | [next] => rfl
  | high :: low :: tail => rw [decodeEscapes, plain high low tail rfl]

theorem decodeEscapes_ne_nil {bytes : Bytes} (nonempty : bytes ≠ []) : decodeEscapes bytes ≠ [] := by
  match bytes with
  | [] => exact absurd rfl nonempty
  | [byte] => simp [decodeEscapes]
  | [byte, next] => simp [decodeEscapes]
  | byte :: high :: low :: tail =>
    rw [decodeEscapes]
    split <;> simp

theorem decodeEscapes_length (bytes : Bytes) :
    (decodeEscapes bytes).length ≤ bytes.length ∧
      ((decodeEscapes bytes).length = bytes.length → decodeEscapes bytes = bytes) := by
  induction bytes using decodeEscapes.induct with
  | case1 byte high low tail value escape ih =>
    rw [decodeEscapes_cons_some tail escape]
    simp only [List.length_cons]
    omega
  | case2 byte high low tail plain ih =>
    rw [decodeEscapes, plain]
    simp only [List.length_cons] at ih ⊢
    refine ⟨by omega, fun same => ?_⟩
    rw [ih.2 (by omega)]
  | case3 byte rest short ih =>
    rw [decodeEscapes_cons_none fun high low tail long => (short high low tail long).elim]
    simp only [List.length_cons]
    refine ⟨by omega, fun same => ?_⟩
    rw [ih.2 (by omega)]
  | case4 => simp [decodeEscapes]

theorem decodeEscapes_shrinks {bytes : Bytes} (changed : decodeEscapes bytes ≠ bytes) :
    (decodeEscapes bytes).length < bytes.length := by
  obtain ⟨bound, same⟩ := decodeEscapes_length bytes
  exact lt_of_le_of_ne bound fun equal => changed (same equal)

def isPlain (byte : UInt8) : Bool := byte ≠ asciiByte '%' && !isHexDigit byte

theorem escapeValue_plain {byte high low : UInt8}
    (plain : byte ≠ asciiByte '%' ∨ isHexDigit high = false ∨ isHexDigit low = false) :
    escapeValue byte high low = none := by
  unfold escapeValue
  unfold isHexDigit at plain
  split
  next escape =>
    rcases plain with other | high | low
    · exact absurd escape other
    · simp [Option.isNone_iff_eq_none.mp (by simpa using high)]
    · simp [Option.isNone_iff_eq_none.mp (by simpa using low)]
  · rfl

theorem decodeEscapes_plain {bytes : Bytes} (plain : ∀ byte ∈ bytes, isPlain byte) :
    decodeEscapes bytes = bytes := by
  induction bytes with
  | nil => simp [decodeEscapes]
  | cons byte rest ih =>
    have here : byte ≠ asciiByte '%' := by
      have := plain byte (by simp)
      simp only [isPlain, Bool.and_eq_true, decide_eq_true_eq] at this
      exact this.1
    rw [decodeEscapes_cons_none fun _ _ _ _ => escapeValue_plain (Or.inl here),
      ih fun other member => plain other (List.mem_cons_of_mem _ member)]

theorem percentEscape_value (byte : UInt8) :
    escapeValue (asciiByte '%') (hexDigit (byte >>> 4)) (hexDigit (byte &&& 0x0f)) = some byte := by
  revert byte
  exact forall_byte (by decide +kernel)

theorem decodeEscapes_escaped {keep : UInt8 → Bool} (apart : keep (asciiByte '%') = false) (raw : Bytes) :
    decodeEscapes (raw.flatMap fun byte => if keep byte then [byte] else percentEscape byte) = raw := by
  induction raw with
  | nil => rfl
  | cons byte rest ih =>
    rw [List.flatMap_cons]
    split
    next kept =>
      have other : byte ≠ asciiByte '%' := by
        rintro rfl
        rw [apart] at kept
        cases kept
      rw [List.singleton_append, decodeEscapes_cons_none fun _ _ _ _ => escapeValue_plain (.inl other), ih]
    next => exact (decodeEscapes_cons_some _ (percentEscape_value byte)).trans (congrArg _ ih)

theorem decodeEscapes_append_plain (front : Bytes) {tail : Bytes} (plain : ∀ byte ∈ tail, isPlain byte) :
    decodeEscapes (front ++ tail) = decodeEscapes front ++ tail := by
  have notHex (byte : UInt8) (member : byte ∈ tail) : isHexDigit byte = false := by
    have := plain byte member
    simp only [isPlain, Bool.and_eq_true, Bool.not_eq_true'] at this
    exact this.2
  induction front using decodeEscapes.induct with
  | case1 byte high low rest value escape ih =>
    simp only [List.cons_append, decodeEscapes_cons_some _ escape, ih]
  | case2 byte high low rest none ih =>
    have here (tail : Bytes) :
        decodeEscapes (byte :: high :: low :: tail) = byte :: decodeEscapes (high :: low :: tail) := by
      rw [decodeEscapes, none]
    simp only [List.cons_append] at ih ⊢
    rw [here, here, ih, List.cons_append]
  | case3 byte rest short ih =>
    have onward : decodeEscapes (byte :: (rest ++ tail)) = byte :: decodeEscapes (rest ++ tail) := by
      refine decodeEscapes_cons_none fun high low others found => ?_
      match rest, found with
      | [], found =>
        exact escapeValue_plain
          (Or.inr (Or.inl (notHex high (by rw [List.nil_append] at found; simp [found]))))
      | [next], found =>
        rw [List.singleton_append, List.cons.injEq] at found
        exact escapeValue_plain (Or.inr (Or.inr (notHex low (by simp [found.2]))))
      | next :: third :: others, _ => exact (short _ _ _ rfl).elim
    rw [List.cons_append, onward, ih,
      decodeEscapes_cons_none fun high low others long => (short high low others long).elim, List.cons_append]
  | case4 => simpa [decodeEscapes] using decodeEscapes_plain plain

theorem whitespace_plain {c : Char} (blank : isWhitespace c) :
    ∀ byte ∈ String.utf8EncodeChar c, isPlain byte := by
  have outside (byte : UInt8) : 0x80 ≤ byte → isPlain byte = true := by
    revert byte
    exact forall_byte (by decide +kernel)
  have inside (n : Nat) : n < 0x80 → isWhitespace (Char.ofNat n) = true → isPlain (UInt8.ofNat n) = true := by
    revert n
    decide +kernel
  by_cases ascii : c.toNat < 0x80
  · rw [utf8EncodeChar_ascii ascii]
    intro byte member
    rw [List.mem_singleton] at member
    rw [member]
    exact inside c.toNat ascii (by rwa [Char.ofNat_toNat])
  · intro byte member
    exact outside byte (utf8EncodeChar_high (by omega) byte member)

theorem percentDecodeBytes_whitespace {segment : String} {c : Char} (last : segment.toList.getLast? = some c)
    (blank : isWhitespace c) : ∃ front, percentDecodeBytes segment = front ++ String.utf8EncodeChar c := by
  obtain ⟨lead, chars⟩ := List.getLast?_eq_some_iff.mp last
  refine ⟨decodeEscapes (lead.flatMap String.utf8EncodeChar), ?_⟩
  rw [percentDecodeBytes, asBytes_eq, chars, List.flatMap_append, List.flatMap_singleton,
    decodeEscapes_append_plain _ (whitespace_plain blank)]

structure PlainSegment (segment : String) : Prop where
  named : segment ≠ ""
  notDot : segment ≠ "."
  descending : segment ≠ ".."
  clean : '/' ∉ segment.toList ∧ '\\' ∉ segment.toList ∧ '\x00' ∉ segment.toList

theorem collectParts_ok {raw parts : List String} (collected : collectParts raw = .ok parts) :
    ".." ∉ parts ∧ "." ∉ parts ∧ ∀ part ∈ parts, part ∈ raw := by
  induction raw using collectParts.induct generalizing parts with
  | case1 =>
    cases collected
    simp
  | case2 rest ih =>
    obtain ⟨noParent, noDot, from'⟩ := ih collected
    exact ⟨noParent, noDot, fun part member => List.mem_cons_of_mem _ (from' part member)⟩
  | case3 rest => cases collected
  | case4 part rest notDot notParent ih =>
    rw [collectParts.eq_4 _ _ notDot notParent] at collected
    obtain ⟨others, onward, rfl⟩ := map_ok collected
    obtain ⟨noParent, noDot, from'⟩ := ih onward
    refine ⟨?_, ?_, ?_⟩
    · simpa [Ne.symm notParent] using noParent
    · simpa [Ne.symm notDot] using noDot
    · intro other member
      rcases List.mem_cons.mp member with rfl | later
      · simp
      · exact List.mem_cons_of_mem _ (from' other later)

theorem pathSegments_join {parts : List String} (plain : ∀ part ∈ parts, PlainSegment part) :
    pathSegments (join '/' parts) = parts := by
  by_cases empty : parts = []
  · subst empty
    rfl
  · have split := split_join empty fun part member => (plain part member).clean.1
    have solid : join '/' parts ≠ "" := by
      intro nothing
      rw [nothing] at split
      have member : "" ∈ parts := by
        rw [← split]
        decide
      exact (plain "" member).named rfl
    rw [pathSegments, if_neg solid, split]

theorem validateRelativePath_ok {p r : String} (valid : validateRelativePath p = .ok r) :
    join '/' (pathSegments r) = r ∧ ∀ segment ∈ pathSegments r, PlainSegment segment := by
  unfold validateRelativePath at valid
  dsimp only at valid
  split at valid
  · cases valid
    exact ⟨rfl, by simp [pathSegments]⟩
  split at valid
  · cases valid
  next accepted =>
    obtain ⟨parts, collected, rfl⟩ := map_ok valid
    obtain ⟨noParent, noDot, from'⟩ := collectParts_ok collected
    have plain : ∀ part ∈ parts, PlainSegment part := by
      intro part member
      obtain ⟨inside, named⟩ := List.mem_filter.mp (from' part member)
      simp only [Bool.or_eq_true, not_or, Bool.not_eq_true] at accepted
      refine ⟨by simpa using named, ?_, ?_, mem_split inside, fun bad => ?_, fun bad => ?_⟩
      · rintro rfl
        exact noDot member
      · rintro rfl
        exact noParent member
      · have := mem_of_mem_split inside bad
        simp [contains, this] at accepted
      · have := mem_of_mem_split inside bad
        simp [contains, this] at accepted
    rw [pathSegments_join plain]
    exact ⟨rfl, plain⟩

theorem percentDecodeBytes_ne_nil {segment : String} (named : segment ≠ "") :
    percentDecodeBytes segment ≠ [] := by
  apply decodeEscapes_ne_nil
  intro empty
  exact named (asBytes_injective (empty.trans rfl))

structure PlainBytes (bytes : Bytes) : Prop where
  nonempty : bytes ≠ []
  descending : bytes ≠ asBytes ".."
  clean : asciiByte '/' ∉ bytes ∧ asciiByte '\\' ∉ bytes ∧ (0 : UInt8) ∉ bytes

theorem decodeComponents_ok {parts : List String} {decoded : List Bytes} (named : ∀ part ∈ parts, part ≠ "")
    (accepted : decodeComponents parts = .ok decoded) :
    decoded = parts.map percentDecodeBytes ∧ ∀ bytes ∈ decoded, PlainBytes bytes := by
  induction parts generalizing decoded with
  | nil =>
    cases accepted
    simp
  | cons part rest ih =>
    have solid := percentDecodeBytes_ne_nil (named part (by simp))
    simp only [decodeComponents] at accepted
    split at accepted
    · cases accepted
    next clean =>
      split at accepted
      · cases accepted
      next descending =>
        obtain ⟨others, onward, same⟩ := map_ok accepted
        obtain ⟨rfl, plain⟩ := ih (fun other member => named other (List.mem_cons_of_mem _ member)) onward
        subst same
        refine ⟨rfl, ?_⟩
        intro bytes member
        rcases List.mem_cons.mp member with rfl | later
        · refine ⟨solid, descending, ?_⟩
          simpa [hidesSeparator, and_assoc] using clean
        · exact plain bytes later

theorem decodeComponents_plain {segments : List String}
    (plain : ∀ segment ∈ segments, PlainBytes (percentDecodeBytes segment)) :
    decodeComponents segments = .ok (segments.map percentDecodeBytes) := by
  induction segments with
  | nil => rfl
  | cons segment rest ih =>
    have here := plain segment (by simp)
    have separators : hidesSeparator (percentDecodeBytes segment) = false := by
      simpa [hidesSeparator, and_assoc] using here.clean
    simp only [decodeComponents, separators, here.descending, here.nonempty, Bool.false_eq_true,
      if_false, List.map_cons,
      ih fun other member => plain other (List.mem_cons_of_mem _ member), Except.map]

theorem decodeComponents_iff {parts : List String} (named : ∀ part ∈ parts, part ≠ "")
    (decoded : List Bytes) :
    decodeComponents parts = .ok decoded ↔
      decoded = parts.map percentDecodeBytes ∧ ∀ part ∈ parts, PlainBytes (percentDecodeBytes part) := by
  constructor
  · intro accepted
    obtain ⟨rfl, plain⟩ := decodeComponents_ok named accepted
    exact ⟨rfl, fun part member => plain _ (List.mem_map_of_mem member)⟩
  · rintro ⟨rfl, plain⟩
    exact decodeComponents_plain plain

theorem decodeSegments_iff {parts : List String} (named : ∀ part ∈ parts, part ≠ "") (texts : List String) :
    decodeSegments parts = some texts ↔ decodeComponents parts = .ok (texts.map asBytes) := by
  induction parts generalizing texts with
  | nil =>
    cases texts <;> simp [decodeSegments, decodeComponents]
  | cons part rest ih =>
    have solid := percentDecodeBytes_ne_nil (named part (by simp))
    have onward := ih fun other member => named other (List.mem_cons_of_mem _ member)
    by_cases refused : hidesSeparator (percentDecodeBytes part)
    · simp [decodeSegments, decodeComponents, refused]
    by_cases up : percentDecodeBytes part = asBytes ".."
    · have upward : hidesSeparator (asBytes "..") = false := by decide
      simp [decodeSegments, decodeComponents, up, upward]
    simp only [decodeSegments, decodeComponents, refused, up, solid, Bool.or_self,
      decide_false, Bool.false_eq_true, if_false]
    constructor
    · intro judged
      split at judged
      next text utf8 =>
        obtain ⟨others, rest, rfl⟩ := Option.map_eq_some_iff.mp judged
        rw [(onward others).mp rest, ← (fromUtf8_eq_some _ _).mp utf8]
        rfl
      · cases judged
    · intro accepted
      obtain ⟨others, rest, same⟩ := map_ok accepted
      match texts, same with
      | text :: others', same =>
        rw [List.map_cons, List.cons.injEq] at same
        obtain ⟨utf8, rfl⟩ := same
        rw [(fromUtf8_eq_some _ _).mpr utf8.symm, (onward others').mpr rest]
        rfl

-- An escape hides what the handlers refuse in a segment, or bytes that no rule can spell.
def Undecodable (segment : String) : Prop :=
  hidesSeparator (percentDecodeBytes segment) ∨ percentDecodeBytes segment = asBytes ".." ∨
    fromUtf8 (percentDecodeBytes segment) = none

theorem exists_decodeSegments_iff (segments : List String) :
    (∃ texts, decodeSegments segments = some texts) ↔ ∀ segment ∈ segments, ¬Undecodable segment := by
  induction segments with
  | nil => simp [decodeSegments]
  | cons segment rest ih =>
    rw [List.forall_mem_cons, ← ih]
    simp only [decodeSegments, Undecodable]
    by_cases refused : hidesSeparator (percentDecodeBytes segment) ||
      percentDecodeBytes segment = asBytes ".."
    · have bad := refused
      rw [Bool.or_eq_true, decide_eq_true_eq] at bad
      simp only [refused, if_true, reduceCtorEq, exists_false, false_iff, not_and]
      exact fun fine => absurd (bad.imp_right Or.inl) fine
    · have fine := refused
      rw [Bool.or_eq_true, decide_eq_true_eq, not_or] at fine
      simp only [refused, if_false, Bool.false_eq_true]
      cases utf8 : fromUtf8 (percentDecodeBytes segment) with
      | none => simp
      | some text => simp [fine.1, fine.2]

end Yafm
