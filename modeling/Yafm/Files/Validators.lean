import Yafm.Files.Download
import Yafm.Shared.Blank
import Yafm.Shared.Digits

set_option autoImplicit false

namespace Yafm

open Text

def opaqueText (nanos len : Nat) : String := join '-' [hexText nanos, hexText len]

theorem hexText_digits {number : Nat} {c : Char} (member : c ∈ (hexText number).toList) :
    ∃ digit < 16, c = Nat.digitChar digit := by
  rw [hexText, String.toList_ofList] at member
  exact mem_toDigits member

theorem digitChar_plain {digit : Nat} (small : digit < 16) :
    Nat.digitChar digit ≠ '-' ∧ Nat.digitChar digit ≠ '"' ∧ Nat.digitChar digit ≠ ',' ∧
      isWhitespace (Nat.digitChar digit) = false := by
  revert digit
  decide

theorem hexText_clean {number : Nat} {c : Char} (member : c ∈ (hexText number).toList) :
    c ≠ '-' ∧ c ≠ '"' ∧ c ≠ ',' ∧ isWhitespace c = false := by
  obtain ⟨digit, small, rfl⟩ := hexText_digits member
  exact digitChar_plain small

theorem hexText_injective {left right : Nat} (same : hexText left = hexText right) : left = right := by
  rw [hexText, hexText, String.ofList_inj] at same
  exact toDigits_injective same

theorem opaqueText_injective {nanos len otherNanos otherLen : Nat}
    (same : opaqueText nanos len = opaqueText otherNanos otherLen) : nanos = otherNanos ∧ len = otherLen := by
  have parts (nanos len : Nat) : split '-' (opaqueText nanos len) = [hexText nanos, hexText len] := by
    refine split_join (by simp) fun part member hyphen => ?_
    simp only [List.mem_cons, List.not_mem_nil, or_false] at member
    rcases member with rfl | rfl <;> exact absurd rfl (hexText_clean hyphen).1
  have fields := parts nanos len
  rw [same, parts, List.cons.injEq, List.cons.injEq] at fields
  exact ⟨(hexText_injective fields.1).symm, (hexText_injective fields.2.1).symm⟩

theorem opaqueText_clean {nanos len : Nat} {c : Char} (member : c ∈ (opaqueText nanos len).toList) :
    c ≠ '"' ∧ c ≠ ',' ∧ isWhitespace c = false := by
  rcases mem_join member with rfl | ⟨part, inside, digit⟩
  · decide
  · simp only [List.mem_cons, List.not_mem_nil, or_false] at inside
    rcases inside with rfl | rfl <;> exact (hexText_clean digit).2

theorem weakEtag_eq (nanos len : Nat) :
    weakEtag nanos len = "W/" ++ ("\"" ++ opaqueText nanos len ++ "\"") := by
  apply String.toList_inj.mp
  simp [weakEtag, opaqueText, join_cons_cons, join_singleton]

theorem trimMatches_quoted {c : Char} {core : String} (filled : core ≠ "") (clean : c ∉ core.toList) :
    trimMatches c (String.ofList [c] ++ core ++ String.ofList [c]) = core := by
  obtain ⟨first, rest, chars⟩ :=
    List.exists_cons_of_ne_nil (fun none => filled (String.toList_inj.mp none) : core.toList ≠ [])
  have start : first ≠ c := by
    rintro rfl
    exact clean (by simp [chars])
  have front :
      (String.ofList [c] ++ core ++ String.ofList [c]).toList.dropWhile (· = c) = core.toList ++ [c] := by
    simp only [String.toList_append, String.toList_ofList, List.cons_append, List.nil_append]
    rw [List.dropWhile_cons_of_pos (by simp), chars, List.cons_append,
      List.dropWhile_cons_of_neg (by simp [start])]
  have back : core.toList.rdropWhile (· = c) = core.toList := by
    refine List.rdropWhile_eq_self_iff.mpr fun nonempty same => clean ?_
    rw [decide_eq_true_eq] at same
    exact same ▸ List.getLast_mem nonempty
  rw [trimMatches, front, List.rdropWhile_concat_pos _ _ _ (by simp), back, String.ofList_toList]

theorem weakEtag_solid (nanos len : Nat) : Solid (weakEtag nanos len) := by
  constructor
  · intro c first
    have start : c = 'W' := by simpa [weakEtag, eq_comm] using first
    subst start
    decide
  · intro c last
    have quote : "\"".toList = ['"'] := by simp
    rw [weakEtag, String.toList_append, quote, List.getLast?_concat, Option.mem_some] at last
    subst last
    decide

theorem opaqueText_filled (nanos len : Nat) : opaqueText nanos len ≠ "" := by
  intro empty
  have hyphen : '-' ∈ (opaqueText nanos len).toList := by simp [opaqueText, join_cons_cons]
  simp [empty] at hyphen

theorem etagOpaqueValue_weakEtag (nanos len : Nat) :
    etagOpaqueValue (weakEtag nanos len) = opaqueText nanos len := by
  have solid := weakEtag_solid nanos len
  rw [etagOpaqueValue, trim_eq_self solid.first solid.last, weakEtag_eq, stripPrefix_append, Option.getD_some]
  exact trimMatches_quoted (opaqueText_filled nanos len) fun quote => (opaqueText_clean quote).1 rfl

theorem etagOpaqueValue_trim (tag : String) : etagOpaqueValue (trim tag) = etagOpaqueValue tag := by
  rw [etagOpaqueValue, etagOpaqueValue, trim_trim]

theorem etagMatchesWeakly_weakEtag {nanos len otherNanos otherLen : Nat} :
    etagMatchesWeakly (weakEtag nanos len) (weakEtag otherNanos otherLen) ↔
      nanos = otherNanos ∧ len = otherLen := by
  rw [etagMatchesWeakly, decide_eq_true_eq, etagOpaqueValue_weakEtag, etagOpaqueValue_weakEtag]
  constructor
  · exact opaqueText_injective
  · rintro ⟨rfl, rfl⟩
    rfl

theorem computeWeakEtag_readable {metadata : Metadata} {modified : Time}
    (readable : metadata.modified = some modified) :
    computeWeakEtag metadata = some (weakEtag modified.toNat metadata.len) := by
  have digits (number : Nat) : (asBytes (hexText number)).all isHeaderByte := by
    have printable (digit : Nat) (small : digit < 16) :
        (Nat.digitChar digit).toNat < 0x80 ∧ isHeaderByte (asciiByte (Nat.digitChar digit)) := by
      revert digit
      decide
    rw [asBytes_ascii, List.all_map, List.all_eq_true]
    · intro c member
      obtain ⟨digit, small, rfl⟩ := hexText_digits member
      exact (printable digit small).2
    · intro c member
      obtain ⟨digit, small, rfl⟩ := hexText_digits member
      exact (printable digit small).1
  have legal : (asBytes (weakEtag modified.toNat metadata.len)).all isHeaderByte := by
    simp only [weakEtag, asBytes_append, List.all_append, digits, Bool.and_true]
    decide
  rw [computeWeakEtag, readable, Option.bind_some, headerValue, if_pos legal]

theorem computeWeakEtag_eq_some {metadata : Metadata} {tag : String}
    (computed : computeWeakEtag metadata = some tag) :
    ∃ modified, metadata.modified = some modified ∧ tag = weakEtag modified.toNat metadata.len := by
  cases readable : metadata.modified with
  | none => simp [computeWeakEtag, readable] at computed
  | some modified =>
    rw [computeWeakEtag_readable readable, Option.some.injEq] at computed
    exact ⟨modified, rfl, computed.symm⟩

/-- A state of a file and the ETag that the server computed for it. -/
structure Tagged where
  metadata : Metadata
  tag : String
  computed : computeWeakEtag metadata = some tag

structure Offered extends Tagged where
  before : String
  after : String
  blanks : Blank before ∧ Blank after

def ifNoneMatchValue (offers : List Offered) : String :=
  join ',' (offers.map fun offer => offer.before ++ offer.tag ++ offer.after)

def SameState (left right : Metadata) : Prop := left.modified = right.modified ∧ left.len = right.len

-- Two states of equal length, with different times at or before the epoch.
def EpochTwins (left right : Metadata) : Prop :=
  left.len = right.len ∧ ∃ earlier later, left.modified = some earlier ∧ right.modified = some later ∧
    earlier ≠ later ∧ earlier ≤ 0 ∧ later ≤ 0

structure ExactValidators (platform : Platform) (current : Tagged) (offers : List Offered) : Prop where
  noneMatch : ifNoneMatchMatches (ifNoneMatchValue offers) current.tag ↔
    ∃ offer ∈ offers, SameState offer.metadata current.metadata
  range : ∀ offer ∈ offers, ifRangeMatches platform offer.tag (some current.tag) current.metadata.modified ↔
    SameState offer.metadata current.metadata

theorem etagMatchesWeakly_iff (offer current : Tagged) :
    etagMatchesWeakly offer.tag current.tag ↔
      SameState offer.metadata current.metadata ∨ EpochTwins offer.metadata current.metadata := by
  obtain ⟨earlier, offered, tag⟩ := computeWeakEtag_eq_some offer.computed
  obtain ⟨later, held, other⟩ := computeWeakEtag_eq_some current.computed
  rw [tag, other, etagMatchesWeakly_weakEtag, SameState, EpochTwins, offered, held]
  simp only [Option.some.injEq, exists_and_left, exists_eq_left']
  have nanos (left right : Int) : left.toNat = right.toNat ↔
      left = right ∨ left ≠ right ∧ left ≤ 0 ∧ right ≤ 0 := by
    omega
  rw [nanos]
  tauto

theorem ifRangeMatches_tag (platform : Platform) (offer current : Tagged) (modified : Option Time) :
    ifRangeMatches platform offer.tag (some current.tag) modified =
      etagMatchesWeakly offer.tag current.tag := by
  obtain ⟨earlier, _, tag⟩ := computeWeakEtag_eq_some offer.computed
  have solid := weakEtag_solid earlier.toNat offer.metadata.len
  have weak : startsWith "W/" (weakEtag earlier.toNat offer.metadata.len) = true := by
    rw [weakEtag_eq]
    simp [startsWith]
  unfold ifRangeMatches
  rw [tag, trim_eq_self solid.first solid.last]
  simp [weak]

theorem parts_offers {offers : List Offered} (some : offers ≠ []) :
    (split ',' (trim (ifNoneMatchValue offers))).map trim = offers.map fun offer => offer.tag := by
  have whole : split ',' (ifNoneMatchValue offers) = offers.map fun offer =>
    offer.before ++ offer.tag ++ offer.after := by
    refine split_join (by simpa using some) fun part member comma => ?_
    obtain ⟨offer, _, rfl⟩ := List.mem_map.mp member
    obtain ⟨modified, _, tag⟩ := computeWeakEtag_eq_some offer.computed
    rw [String.toList_append, String.toList_append, List.mem_append, List.mem_append, tag] at comma
    rcases comma with (front | inside) | back
    · exact offer.blanks.1.clean (by decide) front
    · rw [weakEtag_eq] at inside
      simp only [String.toList_append, List.mem_append] at inside
      rcases inside with weak | (quote | inside) | quote
      · revert weak
        decide
      · revert quote
        decide
      · exact (opaqueText_clean inside).2.1 rfl
      · revert quote
        decide
    · exact offer.blanks.2.clean (by decide) back
  rw [split_trim (by decide), whole, List.map_map, List.map_inj_left]
  intro offer _
  obtain ⟨modified, _, tag⟩ := computeWeakEtag_eq_some offer.computed
  exact trim_padded offer.blanks.1 offer.blanks.2 (tag ▸ weakEtag_solid _ _)

theorem ifNoneMatchMatches_offers (offers : List Offered) (current : Tagged) :
    ifNoneMatchMatches (ifNoneMatchValue offers) current.tag ↔
      ∃ offer ∈ offers, etagMatchesWeakly offer.tag current.tag := by
  unfold ifNoneMatchMatches
  dsimp only
  have trimmed (tags : List String) : (tags.any fun tag => etagMatchesWeakly tag current.tag) =
      (tags.map trim).any fun tag => etagMatchesWeakly tag current.tag := by
    rw [List.any_map]
    refine List.any_congr rfl fun tag => ?_
    rw [Function.comp_apply, etagMatchesWeakly, etagMatchesWeakly, etagOpaqueValue_trim]
  cases offers with
  | nil =>
    obtain ⟨modified, _, tag⟩ := computeWeakEtag_eq_some current.computed
    have empty : trim (ifNoneMatchValue []) = "" := by decide
    have alone : split ',' "" = [""] := by decide
    have nothing : etagOpaqueValue "" = "" := by decide
    rw [empty, if_neg (by decide), alone]
    simp [etagMatchesWeakly, nothing, tag, etagOpaqueValue_weakEtag, (opaqueText_filled _ _).symm]
  | cons first rest =>
    have parts := parts_offers (List.cons_ne_nil first rest)
    have listed : trim (ifNoneMatchValue (first :: rest)) ≠ "*" := by
      intro star
      obtain ⟨modified, _, tag⟩ := computeWeakEtag_eq_some first.computed
      have alone : (split ',' "*").map trim = ["*"] := by decide
      rw [star, alone, List.map_cons, tag, List.cons.injEq] at parts
      have start := congrArg (fun text => text.toList.head?) parts.1
      simp [weakEtag] at start
    rw [if_neg listed, trimmed, parts, List.any_map, List.any_eq_true]
    simp only [Function.comp_apply]

theorem ExactValidators.noTwins {platform : Platform} {current : Tagged} {offers : List Offered}
    (exact : ExactValidators platform current offers) :
    ∀ offer ∈ offers, ¬EpochTwins offer.metadata current.metadata := by
  intro offer member twins
  have matched : etagMatchesWeakly offer.tag current.tag :=
    (etagMatchesWeakly_iff offer.toTagged current).mpr (.inr twins)
  have same := (exact.range offer member).mp (by rwa [ifRangeMatches_tag platform offer.toTagged current])
  obtain ⟨_, earlier, later, offered, held, apart, _⟩ := twins
  exact apart (Option.some.inj (offered.symm.trans (same.1.trans held)))

theorem exactValidators_of_noTwins {platform : Platform} {current : Tagged} {offers : List Offered}
    (apart : ∀ offer ∈ offers, ¬EpochTwins offer.metadata current.metadata) :
    ExactValidators platform current offers := by
  have each (offer : Offered) (member : offer ∈ offers) :
      etagMatchesWeakly offer.tag current.tag ↔ SameState offer.metadata current.metadata := by
    rw [etagMatchesWeakly_iff offer.toTagged current]
    simp [apart offer member]
  constructor
  · rw [ifNoneMatchMatches_offers]
    constructor
    · rintro ⟨offer, member, matched⟩
      exact ⟨offer, member, (each offer member).mp matched⟩
    · rintro ⟨offer, member, same⟩
      exact ⟨offer, member, (each offer member).mpr same⟩
  · intro offer member
    rw [ifRangeMatches_tag platform offer.toTagged current]
    exact each offer member

theorem exactValidators_iff (platform : Platform) (current : Tagged) (offers : List Offered) :
    ExactValidators platform current offers ↔ ∀ offer ∈ offers, ¬EpochTwins offer.metadata current.metadata :=
  ⟨ExactValidators.noTwins, exactValidators_of_noTwins⟩

def epochState (seconds : Int) : Metadata := ⟨.file, 5, some (-seconds * nanosPerSecond), []⟩

theorem not_exactValidators : ¬∀ platform current offers, ExactValidators platform current offers := by
  intro always
  let current : Tagged := ⟨epochState 1, _, computeWeakEtag_readable rfl⟩
  let earlier : Offered := ⟨⟨epochState 2, _, computeWeakEtag_readable rfl⟩, "", "", blank_empty, blank_empty⟩
  have exact := always ⟨id, fun _ => "", fun _ => none, fun _ => ""⟩ current [earlier]
  exact exact.noTwins earlier (List.mem_singleton_self earlier)
    ⟨rfl, _, _, rfl, rfl, by decide, by decide, by decide⟩

end Yafm
