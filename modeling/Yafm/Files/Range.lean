import Yafm.Files.Download
import Yafm.Shared.Blank

set_option autoImplicit false

namespace Yafm

open Text

-- A run of ASCII digits of any length, and the number it writes.
def Digits (text : String) (value : Nat) : Prop :=
  text ≠ "" ∧ (∀ c ∈ text.toList, c.isDigit) ∧
    value = text.toList.foldl (fun number digit => number * 10 + (digit.toNat - '0'.toNat)) 0

inductive RangeSpec where
  | openEnded (first : Nat)
  | bounded (first last : Nat)
  | suffix (length : Nat)
  deriving DecidableEq, Repr

-- `FIRST-`, `FIRST-LAST` and `-SUFFIX`, with blanks around the spec and around its numbers.
inductive ReadsSpec : String → RangeSpec → Prop
  | openEnded {a first b c : String} {start : Nat} (blanks : Blank a ∧ Blank b ∧ Blank c)
      (digits : Digits first start) :
      ReadsSpec (a ++ first ++ b ++ "-" ++ c) (.openEnded start)
  | bounded {a first b c last d : String} {start stop : Nat} (blanks : Blank a ∧ Blank b ∧ Blank c ∧ Blank d)
      (digits : Digits first start) (more : Digits last stop) (ordered : start ≤ stop) :
      ReadsSpec (a ++ first ++ b ++ "-" ++ c ++ last ++ d) (.bounded start stop)
  | suffix {a b text c : String} {length : Nat} (blanks : Blank a ∧ Blank b ∧ Blank c)
      (digits : Digits text length) :
      ReadsSpec (a ++ "-" ++ b ++ text ++ c) (.suffix length)

def Reads (value : String) (spec : RangeSpec) : Prop :=
  ∃ unit raw, value = unit ++ "=" ++ raw ∧ eqIgnoreAsciiCase unit "bytes" ∧ ReadsSpec raw spec

def RangeSpec.decide (total : Nat) : RangeSpec → RangeDecision
  | .openEnded first =>
      if total = 0 ∨ total ≤ first then .notSatisfiable else .partialRange ⟨first, total - 1⟩
  | .bounded first last =>
    if total = 0 ∨ total ≤ first then .notSatisfiable else .partialRange ⟨first, min last (total - 1)⟩
  | .suffix length =>
    if total = 0 ∨ length = 0 then .notSatisfiable else .partialRange ⟨total - length, total - 1⟩

/-- The decision that the documentation asks for: a header that is not well-formed is ignored. -/
def Documented (value : String) (total : Nat) (decision : RangeDecision) : Prop :=
  (∃ spec, Reads value spec ∧ decision = spec.decide total) ∨ (∀ spec, ¬Reads value spec) ∧ decision = .full

def number (text : String) : Option Nat :=
  if text = "" || !text.toList.all Char.isDigit then none
  else some (text.toList.foldl (fun number digit => number * 10 + (digit.toNat - '0'.toNat)) 0)

theorem number_iff {text : String} {value : Nat} : number text = some value ↔ Digits text value := by
  unfold number Digits
  split
  next refused =>
    simp only [reduceCtorEq, false_iff, not_and]
    intro named digits
    rw [Bool.or_eq_true, decide_eq_true_eq, Bool.not_eq_true', List.all_eq_false] at refused
    obtain ⟨c, member, other⟩ := refused.resolve_left named
    exact absurd (digits c member) other
  next accepted =>
    have checked : text ≠ "" ∧ ∀ c ∈ text.toList, c.isDigit := by simpa using accepted
    simp only [Option.some.injEq]
    constructor
    · rintro rfl
      exact ⟨checked.1, checked.2, rfl⟩
    · rintro ⟨_, _, rfl⟩
      rfl

def readLast (start : Nat) (last : String) : Option RangeSpec :=
  if last = "" then some (.openEnded start)
  else (number last).bind fun stop => if start ≤ stop then some (.bounded start stop) else none

def readSpec (spec : String) : Option RangeSpec :=
  match stripPrefix "-" spec with
  | some suffix => (number (trim suffix)).map .suffix
  | none =>
    match splitOnce '-' spec with
    | none => none
    | some (first, last) =>
      match number (trim first) with
      | none => none
      | some start => readLast start (trim last)

def readRange (value : String) : Option RangeSpec :=
  match splitOnce '=' value with
  | none => none
  | some (unit, raw) => if eqIgnoreAsciiCase unit "bytes" then readSpec (trim raw) else none

theorem isDigit_not_whitespace {c : Char} (digit : c.isDigit) : isWhitespace c = false := by
  have bounds : '0'.toNat ≤ c.toNat ∧ c.toNat ≤ '9'.toNat := by
    simpa [Char.isDigit, Char.le_def, UInt32.le_iff_toNat_le] using digit
  have zero : '0'.toNat = 48 := rfl
  have nine : '9'.toNat = 57 := rfl
  unfold isWhitespace
  simp only [Bool.or_eq_false_iff, Bool.and_eq_false_iff, decide_eq_false_iff_not, beq_eq_false_iff_ne]
  omega

theorem Digits.solid {text : String} {value : Nat} (digits : Digits text value) : Solid text := by
  refine ⟨fun c first => ?_, fun c last => ?_⟩
  · exact isDigit_not_whitespace (digits.2.1 c (List.mem_of_head? first))
  · exact isDigit_not_whitespace (digits.2.1 c (List.mem_of_getLast? last))

theorem Digits.not_mem {text : String} {value : Nat} {c : Char} (digits : Digits text value)
    (other : c.isDigit = false) : c ∉ text.toList := by
  intro member
  rw [digits.2.1 c member] at other
  cases other

theorem readsSpec_of_readSpec {raw : String} {spec : RangeSpec} (read : readSpec (trim raw) = some spec) :
    ReadsSpec raw spec := by
  obtain ⟨lead, core, trail, rfl, trimmed, before, after, _⟩ := exists_padding raw
  rw [trimmed] at read
  unfold readSpec at read
  split at read
  next suffix minus =>
    obtain ⟨length, digits, rfl⟩ := Option.map_eq_some_iff.mp read
    obtain ⟨front, text, back, rfl, inner, blankFront, blankBack, _⟩ := exists_padding suffix
    rw [inner, number_iff] at digits
    have form := ReadsSpec.suffix ⟨before, blankFront, blankBack.append after⟩ digits
    rw [stripPrefix_eq_some minus]
    simpa only [String.append_assoc] using form
  next =>
    split at read
    · cases read
    next first last cut =>
      obtain ⟨rfl, _⟩ := splitOnce_eq_some.mp cut
      obtain ⟨front, text, back, rfl, inner, blankFront, blankBack, _⟩ := exists_padding first
      rw [inner] at read
      split at read
      · cases read
      next start digits =>
        unfold readLast at read
        split at read
        next nothing =>
          cases read
          have blankLast := (trim_eq_empty_iff last).mp nothing
          have form := ReadsSpec.openEnded ⟨before.append blankFront, blankBack, blankLast.append after⟩
            (number_iff.mp digits)
          simpa only [String.append_assoc] using form
        next =>
          obtain ⟨stop, more, ordered⟩ := Option.bind_eq_some_iff.mp read
          split at ordered
          next before' =>
            cases ordered
            obtain ⟨left, end', right, rfl, outer, blankLeft, blankRight, _⟩ := exists_padding last
            rw [outer, number_iff] at more
            have form := ReadsSpec.bounded ⟨before.append blankFront, blankBack, blankLeft,
              blankRight.append after⟩
              (number_iff.mp digits) more before'
            simpa only [String.append_assoc] using form
          · cases ordered

theorem blank_not_mem {text : String} {c : Char} (blank : Blank text) (dark : isWhitespace c = false) :
    c ∉ text.toList := by
  intro member
  rw [blank c member] at dark
  cases dark

theorem Solid.joined {front back : String} (middle : String) (left : Solid front) (right : Solid back)
    (named : front ≠ "") (closed : back ≠ "") : Solid (front ++ middle ++ back) := by
  have some : front.toList ≠ [] := by simpa using named
  have last : back.toList ≠ [] := by simpa using closed
  constructor
  · intro c first
    rw [String.toList_append, String.toList_append, List.append_assoc,
      List.head?_append_of_ne_nil _ some] at first
    exact left.first c first
  · intro c final
    rw [String.toList_append, List.getLast?_append_of_ne_nil _ last] at final
    exact right.last c final

theorem minus_solid : Solid "-" := by
  constructor
  · intro c first
    obtain rfl : '-' = c := Option.some.inj first
    decide
  · intro c final
    obtain rfl : '-' = c := Option.some.inj final
    decide

theorem Digits.no_minus {first : String} {start : Nat} (digits : Digits first start) (rest : String) :
    stripPrefix "-" (first ++ rest) = none := by
  cases found : stripPrefix "-" (first ++ rest) with
  | none => rfl
  | some tail =>
    have whole := congrArg String.toList (stripPrefix_eq_some found)
    have filled : first.toList ≠ [] := by simpa using digits.1
    obtain ⟨c, more, chars⟩ := List.exists_cons_of_ne_nil filled
    rw [String.toList_append, chars, String.toList_append, List.cons_append] at whole
    have minus : c = '-' := (List.cons.inj whole).1
    exact absurd (digits.2.1 c (by simp [chars])) (by rw [minus]; decide)

theorem Digits.trim_before {first blank : String} {start : Nat} (digits : Digits first start)
    (after : Blank blank) : trim (first ++ blank) = first := by
  have trimmed := trim_padded blank_empty after digits.solid
  rwa [String.empty_append] at trimmed

theorem Digits.trim_after {last blank : String} {stop : Nat} (digits : Digits last stop)
    (before : Blank blank) : trim (blank ++ last) = last := by
  have trimmed := trim_padded before blank_empty digits.solid
  rwa [String.append_empty] at trimmed

theorem Digits.cut {first blank : String} {start : Nat} (digits : Digits first start) (after : Blank blank)
    (rest : String) : splitOnce '-' (first ++ blank ++ "-" ++ rest) = some (first ++ blank, rest) := by
  refine splitOnce_eq_some.mpr ⟨rfl, ?_⟩
  rw [String.toList_append, List.mem_append, not_or]
  exact ⟨digits.not_mem (by decide), blank_not_mem after (by decide)⟩

theorem readSpec_of_readsSpec {raw : String} {spec : RangeSpec} (reads : ReadsSpec raw spec) :
    readSpec (trim raw) = some spec := by
  cases reads with
  | @suffix a b text c length blanks digits =>
    have core : Solid ("-" ++ b ++ text) := Solid.joined b minus_solid digits.solid (by decide) digits.1
    have cut : stripPrefix "-" ("-" ++ b ++ text) = some (b ++ text) := by
      rw [String.append_assoc, stripPrefix_append]
    have trimmed := trim_padded blanks.1 blanks.2.2 core
    simp only [← String.append_assoc] at trimmed
    rw [trimmed, readSpec, cut]
    simp only [digits.trim_after blanks.2.1, number_iff.mpr digits, Option.map_some]
  | @openEnded a first b c start blanks digits =>
    have core : Solid (first ++ b ++ "-") := Solid.joined b digits.solid minus_solid digits.1 (by decide)
    have trimmed := trim_padded blanks.1 blanks.2.2 core
    have apart := digits.no_minus (b ++ "-")
    have cut := digits.cut blanks.2.1 ""
    simp only [← String.append_assoc, String.append_empty] at trimmed apart cut
    have nothing : trim "" = "" := trim_blank blank_empty
    rw [trimmed, readSpec, apart]
    simp only [cut, digits.trim_before blanks.2.1, number_iff.mpr digits, nothing, readLast, if_true]
  | @bounded a first b c last d start stop blanks digits more ordered =>
    have core : Solid (first ++ (b ++ "-" ++ c) ++ last) :=
      Solid.joined _ digits.solid more.solid digits.1 more.1
    have trimmed := trim_padded blanks.1 blanks.2.2.2 core
    have apart := digits.no_minus (b ++ "-" ++ c ++ last)
    have cut := digits.cut blanks.2.1 (c ++ last)
    simp only [← String.append_assoc] at trimmed apart cut
    rw [trimmed, readSpec, apart]
    simp only [cut, digits.trim_before blanks.2.1, number_iff.mpr digits,
      more.trim_after blanks.2.2.1, more.1,
      number_iff.mpr more, readLast, if_false, Option.bind_some, if_pos ordered]

theorem readSpec_iff {raw : String} {spec : RangeSpec} :
    readSpec (trim raw) = some spec ↔ ReadsSpec raw spec :=
  ⟨readsSpec_of_readSpec, readSpec_of_readsSpec⟩

theorem bytes_no_equals {unit : String} (named : eqIgnoreAsciiCase unit "bytes") : '=' ∉ unit.toList := by
  intro member
  have lower : '='.toLower ∈ unit.toList.map Char.toLower := List.mem_map_of_mem member
  have same : unit.toList.map Char.toLower = "bytes".toList.map Char.toLower := by
    simpa [eqIgnoreAsciiCase] using named
  rw [same] at lower
  exact absurd lower (by decide)

theorem readRange_iff {value : String} {spec : RangeSpec} :
    readRange value = some spec ↔ Reads value spec := by
  unfold readRange Reads
  constructor
  · intro read
    split at read
    · cases read
    next unit raw cut =>
      split at read
      next named => exact ⟨unit, raw, (splitOnce_eq_some.mp cut).1, named, readSpec_iff.mp read⟩
      · cases read
  · rintro ⟨unit, raw, rfl, named, reads⟩
    have cut : splitOnce '=' (unit ++ "=" ++ raw) = some (unit, raw) :=
      splitOnce_eq_some.mpr ⟨rfl, bytes_no_equals named⟩
    rw [cut]
    simp only [named, if_true, readSpec_iff.mpr reads]

theorem documented_iff (value : String) (total : Nat) (decision : RangeDecision) :
    Documented value total decision ↔
      decision = ((readRange value).map (RangeSpec.decide total)).getD .full := by
  unfold Documented
  simp only [← readRange_iff]
  cases readRange value with
  | none => simp
  | some spec => simp

-- A text that is no number for either reader, or one number for both.
def Plain (text : String) : Prop := parseU64 text = number text

def BoundsAgree (total : Nat) (first last : String) : Prop :=
  match number first, parseU64 first with
  | none, none => True
  -- a first bound of `2 ^ 64` or more reads as no number
  | some start, none => last ≠ "" ∧ ∀ stop, number last = some stop → stop < start
  -- a first bound with a plus sign reads as a number
  | none, some start => start < total ∧ last ≠ "" ∧ ∀ stop, parseU64 last = some stop → stop < start
  | some start, some _ =>
    -- the last bound is not looked at when the first one is past the end
    if total ≤ start then last = "" ∨ ∃ stop, number last = some stop ∧ start ≤ stop
    else Plain last ∨ ∃ stop, parseU64 last = some stop ∧ stop < start

def SpecAgrees (total : Nat) (spec : String) : Prop :=
  match stripPrefix "-" spec with
  | some suffix => Plain (trim suffix)
  | none => ∀ first last, splitOnce '-' spec = some (first, last) → BoundsAgree total (trim first) (trim last)

def ReadAlike (value : String) (total : Nat) : Prop :=
  ∀ unit raw, splitOnce '=' value = some (unit, raw) → eqIgnoreAsciiCase unit "bytes" →
    if total = 0 then ∃ spec, ReadsSpec raw spec
    else contains ',' (trim raw) = false → SpecAgrees total (trim raw)

theorem parseU64_of_number {text : String} {n : Nat} (named : number text = some n) :
    parseU64 text = if n < 2 ^ 64 then some n else none := by
  obtain ⟨filled, digits, rfl⟩ := number_iff.mp named
  have unsigned : stripPrefix "+" text = none := by
    cases found : stripPrefix "+" text with
    | none => rfl
    | some rest =>
      have whole := congrArg String.toList (stripPrefix_eq_some found)
      have plus := digits '+' (by rw [whole, String.toList_append]; simp)
      exact absurd plus (by decide)
  have all : text.toList.all Char.isDigit := List.all_eq_true.mpr digits
  have some : text.toList.isEmpty = false := by simpa using filled
  simp only [parseU64, unsigned, Option.getD_none, some, all, Bool.not_true, Bool.or_self,
    if_false, Bool.false_eq_true]

theorem parseU64_eq_number {text : String} {n m : Nat} (parsed : parseU64 text = some n)
    (named : number text = some m) : n = m := by
  rw [parseU64_of_number named] at parsed
  split at parsed
  · exact (Option.some.inj parsed).symm
  · cases parsed

def suffixDecision (total : Nat) : Option Nat → RangeDecision
  | none => .full
  | some 0 => .notSatisfiable
  | some length => .partialRange ⟨total - length, total - 1⟩

theorem suffixDecision_some (total length : Nat) : suffixDecision total (some length) ≠ .full := by
  cases length with
  | zero => simp [suffixDecision]
  | succ length => simp [suffixDecision]

theorem suffixDecision_number {total : Nat} (filled : total ≠ 0) (text : String) :
    (((number text).map .suffix).map (RangeSpec.decide total)).getD .full =
      suffixDecision total (number text) := by
  cases number text with
  | none => rfl
  | some length =>
    cases length with
    | zero => simp [RangeSpec.decide, suffixDecision]
    | succ length => simp [RangeSpec.decide, suffixDecision, filled]

theorem suffixDecision_iff (total : Nat) (text : String) :
    suffixDecision total (parseU64 text) = suffixDecision total (number text) ↔ Plain text := by
  refine ⟨fun same => ?_, fun plain => by rw [plain]⟩
  unfold Plain
  cases parsed : parseU64 text with
  | none =>
    cases named : number text with
    | none => rfl
    | some m =>
      rw [parsed, named] at same
      exact absurd same.symm (suffixDecision_some total m)
  | some n =>
    cases named : number text with
    | none =>
      rw [parsed, named] at same
      exact absurd same (suffixDecision_some total n)
    | some m => rw [parseU64_eq_number parsed named]

def lastDecision (total start : Nat) (last : String) : Option Nat → RangeDecision
  | none => if last = "" then .partialRange ⟨start, total - 1⟩ else .full
  | some stop => if start ≤ stop then .partialRange ⟨start, min stop (total - 1)⟩ else .full

theorem lastDecision_none {total start : Nat} {last : String} :
    lastDecision total start last none = .full ↔ last ≠ "" := by
  by_cases nothing : last = "" <;> simp [lastDecision, nothing]

theorem lastDecision_some {total start stop : Nat} {last : String} :
    lastDecision total start last (some stop) = .full ↔ stop < start := by
  by_cases ordered : start ≤ stop
  · simp [lastDecision, ordered]
  · simp [lastDecision, ordered, Nat.lt_of_not_le ordered]

theorem named_ne_empty {text : String} {n : Nat} (named : number text = some n) : text ≠ "" :=
  (number_iff.mp named).1

theorem parsed_ne_empty {text : String} {n : Nat} (parsed : parseU64 text = some n) : text ≠ "" := by
  rintro rfl
  cases parsed

theorem lastDecision_iff {total start : Nat} (inside : start < 2 ^ 64) (last : String) :
    lastDecision total start last (parseU64 last) = lastDecision total start last (number last) ↔
      Plain last ∨ ∃ stop, parseU64 last = some stop ∧ stop < start := by
  unfold Plain
  cases parsed : parseU64 last with
  | none =>
    cases named : number last with
    | none => simp
    | some m =>
      -- the digits are well-formed, only too large for the parser
      have huge : ¬m < 2 ^ 64 := by
        intro small
        rw [parseU64_of_number named, if_pos small] at parsed
        cases parsed
      have full : lastDecision total start last none = .full := lastDecision_none.mpr (named_ne_empty named)
      have part : lastDecision total start last (some m) ≠ .full := by
        rw [Ne, lastDecision_some]
        omega
      rw [full]
      simp [part.symm]
  | some n =>
    cases named : number last with
    | none =>
      rw [lastDecision_none.mpr (parsed_ne_empty parsed), lastDecision_some]
      simp
    | some m =>
      rw [parseU64_eq_number parsed named]
      simp

theorem readLast_isSome {start : Nat} {last : String} :
    (readLast start last).isSome ↔ last = "" ∨ ∃ stop, number last = some stop ∧ start ≤ stop := by
  unfold readLast
  by_cases nothing : last = ""
  · simp [nothing]
  · cases number last with
    | none => simp [nothing]
    | some stop => by_cases ordered : start ≤ stop <;> simp [nothing, ordered]

theorem readLast_inside {total start : Nat} (inside : start < total) (last : String) :
    ((readLast start last).map (RangeSpec.decide total)).getD .full =
      lastDecision total start last (number last) := by
  have reached : ¬(total = 0 ∨ total ≤ start) := by omega
  by_cases nothing : last = ""
  · rw [nothing, readLast, if_pos rfl]
    have unread : number "" = none := rfl
    simp only [unread, lastDecision, Option.map_some, Option.getD_some, RangeSpec.decide,
      reached, if_false, if_true]
  · rw [readLast, if_neg nothing]
    cases number last with
    | none => simp [lastDecision, nothing]
    | some stop =>
      by_cases ordered : start ≤ stop
      · simp [lastDecision, RangeSpec.decide, ordered, reached]
      · simp [lastDecision, ordered]

theorem readLast_outside {total start : Nat} (outside : total ≤ start) (last : String) :
    ((readLast start last).map (RangeSpec.decide total)).getD .full =
      if (readLast start last).isSome then .notSatisfiable else .full := by
  have missed : total = 0 ∨ total ≤ start := .inr outside
  unfold readLast
  by_cases nothing : last = ""
  · simp [nothing, RangeSpec.decide, missed]
  · cases number last with
    | none => simp [nothing]
    | some stop => by_cases ordered : start ≤ stop <;> simp [nothing, ordered, RangeSpec.decide, missed]

def boundsDecision (total : Nat) (first last : String) : RangeDecision :=
  match parseU64 first with
  | none => .full
  | some start => if total ≤ start then .notSatisfiable else lastDecision total start last (parseU64 last)

theorem boundsDecision_iff {total : Nat} (small : total < 2 ^ 64) (first last : String) :
    boundsDecision total first last =
        (((number first).bind fun start => readLast start last).map (RangeSpec.decide total)).getD .full ↔
      BoundsAgree total first last := by
  unfold boundsDecision BoundsAgree
  cases named : number first with
  | none =>
    cases parsed : parseU64 first with
    | none => simp
    | some start =>
      by_cases outside : total ≤ start
      · simp [outside]
      · cases more : parseU64 last with
        | none => simp [outside, Nat.lt_of_not_le outside, lastDecision_none]
        | some stop =>
          simp [outside, Nat.lt_of_not_le outside, lastDecision_some, parsed_ne_empty more]
  | some start =>
    cases parsed : parseU64 first with
    | none =>
      have huge : ¬start < 2 ^ 64 := by
        intro fits
        rw [parseU64_of_number named, if_pos fits] at parsed
        cases parsed
      have outside : total ≤ start := by omega
      simp only [Option.bind_some, readLast_outside outside]
      have read : (readLast start last).isSome ↔ _ := readLast_isSome
      by_cases wellFormed : (readLast start last).isSome
      · have shape := read.mp wellFormed
        simp only [wellFormed, if_true, reduceCtorEq, false_iff, not_and, not_forall]
        intro filled
        obtain ⟨stop, digits, ordered⟩ := shape.resolve_left filled
        exact ⟨stop, digits, Nat.not_lt.mpr ordered⟩
      · have shape := mt read.mpr wellFormed
        simp only [not_or, not_exists, not_and, Nat.not_le] at shape
        simp only [wellFormed, if_false, true_iff, Bool.false_eq_true]
        exact shape
    | some start' =>
      obtain rfl : start' = start := parseU64_eq_number parsed named
      simp only [Option.bind_some]
      by_cases outside : total ≤ start'
      · rw [readLast_outside outside, if_pos outside, if_pos outside, ← readLast_isSome]
        by_cases wellFormed : (readLast start' last).isSome <;> simp [wellFormed]
      · rw [readLast_inside (Nat.lt_of_not_le outside), if_neg outside, if_neg outside]
        exact lastDecision_iff (by omega) last

theorem comma_malformed {raw : String} (several : contains ',' (trim raw)) (spec : RangeSpec) :
    ¬ReadsSpec raw spec := by
  intro reads
  obtain ⟨lead, core, trail, whole, trimmed, before, after, _⟩ := exists_padding raw
  have comma : ',' ∈ raw.toList := by
    rw [trimmed, contains, List.contains_iff_mem] at several
    simp [whole, several]
  have blank {text : String} (blanks : Blank text) : ',' ∉ text.toList := blank_not_mem blanks (by decide)
  have digit {text : String} {value : Nat} (digits : Digits text value) : ',' ∉ text.toList :=
    digits.not_mem (by decide)
  cases reads with
  | openEnded blanks digits =>
    simp [blank blanks.1, blank blanks.2.1, blank blanks.2.2, digit digits] at comma
  | bounded blanks digits more ordered =>
    simp [blank blanks.1, blank blanks.2.1, blank blanks.2.2.1, blank blanks.2.2.2,
      digit digits, digit more] at comma
  | suffix blanks digits =>
    simp [blank blanks.1, blank blanks.2.1, blank blanks.2.2, digit digits] at comma

theorem empty_decide (spec : RangeSpec) : spec.decide 0 = .notSatisfiable := by
  cases spec <;> simp [RangeSpec.decide]

def specDecision (total : Nat) (spec : String) : RangeDecision :=
  match stripPrefix "-" spec with
  | some suffix => suffixDecision total (parseU64 (trim suffix))
  | none =>
    match splitOnce '-' spec with
    | none => .full
    | some (first, last) => boundsDecision total (trim first) (trim last)

theorem readSpec_bounds {spec first last : String} (unsigned : stripPrefix "-" spec = none)
    (cut : splitOnce '-' spec = some (first, last)) :
    readSpec spec = (number (trim first)).bind fun start => readLast start (trim last) := by
  unfold readSpec
  simp only [unsigned, cut]
  cases number (trim first) <;> rfl

theorem specDecision_iff {total : Nat} (filled : total ≠ 0) (small : total < 2 ^ 64) (spec : String) :
    specDecision total spec = ((readSpec spec).map (RangeSpec.decide total)).getD .full ↔
      SpecAgrees total spec := by
  cases unsigned : stripPrefix "-" spec with
  | some suffix =>
    unfold specDecision readSpec SpecAgrees
    simp only [unsigned, suffixDecision_number filled, suffixDecision_iff]
  | none =>
    cases cut : splitOnce '-' spec with
    | none =>
      unfold specDecision readSpec SpecAgrees
      simp [unsigned, cut]
    | some parts =>
      obtain ⟨first, last⟩ := parts
      have decided : specDecision total spec = boundsDecision total (trim first) (trim last) := by
        unfold specDecision
        simp only [unsigned, cut]
      rw [decided, readSpec_bounds unsigned cut, boundsDecision_iff small]
      unfold SpecAgrees
      simp only [unsigned, cut, Option.some.injEq, Prod.mk.injEq]
      constructor
      · rintro bounds _ _ ⟨rfl, rfl⟩
        exact bounds
      · intro bounds
        exact bounds first last ⟨rfl, rfl⟩

theorem parseSingleByteRange_spec {value unit raw : String} {total : Nat}
    (cut : splitOnce '=' value = some (unit, raw)) (named : eqIgnoreAsciiCase unit "bytes")
    (filled : total ≠ 0) :
    parseSingleByteRange value total =
      if contains ',' (trim raw) then .full else specDecision total (trim raw) := by
  unfold parseSingleByteRange parseByteRange specDecision
  simp only [cut, named, filled, Bool.not_true, Bool.false_eq_true, if_false]
  by_cases several : contains ',' (trim raw)
  · simp only [several, if_true]
    rfl
  · simp only [several, if_false, Bool.false_eq_true]
    cases stripPrefix "-" (trim raw) with
    | some suffix =>
      simp only
      cases parseU64 (trim suffix) with
      | none => rfl
      | some length => cases length <;> rfl
    | none =>
      cases splitOnce '-' (trim raw) with
      | none => rfl
      | some parts =>
        unfold boundsDecision
        simp only
        cases parseU64 (trim parts.1) with
        | none => rfl
        | some start =>
          simp only
          by_cases outside : total ≤ start
          · simp only [outside, if_true]
            rfl
          · simp only [outside, if_false]
            cases parseU64 (trim parts.2) with
            | none => by_cases nothing : trim parts.2 = "" <;>
                simp only [lastDecision, nothing, if_true, if_false] <;> rfl
            | some stop => by_cases ordered : start ≤ stop <;>
                simp only [lastDecision, ordered, if_true, if_false] <;> rfl

theorem readAlike_iff {value unit raw : String} (cut : splitOnce '=' value = some (unit, raw))
    (named : eqIgnoreAsciiCase unit "bytes") (total : Nat) :
    ReadAlike value total ↔ if total = 0 then ∃ spec, ReadsSpec raw spec
      else contains ',' (trim raw) = false → SpecAgrees total (trim raw) := by
  unfold ReadAlike
  constructor
  · intro each
    exact each unit raw cut named
  · intro here unit' raw' again _
    obtain ⟨rfl, rfl⟩ := Prod.mk.inj (Option.some.inj (cut.symm.trans again))
    exact here

theorem readSpec_several {raw : String} (several : contains ',' (trim raw)) : readSpec (trim raw) = none := by
  cases read : readSpec (trim raw) with
  | none => rfl
  | some spec => exact absurd (readSpec_iff.mp read) (comma_malformed several spec)

theorem parseSingleByteRange_documented_iff (value : String) (total : UInt64) :
    Documented value total.toNat (parseSingleByteRange value total.toNat) ↔ ReadAlike value total.toNat := by
  rw [documented_iff]
  cases cut : splitOnce '=' value with
  | none => simp [parseSingleByteRange, parseByteRange, readRange, ReadAlike, cut]
  | some parts =>
    obtain ⟨unit, raw⟩ := parts
    by_cases named : eqIgnoreAsciiCase unit "bytes"
    · have read : readRange value = readSpec (trim raw) := by simp [readRange, cut, named]
      rw [read, readAlike_iff cut named]
      by_cases empty : total.toNat = 0
      · -- an empty file refuses the range before the spec is read
        have refused : parseSingleByteRange value 0 = .notSatisfiable := by
          simp [parseSingleByteRange, parseByteRange, cut, named]
        rw [if_pos empty, empty, refused]
        simp only [← readSpec_iff]
        cases readSpec (trim raw) with
        | none => simp
        | some spec => simp [empty_decide]
      · rw [if_neg empty, parseSingleByteRange_spec cut named empty]
        by_cases several : contains ',' (trim raw)
        · simp [several, readSpec_several several]
        · simp only [several, if_false, Bool.false_eq_true,
            specDecision_iff empty total.toNat_lt, forall_const]
    · simp only [parseSingleByteRange, parseByteRange, readRange, ReadAlike, cut, named]
      simp [named]

-- A last bound before the first one is malformed also where the first bound is past the end.
theorem not_parseSingleByteRange_documented :
    ¬Documented "bytes=20-5" 10 (parseSingleByteRange "bytes=20-5" 10) := by
  rw [documented_iff]
  decide +kernel

end Yafm
