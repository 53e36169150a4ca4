import Yafm.Shared.Digits
import Yafm.Shared.Text

set_option autoImplicit false

namespace Yafm

open Text

structure Ipv4Addr where
  one : UInt8
  two : UInt8
  three : UInt8
  four : UInt8
  deriving DecidableEq, Repr

structure Ipv6Addr where
  segments : Vector UInt16 8
  deriving DecidableEq, Repr

inductive IpAddr where
  | v4 (address : Ipv4Addr)
  | v6 (address : Ipv6Addr)
  deriving DecidableEq, Repr

def Ipv4Addr.text (address : Ipv4Addr) : String :=
  join '.' ([address.one, address.two, address.three, address.four].map fun octet => toString octet.toNat)

structure Span where
  start : Nat := 0
  len : Nat := 0

-- The first of the longest runs of zero segments.
def zeroSpan (segments : List UInt16) : Span :=
  let scan := fun (spans : Span × Span) (item : UInt16 × Nat) =>
    if item.1 = 0 then
      let current : Span := ⟨if spans.2.len = 0 then item.2 else spans.2.start, spans.2.len + 1⟩
      (if spans.1.len < current.len then current else spans.1, current)
    else (spans.1, {})
  (segments.zipIdx.foldl scan ({}, {})).1

def segmentText (segments : List UInt16) : String :=
  join ':' (segments.map fun segment => String.ofList (Nat.toDigits 16 segment.toNat))

def Ipv6Addr.toIpv4Mapped (address : Ipv6Addr) : Option Ipv4Addr :=
  match address.segments.toList with
  | [0, 0, 0, 0, 0, 0xffff, upper, lower] =>
    some ⟨(upper >>> 8).toUInt8, upper.toUInt8, (lower >>> 8).toUInt8, lower.toUInt8⟩
  | _ => none

def Ipv6Addr.text (address : Ipv6Addr) : String :=
  match address.toIpv4Mapped with
  | some mapped => "::ffff:" ++ mapped.text
  | none =>
    let segments := address.segments.toList
    let zeroes := zeroSpan segments
    if 1 < zeroes.len then
      segmentText (segments.take zeroes.start) ++ "::" ++
      segmentText (segments.drop (zeroes.start + zeroes.len))
    else segmentText segments

def IpAddr.text : IpAddr → String
  | .v4 address => address.text
  | .v6 address => address.text

abbrev Reader (α : Type) := List Char → Option (α × List Char)

def readGivenChar (target : Char) : Reader Unit
  | [] => none
  | c :: rest => if c = target then some ((), rest) else none

def readSeparator {α : Type} (separator : Char) (index : Nat) (inner : Reader α) : Reader α := fun input =>
  if 0 < index then (readGivenChar separator input).bind fun read => inner read.2 else inner input

def readNumber (radix maxDigits : Nat) (allowZeroPrefix : Bool) (limit : Nat) : Reader Nat := fun input =>
  let digits := input.takeWhile fun c => (toDigitIn radix c).isSome
  let number := digits.foldl (fun result c => result * radix + (toDigitIn radix c).getD 0) 0
  if digits.length > maxDigits || digits.isEmpty then none
  else if !allowZeroPrefix && digits.head? = some '0' && digits.length > 1 then none
  else if number < limit then some (number, input.drop digits.length) else none

def readIpv4Addr : Reader Ipv4Addr := fun input => do
  let octet := readNumber 10 3 false 256
  let (one, input) ← readSeparator '.' 0 octet input
  let (two, input) ← readSeparator '.' 1 octet input
  let (three, input) ← readSeparator '.' 2 octet input
  let (four, input) ← readSeparator '.' 3 octet input
  return (⟨UInt8.ofNat one, UInt8.ofNat two, UInt8.ofNat three, UInt8.ofNat four⟩, input)

-- Groups from `index` on, and whether an IPv4 address ended them.
def readGroups (index : Nat) : Nat → List Char → (List UInt16 × Bool) × List Char
  | 0, input => (([], false), input)
  | left + 1, input =>
    match if 0 < left then readSeparator ':' index readIpv4Addr input else none with
    | some (v4, rest) =>
      (([v4.one.toUInt16 <<< 8 ||| v4.two.toUInt16,
        v4.three.toUInt16 <<< 8 ||| v4.four.toUInt16], true), rest)
    | none =>
      match readSeparator ':' index (readNumber 16 4 true 65536) input with
      | some (group, rest) =>
        let more := readGroups (index + 1) left rest
        ((UInt16.ofNat group :: more.1.1, more.1.2), more.2)
      | none => (([], false), input)

def Ipv6Addr.ofGroups (head tail : List UInt16) : Ipv6Addr :=
  ⟨Vector.ofFn fun place : Fin 8 =>
    if 8 - tail.length ≤ place.val then tail.getD (place.val - (8 - tail.length)) 0
      else head.getD place.val 0⟩

def readIpv6Addr : Reader Ipv6Addr := fun input =>
  let head := readGroups 0 8 input
  if head.1.1.length = 8 then some (.ofGroups head.1.1 [], head.2)
  else if head.1.2 then none
  else do
    let (_, rest) ← readGivenChar ':' head.2
    let (_, rest) ← readGivenChar ':' rest
    let tail := readGroups 0 (8 - (head.1.1.length + 1)) rest
    return (.ofGroups head.1.1 tail.1.1, tail.2)

def readIpAddr : Reader IpAddr := fun input =>
  match readIpv4Addr input with
  | some (address, rest) => some (.v4 address, rest)
  | none => (readIpv6Addr input).map fun read => (.v6 read.1, read.2)

-- `str::parse::<IpAddr>`.
def parseIpAddr (text : String) : Option IpAddr :=
  match readIpAddr text.toList with
  | some (address, []) => some address
  | _ => none

example : (parseIpAddr "2001:db8::192.0.2.33").map IpAddr.text = some "2001:db8::c000:221" := by
  decide +kernel
example : parseIpAddr "1.2.3.4;5.6.7.8" = none := by decide +kernel

def isAddressChar (c : Char) : Bool := (toDigitIn 16 c).isSome || c = ':' || c = '.'

theorem isAddressChar_digit {digit : Nat} (small : digit < 16) : isAddressChar (Nat.digitChar digit) := by
  simp [isAddressChar, toDigitIn_digitChar small]

theorem isAddressChar_range {c : Char} (range : '0' ≤ c ∧ c ≤ '9') : isAddressChar c := by
  have small : c.toNat - '0'.toNat < 16 := by
    have bound : c.toNat ≤ '9'.toNat := range.2
    have nine : '9'.toNat = 57 := rfl
    have zero : '0'.toNat = 48 := rfl
    omega
  rw [isAddressChar, toDigitIn, if_pos range, if_pos small]
  rfl

theorem isAddressChar_isDigit {c : Char} (digit : c.isDigit) : isAddressChar c :=
  isAddressChar_range (by simpa [Char.isDigit, Char.le_def] using digit)

theorem Ipv4Addr.text_chars (address : Ipv4Addr) : ∀ c ∈ address.text.toList, isAddressChar c := by
  intro c member
  rcases mem_join member with rfl | ⟨part, inside, found⟩
  · decide
  · obtain ⟨octet, _, rfl⟩ := List.mem_map.mp inside
    rw [Nat.toString_eq_ofList_toDigits, String.toList_ofList] at found
    exact isAddressChar_isDigit (Nat.isDigit_of_mem_toDigits (by decide) (by decide) found)

theorem segmentText_chars (segments : List UInt16) :
    ∀ c ∈ (segmentText segments).toList, isAddressChar c := by
  intro c member
  rcases mem_join member with rfl | ⟨part, inside, found⟩
  · decide
  · obtain ⟨segment, _, rfl⟩ := List.mem_map.mp inside
    rw [String.toList_ofList] at found
    obtain ⟨digit, small, rfl⟩ := mem_toDigits found
    exact isAddressChar_digit small

theorem Ipv6Addr.text_chars (address : Ipv6Addr) : ∀ c ∈ address.text.toList, isAddressChar c := by
  have marker : ∀ c ∈ "::ffff:".toList, isAddressChar c := List.all_eq_true.mp (by decide)
  have gap : ∀ c ∈ "::".toList, isAddressChar c := List.all_eq_true.mp (by decide)
  intro c member
  unfold Ipv6Addr.text at member
  split at member
  next mapped found =>
    rw [String.toList_append, List.mem_append] at member
    exact member.elim (marker c) (mapped.text_chars c)
  · dsimp only at member
    split at member
    · simp only [String.toList_append, List.mem_append] at member
      rcases member with (front | middle) | back
      · exact segmentText_chars _ c front
      · exact gap c middle
      · exact segmentText_chars _ c back
    · exact segmentText_chars _ c member

theorem IpAddr.text_chars (address : IpAddr) : ∀ c ∈ address.text.toList, isAddressChar c := by
  cases address with
  | v4 address => exact address.text_chars
  | v6 address => exact address.text_chars

def Takes (input rest : List Char) : Prop := ∃ used, input = used ++ rest ∧ ∀ c ∈ used, isAddressChar c

theorem Takes.refl (input : List Char) : Takes input input := ⟨[], rfl, by simp⟩

theorem Takes.trans {input middle rest : List Char} (front : Takes input middle) (back : Takes middle rest) :
    Takes input rest := by
  obtain ⟨first, rfl, here⟩ := front
  obtain ⟨second, rfl, there⟩ := back
  refine ⟨first ++ second, by rw [List.append_assoc], ?_⟩
  intro c member
  rcases List.mem_append.mp member with early | late
  · exact here c early
  · exact there c late

def Consumes {α : Type} (reader : Reader α) : Prop :=
  ∀ input value rest, reader input = some (value, rest) → Takes input rest

theorem readGivenChar_consumes {target : Char} (letter : isAddressChar target) :
    Consumes (readGivenChar target) := by
  intro input value rest read
  cases input with
  | nil => cases read
  | cons c others =>
    rw [readGivenChar] at read
    split at read
    next same =>
      cases read
      exact ⟨[c], rfl, by simpa [same] using letter⟩
    · cases read

theorem readSeparator_consumes {α : Type} {separator : Char} (letter : isAddressChar separator) (index : Nat)
    {inner : Reader α} (reads : Consumes inner) : Consumes (readSeparator separator index inner) := by
  intro input value rest read
  unfold readSeparator at read
  split at read
  · obtain ⟨⟨_, middle⟩, first, second⟩ := Option.bind_eq_some_iff.mp read
    exact (readGivenChar_consumes letter _ _ _ first).trans (reads _ _ _ second)
  · exact reads _ _ _ read

theorem readNumber_consumes {radix maxDigits limit : Nat} {allowZeroPrefix : Bool}
    (letters : ∀ c, (toDigitIn radix c).isSome → isAddressChar c) :
    Consumes (readNumber radix maxDigits allowZeroPrefix limit) := by
  intro input value rest read
  unfold readNumber at read
  dsimp only at read
  split at read
  · cases read
  split at read
  · cases read
  split at read
  · cases read
    refine ⟨input.takeWhile fun c => (toDigitIn radix c).isSome, ?_, ?_⟩
    · exact (List.prefix_iff_eq_append.mp (List.takeWhile_prefix _)).symm
    · intro c member
      have digit : (toDigitIn radix c).isSome :=
        List.mem_takeWhile_imp (p := fun c => (toDigitIn radix c).isSome) member
      exact letters c digit
  · cases read

theorem isAddressChar_decimal (c : Char) (digit : (toDigitIn 10 c).isSome) : isAddressChar c := by
  by_cases range : '0' ≤ c ∧ c ≤ '9'
  · exact isAddressChar_range range
  · -- a letter stands for ten at least
    have large : ¬(if 'a' ≤ c ∧ c ≤ 'z' then c.toNat - 'a'.toNat + 10
        else if 'A' ≤ c ∧ c ≤ 'Z' then c.toNat - 'A'.toNat + 10 else 10) < 10 := by
      split_ifs <;> omega
    rw [toDigitIn, if_neg range, if_neg large] at digit
    cases digit

theorem isAddressChar_hexadecimal (c : Char) (digit : (toDigitIn 16 c).isSome) : isAddressChar c := by
  simp [isAddressChar, digit]

theorem readIpv4Addr_consumes : Consumes readIpv4Addr := by
  have octet (index : Nat) : Consumes (readSeparator '.' index (readNumber 10 3 false 256)) :=
    readSeparator_consumes (by decide) index (readNumber_consumes isAddressChar_decimal)
  intro input value rest read
  obtain ⟨⟨_, afterOne⟩, one, read⟩ := Option.bind_eq_some_iff.mp read
  obtain ⟨⟨_, afterTwo⟩, two, read⟩ := Option.bind_eq_some_iff.mp read
  obtain ⟨⟨_, afterThree⟩, three, read⟩ := Option.bind_eq_some_iff.mp read
  obtain ⟨⟨_, afterFour⟩, four, read⟩ := Option.bind_eq_some_iff.mp read
  cases read
  exact ((octet 0 _ _ _ one).trans (octet 1 _ _ _ two)).trans
    ((octet 2 _ _ _ three).trans (octet 3 _ _ _ four))

theorem readGroups_takes (index left : Nat) (input : List Char) :
    Takes input (readGroups index left input).2 := by
  induction left generalizing index input with
  | zero => exact .refl input
  | succ left ih =>
    rw [readGroups]
    split
    next v4 rest embedded =>
      split at embedded
      · exact readSeparator_consumes (by decide) index readIpv4Addr_consumes _ _ _ embedded
      · cases embedded
    · split
      next group rest read =>
        have here := readSeparator_consumes (by decide) index
          (readNumber_consumes isAddressChar_hexadecimal) _ _ _ read
        exact here.trans (ih (index + 1) rest)
      · exact .refl input

theorem readIpv6Addr_consumes : Consumes readIpv6Addr := by
  have colon : Consumes (readGivenChar ':') := readGivenChar_consumes (by decide)
  intro input value rest read
  have head := readGroups_takes 0 8 input
  unfold readIpv6Addr at read
  dsimp only at read
  split at read
  · cases read
    exact head
  split at read
  · cases read
  · obtain ⟨⟨_, afterOne⟩, one, read⟩ := Option.bind_eq_some_iff.mp read
    obtain ⟨⟨_, afterTwo⟩, two, read⟩ := Option.bind_eq_some_iff.mp read
    cases read
    exact (head.trans (colon _ _ _ one)).trans ((colon _ _ _ two).trans (readGroups_takes _ _ _))

theorem parseIpAddr_chars {text : String} (address : (parseIpAddr text).isSome) :
    ∀ c ∈ text.toList, isAddressChar c := by
  have whole : Takes text.toList [] := by
    unfold parseIpAddr readIpAddr at address
    split at address
    next value read =>
      split at read
      next v4 rest first =>
        cases read
        exact readIpv4Addr_consumes _ _ _ first
      · obtain ⟨⟨v6, rest⟩, second, same⟩ := Option.map_eq_some_iff.mp read
        cases same
        exact readIpv6Addr_consumes _ _ _ second
    · cases address
  obtain ⟨used, same, letters⟩ := whole
  rw [same, List.append_nil]
  exact letters

end Yafm
