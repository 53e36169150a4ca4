import Mathlib.Algebra.Group.Nat.Defs
import Mathlib.Data.List.Basic
import Mathlib.Data.List.DropRight
import Mathlib.Tactic.Basic

set_option autoImplicit false

-- The string operations a program over UTF-8 text uses, on Lean's own strings.

namespace Text

abbrev Bytes := List UInt8

def asBytes (s : String) : Bytes := s.toByteArray.data.toList

def fromUtf8 (bytes : Bytes) : Option String := String.fromUTF8? ⟨bytes.toArray⟩

theorem asBytes_ofList (cs : List Char) :
    asBytes (String.ofList cs) = cs.flatMap String.utf8EncodeChar := by
  simp [asBytes, List.utf8Encode]

theorem asBytes_eq (s : String) : asBytes s = s.toList.flatMap String.utf8EncodeChar := by
  rw [← asBytes_ofList, String.ofList_toList]

@[simp] theorem asBytes_append (s t : String) : asBytes (s ++ t) = asBytes s ++ asBytes t := by
  simp [asBytes]

theorem asBytes_injective : Function.Injective asBytes := by
  intro s t same
  apply String.toByteArray_inj.mp
  have data : s.toByteArray.data = t.toByteArray.data := Array.toList_inj.mp same
  exact ByteArray.ext data

@[simp] theorem asBytes_inj (s t : String) : asBytes s = asBytes t ↔ s = t :=
  asBytes_injective.eq_iff

theorem fromUtf8_eq_some (bytes : Bytes) (s : String) :
    fromUtf8 bytes = some s ↔ asBytes s = bytes := by
  unfold fromUtf8 String.fromUTF8?
  constructor
  · intro decoded
    split at decoded
    · cases decoded
      simp [asBytes, String.fromUTF8]
    · cases decoded
  · intro encoded
    have array : (⟨bytes.toArray⟩ : ByteArray) = s.toByteArray := by
      rw [← encoded]
      simp [asBytes]
    rw [array, dif_pos s.isValidUTF8]
    rfl

@[simp] theorem fromUtf8_asBytes (s : String) : fromUtf8 (asBytes s) = some s :=
  (fromUtf8_eq_some _ _).mpr rfl

theorem utf8EncodeChar_ascii {c : Char} (ascii : c.toNat < 0x80) :
    String.utf8EncodeChar c = [UInt8.ofNat c.toNat] := by
  have small : c.val ≤ 127 := by
    rw [UInt32.le_iff_toNat_le]
    exact Nat.le_of_lt_succ ascii
  exact String.utf8EncodeChar_eq_singleton (Char.utf8Size_eq_one_iff.mpr small)

theorem forall_byte {P : UInt8 → Prop} (each : ∀ n : Nat, n < 256 → P (UInt8.ofNat n)) (b : UInt8) :
    P b := by
  have hit := each b.toNat b.toNat_lt_size
  rwa [UInt8.ofNat_toNat] at hit

theorem forall_byte_all {f : UInt8 → Bytes} {p : UInt8 → Bool}
    (each : ∀ n : Nat, n < 256 → (f (UInt8.ofNat n)).all p) (b : UInt8) : ∀ other ∈ f b, p other :=
  List.all_eq_true.mp (forall_byte (P := fun b => (f b).all p) each b)

theorem utf8EncodeChar_high {c : Char} (wide : 0x80 ≤ c.toNat) :
    ∀ b ∈ String.utf8EncodeChar c, 0x80 ≤ b := by
  have tagged (x : UInt8) :
      0x80 ≤ x ||| 0x80 ∧ 0x80 ≤ x ||| 0xc0 ∧ 0x80 ≤ x ||| 0xe0 ∧ 0x80 ≤ x ||| 0xf0 := by
    revert x
    exact forall_byte (by decide +kernel)
  have notOne : c.utf8Size ≠ 1 := by
    intro one
    have small := UInt32.le_iff_toNat_le.mp (Char.utf8Size_eq_one_iff.mp one)
    exact absurd (Nat.lt_of_le_of_lt small (by decide : (127 : UInt32).toNat < 0x80)) (Nat.not_lt.mpr wide)
  intro b member
  rcases c.utf8Size_eq with one | two | three | four
  · exact absurd one notOne
  · rw [String.utf8EncodeChar_eq_cons_cons two] at member
    simp only [List.mem_cons, List.not_mem_nil, or_false] at member
    rcases member with rfl | rfl
    · exact (tagged _).2.1
    · exact (tagged _).1
  · rw [String.utf8EncodeChar_eq_cons_cons_cons three] at member
    simp only [List.mem_cons, List.not_mem_nil, or_false] at member
    rcases member with rfl | rfl | rfl
    · exact (tagged _).2.2.1
    · exact (tagged _).1
    · exact (tagged _).1
  · rw [String.utf8EncodeChar_eq_cons_cons_cons_cons four] at member
    simp only [List.mem_cons, List.not_mem_nil, or_false] at member
    rcases member with rfl | rfl | rfl | rfl
    · exact (tagged _).2.2.2
    · exact (tagged _).1
    · exact (tagged _).1
    · exact (tagged _).1

theorem utf8EncodeChar_eq_of_suffix {c d : Char}
    (ends : String.utf8EncodeChar c <:+ String.utf8EncodeChar d) : c = d := by
  obtain ⟨front, whole⟩ := ends
  have nonempty : 0 < (String.utf8EncodeChar c).length := by
    rw [String.length_utf8EncodeChar]
    exact c.utf8Size_pos
  have bound : front.length < (String.utf8EncodeChar d).length := by
    rw [← whole, List.length_append]
    omega
  have first : ((String.utf8EncodeChar d)[front.length]).IsUTF8FirstByte := by
    have here : (String.utf8EncodeChar d)[front.length] = (String.utf8EncodeChar c)[0] := by
      simp [← whole]
    rw [here]
    exact UInt8.isUTF8FirstByte_getElem_zero_utf8EncodeChar
  have start := UInt8.isUTF8FirstByte_getElem_utf8EncodeChar.mp first
  rw [List.length_eq_zero_iff.mp start, List.nil_append] at whole
  have same : String.ofList [c] = String.ofList [d] := asBytes_injective (by
    rw [asBytes_ofList, asBytes_ofList]
    simp [whole])
  simpa using same

theorem utf8EncodeChar_cons_inj {c d : Char} {left right : Bytes}
    (same : String.utf8EncodeChar c ++ left = String.utf8EncodeChar d ++ right) : c = d := by
  have arrays : (String.utf8EncodeChar c).toByteArray ++ left.toByteArray =
      (String.utf8EncodeChar d).toByteArray ++ right.toByteArray := by
    rw [← List.toByteArray_append, ← List.toByteArray_append, same]
  have decoded := congrArg (ByteArray.utf8DecodeChar? · 0) arrays
  simpa only [ByteArray.utf8DecodeChar?_utf8EncodeChar_append, Option.some.injEq] using decoded

theorem utf8_aligned (word : List Char) (c : Char) (front back : Bytes)
    (found : word.flatMap String.utf8EncodeChar = front ++ String.utf8EncodeChar c ++ back) :
    ∃ run tail, word = run ++ c :: tail ∧ run.flatMap String.utf8EncodeChar = front ∧
      tail.flatMap String.utf8EncodeChar = back := by
  have nonempty : 0 < (String.utf8EncodeChar c).length := by
    rw [String.length_utf8EncodeChar]
    exact c.utf8Size_pos
  induction word generalizing front with
  | nil =>
    have lengths := congrArg List.length found
    simp only [List.flatMap_nil, List.length_nil, List.length_append] at lengths
    omega
  | cons d rest ih =>
    rw [List.flatMap_cons, List.append_assoc] at found
    rcases List.append_eq_append_iff.mp found with ⟨more, rfl, later⟩ | ⟨less, whole, later⟩
    · obtain ⟨run, tail, rfl, spelled, rfl⟩ := ih more (by rw [later, List.append_assoc])
      exact ⟨d :: run, tail, rfl, by rw [List.flatMap_cons, spelled], rfl⟩
    by_cases here : front = []
    · subst here
      obtain rfl := utf8EncodeChar_cons_inj found
      exact ⟨[], rest, rfl, rfl, List.append_cancel_left found⟩
    by_cases ended : less = []
    · subst ended
      obtain ⟨run, tail, rfl, spelled, rfl⟩ := ih [] (by simpa using later.symm)
      exact ⟨d :: run, tail, rfl, by simp [spelled, whole], rfl⟩
    · -- a first byte in the middle of another character
      exfalso
      obtain ⟨byte, others, rfl⟩ := List.exists_cons_of_ne_nil ended
      have bound : front.length < (String.utf8EncodeChar d).length := by
        rw [whole, List.length_append, List.length_cons]
        omega
      have same : (String.utf8EncodeChar c)[0] = byte := by
        obtain ⟨lead, more, code⟩ := List.exists_cons_of_length_pos nonempty
        rw [code, List.cons_append, List.cons_append, List.cons.injEq] at later
        simp [code, later.1]
      have starts : ((String.utf8EncodeChar d)[front.length]).IsUTF8FirstByte := by
        have inside : (String.utf8EncodeChar d)[front.length] = byte := by simp [whole]
        rw [inside, ← same]
        exact UInt8.isUTF8FirstByte_getElem_zero_utf8EncodeChar
      exact here (List.length_eq_zero_iff.mp (UInt8.isUTF8FirstByte_getElem_utf8EncodeChar.mp starts))

theorem getLast?_of_asBytes {s : String} {c : Char} {front : Bytes}
    (bytes : asBytes s = front ++ String.utf8EncodeChar c) : s.toList.getLast? = some c := by
  rw [asBytes_eq] at bytes
  rcases List.eq_nil_or_concat' s.toList with empty | ⟨lead, last, chars⟩
  · have nothing := congrArg List.length bytes
    rw [empty, List.flatMap_nil, List.length_append, String.length_utf8EncodeChar] at nothing
    have := c.utf8Size_pos
    simp only [List.length_nil] at nothing
    omega
  · rw [chars, List.flatMap_append, List.flatMap_singleton] at bytes
    have here : String.utf8EncodeChar last <:+ front ++ String.utf8EncodeChar c := ⟨_, bytes⟩
    have there : String.utf8EncodeChar c <:+ front ++ String.utf8EncodeChar c := List.suffix_append _ _
    have same : c = last := by
      rcases List.suffix_or_suffix_of_suffix here there with ends | ends
      · exact (utf8EncodeChar_eq_of_suffix ends).symm
      · exact utf8EncodeChar_eq_of_suffix ends
    rw [chars, same]
    simp

def asciiByte (c : Char) : UInt8 := UInt8.ofNat c.toNat

theorem asciiByte_lt {c : Char} (ascii : c.toNat < 0x80) : asciiByte c < 0x80 := by
  rw [asciiByte, UInt8.lt_iff_toNat_lt, UInt8.toNat_ofNat']
  have : (0x80 : UInt8).toNat = 0x80 := rfl
  omega

theorem asBytes_ascii {s : String} (ascii : ∀ c ∈ s.toList, c.toNat < 0x80) :
    asBytes s = s.toList.map asciiByte := by
  have each : s.toList.flatMap String.utf8EncodeChar = s.toList.flatMap fun c => [asciiByte c] :=
    List.flatMap_congr fun c member => utf8EncodeChar_ascii (ascii c member)
  rw [asBytes_eq, each, List.map_eq_flatMap]

theorem asciiByte_inj {c d : Char} (left : c.toNat < 0x80) (right : d.toNat < 0x80)
    (same : asciiByte c = asciiByte d) : c = d := by
  have values := congrArg UInt8.toNat same
  simp only [asciiByte, UInt8.toNat_ofNat'] at values
  apply Char.toNat_inj.mp
  omega

theorem asciiByte_mem_utf8EncodeChar {c d : Char} (ascii : c.toNat < 0x80) :
    asciiByte c ∈ String.utf8EncodeChar d ↔ d = c := by
  by_cases wide : 0x80 ≤ d.toNat
  · constructor
    · intro member
      exact absurd (asciiByte_lt ascii) (UInt8.not_lt.mpr (utf8EncodeChar_high wide _ member))
    · rintro rfl
      omega
  · have narrow : d.toNat < 0x80 := by omega
    rw [utf8EncodeChar_ascii narrow, List.mem_singleton]
    constructor
    · intro same
      exact (asciiByte_inj ascii narrow same).symm
    · rintro rfl
      rfl

theorem asciiByte_mem_asBytes {c : Char} (ascii : c.toNat < 0x80) (s : String) :
    asciiByte c ∈ asBytes s ↔ c ∈ s.toList := by
  rw [asBytes_eq, List.mem_flatMap]
  constructor
  · rintro ⟨d, member, inside⟩
    rwa [← (asciiByte_mem_utf8EncodeChar ascii).mp inside]
  · intro member
    exact ⟨c, member, (asciiByte_mem_utf8EncodeChar ascii).mpr rfl⟩

theorem not_mem_of_mem_splitOn {α : Type} [BEq α] [LawfulBEq α] (separator : α) (xs : List α) :
    ∀ part ∈ xs.splitOn separator, separator ∉ part := by
  induction xs with
  | nil => simp
  | cons x rest ih =>
    rw [List.splitOn_cons_eq_if_modifyHead]
    split
    · simpa using ih
    · rename_i distinct
      obtain ⟨head, tail, parts⟩ := List.exists_cons_of_ne_nil (List.splitOn_ne_nil separator rest)
      simp only [parts, List.modifyHead_cons, List.mem_cons] at ih ⊢
      rintro part (rfl | member)
      · have absent := ih head (Or.inl rfl)
        simp only [List.mem_cons, not_or]
        exact ⟨fun same => distinct (by simp [same]), absent⟩
      · exact ih part (Or.inr member)

def split (separator : Char) (s : String) : List String :=
  (s.toList.splitOn separator).map String.ofList

def join (separator : Char) (parts : List String) : String :=
  String.ofList ([separator].intercalate (parts.map String.toList))

theorem split_ne_nil (separator : Char) (s : String) : split separator s ≠ [] := by
  simp [split, List.splitOn_ne_nil]

theorem mem_split {separator : Char} {s part : String} (member : part ∈ split separator s) :
    separator ∉ part.toList := by
  obtain ⟨cs, inside, rfl⟩ := List.mem_map.mp member
  rw [String.toList_ofList]
  exact not_mem_of_mem_splitOn separator _ cs inside

@[simp] theorem join_split (separator : Char) (s : String) : join separator (split separator s) = s := by
  simp [join, split, List.map_map, Function.comp_def, List.intercalate_splitOn]

theorem split_join {separator : Char} {parts : List String} (nonempty : parts ≠ [])
    (clean : ∀ part ∈ parts, separator ∉ part.toList) : split separator (join separator parts) = parts := by
  rw [split, join, String.toList_ofList, List.splitOn_intercalate]
  · simp [List.map_map, Function.comp_def]
  · simpa using clean
  · simpa using nonempty

theorem join_singleton (separator : Char) (s : String) : join separator [s] = s := by
  simp [join]

theorem join_cons_cons (separator : Char) (part next : String) (rest : List String) :
    join separator (part :: next :: rest) = part ++ String.ofList
    [separator] ++ join separator (next :: rest) := by
  simp [join, ← String.toList_inj]

theorem join_append (separator : Char) {front back : List String} (left : front ≠ []) (right : back ≠ []) :
    join separator (front ++ back) = join separator front ++ String.ofList
    [separator] ++ join separator back := by
  induction front with
  | nil => exact absurd rfl left
  | cons part rest ih =>
    cases rest with
    | nil =>
      obtain ⟨next, others, rfl⟩ := List.exists_cons_of_ne_nil right
      rw [List.singleton_append, join_cons_cons, join_singleton]
    | cons next others =>
      rw [List.cons_append, List.cons_append, join_cons_cons, ← List.cons_append, ih (List.cons_ne_nil _ _),
        join_cons_cons]
      simp only [String.append_assoc]

theorem join_last (separator : Char) (front : List String) (last : String) :
    ∃ lead, (join separator (front ++ [last])).toList = lead ++ last.toList := by
  by_cases empty : front = []
  · exact ⟨[], by simp [empty, join_singleton]⟩
  · refine ⟨(join separator front).toList ++ [separator], ?_⟩
    rw [join_append separator empty (by simp), join_singleton]
    simp

theorem mem_join {separator c : Char} {parts : List String} (member : c ∈ (join separator parts).toList) :
    c = separator ∨ ∃ part ∈ parts, c ∈ part.toList := by
  induction parts with
  | nil => simp [join] at member
  | cons part rest ih =>
    cases rest with
    | nil => exact Or.inr ⟨part, by simp, by simpa [join_singleton] using member⟩
    | cons next others =>
      rw [join_cons_cons] at member
      simp only [String.toList_append, String.toList_ofList, List.mem_append, List.mem_singleton] at member
      rcases member with (here | separates) | later
      · exact Or.inr ⟨part, by simp, here⟩
      · exact Or.inl separates
      · exact (ih later).imp_right fun ⟨other, inside, found⟩ => ⟨other, List.mem_cons_of_mem _ inside, found⟩

theorem mem_join_of_mem {separator c : Char} {parts : List String} {part : String} (member : part ∈ parts)
    (inside : c ∈ part.toList) : c ∈ (join separator parts).toList := by
  induction parts with
  | nil => cases member
  | cons first rest ih =>
    cases rest with
    | nil =>
      rw [List.mem_singleton] at member
      rwa [join_singleton, ← member]
    | cons next others =>
      rw [join_cons_cons]
      simp only [String.toList_append, List.mem_append]
      rcases List.mem_cons.mp member with rfl | later
      · exact Or.inl (Or.inl inside)
      · exact Or.inr (ih later)

theorem mem_of_mem_split {separator c : Char} {s part : String} (member : part ∈ split separator s)
    (inside : c ∈ part.toList) : c ∈ s.toList := by
  rw [← join_split separator s]
  exact mem_join_of_mem member inside

theorem split_append (separator : Char) (s t : String) :
    split separator (s ++ String.ofList [separator] ++ t) = split separator s ++ split separator t := by
  simp [split, List.splitOn_append_cons_self]

theorem split_singleton {separator : Char} {s : String} (clean : separator ∉ s.toList) :
    split separator s = [s] := by
  simp [split, List.splitOn_eq_singleton clean]

-- The characters of Unicode's White_Space property, which trimming removes.
def isWhitespace (c : Char) : Bool :=
  let n := c.toNat
  (0x9 ≤ n && n ≤ 0xd) || n == 0x20 || n == 0x85 || n == 0xa0 || n == 0x1680 ||
    (0x2000 ≤ n && n ≤ 0x200a) || n == 0x2028 || n == 0x2029 || n == 0x202f || n == 0x205f ||
    n == 0x3000

def trim (s : String) : String :=
  String.ofList ((s.toList.dropWhile isWhitespace).rdropWhile isWhitespace)

def endsWithWhitespace (s : String) : Bool := s.toList.getLast?.any isWhitespace

theorem trim_eq_self {s : String} (first : ∀ c ∈ s.toList.head?, isWhitespace c = false)
    (last : ∀ c ∈ s.toList.getLast?, isWhitespace c = false) : trim s = s := by
  have front : s.toList.dropWhile isWhitespace = s.toList := by
    cases chars : s.toList with
    | nil => rfl
    | cons c rest => exact List.dropWhile_cons_of_neg (by simp [first c (by simp [chars])])
  have back : s.toList.rdropWhile isWhitespace = s.toList := by
    apply List.rdropWhile_eq_self_iff.mpr
    intro nonempty
    simp [last _ (List.getLast?_eq_some_getLast nonempty)]
  rw [trim, front, back, String.ofList_toList]

def stripPrefix (lead s : String) : Option String :=
  if lead.toList.isPrefixOf s.toList then some (String.ofList (s.toList.drop lead.toList.length))
  else none

theorem stripPrefix_append (lead s : String) : stripPrefix lead (lead ++ s) = some s := by
  simp [stripPrefix]

theorem stripPrefix_eq_some {lead s rest : String} (found : stripPrefix lead s = some rest) :
    s = lead ++ rest := by
  unfold stripPrefix at found
  split at found
  next leads =>
    obtain ⟨tail, whole⟩ := List.isPrefixOf_iff_prefix.mp leads
    cases found
    apply String.toList_inj.mp
    simp [← whole]
  · cases found

def startsWith (lead s : String) : Bool := lead.toList.isPrefixOf s.toList

def endsWith (tail s : String) : Bool := tail.toList.isSuffixOf s.toList

def contains (c : Char) (s : String) : Bool := s.toList.contains c

def splitOnce (separator : Char) (s : String) : Option (String × String) :=
  match split separator s with
  | first :: next :: rest => some (first, join separator (next :: rest))
  | _ => none

def rsplitOnce (separator : Char) (s : String) : Option (String × String) :=
  let parts := split separator s
  if parts.length ≤ 1 then none
  else some (join separator parts.dropLast, parts.getLastD "")

-- At most `count` fields: the last one keeps the separators left in the text.
def splitN (separator : Char) (count : Nat) (s : String) : List String :=
  let parts := split separator s
  if parts.length ≤ count then parts
  else parts.take (count - 1) ++ [join separator (parts.drop (count - 1))]

theorem split_join_last {separator : Char} {front : List String} (last : String)
    (clean : ∀ field ∈ front, separator ∉ field.toList) :
    split separator (join separator (front ++ [last])) = front ++ split separator last := by
  induction front with
  | nil => rw [List.nil_append, join_singleton, List.nil_append]
  | cons field rest ih =>
    have onward := ih fun other member => clean other (List.mem_cons_of_mem _ member)
    rw [List.cons_append, ← List.singleton_append, join_append separator (by simp) (by simp),
      join_singleton, split_append, onward, split_singleton (clean field (by simp))]
    rfl

theorem splitN_join {separator : Char} (front : List String) (last : String)
    (clean : ∀ field ∈ front, separator ∉ field.toList) :
    splitN separator (front.length + 1) (join separator (front ++ [last])) = front ++ [last] := by
  rw [splitN, split_join_last last clean]
  split
  next short =>
    have single : (split separator last).length = 1 := by
      have := List.length_pos_iff.mpr (split_ne_nil separator last)
      rw [List.length_append] at short
      omega
    obtain ⟨only, parts⟩ := List.length_eq_one_iff.mp single
    have whole := join_split separator last
    rw [parts, join_singleton] at whole
    rw [parts, whole]
  next =>
    rw [Nat.add_sub_cancel, List.take_left', List.drop_left', join_split] <;> rfl

-- `str::parse::<u64>`: digits after an optional plus sign, below `2 ^ 64`.
def parseU64 (text : String) : Option Nat :=
  let digits := ((stripPrefix "+" text).getD text).toList
  if digits.isEmpty || !digits.all Char.isDigit then none
  else
    let value := digits.foldl (fun number digit => number * 10 + (digit.toNat - '0'.toNat)) 0
    if value < 2 ^ 64 then some value else none

theorem parseU64_toString {n : Nat} (bounded : n < 2 ^ 64) : parseU64 (toString n) = some n := by
  have chars : (toString n).toList = Nat.toDigits 10 n := by
    rw [Nat.toString_eq_ofList_toDigits, String.toList_ofList]
  have digits : ∀ c ∈ Nat.toDigits 10 n, c.isDigit := fun c member =>
    Nat.isDigit_of_mem_toDigits (by decide) (by decide) member
  have unsigned : stripPrefix "+" (toString n) = none := by
    cases found : stripPrefix "+" (toString n) with
    | none => rfl
    | some rest =>
      have whole := congrArg String.toList (stripPrefix_eq_some found)
      rw [chars, String.toList_append] at whole
      have plus := digits '+' (by rw [whole]; simp)
      exact absurd plus (by decide)
  have value :
      (Nat.toDigits 10 n).foldl (fun number digit => number * 10 + (digit.toNat - '0'.toNat)) 0 = n := by
    have read := Nat.ofDigitChars_ten_toDigits (n := n)
    rw [Nat.ofDigitChars_eq_foldl] at read
    simpa only [Nat.mul_comm] using read
  have all : (Nat.toDigits 10 n).all Char.isDigit := List.all_eq_true.mpr digits
  simp only [parseU64, unsigned, Option.getD_none, chars, all, value, bounded, if_true]
  simp [Nat.toDigits_ne_nil]

def asciiText (bytes : Bytes) : String := String.ofList (bytes.map fun byte => Char.ofNat byte.toNat)

theorem asBytes_asciiText {bytes : Bytes} (ascii : ∀ byte ∈ bytes, byte < 0x80) :
    asBytes (asciiText bytes) = bytes := by
  have each (byte : UInt8) : byte < 0x80 → String.utf8EncodeChar (Char.ofNat byte.toNat) = [byte] := by
    revert byte
    exact forall_byte (by decide +kernel)
  rw [asciiText, asBytes_ofList, List.flatMap_map]
  induction bytes with
  | nil => rfl
  | cons byte rest ih =>
    rw [List.flatMap_cons, each byte (ascii byte (by simp)), ih fun other member =>
      ascii other (by simp [member])]
    rfl

end Text
