import Yafm.Http
import Yafm.Log.Address

set_option autoImplicit false

namespace Yafm

open Text

def unknownField : String := "-"

-- The left-most hop of the forwarded header where it is trusted and an address, and the peer otherwise.
def clientIp (connectInfo : Option IpAddr) (headers : HeaderMap) (trustProxy : Bool) : String :=
  let forwarded := if trustProxy then headers.getText "x-forwarded-for" else none
  let hop := forwarded.map fun value => trim ((split ',' value).headD "")
  match hop.filter fun hop => (parseIpAddr hop).isSome with
  | some hop => hop
  | none =>
    match connectInfo with
    | some address => address.text
    | none => unknownField

-- C0, DEL and C1 controls and the two Unicode separators.
def breaksLine (c : Char) : Bool :=
  c.toNat < 0x20 || c.toNat = 0x7f || (0x80 ≤ c.toNat && c.toNat ≤ 0x9f) || c.toNat =
    0x2028 || c.toNat = 0x2029

def escapeChar (c : Char) : List Char :=
  if c = '"' then ['\\', '"']
  else if c = '\\' then ['\\', '\\']
  else if breaksLine c then
    if c.toNat ≤ 0xff then '\\' :: 'x' :: hexPadded 2 c.toNat else '\\' :: 'u' :: hexPadded 4 c.toNat
  else [c]

def escapeField (value : String) : String := String.ofList (value.toList.flatMap escapeChar)

structure Line where
  ip : String
  user : String
  event : String
  status : Nat
  bytes : Nat
  referer : String
  userAgent : String
  deriving DecidableEq, Repr

def Line.render (line : Line) (timestamp : String) : String :=
  escapeField line.ip ++ " - \"" ++ escapeField line.user ++ "\" [" ++ timestamp ++ "] \"" ++
  escapeField line.event ++
    "\" " ++ toString line.status ++ " " ++ toString line.bytes ++ " \"" ++
    escapeField line.referer ++ "\" \"" ++
    escapeField line.userAgent ++ "\""

inductive Escape where
  | plain
  | opened
  | code (digits value : Nat)

-- Reads up to a letter that no escape covers, and undoes the escapes on the way.
def readEscaped (stop : Char) : Escape → List Char → Option (List Char × List Char)
  | _, [] => none
  | .plain, c :: rest =>
    if c = stop then some ([], rest)
    else if c = '\\' then readEscaped stop .opened rest
    else (readEscaped stop .plain rest).map fun read => (c :: read.1, read.2)
  | .opened, c :: rest =>
    if c = 'x' then readEscaped stop (.code 2 0) rest
    else if c = 'u' then readEscaped stop (.code 4 0) rest
    else (readEscaped stop .plain rest).map fun read => (c :: read.1, read.2)
  | .code digits value, c :: rest =>
    (toDigitIn 16 c).bind fun digit =>
      let value := value * 16 + digit
      if digits = 1 then (readEscaped stop .plain rest).map fun read => (Char.ofNat value :: read.1, read.2)
      else readEscaped stop (.code (digits - 1) value) rest

def readField (stop : Char) (input : List Char) : Option (String × List Char) :=
  (readEscaped stop .plain input).map fun read => (String.ofList read.1, read.2)

def expect (text : String) (input : List Char) : Option (List Char) := input.dropPrefix? text.toList

def decimal (text : String) : Option Nat :=
  if text.toList.all Char.isDigit then some (Nat.ofDigitChars 10 text.toList 0) else none

def parseLine (text : String) : Option (Line × String) := do
  let (ip, rest) ← readField ' ' text.toList
  let (user, rest) ← readField '"' (← expect "- \"" rest)
  let (timestamp, rest) ← readField ']' (← expect " [" rest)
  let (event, rest) ← readField '"' (← expect " \"" rest)
  let (status, rest) ← readField ' ' (← expect " " rest)
  let (bytes, rest) ← readField ' ' rest
  let (referer, rest) ← readField '"' (← expect "\"" rest)
  let (userAgent, rest) ← readField '"' (← expect " \"" rest)
  if rest ≠ [] then none
  else return (⟨ip, user, event, ← decimal status, ← decimal bytes, referer, userAgent⟩, timestamp)

example :
    parseLine (Line.render ⟨"::1", "a\"b", "DOWNLOAD x\ny", 206, 512, "-", "\\u2028"⟩
      "2026-01-01T00:00:00Z") =
    some (⟨"::1", "a\"b", "DOWNLOAD x\ny", 206, 512, "-", "\\u2028"⟩, "2026-01-01T00:00:00Z") := by
  decide +kernel

section

variable {stop : Char} (rest : List Char)

theorem readEscaped_code {digits : List Char} (some : digits ≠ [])
    (hexadecimal : ∀ c ∈ digits, ∃ digit < 16, c = Nat.digitChar digit) (value : Nat) :
    readEscaped stop (.code digits.length value) (digits ++ rest) =
      (readEscaped stop .plain rest).map fun read =>
        (Char.ofNat (hexValue value digits) :: read.1, read.2) := by
  induction digits generalizing value with
  | nil => exact absurd rfl some
  | cons c others ih =>
    obtain ⟨digit, small, rfl⟩ := hexadecimal c (by simp)
    rw [List.cons_append, readEscaped, toDigitIn_digitChar small, Option.bind_some, List.length_cons]
    have onward : hexValue value (Nat.digitChar digit :: others) = hexValue (value * 16 + digit) others := by
      rw [hexValue, List.foldl_cons, toDigitIn_digitChar small, Option.getD_some]
      rfl
    rw [onward]
    by_cases last : others = []
    · subst last
      rfl
    · have more : others.length + 1 ≠ 1 := by simpa using last
      dsimp only
      rw [if_neg more, Nat.add_sub_cancel]
      exact ih last (fun other member => hexadecimal other (by simp [member])) _

theorem escapeChar_breaks {c : Char} (breaks : breaksLine c) :
    ∃ marker width, escapeChar c = '\\' :: marker :: hexPadded width c.toNat ∧
    (hexPadded width c.toNat).length = width ∧
      (marker = 'x' ∧ width = 2 ∨ marker = 'u' ∧ width = 4) := by
  have notQuote : c ≠ '"' := by
    rintro rfl
    exact absurd breaks (by decide)
  have notBackslash : c ≠ '\\' := by
    rintro rfl
    exact absurd breaks (by decide)
  simp only [escapeChar, notQuote, notBackslash, breaks, if_true, if_false]
  split
  next narrow => exact ⟨'x', 2, rfl, length_hexPadded (by decide) (by omega), Or.inl ⟨rfl, rfl⟩⟩
  next wide =>
    have bound : c.toNat < 16 ^ 4 := by
      simp only [breaksLine, Bool.or_eq_true, Bool.and_eq_true, decide_eq_true_eq] at breaks
      omega
    exact ⟨'u', 4, rfl, length_hexPadded (by decide) bound, Or.inr ⟨rfl, rfl⟩⟩

theorem readEscaped_escapeChar {c : Char} (marks : stop ≠ '\\') (closed : escapeChar c = [c] → c ≠ stop) :
    readEscaped stop .plain (escapeChar c ++ rest) =
      (readEscaped stop .plain rest).map fun read => (c :: read.1, read.2) := by
  have opens (input : List Char) :
      readEscaped stop .plain ('\\' :: input) = readEscaped stop .opened input := by
    rw [readEscaped, if_neg (Ne.symm marks), if_pos rfl]
  have written {width : Nat} (sized : (hexPadded width c.toNat).length = width) (positive : 0 < width) :
      readEscaped stop (.code width 0) (hexPadded width c.toNat ++ rest) =
        (readEscaped stop .plain rest).map fun read => (c :: read.1, read.2) := by
    have filled : hexPadded width c.toNat ≠ [] := List.ne_nil_of_length_pos (by omega)
    have read :
        readEscaped stop (.code (hexPadded width c.toNat).length 0) (hexPadded width c.toNat ++ rest) = _ :=
      readEscaped_code rest filled (fun _ member => mem_hexPadded member) 0
    rwa [sized, hexValue_padded, Char.ofNat_toNat] at read
  by_cases quote : c = '"'
  · subst quote
    exact opens _
  by_cases backslash : c = '\\'
  · subst backslash
    exact opens _
  by_cases breaks : breaksLine c
  · obtain ⟨marker, width, form, sized, ⟨rfl, rfl⟩ | ⟨rfl, rfl⟩⟩ := escapeChar_breaks breaks
    · rw [form, List.cons_append, opens]
      exact written sized (by decide)
    · rw [form, List.cons_append, opens]
      exact written sized (by decide)
  · have plain : escapeChar c = [c] := by simp [escapeChar, quote, backslash, breaks]
    rw [plain, List.singleton_append, readEscaped, if_neg (closed plain), if_neg backslash]

theorem readField_escapeField {value : String} (marks : stop ≠ '\\')
    (closed : ∀ c ∈ value.toList, escapeChar c = [c] → c ≠ stop) :
    readField stop ((escapeField value).toList ++ stop :: rest) = some (value, rest) := by
  have read : readEscaped stop .plain (value.toList.flatMap escapeChar ++ stop :: rest) =
      some (value.toList, rest) := by
    generalize value.toList = chars at closed ⊢
    induction chars with
    | nil => rw [List.flatMap_nil, List.nil_append, readEscaped, if_pos rfl]
    | cons c others ih =>
      rw [List.flatMap_cons, List.append_assoc, readEscaped_escapeChar _ marks (closed c (by simp)),
        ih fun other member => closed other (by simp [member])]
      rfl
  rw [readField, escapeField, String.toList_ofList, read, Option.map_some, String.ofList_toList]

theorem readField_quoted (value : String) :
    readField '"' ((escapeField value).toList ++ '"' :: rest) = some (value, rest) := by
  apply readField_escapeField rest (by decide)
  rintro c _ plain rfl
  exact absurd plain (by decide)

end

def isColumnChar (c : Char) : Bool :=
  0x21 ≤ c.toNat && c.toNat ≤ 0x7e && c ≠ '"' && c ≠ '\\' && c ≠ ']'

def isColumn (text : String) : Bool := text.toList.all isColumnChar

theorem isColumnChar_range {low high : Char} {c : Char} (range : low ≤ c ∧ c ≤ high)
    (visible : 0x21 ≤ low.toNat ∧ high.toNat ≤ 0x7e)
    (clear : ¬(low ≤ '"' ∧ '"' ≤ high) ∧ ¬(low ≤ '\\' ∧ '\\' ≤ high) ∧ ¬(low ≤ ']' ∧ ']' ≤ high)) :
    isColumnChar c := by
  have above : low.toNat ≤ c.toNat := range.1
  have below : c.toNat ≤ high.toNat := range.2
  have other {bar : Char} (outside : ¬(low ≤ bar ∧ bar ≤ high)) : c ≠ bar := by
    intro same
    exact outside (same ▸ range)
  simp only [isColumnChar, other clear.1, other clear.2.1, other clear.2.2, ne_eq,
    not_false_eq_true, decide_true,
    Bool.and_true, Bool.and_eq_true, decide_eq_true_eq]
  omega

theorem isColumnChar_address {c : Char} (letter : isAddressChar c) : isColumnChar c := by
  simp only [isAddressChar, Bool.or_eq_true, decide_eq_true_eq] at letter
  rcases letter with (digit | rfl) | rfl
  · by_cases decimal : '0' ≤ c ∧ c ≤ '9'
    · exact isColumnChar_range decimal (by decide) (by decide)
    by_cases lower : 'a' ≤ c ∧ c ≤ 'z'
    · exact isColumnChar_range lower (by decide) (by decide)
    by_cases upper : 'A' ≤ c ∧ c ≤ 'Z'
    · exact isColumnChar_range upper (by decide) (by decide)
    · rw [toDigitIn, if_neg decimal, if_neg lower, if_neg upper] at digit
      exact absurd digit (by decide)
  · decide
  · decide

theorem isColumn_clientIp (connectInfo : Option IpAddr) (headers : HeaderMap) (trustProxy : Bool) :
    isColumn (clientIp connectInfo headers trustProxy) := by
  have none : isColumn "-" := by decide
  rw [isColumn, List.all_eq_true] at none ⊢
  unfold clientIp
  dsimp only
  split
  next hop found =>
    have parsed := (Option.filter_eq_some_iff.mp found).2
    exact fun c member => isColumnChar_address (parseIpAddr_chars parsed c member)
  · split
    next address => exact fun c member => isColumnChar_address (address.text_chars c member)
    · exact none

-- The letters of RFC 3339 times.
def isTimestamp (text : String) : Bool := text.toList.all fun c => c.isDigit || "-:.+TZtz".toList.contains c

theorem isColumnChar_isDigit {c : Char} (digit : c.isDigit) : isColumnChar c :=
  isColumnChar_address (isAddressChar_isDigit digit)

theorem isColumn_timestamp {text : String} (stamp : isTimestamp text) : isColumn text := by
  have marks : ∀ c ∈ "-:.+TZtz".toList, isColumnChar c := List.all_eq_true.mp (by decide)
  rw [isTimestamp, List.all_eq_true] at stamp
  rw [isColumn, List.all_eq_true]
  intro c member
  rcases (Bool.or_eq_true _ _).mp (stamp c member) with digit | mark
  · exact isColumnChar_isDigit digit
  · exact marks c (List.contains_iff_mem.mp mark)

theorem toList_toString (n : Nat) : (toString n).toList = Nat.toDigits 10 n := by
  rw [Nat.toString_eq_ofList_toDigits, String.toList_ofList]

theorem toString_isDigit (n : Nat) : ∀ c ∈ (toString n).toList, c.isDigit := by
  rw [toList_toString]
  exact fun c member => Nat.isDigit_of_mem_toDigits (by decide) (by decide) member

theorem isColumn_toString (n : Nat) : isColumn (toString n) :=
  List.all_eq_true.mpr fun c member => isColumnChar_isDigit (toString_isDigit n c member)

theorem escapeChar_column {c : Char} (column : isColumnChar c) : escapeChar c = [c] := by
  simp only [isColumnChar, Bool.and_eq_true, decide_eq_true_eq] at column
  obtain ⟨⟨⟨⟨visible, ascii⟩, notQuote⟩, notBackslash⟩, _⟩ := column
  have keeps : breaksLine c = false := by
    simp only [breaksLine, Bool.or_eq_false_iff, Bool.and_eq_false_iff, decide_eq_false_iff_not]
    omega
  simp [escapeChar, notQuote, notBackslash, keeps]

theorem escapeField_column {text : String} (column : isColumn text) : escapeField text = text := by
  rw [isColumn, List.all_eq_true] at column
  apply String.toList_inj.mp
  rw [escapeField, String.toList_ofList]
  generalize text.toList = chars at column
  induction chars with
  | nil => rfl
  | cons c others ih =>
    rw [List.flatMap_cons, escapeChar_column (column c (by simp)), ih fun other member =>
      column other (by simp [member])]
    rfl

theorem readField_column {stop : Char} (rest : List Char) {text : String}
    (ends : isColumnChar stop = false) (marks : stop ≠ '\\') (column : isColumn text) :
    readField stop (text.toList ++ stop :: rest) = some (text, rest) := by
  have inside : ∀ c ∈ text.toList, escapeChar c = [c] → c ≠ stop := by
    rintro c member _ rfl
    rw [List.all_eq_true.mp column c member] at ends
    cases ends
  have read := readField_escapeField rest marks inside
  rwa [escapeField_column column] at read

theorem decimal_toString (n : Nat) : decimal (toString n) = some n := by
  have digits : (toString n).toList.all Char.isDigit := List.all_eq_true.mpr (toString_isDigit n)
  rw [decimal, if_pos digits, toList_toString, Nat.ofDigitChars_ten_toDigits]

theorem expect_append (text : String) (rest : List Char) : expect text (text.toList ++ rest) = some rest :=
  List.dropPrefix?_eq_some_iff.mpr ⟨text.toList, rfl, by simp⟩

/-- What is logged: an address that the request was taken to come from, and the time of the event. -/
structure Line.Logged (line : Line) (timestamp : String) : Prop where
  address : ∃ connectInfo headers trustProxy, line.ip = clientIp connectInfo headers trustProxy
  stamp : isTimestamp timestamp

theorem Line.render_chars (line : Line) (timestamp : String) :
    (line.render timestamp).toList =
      (escapeField line.ip).toList ++
        ' ' :: ("- \"".toList ++ ((escapeField line.user).toList ++ '"' :: (" [".toList ++
      (timestamp.toList ++ ']' :: (" \"".toList ++ ((escapeField line.event).toList ++ '"' :: (" ".toList ++
      ((toString line.status).toList ++ ' ' :: ((toString line.bytes).toList ++ ' ' :: ("\"".toList ++
      ((escapeField line.referer).toList ++ '"' :: (" \"".toList ++
      ((escapeField line.userAgent).toList ++ '"' :: []))))))))))))) := by
  simp [Line.render]

theorem parseLine_render {line : Line} {timestamp : String} (logged : line.Logged timestamp) :
    parseLine (line.render timestamp) = some (line, timestamp) := by
  obtain ⟨connectInfo, headers, trustProxy, taken⟩ := logged.address
  have ip : isColumn line.ip := by
    rw [taken]
    exact isColumn_clientIp connectInfo headers trustProxy
  have space : isColumnChar ' ' = false := by decide
  have bracket : isColumnChar ']' = false := by decide
  have address (rest : List Char) := readField_column rest space (by decide) ip
  have time (rest : List Char) := readField_column rest bracket (by decide) (isColumn_timestamp logged.stamp)
  have number (n : Nat) (rest : List Char) := readField_column rest space (by decide) (isColumn_toString n)
  rw [parseLine, line.render_chars, escapeField_column ip]
  refine Option.bind_eq_some_iff.mpr ⟨_, address _, ?_⟩
  refine Option.bind_eq_some_iff.mpr ⟨_, expect_append _ _, ?_⟩
  refine Option.bind_eq_some_iff.mpr ⟨_, readField_quoted _ _, ?_⟩
  refine Option.bind_eq_some_iff.mpr ⟨_, expect_append _ _, ?_⟩
  refine Option.bind_eq_some_iff.mpr ⟨_, time _, ?_⟩
  refine Option.bind_eq_some_iff.mpr ⟨_, expect_append _ _, ?_⟩
  refine Option.bind_eq_some_iff.mpr ⟨_, readField_quoted _ _, ?_⟩
  refine Option.bind_eq_some_iff.mpr ⟨_, expect_append _ _, ?_⟩
  refine Option.bind_eq_some_iff.mpr ⟨_, number _ _, ?_⟩
  refine Option.bind_eq_some_iff.mpr ⟨_, number _ _, ?_⟩
  refine Option.bind_eq_some_iff.mpr ⟨_, expect_append _ _, ?_⟩
  refine Option.bind_eq_some_iff.mpr ⟨_, readField_quoted _ _, ?_⟩
  refine Option.bind_eq_some_iff.mpr ⟨_, expect_append _ _, ?_⟩
  refine Option.bind_eq_some_iff.mpr ⟨_, readField_quoted _ _, ?_⟩
  refine Option.bind_eq_some_iff.mpr ⟨_, decimal_toString _, ?_⟩
  exact Option.bind_eq_some_iff.mpr ⟨_, decimal_toString _, rfl⟩

def keepsLine (text : String) : Bool := text.toList.all fun c => !breaksLine c

theorem keepsLine_append (front back : String) :
    keepsLine (front ++ back) = (keepsLine front && keepsLine back) := by
  simp only [keepsLine, String.toList_append, List.all_append]

theorem keepsLine_column {text : String} (column : isColumn text) : keepsLine text := by
  rw [isColumn, List.all_eq_true] at column
  rw [keepsLine, List.all_eq_true]
  intro c member
  have visible := column c member
  simp only [isColumnChar, Bool.and_eq_true, decide_eq_true_eq] at visible
  simp only [breaksLine, Bool.not_eq_true', Bool.or_eq_false_iff, Bool.and_eq_false_iff,
    decide_eq_false_iff_not]
  omega

theorem keepsLine_escapeField (value : String) : keepsLine (escapeField value) := by
  have digits : ∀ digit < 16, (!breaksLine (Nat.digitChar digit)) = true := by decide
  rw [keepsLine, List.all_eq_true]
  intro c member
  rw [escapeField, String.toList_ofList] at member
  obtain ⟨source, _, inside⟩ := List.mem_flatMap.mp member
  by_cases breaks : breaksLine source
  · obtain ⟨marker, width, form, _, marked⟩ := escapeChar_breaks breaks
    rw [form, List.mem_cons, List.mem_cons] at inside
    rcases inside with rfl | rfl | code
    · decide
    · rcases marked with ⟨rfl, _⟩ | ⟨rfl, _⟩ <;> decide
    · obtain ⟨digit, small, rfl⟩ := mem_hexPadded code
      exact digits digit small
  · simp only [escapeChar, breaks] at inside
    split at inside
    · rcases List.mem_pair.mp inside with rfl | rfl <;> decide
    split at inside
    · rcases List.mem_pair.mp inside with rfl | rfl <;> decide
    · rw [List.mem_singleton.mp inside]
      simp [breaks]

theorem keepsLine_render (line : Line) {timestamp : String} (stamp : isTimestamp timestamp) :
    keepsLine (line.render timestamp) := by
  have time := keepsLine_column (isColumn_timestamp stamp)
  have number (n : Nat) := keepsLine_column (isColumn_toString n)
  simp only [Line.render, keepsLine_append, keepsLine_escapeField, time, number, Bool.and_true, Bool.true_and]
  decide

theorem render_unforgeable {line : Line} {timestamp : String} (logged : line.Logged timestamp) :
    (∀ c ∈ (line.render timestamp).toList, breaksLine c = false) ∧
    parseLine (line.render timestamp) = some (line, timestamp) ∧
    ∀ other otherTime, Line.Logged other otherTime → other.render otherTime = line.render timestamp →
      other = line ∧ otherTime = timestamp := by
  have kept := keepsLine_render line logged.stamp
  simp only [keepsLine, List.all_eq_true, Bool.not_eq_true'] at kept
  refine ⟨kept, parseLine_render logged, ?_⟩
  intro other otherTime otherLogged same
  have read := parseLine_render otherLogged
  rw [same, parseLine_render logged, Option.some.injEq, Prod.mk.injEq] at read
  exact ⟨read.1.symm, read.2.symm⟩

-- A forwarded hop, and fields that try to end the line and the quotes.
def forgedLine : Line :=
  ⟨"2001:db8::1", "a\" [x] \"", "DOWNLOAD x\n1.2.3.4 - ", 404, 0, "\\x0a", "\x85"⟩

theorem render_unforgeable_forged :
    (∀ c ∈ (forgedLine.render "2026-01-01T00:00:00+00:00").toList, breaksLine c = false) ∧
    parseLine (forgedLine.render "2026-01-01T00:00:00+00:00") =
      some (forgedLine, "2026-01-01T00:00:00+00:00") ∧
    ∀ other otherTime, Line.Logged other otherTime →
      other.render otherTime = forgedLine.render "2026-01-01T00:00:00+00:00" →
      other = forgedLine ∧ otherTime = "2026-01-01T00:00:00+00:00" :=
  render_unforgeable
    ⟨⟨none, [("x-forwarded-for", asBytes " 2001:db8::1 , 10.0.0.1")], true, by decide +kernel⟩, by decide⟩

end Yafm
