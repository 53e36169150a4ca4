import Mathlib.Data.List.Basic

set_option autoImplicit false

namespace Disposition

def isLetterOrDigit (c : Char) : Bool := ('a' ≤ c && c ≤ 'z') || ('A' ≤ c && c ≤ 'Z') || ('0' ≤ c && c ≤ '9')

def isHexChar (c : Char) : Bool := ('0' ≤ c && c ≤ '9') || ('a' ≤ c && c ≤ 'f') || ('A' ≤ c && c ≤ 'F')

def isLinearBlank (c : Char) : Bool := c = ' ' || c = '\t'

def isTokenChar (c : Char) : Bool := isLetterOrDigit c || "!#$%&'*+-.^_\x60|~".toList.contains c

def isAttrChar (c : Char) : Bool := isLetterOrDigit c || "!#$&+-.^_\x60|~".toList.contains c

def isCharsetChar (c : Char) : Bool := isLetterOrDigit c || "!#$%&+-^_\x60\x7b\x7d~".toList.contains c

def isLanguageChar (c : Char) : Bool := isLetterOrDigit c || c = '-'

def isQuotable (c : Char) : Bool := c = '\t' || (' ' ≤ c && c ≠ '\x7f')

def isQuotedText (c : Char) : Bool := isQuotable c && c ≠ '"' && c ≠ '\\'

inductive Value where
  | text (content : String)
  | extended (charset language encoded : String)
  deriving DecidableEq, Repr

structure Parsed where
  type : String
  parameters : List (String × Value)
  deriving DecidableEq, Repr

def skipBlanks (cs : List Char) : List Char := cs.dropWhile isLinearBlank

def readToken (cs : List Char) : List Char × List Char := (cs.takeWhile isTokenChar, cs.dropWhile isTokenChar)

def readQuoted : List Char → Option (List Char × List Char)
  | [] => none
  | '"' :: rest => some ([], rest)
  | '\\' :: c :: rest =>
    if isQuotable c then (readQuoted rest).map fun (content, rest) => (c :: content, rest) else none
  | c :: rest => if isQuotedText c then (readQuoted rest).map fun (content, rest) =>
    (c :: content, rest) else none

def readValueChars : List Char → List Char × List Char
  | [] => ([], [])
  | '%' :: high :: low :: rest =>
    if isHexChar high && isHexChar low then
      let (encoded, rest) := readValueChars rest
      ('%' :: high :: low :: encoded, rest)
    else ([], '%' :: high :: low :: rest)
  | c :: rest =>
    if isAttrChar c then
      let (encoded, rest) := readValueChars rest
      (c :: encoded, rest)
    else ([], c :: rest)

-- A charset and a language, each before an apostrophe, and the encoded characters.
def readExtended (cs : List Char) : Option (Value × List Char) :=
  let charset := cs.takeWhile isCharsetChar
  match cs.dropWhile isCharsetChar with
  | '\x27' :: tagged =>
    let language := tagged.takeWhile isLanguageChar
    match tagged.dropWhile isLanguageChar with
    | '\x27' :: rest =>
      if charset = [] then none
      else
        let (encoded, rest) := readValueChars rest
        some (.extended (String.ofList charset) (String.ofList language) (String.ofList encoded), rest)
    | _ => none
  | _ => none

def readText (cs : List Char) : Option (Value × List Char) :=
  match cs with
  | '"' :: quoted => (readQuoted quoted).map fun (content, rest) => (.text (String.ofList content), rest)
  | _ =>
    let (token, rest) := readToken cs
    if token = [] then none else some (.text (String.ofList token), rest)

-- The value of a name that ends in an asterisk is an extended one.
def readParameter (cs : List Char) : Option ((String × Value) × List Char) :=
  let (name, rest) := readToken cs
  if name = [] then none
  else
    match skipBlanks rest with
    | '=' :: rest =>
      let value := skipBlanks rest
      let read := if name.getLast? = some '*' then readExtended value else readText value
      read.map fun (value, rest) => ((String.ofList name, value), rest)
    | _ => none

def readParameters : Nat → List Char → Option (List (String × Value))
  | fuel, cs =>
    match skipBlanks cs with
    | [] => some []
    | ';' :: rest =>
      match fuel with
      | 0 => none
      | fuel + 1 => (readParameter (skipBlanks rest)).bind fun (parameter, rest) =>
        (readParameters fuel rest).map (parameter :: ·)
    | _ => none

-- No parameter may be named twice, in whatever case.
def parseHeader (value : String) : Option Parsed :=
  let (type, rest) := readToken (skipBlanks value.toList)
  if type = [] then none
  else (readParameters rest.length rest).bind fun parameters =>
    if (parameters.map fun parameter => parameter.1.toList.map Char.toLower).Nodup then
      some ⟨String.ofList type, parameters⟩
    else none

theorem readToken_append {token rest : List Char} (legal : ∀ c ∈ token, isTokenChar c)
    (ends : ∀ c ∈ rest.head?, isTokenChar c = false) : readToken (token ++ rest) = (token, rest) := by
  have stops : rest.takeWhile isTokenChar = [] ∧ rest.dropWhile isTokenChar = rest := by
    cases rest with
    | nil => exact ⟨rfl, rfl⟩
    | cons c rest => simp [ends c (by simp)]
  rw [readToken, List.takeWhile_append_of_pos legal, List.dropWhile_append_of_pos legal, stops.1, stops.2,
    List.append_nil]

theorem readToken_equals {name : List Char} (legal : ∀ c ∈ name, isTokenChar c) (rest : List Char) :
    readToken (name ++ '=' :: rest) = (name, '=' :: rest) := by
  apply readToken_append legal
  intro c first
  obtain rfl : '=' = c := by simpa using first
  decide

theorem readQuoted_plain {content rest : List Char} (plain : ∀ c ∈ content, isQuotedText c) :
    readQuoted (content ++ '"' :: rest) = some (content, rest) := by
  induction content with
  | nil => simp [readQuoted]
  | cons c content ih =>
    have here := plain c (by simp)
    have onward := ih fun other member => plain other (List.mem_cons_of_mem _ member)
    have apart : c ≠ '"' ∧ c ≠ '\\' := by
      simp only [isQuotedText, Bool.and_eq_true, decide_eq_true_eq] at here
      exact ⟨here.1.2, here.2⟩
    rw [List.cons_append, readQuoted]
    · simp [here, onward]
    · exact apart.1
    · rintro _ _ rfl
      exact absurd rfl apart.2

inductive ValueChars : List Char → Prop
  | done : ValueChars []
  | kept {c : Char} {rest : List Char} (attr : isAttrChar c) (onward : ValueChars rest) :
      ValueChars (c :: rest)
  | escaped {high low : Char} {rest : List Char} (digits : isHexChar high ∧ isHexChar low)
      (onward : ValueChars rest) : ValueChars ('%' :: high :: low :: rest)

theorem readValueChars_all {encoded : List Char} (chars : ValueChars encoded) :
    readValueChars encoded = (encoded, []) := by
  induction chars with
  | done => rfl
  | @kept c rest attr onward ih =>
    have plain : c ≠ '%' := by
      rintro rfl
      revert attr
      decide
    rw [readValueChars]
    · simp [attr, ih]
    · rintro _ _ _ rfl
      exact absurd rfl plain
  | escaped digits onward ih => simp [readValueChars, digits, ih]

theorem ValueChars.append {front back : List Char} (first : ValueChars front) (second : ValueChars back) :
    ValueChars (front ++ back) := by
  induction first with
  | done => exact second
  | kept attr onward ih => exact .kept attr ih
  | escaped digits onward ih => exact .escaped digits ih

section

variable (name rest : List Char) (legal : ∀ c ∈ name, isTokenChar c) (named : name ≠ [])
include legal named

theorem readParameter_quoted {content : List Char} (bare : name.getLast? ≠ some '*')
    (plain : ∀ c ∈ content, isQuotedText c) :
    readParameter (name ++ '=' :: '"' :: (content ++ '"' :: rest)) =
      some ((String.ofList name, .text (String.ofList content)), rest) := by
  have token := readToken_equals legal ('"' :: (content ++ '"' :: rest))
  have equals :
  skipBlanks ('=' :: '"' :: (content ++ '"' :: rest)) = '=' :: '"' :: (content ++ '"' :: rest) := rfl
  have quote : skipBlanks ('"' :: (content ++ '"' :: rest)) = '"' :: (content ++ '"' :: rest) := rfl
  simp only [readParameter, token, if_neg named, equals, quote, if_neg bare, readText, readQuoted_plain plain,
    Option.map_some]

omit rest in
theorem readParameter_extended (charset : List Char) {encoded : List Char}
    (starred : name.getLast? = some '*') (known : ∀ c ∈ charset, isCharsetChar c)
    (first : ∃ c more, charset = c :: more ∧ isLinearBlank c = false) (chars : ValueChars encoded) :
    readParameter (name ++ '=' :: (charset ++ '\x27' :: '\x27' :: encoded)) =
      some ((String.ofList name, .extended (String.ofList charset) "" (String.ofList encoded)), []) := by
  obtain ⟨c, more, spelled, solid⟩ := first
  have token := readToken_equals legal (charset ++ '\x27' :: '\x27' :: encoded)
  have equals : skipBlanks ('=' :: (charset ++ '\x27' :: '\x27' :: encoded)) =
      '=' :: (charset ++ '\x27' :: '\x27' :: encoded) := rfl
  have start :
      skipBlanks (charset ++ '\x27' :: '\x27' :: encoded) = charset ++ '\x27' :: '\x27' :: encoded := by
    rw [spelled, List.cons_append, skipBlanks, List.dropWhile_cons_of_neg (by simp [solid])]
  have charsetEnds (rest : List Char) : ('\x27' :: rest).takeWhile isCharsetChar = [] ∧
      ('\x27' :: rest).dropWhile isCharsetChar = '\x27' :: rest := ⟨rfl, rfl⟩
  have languageEnds (rest : List Char) : ('\x27' :: rest).takeWhile isLanguageChar = [] ∧
      ('\x27' :: rest).dropWhile isLanguageChar = '\x27' :: rest := ⟨rfl, rfl⟩
  have filled : charset ≠ [] := by simp [spelled]
  simp only [readParameter, token, if_neg named, equals, start, starred, if_true, readExtended,
    List.takeWhile_append_of_pos known, List.dropWhile_append_of_pos known, charsetEnds,
    languageEnds, List.append_nil,
    if_neg filled, readValueChars_all chars, Option.map_some, String.ofList_nil]

end

theorem readParameters_nil (fuel : Nat) : readParameters fuel [] = some [] := by
  cases fuel <;> rfl

theorem isTokenChar_solid {c : Char} (token : isTokenChar c) : isLinearBlank c = false := by
  cases blank : isLinearBlank c with
  | false => rfl
  | true =>
    simp only [isLinearBlank, Bool.or_eq_true, decide_eq_true_eq] at blank
    rcases blank with rfl | rfl <;> exact absurd token (by decide)

theorem readParameters_cons (fuel : Nat) {name more rest : List Char} {parameter : String × Value}
    {others : List (String × Value)} (legal : ∀ c ∈ name, isTokenChar c) (named : name ≠ [])
    (here : readParameter (name ++ more) = some (parameter, rest))
    (onward : readParameters fuel rest = some others) :
    readParameters (fuel + 1) (';' :: ' ' :: (name ++ more)) = some (parameter :: others) := by
  have semicolon : skipBlanks (';' :: ' ' :: (name ++ more)) = ';' :: ' ' :: (name ++ more) := rfl
  have skipped : skipBlanks (' ' :: (name ++ more)) = name ++ more := by
    obtain ⟨c, letters, rfl⟩ := List.exists_cons_of_ne_nil named
    have solid := isTokenChar_solid (legal c (by simp))
    have blank : isLinearBlank ' ' := by decide
    rw [skipBlanks, List.dropWhile_cons_of_pos blank, List.cons_append,
      List.dropWhile_cons_of_neg (by simp [solid])]
  rw [readParameters, semicolon]
  simp only [skipped, here, Option.bind_some, onward, Option.map_some]

theorem parseHeader_eq {type rest : List Char} {parameters : List (String × Value)}
    (legal : ∀ c ∈ type, isTokenChar c) (typed : type ≠ [])
    (ends : ∀ c ∈ rest.head?, isTokenChar c = false)
    (read : readParameters rest.length rest = some parameters)
    (distinct : (parameters.map fun parameter => parameter.1.toList.map Char.toLower).Nodup) :
    parseHeader (String.ofList (type ++ rest)) = some ⟨String.ofList type, parameters⟩ := by
  have start : skipBlanks (type ++ rest) = type ++ rest := by
    obtain ⟨c, more, rfl⟩ := List.exists_cons_of_ne_nil typed
    have solid := isTokenChar_solid (legal c (by simp))
    rw [List.cons_append, skipBlanks, List.dropWhile_cons_of_neg (by simp [solid])]
  simp only [parseHeader, String.toList_ofList, start, readToken_append legal ends, if_neg typed, read,
    Option.bind_some, if_pos distinct]

end Disposition
