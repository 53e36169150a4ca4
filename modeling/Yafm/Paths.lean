import Yafm.Shared.Posix
import Mathlib.Data.List.Forall2

set_option autoImplicit false

namespace Yafm

open Text

inductive ApiErrorKind where
  | badRequest
  | notFound
  | forbidden
  | unavailable
  deriving DecidableEq, Repr

structure ApiError where
  kind : ApiErrorKind
  message : String
  deriving DecidableEq, Repr

namespace ApiError

def badRequest (message : String) : ApiError := ⟨.badRequest, message⟩
def notFound (message : String) : ApiError := ⟨.notFound, message⟩
def forbidden (message : String) : ApiError := ⟨.forbidden, message⟩
def unavailable (message : String) : ApiError := ⟨.unavailable, message⟩

def status (error : ApiError) : Nat :=
  match error.kind with
  | .badRequest => 400
  | .notFound => 404
  | .forbidden => 403
  | .unavailable => 503

end ApiError

theorem map_ok {α β ε : Type} {change : α → β} {outcome : Except ε α} {result : β}
    (mapped : outcome.map change = .ok result) : ∃ value, outcome = .ok value ∧ change value = result := by
  cases outcome with
  | error error => cases mapped
  | ok value => exact ⟨value, rfl, Except.ok.inj mapped⟩

theorem bind_ok_iff {α β ε : Type} {first : Except ε α} {next : α → Except ε β} {result : β} :
    (first >>= next) = .ok result ↔ ∃ value, first = .ok value ∧ next value = .ok result := by
  cases first with
  | error error => exact iff_of_false nofun nofun
  | ok value =>
    constructor
    · intro bound
      exact ⟨value, rfl, bound⟩
    · rintro ⟨_, ⟨⟩, bound⟩
      exact bound

theorem bind_ok {α β ε : Type} {first : Except ε α} {next : α → Except ε β} {result : β}
    (bound : first >>= next = .ok result) : ∃ value, first = .ok value ∧ next value = .ok result :=
  bind_ok_iff.mp bound

theorem mapError_ok_iff {α ε ε' : Type} {outcome : Except ε α} {describe : ε → ε'} {result : α} :
    outcome.mapError describe = .ok result ↔ outcome = .ok result := by
  cases outcome with
  | error error => exact iff_of_false nofun nofun
  | ok value =>
    constructor
    · rintro ⟨⟩
      rfl
    · rintro ⟨⟩
      rfl

theorem mapM_ok {α β ε : Type} {f : α → Except ε β} {g : α → β} {items : List α}
    (each : ∀ item ∈ items, f item = .ok (g item)) : items.mapM f = .ok (items.map g) := by
  induction items with
  | nil => rfl
  | cons item rest ih =>
    rw [List.mapM_cons, each item (by simp), ih fun other member =>
      each other (List.mem_cons_of_mem _ member)]
    rfl

theorem mapM_ok_iff {α β ε : Type} {f : α → Except ε β} {items : List α} {results : List β} :
    items.mapM f = .ok results ↔ List.Forall₂ (fun item result => f item = .ok result) items results := by
  induction items generalizing results with
  | nil =>
    rw [List.forall₂_nil_left_iff, List.mapM_nil]
    exact ⟨fun mapped => (Except.ok.inj mapped).symm, fun empty => by rw [empty]; rfl⟩
  | cons item rest ih =>
    rw [List.forall₂_cons_left_iff, List.mapM_cons]
    constructor
    · intro mapped
      obtain ⟨value, first, mapped⟩ := bind_ok mapped
      obtain ⟨values, others, ended⟩ := bind_ok mapped
      exact ⟨value, values, first, ih.mp others, (Except.ok.inj ended).symm⟩
    · rintro ⟨value, values, first, others, rfl⟩
      rw [first, ih.mpr others]
      rfl

theorem forall₂_mem_left {α β : Type} {related : α → β → Prop} {items : List α} {results : List β}
    (pairs : List.Forall₂ related items results) {item : α} (member : item ∈ items) :
    ∃ result ∈ results, related item result := by
  induction pairs with
  | nil => cases member
  | cons here _ ih =>
    rcases List.mem_cons.mp member with rfl | later
    · exact ⟨_, List.mem_cons_self, here⟩
    · obtain ⟨result, inside, there⟩ := ih later
      exact ⟨result, List.mem_cons_of_mem _ inside, there⟩

theorem mem_mapM_ok {α β ε : Type} {f : α → Except ε β} {items : List α} {results : List β} {result : β}
    (mapped : items.mapM f = .ok results) (member : result ∈ results) : ∃ item ∈ items, f item = .ok result :=
  forall₂_mem_left (mapM_ok_iff.mp mapped).flip member

-- The walk over the raw segments: `.` drops out and `..` refuses the path.
def collectParts : List String → Except ApiError (List String)
  | [] => .ok []
  | "." :: rest => collectParts rest
  | ".." :: _ => .error (.notFound "The requested directory could not be found.")
  | part :: rest => (collectParts rest).map (part :: ·)

def validateRelativePath (input : String) : Except ApiError String :=
  let trimmed := trim input
  if trimmed = "" then .ok ""
  else if contains '\x00' trimmed || contains '\\' trimmed || startsWith "/" trimmed then
    .error (.badRequest "The requested path is invalid.")
  else
    (collectParts ((split '/' trimmed).filter (· ≠ ""))).map (join '/')

def pathSegments (relative : String) : List String :=
  if relative = "" then [] else split '/' relative

def parentPath (current : String) : Option String :=
  if current = "" then none
  else match rsplitOnce '/' current with
    | some (parent, _) => some parent
    | none => some ""

def toDigit (byte : UInt8) : Option UInt8 :=
  if asciiByte '0' ≤ byte ∧ byte ≤ asciiByte '9' then some (byte - asciiByte '0')
  else if asciiByte 'a' ≤ byte ∧ byte ≤ asciiByte 'f' then some (byte - asciiByte 'a' + 10)
  else if asciiByte 'A' ≤ byte ∧ byte ≤ asciiByte 'F' then some (byte - asciiByte 'A' + 10)
  else none

def isHexDigit (byte : UInt8) : Bool := (toDigit byte).isSome

-- The byte an escape at this position stands for: a `%` that two hex digits follow.
def escapeValue (byte high low : UInt8) : Option UInt8 :=
  if byte = asciiByte '%' then
    match toDigit high, toDigit low with
    | some upper, some lower => some (upper * 0x10 + lower)
    | _, _ => none
  else none

def decodeEscapes : Bytes → Bytes
  | byte :: high :: low :: tail =>
    match escapeValue byte high low with
    | some value => value :: decodeEscapes tail
    | none => byte :: decodeEscapes (high :: low :: tail)
  | byte :: rest => byte :: decodeEscapes rest
  | [] => []

def percentDecodeBytes (input : String) : Bytes := decodeEscapes (asBytes input)

def hexDigit (value : UInt8) : UInt8 :=
  if value < 10 then value + asciiByte '0' else value - 10 + asciiByte 'A'

def percentEscape (byte : UInt8) : Bytes := [asciiByte '%', hexDigit (byte >>> 4), hexDigit (byte &&& 0x0f)]

def isAsciiGraphic (byte : UInt8) : Bool := 0x21 ≤ byte && byte ≤ 0x7e

def encodeEntryByte (byte : UInt8) : Bytes :=
  if isAsciiGraphic byte && byte ≠ asciiByte '%' && byte ≠ asciiByte '\\' && byte ≠ asciiByte '/' then [byte]
  else percentEscape byte

def percentEncodeEntryName (raw : Bytes) : String :=
  match fromUtf8 raw with
  | some name => name
  | none => asciiText (raw.flatMap encodeEntryByte)

-- Bytes that validation refuses in a path and an escape could bring back.
def hidesSeparator (bytes : Bytes) : Bool :=
  bytes.contains (asciiByte '/') || bytes.contains (asciiByte '\\') || bytes.contains 0

def decodeComponents : List String → Except ApiError (List Bytes)
  | [] => .ok []
  | component :: rest =>
    let bytes := percentDecodeBytes component
    if hidesSeparator bytes then
      .error (.badRequest "The requested path is invalid.")
    else if bytes = asBytes ".." then
      .error (.notFound "The requested directory could not be found.")
    else
      (decodeComponents rest).map fun decoded => if bytes = [] then decoded else bytes :: decoded

-- The components the handlers push onto a path, in order.
def percentDecodeRelativePath (relative : String) : Except ApiError (List Bytes) :=
  decodeComponents (split '/' relative)

example : validateRelativePath " ./a//b/./c d " = .ok "a/b/c d" := by decide
example : percentDecodeRelativePath "a%20b/%ff%2" = .ok [[97, 32, 98], [255, 37, 50]] := by decide

end Yafm
