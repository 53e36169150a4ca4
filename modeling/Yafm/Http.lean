import Yafm.Paths

set_option autoImplicit false

namespace Yafm

open Text

def isHeaderByte (byte : UInt8) : Bool := byte = 9 || (32 ≤ byte && byte ≠ 127)

-- `HeaderValue::from_str`.
def headerValue (text : String) : Option String := if (asBytes text).all isHeaderByte then some text else none

-- `HeaderValue::to_str`: a value other than visible ASCII reads as nothing.
def headerText (value : Bytes) : Option String :=
  if value.all fun byte => byte = 9 || (32 ≤ byte && byte < 127) then some (asciiText value) else none

theorem headerText_asBytes {text : String} (visible : ∀ c ∈ text.toList, 0x20 ≤ c.toNat ∧ c.toNat < 0x7f) :
    headerText (asBytes text) = some text := by
  have ascii : ∀ c ∈ text.toList, c.toNat < 0x80 := fun c member => by have := (visible c member).2; omega
  have bytes : asBytes text = text.toList.map asciiByte := asBytes_ascii ascii
  have small : ∀ byte ∈ asBytes text, byte < 0x80 := by
    rw [bytes, List.forall_mem_map]
    exact fun c member => asciiByte_lt (ascii c member)
  have shown : (asBytes text).all fun byte => byte = 9 || (32 ≤ byte && byte < 127) := by
    rw [bytes, List.all_map, List.all_eq_true]
    intro c member
    obtain ⟨low, high⟩ := visible c member
    have code : (asciiByte c).toNat = c.toNat := by
      rw [asciiByte, UInt8.toNat_ofNat']
      omega
    have printable : (32 : UInt8) ≤ asciiByte c ∧ asciiByte c < 127 := by
      rw [UInt8.le_iff_toNat_le, UInt8.lt_iff_toNat_lt, code]
      exact ⟨low, high⟩
    simp [printable]
  rw [headerText, if_pos shown]
  exact congrArg some (asBytes_injective (asBytes_asciiText small))

abbrev HeaderMap := List (String × Bytes)

def HeaderMap.get (headers : HeaderMap) (name : String) : Option Bytes :=
  (headers.find? fun header => header.1 = name).map Prod.snd

def HeaderMap.getText (headers : HeaderMap) (name : String) : Option String :=
  (headers.get name).bind headerText

inductive EntryKind where
  | file
  | directory
  deriving DecidableEq, Repr

structure DirectoryEntry where
  name : String
  kind : EntryKind
  canDelete : Bool
  sizeBytes : Option Nat
  modifiedAt : Option String
  deriving DecidableEq, Repr

structure DirectoryListing where
  currentPath : String
  parentPath : Option String
  entries : List DirectoryEntry
  deriving DecidableEq, Repr

structure UserInfo where
  subject : String
  displayName : String
  email : Option String
  deriving DecidableEq, Repr

inductive Body where
  | empty
  | message (text : String)
  | health (status service : String)
  | user (info : UserInfo)
  | listing (listing : DirectoryListing)
  | content (bytes : Bytes)
  deriving DecidableEq, Repr

structure Response where
  status : Nat
  headers : List (String × String) := []
  body : Body := .empty
  deriving DecidableEq, Repr

def ApiError.intoResponse (error : ApiError) : Response :=
  { status := error.status, body := .message error.message }

def settled (outcome : Except ApiError Response) : Response :=
  match outcome with
  | .ok response => response
  | .error error => error.intoResponse

end Yafm
