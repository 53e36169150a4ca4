import Yafm.Server.Router
import Yafm.Shared.Blank

set_option autoImplicit false

namespace Yafm

open Text

def percentEncodeExcept (keep : UInt8 → Bool) (text : String) : String :=
  asciiText ((asBytes text).flatMap fun byte => if keep byte then [byte] else percentEscape byte)

def isComponentByte (byte : UInt8) : Bool :=
  isAsciiAlphanumeric byte || (asBytes "-_.!~*'()").contains byte

def encodeURIComponent (text : String) : String := percentEncodeExcept isComponentByte text

def isFormByte (byte : UInt8) : Bool := isAsciiAlphanumeric byte || (asBytes "*-._").contains byte

def keepsSpace (byte : UInt8) : Bool := isFormByte byte || byte = asciiByte ' '

def plusForSpace (c : Char) : Char := if c = ' ' then '+' else c

-- One name or value of `URLSearchParams.toString`: spaces become plus signs.
def formEncode (text : String) : String :=
  String.ofList ((percentEncodeExcept keepsSpace text).toList.map plusForSpace)

def searchParams (fields : List (String × String)) : String :=
  join '&' (fields.map fun field => formEncode field.1 ++ "=" ++ formEncode field.2)

section

variable {keep : UInt8 → Bool}

def isEscapeByte (byte : UInt8) : Bool := byte = asciiByte '%' || isAsciiAlphanumeric byte

theorem percentEscape_bytes : ∀ source, ∀ byte ∈ percentEscape source, isEscapeByte byte :=
  forall_byte_all (by decide +kernel)

theorem mem_escaped {raw : Bytes} {byte : UInt8}
    (member : byte ∈ raw.flatMap fun byte => if keep byte then [byte] else percentEscape byte) :
    keep byte ∨ isEscapeByte byte := by
  obtain ⟨source, _, inside⟩ := List.mem_flatMap.mp member
  split at inside
  next kept =>
    rw [List.mem_singleton.mp inside]
    exact .inl kept
  next => exact .inr (percentEscape_bytes source byte inside)

theorem isEscapeByte_ascii (byte : UInt8) : isEscapeByte byte → byte < 0x80 := by
  revert byte
  exact forall_byte (by decide +kernel)

variable (ascii : ∀ byte, keep byte → byte < 0x80)
include ascii

theorem escaped_ascii (raw : Bytes) :
    ∀ byte ∈ raw.flatMap fun byte => if keep byte then [byte] else percentEscape byte, byte < 0x80 :=
  fun byte member => (mem_escaped member).elim (ascii byte) (isEscapeByte_ascii byte)

theorem asBytes_percentEncodeExcept (text : String) : asBytes (percentEncodeExcept keep text) =
    (asBytes text).flatMap fun byte => if keep byte then [byte] else percentEscape byte :=
  asBytes_asciiText (escaped_ascii ascii _)

theorem percentEncodeExcept_decodes (apart : keep (asciiByte '%') = false) (text : String) :
    percentDecodeBytes (percentEncodeExcept keep text) = asBytes text := by
  rw [percentDecodeBytes, asBytes_percentEncodeExcept ascii, decodeEscapes_escaped apart]

omit ascii in
theorem mem_percentEncodeExcept {text : String} {c : Char}
    (member : c ∈ (percentEncodeExcept keep text).toList) :
    ∃ byte, (keep byte ∨ isEscapeByte byte) ∧ c = Char.ofNat byte.toNat := by
  rw [percentEncodeExcept, asciiText, String.toList_ofList] at member
  obtain ⟨byte, inside, rfl⟩ := List.mem_map.mp member
  exact ⟨byte, mem_escaped inside, rfl⟩

end

theorem not_mem_percentEncodeExcept {keep : UInt8 → Bool} {c : Char}
    (dropped : keep (asciiByte c) = false) (foreign : isEscapeByte (asciiByte c) = false) (text : String) :
    c ∉ (percentEncodeExcept keep text).toList := by
  intro member
  obtain ⟨byte, written, same⟩ := mem_percentEncodeExcept member
  have valid (byte : UInt8) : (Char.ofNat byte.toNat).toNat = byte.toNat := by
    revert byte
    exact forall_byte (by decide +kernel)
  have code : asciiByte c = byte := by rw [asciiByte, same, valid, UInt8.ofNat_toNat]
  rw [code] at dropped foreign
  rcases written with kept | escape
  · rw [dropped] at kept
    cases kept
  · rw [foreign] at escape
    cases escape

theorem isComponentByte_ascii (byte : UInt8) : isComponentByte byte → byte < 0x80 := by
  revert byte
  exact forall_byte (by decide +kernel)

theorem isUnreserved_below (byte : UInt8) : isUnreserved byte → byte < 0x80 :=
  fun kept => isUnreserved_ascii byte (.inl kept)

theorem keepsSpace_ascii (byte : UInt8) : keepsSpace byte → byte < 0x80 := by
  revert byte
  exact forall_byte (by decide +kernel)

theorem not_mem_formEncode {c : Char} (dropped : keepsSpace (asciiByte c) = false)
    (foreign : isEscapeByte (asciiByte c) = false) (other : c ≠ '+') (text : String) :
    c ∉ (formEncode text).toList := by
  rw [formEncode, String.toList_ofList, List.mem_map]
  rintro ⟨written, member, same⟩
  unfold plusForSpace at same
  split at same
  · exact other same.symm
  · subst same
    exact not_mem_percentEncodeExcept dropped foreign text member

section

variable {platform : Platform} (lossy : ∀ text, platform.lossy (asBytes text) = text)
include lossy

theorem formDecode_encoded {keep : UInt8 → Bool} (ascii : ∀ byte, keep byte → byte < 0x80)
    (apart : keep (asciiByte '%') = false) (unsigned : keep (asciiByte '+') = false) (text : String) :
    formDecode platform (percentEncodeExcept keep text) = text := by
  have clear := not_mem_percentEncodeExcept unsigned (by decide) text
  have same : (percentEncodeExcept keep text).toList.map (fun c => if c = '+' then ' ' else c) =
      (percentEncodeExcept keep text).toList := by
    refine (List.map_congr_left ?_).trans (List.map_id _)
    intro c member
    refine if_neg ?_
    rintro rfl
    exact clear member
  rw [formDecode, same, String.ofList_toList, percentEncodeExcept_decodes ascii apart, lossy]

theorem formDecode_formEncode (text : String) : formDecode platform (formEncode text) = text := by
  have clear : '+' ∉ (percentEncodeExcept keepsSpace text).toList :=
    not_mem_percentEncodeExcept (by decide) (by decide) text
  have same : (formEncode text).toList.map (fun c => if c = '+' then ' ' else c) =
      (percentEncodeExcept keepsSpace text).toList := by
    rw [formEncode, String.toList_ofList, List.map_map]
    refine (List.map_congr_left ?_).trans (List.map_id _)
    intro c member
    rw [Function.comp_apply, plusForSpace]
    split
    next space => rw [if_pos rfl, space, id]
    next other =>
      refine if_neg ?_
      rintro rfl
      exact clear member
  rw [formDecode, same, String.ofList_toList, percentEncodeExcept_decodes keepsSpace_ascii (by decide), lossy]

theorem formUrlencodedParse_searchParams (fields : List (String × String)) :
    formUrlencodedParse platform (searchParams fields) = fields := by
  have named (field : String × String) : formEncode field.1 ++ "=" ++ formEncode field.2 ≠ "" := by
    intro empty
    have chars := congrArg String.toList empty
    simp at chars
  have whole (field : String × String) : '&' ∉ (formEncode field.1 ++ "=" ++ formEncode field.2).toList := by
    have left : '&' ∉ (formEncode field.1).toList :=
      not_mem_formEncode (by decide) (by decide) (by decide) field.1
    have right : '&' ∉ (formEncode field.2).toList :=
      not_mem_formEncode (by decide) (by decide) (by decide) field.2
    simp [left, right]
  have cut (field : String × String) :
      splitOnce '=' (formEncode field.1 ++ "=" ++ formEncode field.2) =
        some (formEncode field.1, formEncode field.2) := by
    refine splitOnce_eq_some.mpr ⟨rfl, ?_⟩
    exact not_mem_formEncode (by decide) (by decide) (by decide) field.1
  unfold formUrlencodedParse searchParams
  by_cases none : fields = []
  · subst none
    rfl
  rw [split_join (by simpa using none)]
  · have filled : ∀ part ∈ fields.map fun field =>
      formEncode field.1 ++ "=" ++ formEncode field.2, part ≠ "" := by
      rw [List.forall_mem_map]
      exact fun field _ => named field
    rw [List.filter_eq_self.mpr (by simpa using filled), List.map_map]
    refine (List.map_congr_left ?_).trans (List.map_id _)
    intro field member
    simp only [Function.comp_apply, cut, Option.getD_some, formDecode_formEncode lossy]
    rfl
  · intro part member
    obtain ⟨field, _, rfl⟩ := List.mem_map.mp member
    exact whole field

end

end Yafm
