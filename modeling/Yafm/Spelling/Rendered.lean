import Yafm.ChildPath

set_option autoImplicit false

namespace Yafm

open Text Posix

theorem isAsciiGraphic_lt {byte : UInt8} (graphic : isAsciiGraphic byte) : byte < 0x80 := by
  have each (byte : UInt8) : isAsciiGraphic byte → byte < 0x80 := by
    revert byte
    exact forall_byte (by decide +kernel)
  exact each byte graphic

theorem encodeEntryByte_graphic (byte : UInt8) :
    ∀ other ∈ encodeEntryByte byte, isAsciiGraphic other ∧ other ≠ asciiByte '/' ∧
    other ≠ asciiByte '\\' := by
  have each : ∀ source, ∀ other ∈ encodeEntryByte source,
      isAsciiGraphic other && other != asciiByte '/' && other != asciiByte '\\' :=
    forall_byte_all (by decide +kernel)
  intro other member
  simpa [and_assoc] using each byte other member

theorem graphic_untrimmed {bytes : Bytes} (graphic : ∀ byte ∈ bytes, isAsciiGraphic byte) :
    ∀ c ∈ (asciiText bytes).toList, isWhitespace c = false := by
  have each (byte : UInt8) : isAsciiGraphic byte → isWhitespace (Char.ofNat byte.toNat) = false := by
    revert byte
    exact forall_byte (by decide +kernel)
  intro c member
  rw [asciiText, String.toList_ofList] at member
  obtain ⟨byte, inside, rfl⟩ := List.mem_map.mp member
  exact each byte (graphic byte inside)

theorem percentEncodeEntryName_text (text : String) : percentEncodeEntryName (asBytes text) = text := by
  rw [percentEncodeEntryName, fromUtf8_asBytes]

theorem asBytes_percentEncodeEntryName {name : Bytes} (noText : fromUtf8 name = none) :
    asBytes (percentEncodeEntryName name) = name.flatMap encodeEntryByte := by
  rw [percentEncodeEntryName, noText]
  refine asBytes_asciiText fun byte member => ?_
  obtain ⟨source, _, within⟩ := List.mem_flatMap.mp member
  exact isAsciiGraphic_lt (encodeEntryByte_graphic source byte within).1

theorem decodeEscapes_encoded (raw : Bytes) : decodeEscapes (raw.flatMap encodeEntryByte) = raw := by
  unfold encodeEntryByte
  exact decodeEscapes_escaped (by decide) raw

theorem percentDecodeBytes_rendered {raw : Bytes} (noText : fromUtf8 raw = none) :
    percentDecodeBytes (percentEncodeEntryName raw) = raw := by
  rw [percentDecodeBytes, asBytes_percentEncodeEntryName noText, decodeEscapes_encoded]

theorem asBytes_rendered_text {raw : Bytes} (text : (fromUtf8 raw).isSome) :
    asBytes (percentEncodeEntryName raw) = raw := by
  obtain ⟨name, found⟩ := Option.isSome_iff_exists.mp text
  rw [percentEncodeEntryName, found]
  exact (fromUtf8_eq_some _ _).mp found

theorem rendered_named (name : Name) : percentEncodeEntryName name.bytes ≠ "" := by
  intro empty
  cases text : fromUtf8 name.bytes with
  | some spelled =>
    have bytes := asBytes_rendered_text (by simp [text] : (fromUtf8 name.bytes).isSome)
    rw [empty] at bytes
    exact name.valid.1 bytes.symm
  | none =>
    have bytes := percentDecodeBytes_rendered text
    rw [empty] at bytes
    exact name.valid.1 bytes.symm

theorem rendered_clean (name : Name) : '/' ∉ (percentEncodeEntryName name.bytes).toList := by
  rw [← asciiByte_mem_asBytes (by decide)]
  cases text : fromUtf8 name.bytes with
  | some spelled =>
    rw [asBytes_rendered_text (by simp [text])]
    exact name.valid.2.1
  | none =>
    rw [asBytes_percentEncodeEntryName text, List.mem_flatMap]
    rintro ⟨byte, _, inside⟩
    exact (encodeEntryByte_graphic byte _ inside).2.1 rfl

-- The listed name is one segment, which validation leaves alone and which stands for the file it was
-- listed for.
def DecodesBack (raw : Bytes) : Prop :=
  split '/' (percentEncodeEntryName raw) = [percentEncodeEntryName raw] ∧
  validateRelativePath (percentEncodeEntryName raw) = .ok (percentEncodeEntryName raw) ∧
  percentDecodeRelativePath (percentEncodeEntryName raw) = .ok [raw]

section

variable {raw : Bytes} (name : ValidName raw) (noText : fromUtf8 raw = none)
include noText

theorem not_mem_encoded {c : Char} (ascii : c.toNat < 0x80)
    (escaped : ∀ source, asciiByte c ∉ encodeEntryByte source) : c ∉ (percentEncodeEntryName raw).toList := by
  rw [← asciiByte_mem_asBytes ascii, asBytes_percentEncodeEntryName noText, List.mem_flatMap]
  rintro ⟨source, _, inside⟩
  exact escaped source inside

theorem encoded_untrimmed : ∀ c ∈ (percentEncodeEntryName raw).toList, isWhitespace c = false := by
  rw [percentEncodeEntryName, noText]
  apply graphic_untrimmed
  intro byte member
  obtain ⟨source, _, inside⟩ := List.mem_flatMap.mp member
  exact (encodeEntryByte_graphic source byte inside).1

include name

theorem encoded_entryText : EntryText (percentEncodeEntryName raw) := by
  have decoded := percentDecodeBytes_rendered noText
  refine ⟨?_, ?_, ?_, ?_, ?_⟩
  · intro empty
    rw [empty] at decoded
    exact name.1 decoded.symm
  · intro dot
    rw [dot] at decoded
    exact name.2.2.2.1 decoded.symm
  · intro parent
    rw [parent] at decoded
    exact name.2.2.2.2 decoded.symm
  · exact not_mem_encoded noText (by decide) fun source inside =>
      (encodeEntryByte_graphic source _ inside).2.1 rfl
  · exact not_mem_encoded noText (by decide) fun source inside =>
      absurd (encodeEntryByte_graphic source _ inside).1 (by decide)

theorem decodesBack_iff : DecodesBack raw ↔ asciiByte '\\' ∉ raw := by
  have entry := encoded_entryText name noText
  have names : ∀ part ∈ [percentEncodeEntryName raw], EntryText part := by
    intro part member
    rwa [List.mem_singleton.mp member]
  have single := split_singleton entry.clean.1
  have read : percentDecodeRelativePath (percentEncodeEntryName raw) = .ok [raw] ↔ PlainBytes raw := by
    have parts := decodeComponents_iff (fun part member => (names part member).named) [raw]
    rw [percentDecodeRelativePath, single, parts]
    simp [percentDecodeBytes_rendered noText]
  constructor
  · rintro ⟨_, _, decoded⟩
    exact (read.mp decoded).clean.2.1
  · intro noBackslash
    refine ⟨single, ?_, read.mpr ⟨name.1, name.2.2.2.2, name.2.1, noBackslash, name.2.2.1⟩⟩
    have clean : '\\' ∉ (percentEncodeEntryName raw).toList :=
      not_mem_encoded noText (by decide) fun source inside =>
        (encodeEntryByte_graphic source _ inside).2.2 rfl
    have whole := validateRelativePath_join_iff names
    rw [join_singleton] at whole
    refine whole.mpr ⟨⟨?_, ?_⟩, ?_⟩
    · exact fun c first => encoded_untrimmed noText c (List.mem_of_mem_head? first)
    · exact fun c last => encoded_untrimmed noText c (List.mem_of_getLast? last)
    · intro part member
      rwa [List.mem_singleton.mp member]

end

theorem decodesBack_latin1 : DecodesBack [0x63, 0x61, 0x66, 0xe9, 0x25, 0x34, 0x31] ↔
    asciiByte '\\' ∉ ([0x63, 0x61, 0x66, 0xe9, 0x25, 0x34, 0x31] : Bytes) :=
  decodesBack_iff (by decide) (by decide +kernel)

-- The encoder escapes a backslash and the decoder refuses what it stands for.
theorem not_decodesBack_backslash : ¬∀ raw, ValidName raw → fromUtf8 raw = none → DecodesBack raw := by
  intro always
  have back := always [0xff, 0x5c] (by decide) (by decide +kernel)
  have refused : percentDecodeRelativePath (percentEncodeEntryName [0xff, 0x5c]) ≠ .ok [[0xff, 0x5c]] := by
    decide +kernel
  exact refused back.2.2

end Yafm
