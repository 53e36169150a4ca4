import Yafm.Decoding
import Yafm.Files.Download
import Yafm.Shared.Disposition

set_option autoImplicit false

namespace Yafm

open Text Disposition

def IsAscii (text : String) : Prop := (asBytes text).all fun byte => byte < 128

def HasControl (text : String) : Prop := ∃ c ∈ text.toList, c ≠ '\t' ∧ (c < ' ' ∨ c = '\x7f')

structure CarriesName (fileName value : String) : Prop where
  bare : value = "attachment" ↔ IsAscii fileName ∧ HasControl fileName
  plain : IsAscii fileName → ¬HasControl fileName →
    parseHeader value = some ⟨"attachment", [("filename", .text fileName)]⟩
  extended : ¬IsAscii fileName → ∃ encoded,
    parseHeader value =
      some ⟨"attachment", [("filename", .text encoded), ("filename*", .extended "UTF-8" "" encoded)]⟩ ∧
    ValueChars encoded.toList ∧ percentDecodeBytes encoded = asBytes fileName

theorem semicolon_ends {rest : List Char} : ∀ c ∈ (';' :: rest).head?, isTokenChar c = false := by
  intro c first
  obtain rfl : ';' = c := by simpa using first
  decide

theorem attachment_token : ∀ c ∈ "attachment".toList, isTokenChar c := List.all_eq_true.mp (by decide)

theorem filename_token : ∀ c ∈ "filename".toList, isTokenChar c := List.all_eq_true.mp (by decide)

theorem filenameStar_token : ∀ c ∈ "filename*".toList, isTokenChar c := List.all_eq_true.mp (by decide)

theorem utf8_charset : ∀ c ∈ "UTF-8".toList, isCharsetChar c := List.all_eq_true.mp (by decide)

theorem parseHeader_plain {content : String} (plain : ∀ c ∈ content.toList, isQuotedText c) :
    parseHeader ("attachment; filename=\"" ++ content ++ "\"") =
      some ⟨"attachment", [("filename", .text content)]⟩ := by
  have chars : "attachment; filename=\"" ++ content ++ "\"" = String.ofList ("attachment".toList ++
      ';' :: ' ' :: ("filename".toList ++ '=' :: '"' :: (content.toList ++ '"' :: []))) := by
    apply String.toList_inj.mp
    simp
  have parameter := readParameter_quoted "filename".toList [] filename_token (by decide) (by decide) plain
  have read := readParameters_cons
    (("filename".toList ++ '=' :: '"' :: (content.toList ++ '"' :: [])).length + 1)
    filename_token (by decide) parameter (readParameters_nil _)
  rw [chars, parseHeader_eq attachment_token (by decide) semicolon_ends read (by simp)]
  simp

theorem parseHeader_extended {encoded : String} (plain : ∀ c ∈ encoded.toList, isQuotedText c)
    (values : ValueChars encoded.toList) :
    parseHeader ("attachment; filename=\"" ++ encoded ++ "\"; filename*=UTF-8''" ++ encoded) =
      some ⟨"attachment", [("filename", .text encoded), ("filename*", .extended "UTF-8" "" encoded)]⟩ := by
  let companion : List Char := ';' :: ' ' ::
    ("filename*".toList ++ '=' :: ("UTF-8".toList ++ '\x27' :: '\x27' :: encoded.toList))
  have chars : "attachment; filename=\"" ++ encoded ++ "\"; filename*=UTF-8''" ++ encoded =
      String.ofList ("attachment".toList ++ ';' :: ' ' ::
        ("filename".toList ++ '=' :: '"' :: (encoded.toList ++ '"' :: companion))) := by
    apply String.toList_inj.mp
    simp [companion]
  have second := readParameter_extended "filename*".toList filenameStar_token (by decide) "UTF-8".toList
    (by decide) utf8_charset ⟨'U', "TF-8".toList, by decide, by decide⟩ values
  have first := readParameter_quoted "filename".toList companion filename_token (by decide) (by decide) plain
  have others (fuel : Nat) := readParameters_cons fuel filenameStar_token (by decide) second
    (readParameters_nil fuel)
  have read := readParameters_cons _ filename_token (by decide) first
    (others ("filename".toList ++ '=' :: '"' :: (encoded.toList ++ '"' :: companion)).length)
  rw [chars, parseHeader_eq attachment_token (by decide) semicolon_ends read (by simp)]
  simp

theorem encodeExtByte_legal (byte : UInt8) :
    ∀ written ∈ encodeExtByte byte, (written < 0x80 && isHeaderByte written &&
      isQuotedText (Char.ofNat written.toNat)) = true :=
  forall_byte_all (p := fun written => written < 0x80 && isHeaderByte written &&
    isQuotedText (Char.ofNat written.toNat))
    (by decide +kernel) byte

theorem encodeExtByte_values (byte : UInt8) :
    ValueChars ((encodeExtByte byte).map fun written => Char.ofNat written.toNat) := by
  have letters (byte : UInt8) :
      if isAsciiAlphanumeric byte || (asBytes "!#$&+-.^_\x60|~").contains byte then
        isAttrChar (Char.ofNat byte.toNat)
      else isHexChar (Char.ofNat (hexDigit (byte >>> 4)).toNat) ∧
        isHexChar (Char.ofNat (hexDigit (byte &&& 0x0f)).toNat) := by
    revert byte
    exact forall_byte (by decide +kernel)
  have each := letters byte
  unfold encodeExtByte
  split at each
  next kept =>
    rw [if_pos kept]
    exact .kept each .done
  next other =>
    rw [if_neg other]
    exact .escaped each .done

theorem mem_extBytes {name : String} {byte : UInt8} (member : byte ∈ (asBytes name).flatMap encodeExtByte) :
    byte < 0x80 ∧ isHeaderByte byte ∧ isQuotedText (Char.ofNat byte.toNat) := by
  obtain ⟨source, _, written⟩ := List.mem_flatMap.mp member
  have legal := encodeExtByte_legal source byte written
  simpa only [Bool.and_eq_true, decide_eq_true_eq, and_assoc] using legal

theorem asBytes_percentEncodeExtValue (name : String) :
    asBytes (percentEncodeExtValue name) = (asBytes name).flatMap encodeExtByte :=
  asBytes_asciiText fun _ member => (mem_extBytes member).1

theorem percentEncodeExtValue_quoted (name : String) :
    ∀ c ∈ (percentEncodeExtValue name).toList, isQuotedText c := by
  intro c member
  rw [percentEncodeExtValue, asciiText, String.toList_ofList] at member
  obtain ⟨byte, written, rfl⟩ := List.mem_map.mp member
  exact (mem_extBytes written).2.2

theorem percentEncodeExtValue_values (name : String) : ValueChars (percentEncodeExtValue name).toList := by
  rw [percentEncodeExtValue, asciiText, String.toList_ofList]
  induction asBytes name with
  | nil => exact .done
  | cons byte rest ih =>
    rw [List.flatMap_cons, List.map_append]
    exact (encodeExtByte_values byte).append ih

theorem percentEncodeExtValue_decodes (name : String) :
    percentDecodeBytes (percentEncodeExtValue name) = asBytes name := by
  rw [percentDecodeBytes, asBytes_percentEncodeExtValue]
  exact decodeEscapes_escaped (by decide) (asBytes name)

theorem headerValue_percentEncodeExtValue (name : String) :
    headerValue ("attachment; filename=\"" ++ percentEncodeExtValue name ++ "\"; filename*=UTF-8''" ++
        percentEncodeExtValue name) =
      some ("attachment; filename=\"" ++ percentEncodeExtValue name ++ "\"; filename*=UTF-8''" ++
        percentEncodeExtValue name) := by
  have encoded : (asBytes (percentEncodeExtValue name)).all isHeaderByte := by
    rw [asBytes_percentEncodeExtValue, List.all_eq_true]
    exact fun byte member => (mem_extBytes member).2.1
  rw [headerValue, if_pos]
  simp only [asBytes_append, List.all_append, encoded, Bool.and_true]
  decide

theorem isAscii_chars {text : String} (ascii : IsAscii text) : ∀ c ∈ text.toList, c.toNat < 0x80 := by
  intro c member
  by_contra wide
  obtain ⟨byte, more, code⟩ := List.exists_cons_of_length_pos
    (by rw [String.length_utf8EncodeChar]; exact c.utf8Size_pos : 0 < (String.utf8EncodeChar c).length)
  have inside : byte ∈ asBytes text := by
    rw [asBytes_eq, List.mem_flatMap]
    exact ⟨c, member, by simp [code]⟩
  have low : byte < 0x80 := by simpa using List.all_eq_true.mp ascii byte inside
  have high := utf8EncodeChar_high (Nat.le_of_not_lt wide) byte (by simp [code])
  exact absurd low (UInt8.not_lt.mpr high)

theorem isHeaderByte_ascii {c : Char} (ascii : c.toNat < 0x80) :
    isHeaderByte (asciiByte c) = isQuotable c := by
  have each : ∀ n < 0x80, isHeaderByte (asciiByte (Char.ofNat n)) = isQuotable (Char.ofNat n) := by
    decide +kernel
  have here := each c.toNat ascii
  rwa [Char.ofNat_toNat] at here

theorem hasControl_iff (text : String) : HasControl text ↔ ∃ c ∈ text.toList, isQuotable c = false := by
  have each (c : Char) : c ≠ '\t' ∧ (c < ' ' ∨ c = '\x7f') ↔ isQuotable c = false := by
    simp [isQuotable, imp_iff_not_or]
  simp only [HasControl, each]

theorem headerValue_plain {fileName : String} (ascii : IsAscii fileName) :
    headerValue ("attachment; filename=\"" ++ fileName ++ "\"") =
      if fileName.toList.all isQuotable then some ("attachment; filename=\"" ++ fileName ++ "\"")
        else none := by
  have legal : (asBytes ("attachment; filename=\"" ++ fileName ++ "\"")).all isHeaderByte = true ↔
      fileName.toList.all isQuotable := by
    have front : (asBytes "attachment; filename=\"").all isHeaderByte := by decide
    have back : (asBytes "\"").all isHeaderByte := by decide
    have chars := isAscii_chars ascii
    simp only [asBytes_append, List.all_append, front, back, asBytes_ascii chars, List.all_map, Bool.true_and,
      Bool.and_true, List.all_eq_true, Function.comp_apply]
    exact forall₂_congr fun c member => by rw [isHeaderByte_ascii (chars c member)]
  simp only [headerValue, legal]

theorem sanitizeFileName_clean (name : String) :
    ∀ c ∈ (sanitizeFileName name).toList, c ≠ '"' ∧ c ≠ '\\' := by
  intro c member
  rw [sanitizeFileName, String.toList_ofList] at member
  obtain ⟨source, _, rfl⟩ := List.mem_map.mp member
  split
  · decide
  next kept => simp_all

theorem parseHeader_bare : parseHeader "attachment" = some ⟨"attachment", []⟩ := by decide

theorem contentDisposition_carriesName (name : String) :
    CarriesName (sanitizeFileName name) (contentDispositionValue (sanitizeFileName name)) := by
  have clean := sanitizeFileName_clean name
  generalize sanitizeFileName name = fileName at clean ⊢
  by_cases ascii : IsAscii fileName
  · have value : contentDispositionValue fileName =
        (headerValue ("attachment; filename=\"" ++ fileName ++ "\"")).getD
        "attachment" := if_pos ascii
    rw [value, headerValue_plain ascii]
    by_cases control : HasControl fileName
    · have illegal : ¬fileName.toList.all isQuotable := by
        rw [List.all_eq_true]
        obtain ⟨c, member, other⟩ := (hasControl_iff fileName).mp control
        intro all
        rw [all c member] at other
        cases other
      rw [if_neg illegal, Option.getD_none]
      exact ⟨iff_of_true rfl ⟨ascii, control⟩, fun _ free =>
        absurd control free, fun other => absurd ascii other⟩
    · have legal : ∀ c ∈ fileName.toList, isQuotable c := by
        intro c member
        by_contra other
        exact control ((hasControl_iff fileName).mpr ⟨c, member, by simpa using other⟩)
      have plain : ∀ c ∈ fileName.toList, isQuotedText c := by
        intro c member
        simp [isQuotedText, legal c member, clean c member]
      have parsed := parseHeader_plain plain
      rw [if_pos (List.all_eq_true.mpr legal), Option.getD_some]
      refine ⟨iff_of_false ?_ fun both => control both.2, fun _ _ => parsed, fun other => absurd ascii other⟩
      intro bare
      rw [bare, parseHeader_bare] at parsed
      cases parsed
  · have value : contentDispositionValue fileName = (headerValue ("attachment; filename=\"" ++
        percentEncodeExtValue fileName ++ "\"; filename*=UTF-8''" ++ percentEncodeExtValue fileName)).getD
        "attachment" := if_neg ascii
    have parsed := parseHeader_extended (percentEncodeExtValue_quoted fileName)
      (percentEncodeExtValue_values fileName)
    rw [value, headerValue_percentEncodeExtValue, Option.getD_some]
    refine ⟨iff_of_false ?_ fun both => ascii both.1, fun plain => absurd plain ascii, fun _ =>
      ⟨percentEncodeExtValue fileName, parsed, percentEncodeExtValue_values fileName,
        percentEncodeExtValue_decodes fileName⟩⟩
    intro bare
    rw [bare, parseHeader_bare] at parsed
    cases parsed

end Yafm
