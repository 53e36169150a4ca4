import Yafm.Files.Containment
import Yafm.Files.Range

set_option autoImplicit false

namespace Yafm

open Text Posix Effect

theorem suffixDecision_range {total : Nat} {read : Option Nat} {range : ByteRange}
    (decided : suffixDecision total read = .partialRange range) (filled : total ≠ 0) :
    range.start ≤ range.last ∧ range.last < total := by
  cases read with
  | none => cases decided
  | some length =>
    cases length with
    | zero => cases decided
    | succ length =>
      cases decided
      dsimp only
      omega

theorem lastDecision_range {total start : Nat} {last : String} {read : Option Nat} {range : ByteRange}
    (decided : lastDecision total start last read = .partialRange range) (inside : start < total) :
    range.start ≤ range.last ∧ range.last < total := by
  unfold lastDecision at decided
  split at decided <;> split at decided <;> cases decided <;> dsimp only <;> omega

theorem boundsDecision_range {total : Nat} {first last : String} {range : ByteRange}
    (decided : boundsDecision total first last = .partialRange range) :
    range.start ≤ range.last ∧ range.last < total := by
  unfold boundsDecision at decided
  split at decided
  · cases decided
  · split at decided
    · cases decided
    next inside => exact lastDecision_range decided (Nat.lt_of_not_le inside)

theorem specDecision_range {total : Nat} {spec : String} {range : ByteRange}
    (decided : specDecision total spec = .partialRange range) (filled : total ≠ 0) :
    range.start ≤ range.last ∧ range.last < total := by
  unfold specDecision at decided
  split at decided
  · exact suffixDecision_range decided filled
  · split at decided
    · cases decided
    · exact boundsDecision_range decided

theorem parseSingleByteRange_range {value : String} {total : Nat} {range : ByteRange}
    (decided : parseSingleByteRange value total = .partialRange range) :
    range.start ≤ range.last ∧ range.last < total := by
  cases cut : splitOnce '=' value with
  | none => simp [parseSingleByteRange, parseByteRange, cut] at decided
  | some parts =>
    by_cases named : eqIgnoreAsciiCase parts.1 "bytes"
    case neg => simp [parseSingleByteRange, parseByteRange, cut, named] at decided
    case pos =>
      by_cases filled : total = 0
      · simp [parseSingleByteRange, parseByteRange, cut, named, filled] at decided
      · rw [parseSingleByteRange_spec cut named filled] at decided
        split at decided
        · cases decided
        · exact specDecision_range decided filled

def checkedAdd (left right : Nat) : Option Nat := if left + right < 2 ^ 64 then some (left + right) else none

def checkedSub (left right : Nat) : Option Nat := if right ≤ left then some (left - right) else none

def ByteRange.lengthChecked (range : ByteRange) : Option Nat :=
  (checkedSub range.last range.start).bind fun count => checkedAdd count 1

def parseSingleByteRangeChecked (value : String) (total : Nat) : Option RangeDecision :=
  parseByteRange checkedSub value total

theorem parseSingleByteRangeChecked_eq (value : String) (total : Nat) :
    parseSingleByteRangeChecked value total = some (parseSingleByteRange value total) := by
  unfold parseSingleByteRangeChecked parseSingleByteRange parseByteRange
  cases splitOnce '=' value with
  | none => rfl
  | some parts =>
    simp only
    by_cases named : eqIgnoreAsciiCase parts.1 "bytes"
    case neg =>
      simp only [named, Bool.not_false, if_true]
      rfl
    case pos =>
      by_cases filled : total = 0
      · simp only [named, filled, Bool.not_true, Bool.false_eq_true, if_false, if_true]
        rfl
      · have last : checkedSub total 1 = some (total - 1) := if_pos (Nat.pos_of_ne_zero filled)
        simp only [named, filled, last, Bool.not_true, Bool.false_eq_true, if_false]
        by_cases several : contains ',' (trim parts.2)
        case pos =>
          simp only [several, if_true]
          rfl
        case neg =>
          simp only [several, if_false, Bool.false_eq_true]
          cases stripPrefix "-" (trim parts.2) with
          | some suffix =>
            simp only
            cases parseU64 (trim suffix) with
            | none => rfl
            | some length => cases length <;> rfl
          | none =>
            cases splitOnce '-' (trim parts.2) with
            | none => rfl
            | some bounds =>
              simp only
              cases parseU64 (trim bounds.1) with
              | none => rfl
              | some start =>
                simp only
                by_cases outside : total ≤ start
                · simp only [outside, if_true]
                  rfl
                · simp only [outside, if_false]
                  cases parseU64 (trim bounds.2) with
                  | none =>
                    by_cases nothing : trim bounds.2 = "" <;> simp only [nothing, if_true, if_false] <;> rfl
                  | some stop =>
                    by_cases ordered : start ≤ stop <;> simp only [ordered, if_true, if_false] <;> rfl

theorem ByteRange.lengthChecked_eq {range : ByteRange} {total : Nat} (small : total < 2 ^ 64)
    (bounds : range.start ≤ range.last ∧ range.last < total) : range.lengthChecked = some range.length := by
  have fits : range.last - range.start + 1 < 2 ^ 64 := by omega
  rw [lengthChecked, checkedSub, if_pos bounds.1, Option.bind_some, checkedAdd, if_pos fits, length]

def Sole (headers : List (String × String)) (name value : String) : Prop :=
  headers.filter (fun header => header.1 = name) = [(name, value)]

-- The bytes of the content from one position to another, both included.
def Slice (content : Bytes) (start last : Nat) (bytes : Bytes) : Prop :=
  ∃ front back, content = front ++ bytes ++ back ∧ front.length = start ∧ bytes.length = last - start + 1

inductive SelfConsistent (content : Bytes) (response : Response) : Prop
  | notModified (status : response.status = 304) (body : response.body = .empty)
  | notSatisfiable (status : response.status = 416)
      (range : Sole response.headers "content-range" ("bytes */" ++ toString content.length))
  | whole (status : response.status = 200) (body : response.body = .content content)
      (length : Sole response.headers "content-length" (toString content.length))
  | part (start last : Nat) (bytes : Bytes) (status : response.status = 206)
      (bounds : start ≤ last ∧ last < content.length)
      (range : Sole response.headers "content-range"
        ("bytes " ++ toString start ++ "-" ++ toString last ++ "/" ++ toString content.length))
      (length : Sole response.headers "content-length" (toString (last - start + 1)))
      (body : response.body = .content bytes) (slice : Slice content start last bytes)

theorem contentResponseHeaders_filter (fileName : String) (etag : Option String) {name : String}
    (other : name = "content-range" ∨ name = "content-length") :
    (contentResponseHeaders fileName etag).filter (fun header => header.1 = name) = [] := by
  rcases other with rfl | rfl <;> cases etag <;> simp [contentResponseHeaders]

theorem slice_take {content : Bytes} {range : ByteRange}
    (bounds : range.start ≤ range.last ∧ range.last < content.length) :
    Slice content range.start range.last ((content.drop range.start).take range.length) := by
  refine ⟨content.take range.start, (content.drop range.start).drop range.length, ?_, ?_, ?_⟩
  · rw [List.append_assoc, List.take_append_drop, List.take_append_drop]
  · rw [List.length_take]
    omega
  · rw [List.length_take, List.length_drop, ByteRange.length]
    omega

-- What the `Range` header asks for, before `If-Range` is looked at.
def rangeAsked (headers : HeaderMap) (total : Nat) : RangeDecision :=
  ((headers.getText "range").map fun value => parseSingleByteRange value total).getD .full

theorem rangeAsked_range {headers : HeaderMap} {total : Nat} {range : ByteRange}
    (asked : rangeAsked headers total = .partialRange range) :
    range.start ≤ range.last ∧ range.last < total := by
  unfold rangeAsked at asked
  cases read : headers.getText "range" with
  | none => simp [read] at asked
  | some value =>
    have parsed : parseSingleByteRange value total = .partialRange range := by simpa [read] using asked
    exact parseSingleByteRange_range parsed

theorem rangeDecision_other {platform : Platform} {headers : HeaderMap} {metadata : Metadata}
    {etag : Option String} (other : ∀ range, rangeAsked headers metadata.len ≠ .partialRange range) :
    rangeDecision platform headers metadata etag = rangeAsked headers metadata.len := by
  unfold rangeDecision
  split
  next range asked => exact absurd asked (other range)
  · rfl

theorem rangeDecision_of_range {platform : Platform} {headers : HeaderMap} {metadata : Metadata}
    {etag : Option String} {range : ByteRange}
    (asked : rangeAsked headers metadata.len = .partialRange range) :
    rangeDecision platform headers metadata etag =
      if ((headers.getText "if-range").map fun value =>
        ifRangeMatches platform value etag metadata.modified).getD true
      then .partialRange range else .full := by
  unfold rangeDecision
  unfold rangeAsked at asked
  rw [asked]

theorem rangeDecision_range {platform : Platform} {headers : HeaderMap} {metadata : Metadata}
    {etag : Option String} {range : ByteRange}
    (decided : rangeDecision platform headers metadata etag = .partialRange range) :
    range.start ≤ range.last ∧ range.last < metadata.len := by
  cases asked : rangeAsked headers metadata.len with
  | full | notSatisfiable =>
    rw [rangeDecision_other (by simp [asked]), asked] at decided
    cases decided
  | partialRange found =>
    rw [rangeDecision_of_range asked] at decided
    split at decided
    · cases decided
      exact rangeAsked_range asked
    · cases decided

theorem downloadResponse_consistent (platform : Platform) (headers : HeaderMap) (canonical : Path)
    (file : Bytes) {metadata : Metadata} (whole : metadata.len = file.length) :
    SelfConsistent file (downloadResponse platform headers canonical file metadata) := by
  unfold downloadResponse
  dsimp only
  split
  · exact .notModified rfl rfl
  · rw [whole]
    split
    · exact .notSatisfiable rfl (by simp [Sole])
    · refine .whole rfl rfl ?_
      simp [Sole, contentResponseHeaders_filter _ _ (.inr rfl)]
    next range decided =>
      have bounds := rangeDecision_range decided
      rw [whole] at bounds
      refine .part range.start range.last _ rfl bounds ?_ ?_ rfl (slice_take bounds)
      · simp [Sole, contentResponseHeaders_filter _ _ (.inl rfl)]
      · simp [Sole, contentResponseHeaders_filter _ _ (.inr rfl), ByteRange.length]

theorem downloadInner_run {disk after : Disk} {platform : Platform} {config : Option AppConfig}
    {headers : HeaderMap} {p : String} {canonical : Path} {file : Bytes} {metadata : Metadata}
    (opened : disk.run (downloadTarget config p) = (.ok (canonical, file, metadata), after)) :
    disk.run (downloadInner platform config headers p) =
      (.ok (downloadResponse platform headers canonical file metadata), after) := by
  rw [downloadInner, Disk.run_bind, opened]
  rfl

theorem downloadInner_consistent {disk after : Disk} {config : AppConfig} {canonical : Path} {file : Bytes}
    {metadata : Metadata} (platform : Platform) (headers : HeaderMap) (p : String)
    (shares : disk.Shares config.sharedRoot)
    (opened : disk.run (downloadTarget (some config) p) = (.ok (canonical, file, metadata), after))
    (small : file.length < 2 ^ 64) :
    disk.tree.get canonical = some (.file file) ∧
    (∃ response, disk.run (downloadInner platform (some config) headers p) = (.ok response, after) ∧
      SelfConsistent file response) ∧
    ∀ value, parseSingleByteRangeChecked value file.length = some (parseSingleByteRange value file.length) ∧
      ∀ range, parseSingleByteRange value file.length = .partialRange range →
        range.lengthChecked = some range.length := by
  obtain ⟨_, _, content, present, same⟩ := downloadTarget_inside shares opened
  dsimp only at present same
  obtain ⟨rfl, rfl⟩ := Prod.mk.inj same
  refine ⟨present, ⟨_, downloadInner_run opened,
    downloadResponse_consistent platform headers canonical file rfl⟩, ?_⟩
  intro value
  exact ⟨parseSingleByteRangeChecked_eq value file.length, fun range parsed =>
    ByteRange.lengthChecked_eq small (parseSingleByteRange_range parsed)⟩

theorem validName_srv : ValidName (asBytes "srv") := by decide

theorem validName_a : ValidName (asBytes "a") := by decide

def linkedPath : Path := [entryName "srv" validName_srv, entryName "a" validName_a]

def linkedFile : Path × Bytes × Metadata := (linkedPath, [1], ⟨.file, 1, none, linkedPath⟩)

theorem linkedFile_opened :
    linkedDisk.run (downloadTarget (some ⟨[entryName "srv"], true⟩) "a") = (.ok linkedFile, linkedDisk) := rfl

theorem downloadInner_consistent_linked :
    linkedDisk.tree.get [entryName "srv", entryName "a"] = some (.file [1]) ∧
    (∃ response, linkedDisk.run (downloadInner noPlatform (some ⟨[entryName "srv"], true⟩)
      [("range", asBytes "bytes=0-4")] "a") = (.ok response, linkedDisk) ∧ SelfConsistent [1] response) ∧
    ∀ value, parseSingleByteRangeChecked value 1 = some (parseSingleByteRange value 1) ∧
      ∀ range, parseSingleByteRange value 1 = .partialRange range → range.lengthChecked = some range.length :=
  downloadInner_consistent noPlatform [("range", asBytes "bytes=0-4")] "a" ⟨_, rfl⟩
    linkedFile_opened (by decide)

-- `If-Range` is there, and it does not read as a validator of this representation.
def StaleIfRange (platform : Platform) (headers : HeaderMap) (metadata : Metadata) : Prop :=
  ∃ value, headers.get "if-range" = some value ∧ ∀ text, headerText value = some text →
    ifRangeMatches platform text (computeWeakEtag metadata) metadata.modified = false

def HeaderMap.withoutRange (headers : HeaderMap) : HeaderMap :=
  headers.filter fun header => header.1 ≠ "range"

def Unmodified (headers : HeaderMap) (metadata : Metadata) : Prop :=
  (computeWeakEtag metadata).any fun current =>
    (headers.getText "if-none-match").any fun value => ifNoneMatchMatches value current

-- The requests that a stale `If-Range` widens: those answered before any range is looked at, those that
-- ask for no range, and those whose range is satisfiable and whose `If-Range` is text.
def Widened (headers : HeaderMap) (metadata : Metadata) : Prop :=
  Unmodified headers metadata ∨
    rangeAsked headers metadata.len ≠ .notSatisfiable ∧
      ∀ range, rangeAsked headers metadata.len = .partialRange range → (headers.getText "if-range").isSome

theorem HeaderMap.get_withoutRange (headers : HeaderMap) {name : String} (other : name ≠ "range") :
    headers.withoutRange.get name = headers.get name := by
  unfold HeaderMap.get HeaderMap.withoutRange
  rw [List.find?_filter]
  congr 2
  funext header
  by_cases named : header.1 = name
  · simp [named, other]
  · simp [named]

theorem HeaderMap.withoutRange_get (headers : HeaderMap) : headers.withoutRange.get "range" = none := by
  unfold HeaderMap.get HeaderMap.withoutRange
  rw [List.find?_filter]
  simp

theorem rangeAsked_withoutRange (headers : HeaderMap) (total : Nat) :
    rangeAsked headers.withoutRange total = .full := by
  simp [rangeAsked, HeaderMap.getText, HeaderMap.withoutRange_get]

theorem rangeDecision_stale {platform : Platform} {headers : HeaderMap} {metadata : Metadata}
    (stale : StaleIfRange platform headers metadata) :
    rangeDecision platform headers metadata (computeWeakEtag metadata) = .full ↔
      rangeAsked headers metadata.len ≠ .notSatisfiable ∧
        ∀ range, rangeAsked headers metadata.len = .partialRange range →
        (headers.getText "if-range").isSome := by
  obtain ⟨value, sent, unmatched⟩ := stale
  cases asked : rangeAsked headers metadata.len with
  | full | notSatisfiable =>
    rw [rangeDecision_other (by simp [asked]), asked]
    simp
  | partialRange range =>
    rw [rangeDecision_of_range asked]
    cases read : headerText value with
    | none => simp [HeaderMap.getText, sent, read]
    | some text => simp [HeaderMap.getText, sent, read, unmatched text read]

theorem getText_withoutRange (headers : HeaderMap) {name : String} (other : name ≠ "range") :
    headers.withoutRange.getText name = headers.getText name := by
  rw [HeaderMap.getText, HeaderMap.getText, HeaderMap.get_withoutRange headers other]

theorem rangeDecision_withoutRange (platform : Platform) (headers : HeaderMap) (metadata : Metadata)
    (etag : Option String) : rangeDecision platform headers.withoutRange metadata etag = .full := by
  rw [rangeDecision_other (by simp [rangeAsked_withoutRange]), rangeAsked_withoutRange]

theorem downloadResponse_unmodified {platform : Platform} {headers : HeaderMap} {canonical : Path}
    {file : Bytes} {metadata : Metadata} (unmodified : Unmodified headers metadata) :
    downloadResponse platform headers canonical file metadata =
      downloadResponse platform headers.withoutRange canonical file metadata := by
  have same := getText_withoutRange headers (show "if-none-match" ≠ "range" by decide)
  unfold Unmodified at unmodified
  simp only [downloadResponse, same, unmodified, if_true]

theorem downloadResponse_full_iff {platform : Platform} {headers : HeaderMap} {canonical : Path}
    {file : Bytes} {metadata : Metadata} (modified : ¬Unmodified headers metadata) :
    downloadResponse platform headers canonical file metadata =
        downloadResponse platform headers.withoutRange canonical file metadata ↔
      rangeDecision platform headers metadata (computeWeakEtag metadata) = .full := by
  have same := getText_withoutRange headers (show "if-none-match" ≠ "range" by decide)
  unfold Unmodified at modified
  simp only [downloadResponse, same, modified, rangeDecision_withoutRange, if_false, Bool.false_eq_true]
  cases rangeDecision platform headers metadata (computeWeakEtag metadata) with
  | full => simp
  | notSatisfiable => simp
  | partialRange range => simp

theorem downloadInner_widens_iff {disk after : Disk} {config : Option AppConfig} {canonical : Path}
    {file : Bytes} {metadata : Metadata} (platform : Platform) (headers : HeaderMap) (p : String)
    (opened : disk.run (downloadTarget config p) = (.ok (canonical, file, metadata), after))
    (stale : StaleIfRange platform headers metadata) :
    disk.run (downloadInner platform config headers p) =
        disk.run (downloadInner platform config headers.withoutRange p) ↔ Widened headers metadata := by
  rw [downloadInner_run opened, downloadInner_run opened]
  simp only [Prod.mk.injEq, Except.ok.injEq, and_true]
  unfold Widened
  by_cases unmodified : Unmodified headers metadata
  · simp only [unmodified, true_or, iff_true]
    exact downloadResponse_unmodified unmodified
  · simp only [unmodified, false_or, downloadResponse_full_iff unmodified, rangeDecision_stale stale]

def staleHeaders (range : String) : HeaderMap := [("range", asBytes range), ("if-range", asBytes "\"old\"")]

theorem staleHeaders_stale (range : String) :
    StaleIfRange noPlatform (staleHeaders range) linkedFile.2.2 := by
  refine ⟨asBytes "\"old\"", rfl, ?_⟩
  intro text read
  cases read
  decide +kernel

theorem downloadInner_widens_linked :
    linkedDisk.run (downloadInner noPlatform (some ⟨[entryName "srv"], true⟩)
      (staleHeaders "bytes=0-4") "a") =
      linkedDisk.run
        (downloadInner noPlatform (some ⟨[entryName "srv"], true⟩)
          (staleHeaders "bytes=0-4").withoutRange "a") :=
  (downloadInner_widens_iff noPlatform (staleHeaders "bytes=0-4") "a" linkedFile_opened
    (staleHeaders_stale _)).mpr
    (.inr ⟨by decide +kernel, fun _ _ => by decide +kernel⟩)

-- A range past the end is refused, whatever `If-Range` says.
theorem not_downloadInner_widens :
    StaleIfRange noPlatform (staleHeaders "bytes=20-") linkedFile.2.2 ∧
    linkedDisk.run (downloadInner noPlatform (some ⟨[entryName "srv"], true⟩)
      (staleHeaders "bytes=20-") "a") ≠
      linkedDisk.run
        (downloadInner noPlatform (some ⟨[entryName "srv"], true⟩)
          (staleHeaders "bytes=20-").withoutRange "a") := by
  refine ⟨staleHeaders_stale _, ?_⟩
  rw [downloadInner_run linkedFile_opened, downloadInner_run linkedFile_opened]
  intro same
  have status := congrArg (fun ran => ran.1.map Response.status) same
  exact absurd status (by decide +kernel)

end Yafm
