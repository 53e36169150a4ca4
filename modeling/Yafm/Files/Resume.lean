import Yafm.Shared.Transition
import Yafm.Files.Answer
import Yafm.Files.Validators

set_option autoImplicit false

namespace Yafm

open Text Posix Effect

/-- What a path leads to at some time, of a size that files have. -/
structure Version where
  canonical : Path
  content : Bytes
  modified : Time
  small : content.length < 2 ^ 64

namespace Version

variable (version : Version)

def metadata : Metadata := ⟨.file, version.content.length, some version.modified, version.canonical⟩

def tag : String := weakEtag version.modified.toNat version.content.length

def answer (platform : Platform) (headers : HeaderMap) : Response :=
  downloadResponse platform headers version.canonical version.content version.metadata

theorem etag_metadata : computeWeakEtag version.metadata = some version.tag := computeWeakEtag_readable rfl

end Version

-- Two versions under one tag can be cut anywhere and put together: what comes out is a version under that
-- tag.
def Splices (versions : Version → Prop) : Prop :=
  ∀ left right, versions left → versions right → left.tag = right.tag → ∀ cut ≤ left.content.length,
    ∃ version, versions version ∧ version.tag = left.tag ∧
      version.content = left.content.take cut ++ right.content.drop cut

theorem Version.tag_eq_iff {left right : Version} :
    left.tag = right.tag ↔ etagMatchesWeakly left.tag right.tag := by
  constructor
  · intro same
    rw [same]
    exact etagMatchesWeakly_weakEtag.mpr ⟨rfl, rfl⟩
  · intro matched
    obtain ⟨times, lengths⟩ := etagMatchesWeakly_weakEtag.mp matched
    rw [tag, tag, times, lengths]

theorem Version.length_of_tag {left right : Version} (same : left.tag = right.tag) :
    left.content.length = right.content.length :=
  (etagMatchesWeakly_weakEtag.mp (tag_eq_iff.mp same)).2

/-- A change shows in the time or in the length, and the times are after the epoch: no disk promises that. -/
structure Telling (versions : Version → Prop) : Prop where
  recent : ∀ version, versions version → 0 < version.modified
  content : ∀ left right, versions left → versions right → left.modified = right.modified →
    left.content.length = right.content.length → left.content = right.content

theorem Telling.splices {versions : Version → Prop} (telling : Telling versions) : Splices versions := by
  intro left right here there same cut _
  obtain ⟨times, lengths⟩ := etagMatchesWeakly_weakEtag.mp (Version.tag_eq_iff.mp same)
  have earlier : (0 : Int) < left.modified := telling.recent left here
  have later : (0 : Int) < right.modified := telling.recent right there
  have moments : left.modified = right.modified := by
    rw [← Int.toNat_of_nonneg earlier.le, ← Int.toNat_of_nonneg later.le, times]
  refine ⟨left, here, rfl, ?_⟩
  rw [← telling.content left right here there moments lengths, List.take_append_drop]

/-- The tag and the length that a client was promised, and the bytes that came so far. -/
structure Fetched where
  tag : String
  total : Nat
  received : Bytes

def Fetched.complete (fetched : Fetched) : Prop := fetched.received.length = fetched.total

instance (fetched : Fetched) : Decidable fetched.complete := inferInstanceAs (Decidable (_ = _))

def requestHeaders : Option Fetched → HeaderMap
  | none => []
  | some fetched =>
    [("range", asBytes ("bytes=" ++ toString fetched.received.length ++ "-")),
      ("if-range", asBytes fetched.tag)]

def Response.header (response : Response) (name : String) : Option String :=
  (response.headers.find? fun header => header.1 = name).map Prod.snd

def restarted (response : Response) (bytes : Bytes) : Option Fetched := do
  let tag ← response.header "etag"
  let total ← (response.header "content-length").bind parseU64
  return ⟨tag, total, bytes⟩

-- A part goes behind what is there, a whole file in its place, and anything else makes a new start.
def absorb (client : Option Fetched) (response : Response) (count : Nat) : Option Fetched :=
  match response.body with
  | .content bytes =>
    if response.status = 206 then client.map fun fetched =>
      { fetched with received := fetched.received ++ bytes.take count }
    else restarted response (bytes.take count)
  | _ => none

/-- The disk as one request finds it, and how many bytes of the answer come before the connection is lost. -/
structure Transfer where
  disk : Disk
  count : Nat

structure Source where
  platform : Platform
  config : Option AppConfig
  p : String

namespace Source

variable (source : Source)

def transferred (client : Option Fetched) (transfer : Transfer) : Option Fetched :=
  if ∃ fetched ∈ client, fetched.complete then client
  else
    let ran :=
      transfer.disk.run (downloadInner source.platform source.config (requestHeaders client) source.p)
    absorb client (settled ran.1) transfer.count

def resumed (client : Option Fetched) (transfers : List Transfer) : Option Fetched :=
  transfers.foldl source.transferred client

def Leads (disk : Disk) (version : Version) : Prop :=
  disk.run (downloadTarget source.config source.p) =
    (.ok (version.canonical, version.content, version.metadata), disk)

theorem Leads.unique {source : Source} {disk : Disk} {left right : Version} (here : source.Leads disk left)
    (there : source.Leads disk right) : left = right := by
  have same := congrArg Prod.fst (here.symm.trans there)
  obtain ⟨canonical, content, modified, small⟩ := left
  obtain ⟨other, bytes, time, bounded⟩ := right
  simp only [Except.ok.injEq, Prod.mk.injEq, Version.metadata, Metadata.mk.injEq, Option.some.injEq] at same
  obtain ⟨rfl, rfl, -, -, rfl, -⟩ := same
  rfl

def Versions (disks : Disk → Prop) (version : Version) : Prop :=
  ∃ disk, disks disk ∧ source.Leads disk version

-- There is a file with a time, or the request fails.
def Answers (disks : Disk → Prop) : Prop :=
  ∀ disk, disks disk → (∃ version, source.Leads disk version) ∨
    ∃ error, (disk.run (downloadTarget source.config source.p)).1 = .error error

end Source

theorem toString_digits (n : Nat) : Digits (toString n) n := by
  have chars : (toString n).toList = Nat.toDigits 10 n := by
    rw [Nat.toString_eq_ofList_toDigits, String.toList_ofList]
  refine ⟨?_, ?_, ?_⟩
  · intro empty
    rw [empty] at chars
    exact Nat.toDigits_ne_nil chars.symm
  · rw [chars]
    exact fun c member => Nat.isDigit_of_mem_toDigits (by decide) (by decide) member
  · have read := Nat.ofDigitChars_ten_toDigits (n := n)
    rw [Nat.ofDigitChars_eq_foldl] at read
    rw [chars]
    simpa only [Nat.mul_comm] using read.symm

theorem rest_visible (k : Nat) :
    ∀ c ∈ ("bytes=" ++ toString k ++ "-").toList, 0x20 ≤ c.toNat ∧ c.toNat < 0x7f := by
  have around : ("bytes=-".toList.all fun c => 0x20 ≤ c.toNat && c.toNat < 0x7f) = true := by decide
  intro c member
  rw [String.toList_append, String.toList_append, List.mem_append, List.mem_append] at member
  have text : c ∈ "bytes=".toList ∨ c ∈ "-".toList → c ∈ "bytes=-".toList := List.mem_append.mpr
  rcases member with (front | digit) | back
  · simpa using List.all_eq_true.mp around c (text (.inl front))
  · have range := (toString_digits k).2.1 c digit
    rw [Char.isDigit_iff_toNat] at range
    have zero : '0'.toNat = 0x30 := rfl
    have nine : '9'.toNat = 0x39 := rfl
    omega
  · simpa using List.all_eq_true.mp around c (text (.inr back))

theorem parseSingleByteRange_rest {text : String} {k total : Nat} (digits : Digits text k)
    (small : k < 2 ^ 64) :
    parseSingleByteRange ("bytes=" ++ text ++ "-") total =
      if total ≤ k then .notSatisfiable else .partialRange ⟨k, total - 1⟩ := by
  have cut : splitOnce '=' ("bytes=" ++ text ++ "-") = some ("bytes", text ++ "-") :=
    splitOnce_eq_some.mpr ⟨by rw [String.append_assoc, String.append_assoc]; rfl, by decide⟩
  by_cases filled : total = 0
  · have named : eqIgnoreAsciiCase "bytes" "bytes" := by decide
    simp [filled, parseSingleByteRange, parseByteRange, cut, named]
  have solid : Solid (text ++ "-") := by
    have joined := Solid.joined "" digits.solid minus_solid digits.1 (by decide)
    rwa [String.append_empty] at joined
  have single : contains ',' (text ++ "-") = false := by
    simp [contains, digits.not_mem (show Char.isDigit ',' = false by decide)]
  have bounds : splitOnce '-' (text ++ "-") = some (text, "") := by
    have cut := digits.cut blank_empty ""
    rwa [String.append_empty, String.append_empty] at cut
  have read : parseU64 text = some k := by rw [parseU64_of_number (number_iff.mpr digits), if_pos small]
  rw [parseSingleByteRange_spec cut (by decide) filled, trim_eq_self solid.first solid.last, single]
  have unsigned : stripPrefix "-" (text ++ "-") = none := digits.no_minus "-"
  have closing : specDecision total (text ++ "-") = boundsDecision total text "" := by
    unfold specDecision
    simp only [unsigned, bounds, trim_eq_self digits.solid.first digits.solid.last]
    rfl
  rw [if_neg Bool.false_ne_true, closing]
  unfold boundsDecision
  simp only [read]
  rfl

namespace Version

variable (version : Version) (platform : Platform)

theorem tag_visible : ∀ c ∈ version.tag.toList, 0x20 ≤ c.toNat ∧ c.toNat < 0x7f := by
  have digits (number : Nat) : ∀ c ∈ (hexText number).toList, 0x20 ≤ c.toNat ∧ c.toNat < 0x7f := by
    intro c member
    obtain ⟨digit, small, rfl⟩ := hexText_digits member
    clear member
    revert digit
    decide
  have plain (text : String) (closed : text.toList.all fun c => 0x20 ≤ c.toNat && c.toNat < 0x7f) :
      ∀ c ∈ text.toList, 0x20 ≤ c.toNat ∧ c.toNat < 0x7f := by simpa using closed
  intro c member
  simp only [tag, weakEtag, String.toList_append, List.mem_append] at member
  rcases member with (((front | time) | dash) | length) | back
  · exact plain _ (by decide) c front
  · exact digits _ c time
  · exact plain _ (by decide) c dash
  · exact digits _ c length
  · exact plain _ (by decide) c back

theorem restarted_full (fileName : String) (body : Body) (bytes : Bytes) :
    restarted ⟨200, contentResponseHeaders fileName (some version.tag) ++
      [("content-length", toString version.content.length)], body⟩ bytes =
      some ⟨version.tag, version.content.length, bytes⟩ := by
  have read : parseU64 version.content.length.repr = some version.content.length :=
    parseU64_toString version.small
  simp [restarted, Response.header, contentResponseHeaders, read]

section

variable {headers : HeaderMap} (fresh : headers.getText "if-none-match" = none)
include fresh

theorem answer_full (decided : rangeDecision platform headers version.metadata (some version.tag) = .full) :
    ∃ fileName, version.answer platform headers = ⟨200, contentResponseHeaders fileName (some version.tag) ++
      [("content-length", toString version.content.length)], .content version.content⟩ := by
  unfold answer downloadResponse
  simp only [fresh, etag_metadata, decided, Option.any_some, Option.any_none, Bool.false_eq_true, if_false]
  exact ⟨_, rfl⟩

theorem answer_part {range : ByteRange}
    (decided : rangeDecision platform headers version.metadata (some version.tag) = .partialRange range) :
    (version.answer platform headers).status = 206 ∧
      (version.answer platform headers).body = .content
        ((version.content.drop range.start).take range.length) := by
  unfold answer downloadResponse
  simp only [fresh, etag_metadata, decided, Option.any_some, Option.any_none, Bool.false_eq_true, if_false]
  exact ⟨trivial, trivial⟩

theorem answer_outside
    (decided : rangeDecision platform headers version.metadata (some version.tag) = .notSatisfiable) :
    ∃ message, (version.answer platform headers).body = .message message := by
  unfold answer downloadResponse
  simp only [fresh, etag_metadata, decided, Option.any_some, Option.any_none, Bool.false_eq_true, if_false]
  exact ⟨_, rfl⟩

end

theorem absorb_full {headers : HeaderMap} (fresh : headers.getText "if-none-match" = none)
    (decided : rangeDecision platform headers version.metadata (some version.tag) = .full)
    (client : Option Fetched) (count : Nat) : absorb client (version.answer platform headers) count =
      some ⟨version.tag, version.content.length, version.content.take count⟩ := by
  obtain ⟨fileName, answers⟩ := version.answer_full platform fresh decided
  rw [answers]
  exact version.restarted_full fileName _ _

theorem absorb_plain (client : Option Fetched) (count : Nat) :
    absorb client (version.answer platform []) count =
      some ⟨version.tag, version.content.length, version.content.take count⟩ :=
  version.absorb_full platform rfl rfl client count

theorem absorb_resumed (tagged : Version) (received : Bytes) (total count : Nat)
    (small : received.length < 2 ^ 64) :
    absorb (some ⟨tagged.tag, total, received⟩)
        (version.answer platform (requestHeaders (some ⟨tagged.tag, total, received⟩))) count =
      if version.content.length ≤ received.length then none
      else if etagMatchesWeakly tagged.tag version.tag then
        some ⟨tagged.tag, total, received ++ (version.content.drop received.length).take count⟩
      else some ⟨version.tag, version.content.length, version.content.take count⟩ := by
  have fresh : (requestHeaders (some ⟨tagged.tag, total, received⟩)).getText "if-none-match" = none := by
    simp [requestHeaders, HeaderMap.getText, HeaderMap.get]
  have guard :
      (requestHeaders (some ⟨tagged.tag, total, received⟩)).getText "if-range" = some tagged.tag := by
    have read := headerText_asBytes tagged.tag_visible
    simp [requestHeaders, HeaderMap.getText, HeaderMap.get, read]
  have spelled : (requestHeaders (some ⟨tagged.tag, total, received⟩)).getText "range" =
      some ("bytes=" ++ toString received.length ++ "-") := by
    have read := headerText_asBytes (rest_visible received.length)
    simpa [requestHeaders, HeaderMap.getText, HeaderMap.get] using read
  generalize requestHeaders (some ⟨tagged.tag, total, received⟩) = headers at *
  have asked : rangeAsked headers version.metadata.len =
      if version.content.length ≤ received.length then .notSatisfiable
      else .partialRange ⟨received.length, version.content.length - 1⟩ := by
    rw [rangeAsked, spelled]
    exact parseSingleByteRange_rest (toString_digits received.length) small
  have matched : ifRangeMatches platform tagged.tag (some version.tag) version.metadata.modified =
      etagMatchesWeakly tagged.tag version.tag :=
    ifRangeMatches_tag platform ⟨_, _, tagged.etag_metadata⟩ ⟨_, _, version.etag_metadata⟩ _
  split
  next past =>
    rw [if_pos past] at asked
    have decided : rangeDecision platform headers version.metadata (some version.tag) = .notSatisfiable := by
      rw [rangeDecision_other (by simp [asked]), asked]
    obtain ⟨message, told⟩ := version.answer_outside platform fresh decided
    rw [absorb, told]
  next inside =>
    rw [if_neg inside] at asked
    have decided : rangeDecision platform headers version.metadata (some version.tag) =
        if etagMatchesWeakly tagged.tag version.tag then
          .partialRange ⟨received.length, version.content.length - 1⟩
        else .full := by
      rw [rangeDecision_of_range asked, guard, Option.map_some, Option.getD_some, matched]
    split
    next same =>
      rw [if_pos same] at decided
      obtain ⟨status, body⟩ := version.answer_part platform fresh decided
      have rest : (version.content.drop received.length).take
          (ByteRange.length ⟨received.length, version.content.length - 1⟩) =
            version.content.drop received.length := by
        apply List.take_of_length_le
        rw [List.length_drop, ByteRange.length]
        dsimp only
        omega
      rw [rest] at body
      simp [absorb, body, status]
    next other =>
      rw [if_neg other] at decided
      exact version.absorb_full platform fresh decided _ count

end Version

structure Fetched.Of (fetched : Fetched) (version : Version) : Prop where
  tag : fetched.tag = version.tag
  total : fetched.total = version.content.length
  front : fetched.received <+: version.content

theorem Fetched.Of.complete {fetched : Fetched} {version : Version} (of : fetched.Of version)
    (complete : fetched.complete) : fetched.received = version.content :=
  of.front.eq_of_length (complete.trans of.total)

theorem Fetched.Of.rest {fetched : Fetched} {version : Version} (of : fetched.Of version)
    (incomplete : ¬fetched.complete) : fetched.received.length < version.content.length := by
  have front := of.front.length_le
  have unfinished : fetched.received.length ≠ version.content.length :=
    fun whole => incomplete (whole.trans of.total.symm)
  omega

def Genuine (versions : Version → Prop) (client : Option Fetched) : Prop :=
  ∀ fetched ∈ client, ∃ version, versions version ∧ fetched.Of version

-- How many more transfers of this file there can be.
def lacking (version : Version) : Option Fetched → Nat
  | none => version.content.length + 1
  | some fetched =>
    if fetched.complete then 0
    else if fetched.tag = version.tag then version.content.length - fetched.received.length
    else version.content.length + 2

theorem of_take (version : Version) (count : Nat) :
    Fetched.Of ⟨version.tag, version.content.length, version.content.take count⟩ version :=
  ⟨rfl, rfl, List.take_prefix count version.content⟩

theorem lacking_take (version : Version) (count : Nat) :
    lacking version (some ⟨version.tag, version.content.length, version.content.take count⟩) ≤
      version.content.length := by
  unfold lacking
  dsimp only
  split <;> simp

theorem of_splice {seen version : Version} {received : Bytes} (front : received <+: seen.content)
    (same : version.tag = seen.tag) {back : Bytes}
    (spliced : version.content = seen.content.take received.length ++ back) (count : Nat) :
    Fetched.Of ⟨seen.tag, seen.content.length, received ++ back.take count⟩ version := by
  refine ⟨same.symm, Version.length_of_tag same.symm, ?_⟩
  rw [spliced, ← List.prefix_iff_eq_take.mp front]
  exact (List.prefix_append_right_inj received).mpr (List.take_prefix count back)

section

variable {platform : Platform} {versions : Version → Prop} (splices : Splices versions) {version : Version}
  (present : versions version)
include splices present

theorem absorb_step {client : Option Fetched} (genuine : Genuine versions client)
    (ongoing : ¬∃ fetched ∈ client, fetched.complete) (count : Nat) :
    let after := absorb client (version.answer platform (requestHeaders client)) count
    Genuine versions after ∧ (0 < count → lacking version after ≤ lacking version client - 1) := by
  intro after
  cases client with
  | none =>
    have fetched : after = some ⟨version.tag, version.content.length, version.content.take count⟩ :=
      version.absorb_plain platform none count
    rw [fetched]
    constructor
    · intro held same
      cases same
      exact ⟨version, present, of_take version count⟩
    · intro _
      exact lacking_take version count
  | some fetched =>
    obtain ⟨seen, there, of⟩ := genuine fetched rfl
    have incomplete : ¬fetched.complete := fun complete => ongoing ⟨fetched, rfl, complete⟩
    obtain ⟨tag, total, received⟩ := fetched
    obtain ⟨rfl, rfl, front⟩ := of
    have fewer : received.length < seen.content.length := Fetched.Of.rest ⟨rfl, rfl, front⟩ incomplete
    have answers : after = if version.content.length ≤ received.length then none
        else if etagMatchesWeakly seen.tag version.tag then
          some ⟨seen.tag, seen.content.length, received ++ (version.content.drop received.length).take count⟩
        else some ⟨version.tag, version.content.length, version.content.take count⟩ :=
      version.absorb_resumed platform seen received seen.content.length count (fewer.trans seen.small)
    have unfinished : lacking version (some ⟨seen.tag, seen.content.length, received⟩) =
        if seen.tag = version.tag then version.content.length - received.length
          else version.content.length + 2 :=
      if_neg incomplete
    rw [answers, unfinished]
    by_cases tags : seen.tag = version.tag
    · have lengths := Version.length_of_tag tags
      obtain ⟨whole, held, under, spliced⟩ := splices seen version there present tags received.length fewer.le
      rw [if_neg (by omega), if_pos (Version.tag_eq_iff.mp tags), if_pos tags]
      constructor
      · intro client now
        cases now
        exact ⟨whole, held, of_splice front under spliced count⟩
      · intro fair
        unfold lacking
        dsimp only
        rw [if_pos tags, List.length_append, List.length_take, List.length_drop]
        split <;> omega
    · rw [if_neg (mt Version.tag_eq_iff.mpr tags), if_neg tags]
      split
      · constructor
        · intro held nothing
          cases nothing
        · intro _
          exact Nat.le_refl _
      · constructor
        · intro held now
          cases now
          exact ⟨version, present, of_take version count⟩
        · intro _
          exact (lacking_take version count).trans (by omega)

end

section

variable {source : Source} {disks : Disk → Prop}

theorem transferred_leads (splices : Splices (source.Versions disks)) {transfer : Transfer}
    (among : disks transfer.disk) {version : Version} (leads : source.Leads transfer.disk version)
    {client : Option Fetched} (genuine : Genuine (source.Versions disks) client) :
    Genuine (source.Versions disks) (source.transferred client transfer) ∧
      (0 < transfer.count → lacking version (source.transferred client transfer) ≤
        lacking version client - 1) := by
  unfold Source.transferred
  split
  next done =>
    obtain ⟨fetched, rfl, complete⟩ := done
    exact ⟨genuine, fun _ => by simp [lacking, complete]⟩
  next ongoing =>
    dsimp only
    rw [downloadInner_run leads]
    exact absorb_step splices ⟨transfer.disk, among, leads⟩ genuine ongoing transfer.count

theorem transferred_failed {transfer : Transfer} {error : ApiError}
    (failed : (transfer.disk.run (downloadTarget source.config source.p)).1 = .error error)
    {client : Option Fetched} (ongoing : ¬∃ fetched ∈ client, fetched.complete) :
    source.transferred client transfer = none := by
  have refused : transfer.disk.run (downloadTarget source.config source.p) =
      (.error error, (transfer.disk.run (downloadTarget source.config source.p)).2) := Prod.ext failed rfl
  unfold Source.transferred
  rw [if_neg ongoing]
  dsimp only
  rw [downloadInner, Disk.run_bind, refused]
  rfl

theorem transferred_genuine (splices : Splices (source.Versions disks)) (answers : source.Answers disks)
    {transfer : Transfer} (among : disks transfer.disk) {client : Option Fetched}
    (genuine : Genuine (source.Versions disks) client) :
    Genuine (source.Versions disks) (source.transferred client transfer) := by
  by_cases ongoing : ∃ fetched ∈ client, fetched.complete
  · rwa [Source.transferred, if_pos ongoing]
  rcases answers transfer.disk among with ⟨version, leads⟩ | ⟨error, failed⟩
  · exact (transferred_leads splices among leads genuine).1
  · rw [transferred_failed failed ongoing]
    intro held nothing
    cases nothing

theorem resumed_genuine (splices : Splices (source.Versions disks)) (answers : source.Answers disks)
    {transfers : List Transfer} (among : ∀ transfer ∈ transfers, disks transfer.disk)
    {client : Option Fetched} (genuine : Genuine (source.Versions disks) client) :
    Genuine (source.Versions disks) (source.resumed client transfers) := by
  induction transfers generalizing client with
  | nil => exact genuine
  | cons transfer rest ih =>
    rw [List.forall_mem_cons] at among
    exact ih among.2 (transferred_genuine splices answers among.1 genuine)

theorem resumed_spliced {left right : Version} {first second : Disk}
    (leftLeads : source.Leads first left) (rightLeads : source.Leads second right)
    (same : left.tag = right.tag) {cut : Nat} (inside : cut < left.content.length) :
    source.resumed none [⟨first, cut⟩, ⟨second, right.content.length⟩] =
      some ⟨left.tag, left.content.length, left.content.take cut ++ right.content.drop cut⟩ := by
  have begun :
      source.transferred none ⟨first, cut⟩ = some ⟨left.tag, left.content.length, left.content.take cut⟩ := by
    rw [Source.transferred, if_neg (by simp)]
    dsimp only
    rw [downloadInner_run leftLeads]
    exact left.absorb_plain source.platform none cut
  have taken : (left.content.take cut).length = cut := List.length_take_of_le inside.le
  have ongoing : ¬∃ fetched ∈ some (Fetched.mk left.tag left.content.length (left.content.take cut)),
      fetched.complete := by
    rintro ⟨fetched, held, complete⟩
    cases held
    exact inside.ne (taken.symm.trans complete)
  rw [Source.resumed, List.foldl_cons, begun, List.foldl_cons, List.foldl_nil,
    Source.transferred, if_neg ongoing]
  dsimp only
  rw [downloadInner_run rightLeads]
  refine (right.absorb_resumed source.platform left (left.content.take cut)
    left.content.length right.content.length
    (taken.le.trans_lt (inside.trans left.small))).trans ?_
  have lengths := Version.length_of_tag same
  have rest : (right.content.drop cut).take right.content.length = right.content.drop cut :=
    List.take_of_length_le (by simp)
  rw [taken, if_neg (by omega), if_pos (Version.tag_eq_iff.mp same), rest]

theorem splices_of_genuine
    (every : ∀ transfers : List Transfer, (∀ transfer ∈ transfers, disks transfer.disk) →
    Genuine (source.Versions disks) (source.resumed none transfers)) : Splices (source.Versions disks) := by
  rintro left right ⟨first, here, leftLeads⟩ ⟨second, there, rightLeads⟩ same cut bounded
  rcases bounded.eq_or_lt with rfl | inside
  · have lengths := Version.length_of_tag same
    refine ⟨left, ⟨first, here, leftLeads⟩, rfl, ?_⟩
    rw [lengths, List.drop_length, List.append_nil, ← lengths, List.take_length]
  · have lost : ∀ transfer ∈ [(⟨first, cut⟩ : Transfer), ⟨second, right.content.length⟩],
      disks transfer.disk := by
      simp [here, there]
    obtain ⟨version, held, of⟩ := every _ lost _ (resumed_spliced leftLeads rightLeads same inside)
    have lengths := Version.length_of_tag same
    have complete :
        Fetched.complete ⟨left.tag, left.content.length,
          left.content.take cut ++ right.content.drop cut⟩ := by
      rw [Fetched.complete, List.length_append, List.length_take, List.length_drop]
      dsimp only
      omega
    exact ⟨version, held, of.tag.symm, (of.complete complete).symm⟩

-- The client has a front of one version in every run exactly where the versions splice, for which it is
-- enough that each change tells. Then it gets there, once the file stays as it is and every transfer
-- brings something.
theorem resumed_version (answers : source.Answers disks) :
    ((∀ transfers : List Transfer, (∀ transfer ∈ transfers, disks transfer.disk) →
        ∀ fetched, source.resumed none transfers = some fetched → ∃ version, source.Versions disks version ∧
          fetched.Of version ∧ (fetched.complete → fetched.received = version.content)) ↔
      Splices (source.Versions disks)) ∧
    (Telling (source.Versions disks) → Splices (source.Versions disks)) ∧
    (Splices (source.Versions disks) → ∀ transfers : List Transfer,
      (∀ transfer ∈ transfers, disks transfer.disk) →
      ∀ version (steady : List Transfer),
        (∀ transfer ∈ steady, disks transfer.disk ∧ source.Leads transfer.disk version ∧ 0 < transfer.count) →
        version.content.length + 2 ≤ steady.length →
        ∃ fetched last, source.resumed none (transfers ++ steady) = some fetched ∧
        source.Versions disks last ∧
          fetched.received = last.content) := by
  have nothing : Genuine (source.Versions disks) none := fun fetched held => by cases held
  refine ⟨⟨fun every => splices_of_genuine fun transfers among fetched held => ?_, ?_⟩, Telling.splices, ?_⟩
  · obtain ⟨version, there, of, _⟩ := every transfers among fetched held
    exact ⟨version, there, of⟩
  · intro splices transfers among fetched held
    obtain ⟨version, there, of⟩ := resumed_genuine splices answers among nothing fetched held
    exact ⟨version, there, of, of.complete⟩
  intro splices transfers among version steady every enough
  have progress : ∀ client (transfer : Transfer), Genuine (source.Versions disks) client →
      disks transfer.disk ∧ source.Leads transfer.disk version ∧ 0 < transfer.count →
        Genuine (source.Versions disks) (source.transferred client transfer) ∧
        lacking version (source.transferred client transfer) ≤ lacking version client - 1 := by
    intro client transfer sound fair
    obtain ⟨kept, closer⟩ := transferred_leads splices fair.1 fair.2.1 sound
    exact ⟨kept, closer fair.2.2⟩
  have bounded : lacking version (source.resumed none transfers) ≤ steady.length := by
    refine le_trans ?_ enough
    unfold lacking
    repeat' split
    all_goals omega
  have genuine := resumed_genuine splices answers among nothing
  obtain ⟨sound, done⟩ := Transition.foldl_settles progress every genuine bounded
  rw [show source.resumed none (transfers ++ steady) =
    steady.foldl source.transferred (source.resumed none transfers)
    from List.foldl_append]
  generalize steady.foldl source.transferred (source.resumed none transfers) = client at sound done
  cases client with
  | none => cases done
  | some fetched =>
    obtain ⟨last, there, of⟩ := sound fetched rfl
    refine ⟨fetched, last, rfl, there, ?_⟩
    by_contra different
    have incomplete : ¬fetched.complete := fun complete => different (of.complete complete)
    unfold lacking at done
    dsimp only at done
    rw [if_neg incomplete] at done
    split at done
    next tags =>
      have lengths := Version.length_of_tag (of.tag.symm.trans tags)
      have fewer := of.rest incomplete
      omega
    · cases done

end

def timedDisk : Disk := { linkedDisk with modified := fun _ => some 7 }

def timedVersion : Version := ⟨linkedPath, [1], 7, by decide⟩

def timedSource : Source := ⟨noPlatform, some ⟨[entryName "srv" validName_srv], true⟩, "a"⟩

theorem timedSource_leads : timedSource.Leads timedDisk timedVersion := rfl

-- The connection is lost before anything came, and then brings one byte at a time.
theorem resumed_version_timed :
    ∃ fetched, timedSource.resumed none ([⟨timedDisk, 0⟩] ++ List.replicate 3 ⟨timedDisk, 1⟩) = some fetched ∧
      fetched.received = [1] := by
  have answers : timedSource.Answers (· = timedDisk) := by
    rintro disk rfl
    exact .inl ⟨timedVersion, timedSource_leads⟩
  have only : ∀ version, timedSource.Versions (· = timedDisk) version → version = timedVersion := by
    rintro version ⟨disk, rfl, leads⟩
    exact leads.unique timedSource_leads
  have telling : Telling (timedSource.Versions (· = timedDisk)) := by
    constructor
    · intro version held
      rw [only version held]
      decide
    · intro left right here there _ _
      rw [only left here, only right there]
  have steady : ∀ transfer ∈ List.replicate 3 (⟨timedDisk, 1⟩ : Transfer),
      transfer.disk = timedDisk ∧ timedSource.Leads transfer.disk timedVersion ∧ 0 < transfer.count := by
    intro transfer member
    cases (List.mem_replicate.mp member).2
    exact ⟨rfl, timedSource_leads, Nat.one_pos⟩
  obtain ⟨_, spliced, done⟩ := resumed_version answers
  obtain ⟨fetched, last, held, there, whole⟩ :=
    done (spliced telling) [⟨timedDisk, 0⟩] (by simp) timedVersion _ steady (Nat.le_refl 3)
  rw [only last there] at whole
  exact ⟨fetched, held, whole⟩

end Yafm
