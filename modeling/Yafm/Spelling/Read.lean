import Yafm.Files.Share
import Yafm.Spelling.Forms
import Mathlib.Data.Set.List

set_option autoImplicit false

namespace Yafm

open Text Posix Effect

theorem nameParts_literal {r : String} (valid : ValidPath r) :
    nameParts ((split '/' r).map asBytes) = (pathSegments r).map asBytes := by
  unfold pathSegments
  split
  next empty =>
    subst empty
    decide
  next named =>
    have segments : split '/' r = pathSegments r := by rw [pathSegments, if_neg named]
    rw [nameParts, segments, List.filter_eq_self]
    intro part member
    obtain ⟨segment, inside, rfl⟩ := List.mem_map.mp member
    have plain := valid.plain segment inside
    simp only [ne_eq, asBytes_inj, decide_not, Bool.and_eq_true, Bool.not_eq_true', decide_eq_false_iff_not]
    exact ⟨fun empty => plain.named (asBytes_injective (empty.trans rfl)), plain.notDot⟩

theorem PlainBytes.validName {bytes : Bytes} (plain : PlainBytes bytes) (notDot : bytes ≠ asBytes ".") :
    ValidName bytes :=
  ⟨plain.nonempty, plain.clean.1, plain.clean.2.2, notDot, plain.descending⟩

theorem validName_segment {segment : String} (plain : PlainSegment segment) : ValidName (asBytes segment) :=
  (plainBytes_segment plain).validName (by simpa using plain.notDot)

theorem PlainBytes.spells {bytes : Bytes} (plain : PlainBytes bytes) : Spells bytes := by
  by_cases dot : bytes = asBytes "."
  · exact .inr (.inl dot)
  · exact .inr (.inr (plain.validName dot))

theorem spells_segment {segment : String} (plain : PlainSegment segment) : Spells (asBytes segment) :=
  (plainBytes_segment plain).spells

theorem spells_literal {r : String} (valid : ValidPath r) :
    ∀ part ∈ (split '/' r).map asBytes, Spells part := by
  rw [List.forall_mem_map]
  intro segment member
  by_cases empty : r = ""
  · subst empty
    exact .inl (by rw [List.mem_singleton.mp member]; rfl)
  · have segments : pathSegments r = split '/' r := if_neg empty
    exact spells_segment (valid.plain segment (segments ▸ member))

theorem ValidPath.exists_path {r : String} (valid : ValidPath r) :
    ∃ query : Path, query.map Name.bytes = (pathSegments r).map asBytes := by
  obtain ⟨query, bytes⟩ := exists_path_of_spells (spells_literal valid)
  exact ⟨query, bytes.trans (nameParts_literal valid)⟩

theorem spells_decoded {segments : List String} {decoded : List Bytes}
    (named : ∀ segment ∈ segments, segment ≠ "") (accepted : decodeComponents segments = .ok decoded) :
    ∀ part ∈ decoded, Spells part :=
  fun part member => ((decodeComponents_ok named accepted).2 part member).spells

theorem Share.opens_names {share : Share} {r : String} {opened : PathBuf} {canonical : Path}
    (valid : ValidPath r)
    (opens : Opens share.disk.canonicalize (pathBuf share.root) r opened canonical) :
    ∃ sub, canonical = share.root ++ sub ∧ (share.disk.tree.get canonical).isSome ∧
      (sub.map Name.bytes = (pathSegments r).map asBytes ∨
        share.disk.canonicalize ((pathBuf share.root).join r) = .error .notFound ∧
          ∃ decoded, decodeComponents (pathSegments r) = .ok decoded ∧
          sub.map Name.bytes = nameParts decoded) := by
  obtain ⟨reached, rfl | ⟨missing, decoded, accepted, rfl⟩⟩ := opens
  · obtain ⟨sub, place, same, present⟩ := Share.canonicalize_ok (spells_literal valid) reached
    exact ⟨sub, place, present, Or.inl (by rw [same, nameParts_literal valid])⟩
  · rw [ValidPath.percentDecode_eq] at accepted
    obtain ⟨sub, place, same, present⟩ := Share.canonicalize_ok (spells_decoded valid.named accepted) reached
    exact ⟨sub, place, present, Or.inr ⟨missing, decoded, accepted, same⟩⟩

theorem nameParts_texts {segments texts : List String} (decodes : Decodes segments texts) :
    nameParts (texts.map asBytes) = (dropDots texts).map asBytes := by
  rw [nameParts, dropDots, List.filter_map]
  congr 1
  apply List.filter_congr
  intro text member
  have solid : asBytes text ≠ [] := fun empty =>
    decodes.named text member (asBytes_injective (empty.trans rfl))
  simp [solid]

theorem decodes_of_nameParts {segments names : List String} {decoded : List Bytes}
    (named : ∀ segment ∈ segments, segment ≠ "") (accepted : decodeComponents segments = .ok decoded)
    (same : names.map asBytes = nameParts decoded) :
    ∃ texts, Decodes segments texts ∧ decoded = texts.map asBytes := by
  have each : ∀ part ∈ decoded, ∃ text, asBytes text = part := by
    intro part member
    by_cases dot : part = asBytes "."
    · exact ⟨".", dot.symm⟩
    · have inside : part ∈ names.map asBytes := by
        rw [same, nameParts, List.mem_filter]
        simp [member, dot, ((decodeComponents_ok named accepted).2 part member).nonempty]
      obtain ⟨text, _, bytes⟩ := List.mem_map.mp inside
      exact ⟨text, bytes⟩
  have texts : decoded ∈ Set.range (List.map asBytes) := by
    rw [Set.range_list_map]
    exact each
  obtain ⟨texts, rfl⟩ := texts
  exact ⟨texts, Decodes.of_accepted named accepted, rfl⟩

theorem exists_names {sub : Path} (utf8 : ∀ name ∈ sub, (fromUtf8 name.bytes).isSome) :
    ∃ names : List String, sub.map Name.bytes = names.map asBytes := by
  have each : ∀ bytes ∈ sub.map Name.bytes, ∃ text, asBytes text = bytes := by
    intro bytes member
    obtain ⟨name, here, rfl⟩ := List.mem_map.mp member
    obtain ⟨text, decodes⟩ := Option.isSome_iff_exists.mp (utf8 name here)
    exact ⟨text, (fromUtf8_eq_some _ _).mp decodes⟩
  have texts : sub.map Name.bytes ∈ Set.range (List.map asBytes) := by
    rw [Set.range_list_map]
    exact each
  exact texts.imp fun _ same => same.symm

/-- Whatever a request path that the gate lets through opens is visible under its real name. -/
def ReadsOnlyVisible (p : String) : Prop :=
  ∀ (access : AccessConfig) (groups : List String) (share : Share) (r message : String) (canonical : Path)
    (after : Disk), access.Accepted → share.Utf8 → validateRelativePath p = .ok r →
    isPathVisible access groups r →
    share.disk.run (canonicalEntryTarget share.root r message) = (.ok canonical, after) →
    ∃ segments, canonical.map Name.bytes = share.root.map Name.bytes ++ segments.map asBytes ∧
      (evaluate access groups segments).isHidden = false

-- Some segment does not decode to text, or none decodes to a dot, or all of them do.
def DotsStandAlone (p : String) : Prop :=
  ∀ r, validateRelativePath p = .ok r →
    (∃ segment ∈ pathSegments r, Undecodable segment) ∨
    (∀ segment ∈ pathSegments r, percentDecodeBytes segment ≠ asBytes ".") ∨
    (∀ segment ∈ pathSegments r, percentDecodeBytes segment = asBytes ".")

theorem Decodes.forall_iff {segments texts : List String} (decodes : Decodes segments texts)
    (P : Bytes → Prop) :
    (∀ text ∈ texts, P (asBytes text)) ↔ ∀ segment ∈ segments, P (percentDecodeBytes segment) := by
  rw [← List.forall_mem_map (f := asBytes), decodes.bytes, List.forall_mem_map]

theorem readsOnlyVisible_of_dots {p : String} (apart : DotsStandAlone p) : ReadsOnlyVisible p := by
  intro access groups share r message canonical after _ utf8 accepted visible ran
  have valid := ValidPath.of_validate accepted
  obtain ⟨_, opened, opens⟩ := (canonicalEntryTarget_ok_iff _ _ _ _ _ _).mp ran
  obtain ⟨sub, rfl, present, literal | ⟨_, decoded, decodable, same⟩⟩ := Share.opens_names valid opens
  · refine ⟨pathSegments r, by rw [List.map_append, literal], ?_⟩
    exact ((valid.isPathVisible_iff access groups).mp visible).1
  · obtain ⟨names, spelled⟩ := exists_names (utf8 sub present)
    obtain ⟨texts, decodes, rfl⟩ := decodes_of_nameParts valid.named decodable (spelled.symm.trans same)
    have judged := ((valid.isPathVisible_iff access groups).mp visible).2 texts decodes
    refine ⟨dropDots texts, by rw [List.map_append, same, nameParts_texts decodes], ?_⟩
    rcases apart r accepted with ⟨segment, member, bad⟩ | none | all
    · exact absurd bad ((exists_decodeSegments_iff _).mp
        ⟨texts, (valid.decodes_iff texts).mpr decodes⟩ segment member)
    · have kept : dropDots texts = texts := by
        rw [dropDots, List.filter_eq_self]
        intro text member
        simpa using (decodes.forall_iff (· ≠ asBytes ".")).mpr none text member
      rwa [kept]
    · have dropped : dropDots texts = [] := by
        rw [dropDots, List.filter_eq_nil_iff]
        intro text member
        simpa using (decodes.forall_iff (· = asBytes ".")).mpr all text member
      rw [dropped]
      exact evaluate_root_visible judged

section

variable {r : String} {texts : List String} (valid : ValidPath r) (decodes : Decodes (pathSegments r) texts)
  (dotted : "." ∈ texts)
include valid decodes dotted

theorem chain_opens_decoded (message : String) :
    ∃ (share : Share) (canonical : Path), share.Utf8 ∧
      canonical.map Name.bytes = share.root.map Name.bytes ++ (dropDots texts).map asBytes ∧
      share.disk.run (canonicalEntryTarget share.root r message) = (.ok canonical, share.disk) := by
  have spells := spells_decoded valid.named decodes.accepted
  obtain ⟨path, bytes⟩ := exists_path_of_spells spells
  obtain ⟨query, spelled⟩ := valid.exists_path
  have named := bytes.trans (nameParts_texts decodes)
  have top : (chain path (.dir [] : Node Bytes)).isDir := by
    cases path <;> rfl
  have shorter : path.length < query.length := by
    have dropped := dropDots_shorter dotted
    have left := congrArg List.length named
    have right := congrArg List.length spelled
    simp only [List.length_map] at left right
    have segments := decodes.length
    omega
  have parts : (split '/' r).map asBytes = query.map Name.bytes := by
    have nonempty : r ≠ "" := by
      rintro rfl
      simp [pathSegments] at spelled
      simp [spelled] at shorter
    rw [spelled, pathSegments, if_neg nonempty]
  have missing : (chainDisk path (.dir [])).canonicalize ((split '/' r).map asBytes) = .error .notFound := by
    rw [parts]
    exact chainDisk_missing (fun leads => absurd leads.length_le (by omega)) (Or.inl rfl)
  have reached : (chainDisk path (.dir [])).canonicalize (texts.map asBytes) = .ok path := by
    have arrives : (chainDisk (path ++ []) (.dir [])).canonicalize (texts.map asBytes) = .ok path :=
      chainDisk_reaches spells bytes.symm rfl
    rwa [List.append_nil] at arrives
  refine ⟨chainShare path (.dir []) rfl top, path, chainShare_utf8 ?_, by simpa [chainShare] using named, ?_⟩
  · intro name member
    have inside : name.bytes ∈ (dropDots texts).map asBytes := named ▸ List.mem_map_of_mem member
    obtain ⟨text, _, bytes⟩ := List.mem_map.mp inside
    rw [← bytes, fromUtf8_asBytes]
    rfl
  · rw [canonicalEntryTarget_ok_iff]
    refine ⟨rfl, texts.map asBytes, reached, Or.inr ⟨missing, texts.map asBytes, ?_, rfl⟩⟩
    rw [ValidPath.percentDecode_eq]
    exact decodes.accepted

end

theorem dots_of_readsOnlyVisible {p : String} (reads : ReadsOnlyVisible p) : DotsStandAlone p := by
  intro r accepted
  by_contra mixed
  simp only [not_or, not_exists, not_and] at mixed
  obtain ⟨decodable, somewhere, elsewhere⟩ := mixed
  have valid := ValidPath.of_validate accepted
  obtain ⟨texts, judged⟩ := (exists_decodeSegments_iff _).mpr decodable
  have decodes := (valid.decodes_iff texts).mp judged
  rw [← decodes.forall_iff (· ≠ asBytes ".")] at somewhere
  rw [← decodes.forall_iff (· = asBytes ".")] at elsewhere
  have dotted : "." ∈ texts := by
    by_contra none
    apply somewhere
    intro text member same
    rw [asBytes_inj] at same
    exact none (same ▸ member)
  have remains : dropDots texts ≠ [] := by
    intro none
    apply elsewhere
    intro text member
    simpa using List.filter_eq_nil_iff.mp none text member
  obtain ⟨share, canonical, utf8, place, ran⟩ := chain_opens_decoded valid decodes dotted ""
  have plain : ∀ segment ∈ pathSegments r ++ [], PlainSegment segment := by simpa using valid.plain
  obtain ⟨segments, named, visible⟩ := reads _ _ share r "" canonical share.disk
    (Rules.config_accepted (spelledRules_writable plain decodes dotted)) utf8 accepted
    (spelledRules_passes plain decodes dotted valid (by simp)) ran
  rw [place, List.append_cancel_left_eq] at named
  have same : dropDots texts = segments := List.map_injective_iff.mpr asBytes_injective named
  have hidden := spelledRules_hides plain decodes dotted List.Forall₂.nil (by simp) (by simpa using remains)
  rw [List.append_nil (dropDots texts), same, visible] at hidden
  cases hidden

theorem readsOnlyVisible_iff (p : String) : ReadsOnlyVisible p ↔ DotsStandAlone p :=
  ⟨dots_of_readsOnlyVisible, readsOnlyVisible_of_dots⟩

def secretPath : Path := [entryName "private", entryName "secret"]

def secretShare : Share := chainShare secretPath (.file [1]) rfl rfl

def secretRules : Rules := ⟨[[]], [["private", "secret"]], []⟩

theorem secretRules_accepted : secretRules.config.Accepted := by
  have deny : Writable ["private", "secret"] := .of_isWritable (by decide +kernel)
  exact Rules.config_accepted
    ⟨by simp [secretRules, WritableAllow], by simp [secretRules, deny],
      by simp [secretRules], by decide, by decide⟩

theorem secretShare_opens :
    secretShare.disk.run (canonicalEntryTarget secretShare.root "%2e/private/secret" "") =
      (.ok secretPath, secretShare.disk) := by
  have missing : (chainDisk secretPath (.file [1])).canonicalize ((pathBuf []).join "%2e/private/secret") =
      .error .notFound := by decide +kernel
  have reached :
      (chainDisk secretPath (.file [1])).canonicalize [asBytes ".", asBytes "private", asBytes "secret"] =
      .ok secretPath := by decide +kernel
  rw [canonicalEntryTarget_ok_iff]
  exact ⟨rfl, _, reached, Or.inr ⟨missing, _, by decide +kernel, rfl⟩⟩

-- The deny on `private/secret` is judged on `./private/secret`, which it does not match.
theorem not_readsOnlyVisible_dotted : ¬ReadsOnlyVisible "%2e/private/secret" := by
  intro reads
  obtain ⟨segments, named, visible⟩ :=
    reads secretRules.config [] secretShare "%2e/private/secret" "" secretPath
    secretShare.disk secretRules_accepted (chainShare_utf8 (by decide))
      (by decide +kernel) (by decide +kernel)
    secretShare_opens
  have same : ["private", "secret"] = segments := List.map_injective_iff.mpr asBytes_injective named
  have hidden : (evaluate secretRules.config [] ["private", "secret"]).isHidden = true := by decide +kernel
  rw [same, visible] at hidden
  cases hidden

end Yafm
