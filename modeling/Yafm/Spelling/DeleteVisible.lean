import Yafm.Spelling.Delete
import Yafm.Spelling.Masks

set_option autoImplicit false

namespace Yafm

open Text Posix Effect

/-- A delete that passed the gate leaves the tree as it is, or answers 204 and takes away one
visible file. -/
def DeletesOnlyVisible (p : String) : Prop :=
  ∀ (access : AccessConfig) (groups : List String) (share : Share) (showHidden : Bool) (r : String)
    (outcome : Except ApiError Response) (after : Disk), access.Accepted → share.Utf8 →
    validateRelativePath p = .ok r → isPathVisible access groups r →
    share.disk.run (deleteFile (some ⟨share.root, showHidden⟩) p (some ⟨access, groups⟩)) = (outcome, after) →
    match outcome with
    | .error _ => after = share.disk
    | .ok response => response.status = 204 ∧ ∃ sub segments, Removes share after sub ∧
        sub.map Name.bytes = segments.map asBytes ∧ (evaluate access groups segments).isHidden = false

-- Every form of the path that is text is literal throughout, or decoded throughout with no dot dropped.
def FormsJudged (p : String) : Prop :=
  ∀ r, validateRelativePath p = .ok r → r ≠ "" → ∀ names : List String, names.map asBytes ∈ deleteForms r →
    names = pathSegments r ∨ names.map asBytes = (pathSegments r).map percentDecodeBytes

theorem nameForms_cases {name : String} {bytes : Bytes} (plain : PlainSegment name)
    (member : bytes ∈ nameForms name) :
    bytes = asBytes name ∨ bytes = percentDecodeBytes name :=
  (mem_nameForms.mp member).imp_right fun decoded => (nameForm_decoded plain decoded.1).1

theorem deleteForms_cases {r : String} {form : List Bytes} (valid : ValidPath r) (named : r ≠ "")
    (member : form ∈ deleteForms r) :
    List.Forall₂ (fun segment bytes => bytes = asBytes segment ∨ bytes = percentDecodeBytes segment)
      (pathSegments r) form ∨
      ∃ front name decoded last, pathSegments r = front ++ [name] ∧ decodeComponents front = .ok decoded ∧
        asBytes "." ∈ decoded ∧ form = nameParts decoded ++ [last] ∧
        (last = asBytes name ∨ last = percentDecodeBytes name) := by
  obtain ⟨whole, above, plain⟩ := parentAndName_valid valid named
  obtain ⟨dirs, last, rfl, final, spelled⟩ := mem_deleteForms.mp member
  have lastForm := nameForms_cases plain final
  rw [whole]
  rcases spelled with rfl | ⟨_, decoded, accepted, rfl⟩
  · refine Or.inl (List.rel_append ?_ (.cons lastForm .nil))
    rw [List.forall₂_map_right_iff, List.forall₂_same]
    exact fun segment _ => Or.inl rfl
  · rw [ValidPath.percentDecode_eq] at accepted
    obtain ⟨bytes, solid⟩ := decodeComponents_ok above.named accepted
    by_cases dotted : asBytes "." ∈ decoded
    · exact Or.inr ⟨_, _, decoded, last, rfl, accepted, dotted, rfl, lastForm⟩
    · have kept : nameParts decoded = decoded := by
        rw [nameParts, List.filter_eq_self]
        intro part inside
        have notDot : part ≠ asBytes "." := fun dot => dotted (dot ▸ inside)
        simp [(solid part inside).nonempty, notDot]
      refine Or.inl (List.rel_append ?_ (.cons lastForm .nil))
      rw [kept, bytes, List.forall₂_map_right_iff, List.forall₂_same]
      exact fun segment _ => Or.inr rfl

theorem decodes_of_form {r : String} {names : List String} (valid : ValidPath r) (named : r ≠ "")
    (member : names.map asBytes ∈ deleteForms r)
    (decoded : names.map asBytes = (pathSegments r).map percentDecodeBytes) :
    Decodes (pathSegments r) names := by
  refine Decodes.of_accepted valid.named ?_
  rw [decoded]
  refine decodeComponents_plain fun segment inside => ?_
  exact (deleteForms_plain valid named member _ (decoded ▸ List.mem_map_of_mem inside)).1

theorem deletesOnlyVisible_of_forms {p : String} (judged : FormsJudged p) : DeletesOnlyVisible p := by
  intro access groups share showHidden r outcome after _ utf8 accepted visible ran
  have valid := ValidPath.of_validate accepted
  cases outcome with
  | error refused => exact deleteFile_error ran
  | ok response =>
    obtain ⟨other, sub, requested, member, removes, answered⟩ := deleteFile_removes ran
    obtain rfl : other = r := Except.ok.inj (requested.valid.symm.trans accepted)
    obtain ⟨content, present⟩ := removes.present
    obtain ⟨names, texts⟩ := exists_names (utf8 sub (by simp [present]))
    refine ⟨by rw [answered], sub, names, removes, texts, ?_⟩
    obtain ⟨literal, decoded⟩ := (valid.isPathVisible_iff access groups).mp visible
    rw [texts] at member
    rcases judged other accepted requested.named names member with rfl | same
    · exact literal
    · exact decoded names (decodes_of_form valid requested.named member same)

theorem DeletesOnlyVisible.shows {p r : String} {names groups : List String} {access : AccessConfig}
    (deletes : DeletesOnlyVisible p) (config : access.Accepted) (accepted : validateRelativePath p = .ok r)
    (deletable : canDelete access groups r) (member : names.map asBytes ∈ deleteForms r) :
    (evaluate access groups names).isHidden = false := by
  obtain ⟨share, sub, after, spelled, removes, utf8, ran⟩ := chain_removes accepted deletable member
  have text : ∀ part ∈ names.map asBytes, (fromUtf8 part).isSome := by
    intro part inside
    obtain ⟨name, _, rfl⟩ := List.mem_map.mp inside
    simp
  obtain ⟨_, removed, segments, others, texts, visible⟩ :=
    deletes access groups share false r _ _ config (utf8 text)
    accepted ((canDelete_iff _ _ _).mp deletable).2.1 ran
  obtain rfl : sub = removed := others.lost_iff.mp (removes.lost_iff.mpr rfl)
  rw [spelled] at texts
  rwa [List.map_injective_iff.mpr asBytes_injective texts]

theorem decoded_of_length {segment : String}
    (same : (percentDecodeBytes segment).length = (asBytes segment).length) :
    percentDecodeBytes segment = asBytes segment :=
  (decodeEscapes_length (asBytes segment)).2 same

-- A name of a form is literal or decoded.
abbrev Aligned (segments names : List String) : Prop :=
  List.Forall₂ (fun segment name => asBytes name = asBytes segment ∨
    asBytes name = percentDecodeBytes segment) segments
    names

-- Decoding shortens what it changes, so the lengths of the names tell which of the two each one is.
theorem Aligned.literal {segments names : List String} (aligned : Aligned segments names)
    (lengths : List.Forall₂ (fun name segment => (asBytes name).length = (asBytes segment).length)
      names segments) :
    names = segments := by
  induction aligned with
  | nil => rfl
  | cons here _ ih =>
    cases lengths with
    | cons same rest =>
      rw [ih rest]
      rcases here with literal | decoded
      · rw [asBytes_injective literal]
      · rw [decoded] at same
        rw [asBytes_injective (decoded.trans (decoded_of_length same))]

theorem Aligned.decoded {segments names texts : List String} (aligned : Aligned segments names)
    (decodes : texts.map asBytes = segments.map percentDecodeBytes)
    (lengths : List.Forall₂ (fun name text => (asBytes name).length = (asBytes text).length) names texts) :
    names.map asBytes = segments.map percentDecodeBytes := by
  induction aligned generalizing texts with
  | nil => rfl
  | cons here _ ih =>
    cases lengths with
    | cons same rest =>
      rw [List.map_cons, List.map_cons, List.cons.injEq] at decodes
      rw [List.map_cons, List.map_cons, ih decodes.2 rest]
      rcases here with literal | decoded
      · rw [literal, decodes.1] at same
        rw [literal, decoded_of_length same.symm]
      · rw [decoded]

-- A mask of a mixed form matches neither of the two forms that the rules are judged on.
theorem maskRules_canDelete {r : String} {names : List String} (valid : ValidPath r) (named : r ≠ "")
    (aligned : Aligned (pathSegments r) names) (literal : names ≠ pathSegments r)
    (decoded : names.map asBytes ≠ (pathSegments r).map percentDecodeBytes)
    (nonempty : names.map asBytes ≠ []) (solid : ∀ bytes ∈ names.map asBytes, bytes ≠ []) :
    canDelete (maskRules (names.map asBytes) [[]]).config [Rules.group] r := by
  have root : ∀ path ∈ [([] : List String)], WritableAllow path := by simp [WritableAllow]
  have lengths {segments : List String} (matched : List.Forall₂
      (fun name segment => segmentMatches (maskSegment name) segment) (names.map asBytes) segments) :
      List.Forall₂ (fun name segment => (asBytes name).length = (asBytes segment).length) names segments := by
    rw [List.forall₂_map_left_iff] at matched
    exact matched.imp fun name segment hit => (maskSegment_text name segment).mp hit
  have short : (names.map asBytes).length = (pathSegments r).length := by simpa using aligned.length_eq.symm
  rw [canDelete_iff, valid.isPathVisible_iff]
  refine ⟨named, ⟨?_, fun texts there => ?_⟩, ?_⟩
  · rw [maskRules_visible_iff nonempty solid root _ short]
    exact fun matched => literal (aligned.literal (lengths matched))
  · rw [maskRules_visible_iff nonempty solid root _ (short.trans there.length.symm)]
    exact fun matched => decoded (aligned.decoded there.bytes (lengths matched))
  · rw [Rules.deleteCovered_iff (maskRules_writable nonempty solid root)]
    exact ⟨by simp, [], by simp [maskRules], List.nil_prefix⟩

theorem spelledRules_canDelete {r name : String} {front texts : List String} (valid : ValidPath r)
    (whole : pathSegments r = front ++ [name]) (decodes : Decodes front texts) (dotted : "." ∈ texts) :
    canDelete (spelledRules (front ++ [name]) texts).config [Rules.group] r := by
  have plain : ∀ segment ∈ front ++ [name], PlainSegment segment := by
    rw [← whole]
    exact valid.plain
  rw [canDelete_iff]
  refine ⟨?_, spelledRules_passes plain decodes dotted valid whole, ?_⟩
  · rintro rfl
    simp [pathSegments] at whole
  · rw [whole]
    exact spelledRules_covers plain decodes dotted (Or.inl (writablePrefix_leads _))

theorem forms_of_deletesOnlyVisible {p : String} (deletes : DeletesOnlyVisible p) : FormsJudged p := by
  intro r accepted named names member
  have valid := ValidPath.of_validate accepted
  by_contra mixed
  rw [not_or] at mixed
  rcases deleteForms_cases valid named member
    with aligned | ⟨front, name, decoded, last, whole, above, dotted, form, ends⟩
  · rw [List.forall₂_map_right_iff] at aligned
    have nonempty : names.map asBytes ≠ [] := by
      obtain ⟨dirs, last, parts, _⟩ := mem_deleteForms.mp member
      simp [parts]
    have solid : ∀ bytes ∈ names.map asBytes, bytes ≠ [] := fun bytes inside =>
      (deleteForms_plain valid named member bytes inside).1.nonempty
    have root : ∀ path ∈ [([] : List String)], WritableAllow path := by simp [WritableAllow]
    have visible := deletes.shows (Rules.config_accepted (maskRules_writable nonempty solid root)) accepted
      (maskRules_canDelete valid named aligned mixed.1 mixed.2 nonempty solid) member
    obtain ⟨pattern, source, denied⟩ := maskRules_denies nonempty solid root [Rules.group]
    have rendered : (names.map asBytes).map percentEncodeEntryName = names := by
      rw [List.map_map, ← List.map_id names, List.map_map]
      exact List.map_congr_left fun name _ => percentEncodeEntryName_text name
    rw [rendered] at denied
    rw [denied] at visible
    cases visible
  · have plain : ∀ segment ∈ front ++ [name], PlainSegment segment := by
      rw [← whole]
      exact valid.plain
    obtain ⟨dirs, tail, rfl, same, final⟩ := List.map_eq_append_iff.mp form
    obtain ⟨text, rfl, rfl⟩ := List.map_eq_singleton_iff.mp final
    obtain ⟨texts, decodes, rfl⟩ := decodes_of_nameParts
      (fun segment inside => (plain segment (List.mem_append_left _ inside)).named) above same
    have dot : "." ∈ texts := by simpa using dotted
    have parents : dirs = dropDots texts := by
      rw [nameParts_texts decodes] at same
      exact List.map_injective_iff.mpr asBytes_injective same
    have kept : KeepsBlank [name] [text] := by
      refine .cons (fun blank => ?_) .nil
      rcases ends with literal | decoded
      · rwa [asBytes_injective literal]
      · exact endsWithWhitespace_decoded decoded blank
    have undotted : "." ∉ [text] := by
      intro inside
      rw [List.mem_singleton] at inside
      exact (deleteForms_plain valid named member (asBytes text) (by simp)).2 (by rw [← inside])
    have visible := deletes.shows (Rules.config_accepted (spelledRules_writable plain decodes dot)) accepted
      (spelledRules_canDelete valid whole decodes dot) member
    have hidden := spelledRules_hides plain decodes dot kept undotted (by simp)
    rw [← parents, visible] at hidden
    cases hidden

theorem deletesOnlyVisible_iff (p : String) : DeletesOnlyVisible p ↔ FormsJudged p :=
  ⟨forms_of_deletesOnlyVisible, deletesOnlyVisible_of_forms⟩

def mixedRules : Rules := ⟨[], [["a%20b", "secret.txt"]], [[]]⟩

-- The directory is opened as it is written and the name decoded, and no rule is asked about that form.
theorem not_deletesOnlyVisible_mixed : ¬DeletesOnlyVisible "a%20b/secret%2etxt" := by
  intro deletes
  have deny : Writable ["a%20b", "secret.txt"] := .of_isWritable (by decide +kernel)
  have writable : mixedRules.Writable :=
    ⟨by simp [mixedRules], by simp [mixedRules, deny],
      by simp [mixedRules, WritableAllow], by decide, by decide⟩
  have accepted : validateRelativePath "a%20b/secret%2etxt" = .ok "a%20b/secret%2etxt" := by decide +kernel
  have deletable : canDelete mixedRules.config [Rules.group] "a%20b/secret%2etxt" := by decide +kernel
  have member : ["a%20b", "secret.txt"].map asBytes ∈ deleteForms "a%20b/secret%2etxt" := by decide +kernel
  have visible := deletes.shows (Rules.config_accepted writable) accepted deletable member
  have hidden : (evaluate mixedRules.config [Rules.group] ["a%20b", "secret.txt"]).isHidden = true := by
    decide +kernel
  rw [visible] at hidden
  cases hidden

end Yafm
