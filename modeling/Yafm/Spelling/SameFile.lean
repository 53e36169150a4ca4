import Yafm.Spelling.Delete
import Yafm.Spelling.Reach

set_option autoImplicit false

namespace Yafm

open Text Posix Effect

def downloadResolution (root : Path) (relative : String) : Storage ApiError Path :=
  canonicalEntryTarget root relative "The requested file could not be found."

def deleteResolution (root : Path) (relative : String) : Storage ApiError Path := do
  let (parent, name) := parentAndName relative
  let parentCanonical ← canonicalEntryTarget root parent "The requested file could not be found."
  let (_, metadata) ← entryMetadata parentCanonical name "The requested file could not be found."
  return metadata.identity

/-- In every tree without links, a path finds one entry for both handlers, or none for either. -/
def SameFile (r : String) : Prop :=
  ∀ share : Share, share.disk.Clear → ∀ canonical after,
    share.disk.run (deleteResolution share.root r) = (.ok canonical, after) ↔
      share.disk.run (downloadResolution share.root r) = (.ok canonical, after)

-- No escape changes the parent; or an escape in the parent hides what the decoder refuses, and the name is
-- one that decoding leaves alone or refuses.
def ResolvesAlike (r : String) : Prop :=
  let (parent, name) := parentAndName r
  (∀ segment ∈ pathSegments parent, percentDecodeBytes segment = asBytes segment) ∨
    ¬Decodable (pathSegments parent) ∧ (percentDecodeBytes name = asBytes name ∨ ¬Decodable [name])

theorem deleteResolution_iff {share : Share} (clear : share.disk.Clear) {r : String}
    (valid : ValidPath r) (named : r ≠ "") (canonical : Path) (after : Disk) :
    share.disk.run (deleteResolution share.root r) = (.ok canonical, after) ↔
      after = share.disk ∧ ∃ here, share.Reaches share.root (pathSegments (parentAndName r).1) here ∧
        share.Reaches here [(parentAndName r).2] canonical := by
  obtain ⟨_, above, plain⟩ := parentAndName_valid valid named
  unfold deleteResolution
  rw [Disk.run_bind_ok_iff]
  constructor
  · rintro ⟨here, middle, parent, found⟩
    obtain ⟨rfl, reaches⟩ := (Share.canonicalEntryTarget_iff clear above _ _ _).mp parent
    obtain ⟨⟨target, metadata⟩, middle, asked, ended⟩ := Disk.run_bind_ok found
    obtain ⟨rfl, opens⟩ := (entryMetadata_ok_iff _ _ _ _ _ _ _).mp asked
    cases ended
    have last := (Share.lstat_iff_reaches clear (reaches.place above.plain) plain _).mp
      ⟨target, metadata, opens, rfl⟩
    exact ⟨rfl, here, reaches, last⟩
  · rintro ⟨rfl, here, reaches, last⟩
    obtain ⟨target, metadata, opens, rfl⟩ :=
      (Share.lstat_iff_reaches clear (reaches.place above.plain) plain _).mpr last
    refine ⟨here, share.disk, (Share.canonicalEntryTarget_iff clear above _ _ _).mpr ⟨rfl, reaches⟩, ?_⟩
    rw [Disk.run_bind, (entryMetadata_ok_iff _ _ _ _ _ _ _).mpr ⟨rfl, opens⟩]
    rfl

theorem downloadResolution_iff {share : Share} (clear : share.disk.Clear) {r : String} (valid : ValidPath r)
    (canonical : Path) (after : Disk) :
    share.disk.run (downloadResolution share.root r) = (.ok canonical, after) ↔
      after = share.disk ∧ share.Reaches share.root (pathSegments r) canonical :=
  Share.canonicalEntryTarget_iff clear valid _ canonical after

def SamePlace (front : List String) (name : String) : Prop :=
  ∀ share : Share, share.disk.Clear → ∀ canonical,
    (∃ here, share.Reaches share.root front here ∧ share.Reaches here [name] canonical) ↔
      share.Reaches share.root (front ++ [name]) canonical

theorem sameFile_iff {r : String} (valid : ValidPath r) (named : r ≠ "") :
    SameFile r ↔ SamePlace (pathSegments (parentAndName r).1) (parentAndName r).2 := by
  obtain ⟨whole, _, _⟩ := parentAndName_valid valid named
  unfold SameFile SamePlace
  constructor
  · intro same share clear canonical
    have both := same share clear canonical share.disk
    rw [deleteResolution_iff clear valid named, downloadResolution_iff clear valid, whole] at both
    simpa using both
  · intro same share clear canonical after
    rw [deleteResolution_iff clear valid named, downloadResolution_iff clear valid, whole,
      same share clear canonical]

section

variable {front : List String} {name : String} (plain : ∀ segment ∈ front ++ [name], PlainSegment segment)
include plain

theorem spells_front : ∀ part ∈ front.map asBytes, Spells part :=
  spells_segments fun segment member => plain segment (by simp [member])

theorem spells_whole : ∀ part ∈ front.map asBytes ++ [asBytes name], Spells part := by
  have spells := spells_segments plain
  rwa [List.map_append, List.map_singleton] at spells

theorem spells_mixed (decodable : Decodable [name]) :
    ∀ part ∈ front.map asBytes ++ [percentDecodeBytes name], Spells part :=
  spells_concat (spells_front plain) ((decodable_singleton name).mp decodable).spells

theorem samePlace_of_same (same : ∀ segment ∈ front, percentDecodeBytes segment = asBytes segment) :
    SamePlace front name := by
  intro share clear canonical
  have decodable :
      Decodable front := decodable_of_same (fun segment member => plain segment (by simp [member])) same
  have bytes : front.map percentDecodeBytes = front.map asBytes := List.map_congr_left same
  have step := Share.look_append clear (spells_whole plain)
  unfold Share.Reaches
  rw [List.map_append, List.map_append, List.map_singleton, List.map_singleton, bytes, step, decodable_append]
  cases above : share.look share.root (front.map asBytes) with
  | error error =>
    constructor
    · rintro ⟨here, found | ⟨_, _, found⟩, _⟩ <;> cases found
    · rintro (found | ⟨missing, ⟨_, last⟩, found⟩)
      · cases found
      · rw [Share.look_append clear (spells_mixed plain last), above] at found
        cases found
  | ok here =>
    simp only [Except.bind, Except.ok.injEq, reduceCtorEq, false_and, or_false,
      exists_eq_left', decodable, true_and]
    constructor
    · rintro (found | ⟨missing, last, found⟩)
      · exact .inl found
      · refine .inr ⟨missing, last, ?_⟩
        rw [Share.look_append clear (spells_mixed plain last), above]
        exact found
    · rintro (found | ⟨missing, last, found⟩)
      · exact .inl found
      · rw [Share.look_append clear (spells_mixed plain last), above] at found
        exact .inr ⟨missing, last, found⟩

theorem samePlace_of_refused (refused : ¬Decodable front)
    (last : percentDecodeBytes name = asBytes name ∨ ¬Decodable [name]) : SamePlace front name := by
  intro share clear canonical
  have step := Share.look_append clear (spells_whole plain)
  unfold Share.Reaches
  rw [List.map_append, List.map_singleton, step, decodable_append]
  simp only [refused, false_and, and_false, or_false, List.map_singleton]
  cases above : share.look share.root (front.map asBytes) with
  | error error => simp [Except.bind]
  | ok here =>
    simp only [Except.bind, Except.ok.injEq, exists_eq_left']
    constructor
    · rintro (found | ⟨missing, decodable, found⟩)
      · exact found
      · rcases last with same | never
        · rw [same, missing] at found
          cases found
        · exact absurd decodable never
    · exact .inl

end

theorem nameParts_segments {segments : List String} (plain : ∀ segment ∈ segments, PlainSegment segment) :
    nameParts (segments.map asBytes) = segments.map asBytes := by
  rw [nameParts, List.filter_eq_self, List.forall_mem_map]
  intro segment member
  have name := validName_segment (plain segment member)
  simp [name.1, name.2.2.2.1]

theorem nameParts_append (left right : List Bytes) :
    nameParts (left ++ right) = nameParts left ++ nameParts right :=
  List.filter_append ..

theorem nameParts_full {parts : List Bytes} (full : parts.length ≤ (nameParts parts).length) :
    nameParts parts = parts :=
  List.filter_sublist.eq_of_length_le full

theorem prefix_bytes {left right : Path} : left <+: right ↔ left.map Name.bytes <+: right.map Name.bytes :=
  (List.prefix_map_iff_of_injective Name.bytes_injective).symm

section

variable (left right : Path) {path : Path} {parts : List Bytes} (spells : ∀ part ∈ parts, Spells part)
include spells

theorem fork_finds (same : path.map Name.bytes = nameParts parts) (leads : path <+: left ∨ path <+: right) :
    (forkShare left right).look (forkShare left right).root parts = .ok path := by
  rw [Share.look, forkShare_canonicalize spells same, if_pos leads]

theorem fork_misses (first : ¬nameParts parts <+: left.map Name.bytes)
    (second : ¬nameParts parts <+: right.map Name.bytes) :
    (forkShare left right).look (forkShare left right).root parts = .error .notFound := by
  obtain ⟨path, same⟩ := exists_path_of_spells spells
  have apart : ¬(path <+: left ∨ path <+: right) := by
    rw [prefix_bytes, prefix_bytes, same, not_or]
    exact ⟨first, second⟩
  rw [Share.look, forkShare_canonicalize spells same, if_neg apart]

theorem fork_bytes (found : (forkShare left right).look (forkShare left right).root parts = .ok path) :
    path.map Name.bytes = nameParts parts := by
  obtain ⟨other, same⟩ := exists_path_of_spells spells
  rw [Share.look, forkShare_canonicalize spells same] at found
  split at found
  · cases found
    exact same
  · cases found

end

theorem nameParts_changed {front : List String}
    (changed : ∃ segment ∈ front, percentDecodeBytes segment ≠ asBytes segment) :
    ¬front.map asBytes <+: nameParts (front.map percentDecodeBytes) := by
  intro leads
  have length := leads.length_le
  have full : nameParts (front.map percentDecodeBytes) = front.map percentDecodeBytes :=
    nameParts_full (by simpa using length)
  rw [full] at leads
  have same := leads.eq_of_length (by simp)
  obtain ⟨segment, member, other⟩ := changed
  exact other (List.map_inj_left.mp same segment member).symm

theorem not_prefix_decoded {front : List String}
    (changed : ∃ segment ∈ front, percentDecodeBytes segment ≠ asBytes segment) (name : String) :
    ¬front.map asBytes ++ [asBytes name] <+: nameParts
      (front.map percentDecodeBytes ++ [percentDecodeBytes name]) := by
  rw [nameParts_append]
  intro leads
  -- the two sides have the same length only when no dot has dropped out
  have short : (nameParts [percentDecodeBytes name]).length ≤ 1 := List.length_filter_le _ _
  have length := leads.length_le
  simp only [List.length_append, List.length_map, List.length_singleton] at length
  have above : front.map asBytes <+: nameParts (front.map percentDecodeBytes) :=
    List.prefix_of_prefix_length_le ((List.prefix_append _ _).trans leads) (List.prefix_append _ _)
      (by rw [List.length_map]; omega)
  exact nameParts_changed changed above

section

variable {front : List String} {name : String} (plain : ∀ segment ∈ front ++ [name], PlainSegment segment)
include plain

theorem plain_front : ∀ segment ∈ front, PlainSegment segment :=
  fun segment member => plain segment (by simp [member])

theorem exists_front : ∃ path : Path, path.map Name.bytes = front.map asBytes := by
  have path := exists_path_of_spells (spells_front plain)
  rwa [nameParts_segments (plain_front plain)] at path

theorem nameParts_whole : nameParts (front.map asBytes ++ [asBytes name]) =
    front.map asBytes ++ [asBytes name] := by
  have whole := nameParts_segments plain
  rwa [List.map_append, List.map_singleton] at whole

-- The literal parent is there and empty, and so is the place that the whole decoded path names.
theorem not_samePlace_of_decodable (changed : ∃ segment ∈ front, percentDecodeBytes segment ≠ asBytes segment)
    (decodable : Decodable front) (last : Decodable [name]) : ¬SamePlace front name := by
  intro same
  have spells : ∀ part ∈ front.map percentDecodeBytes ++ [percentDecodeBytes name], Spells part :=
    spells_concat decodable.spells ((decodable_singleton name).mp last).spells
  obtain ⟨parent, parentBytes⟩ := exists_front plain
  obtain ⟨target, targetBytes⟩ := exists_path_of_spells spells
  have clear := forkShare_clear parent target
  have above := fork_finds parent target (spells_front plain)
    (parentBytes.trans (nameParts_segments (plain_front plain)).symm) (.inl (List.prefix_refl _))
  have decoded := fork_finds parent target spells targetBytes (.inr (List.prefix_refl _))
  have missing : (forkShare parent target).look (forkShare parent target).root
      (front.map asBytes ++ [asBytes name]) = .error .notFound := by
    refine fork_misses _ _ (spells_whole plain) ?_ ?_
    · rw [nameParts_whole plain, parentBytes]
      intro leads
      have longer := leads.length_le
      simp at longer
    · rw [nameParts_whole plain, targetBytes]
      exact not_prefix_decoded changed name
  have download :
      (forkShare parent target).Reaches (forkShare parent target).root (front ++ [name]) target := by
    refine .inr ⟨?_, (decodable_append _ _).mpr ⟨decodable, last⟩, ?_⟩
    · rwa [List.map_append, List.map_singleton]
    · rwa [List.map_append, List.map_singleton]
  obtain ⟨here, parents, names⟩ := (same _ clear target).mpr download
  obtain rfl : here = parent := by
    rcases parents with found | ⟨absent, _⟩
    · rw [above] at found
      exact (Except.ok.inj found).symm
    · rw [above] at absent
      cases absent
  rw [Share.look_append clear (spells_whole plain), above] at missing
  rcases names with found | ⟨_, _, found⟩
  · exact absurd (missing.symm.trans found) (by simp)
  · have there := Share.look_append clear (spells_mixed plain last)
    rw [above] at there
    have bytes := fork_bytes _ _ (spells_mixed plain last) (there.trans found)
    rw [targetBytes, nameParts_append, nameParts_append, List.append_cancel_right_eq,
      nameParts_segments (plain_front plain)] at bytes
    exact nameParts_changed changed (bytes ▸ List.prefix_refl _)

-- The decoded parent is there with the literal name in it, and the literal parent is not.
theorem not_samePlace_of_refused (changed : ∃ segment ∈ front, percentDecodeBytes segment ≠ asBytes segment)
    (decodable : Decodable front) (last : ¬Decodable [name]) : ¬SamePlace front name := by
  intro same
  have spells : ∀ part ∈ front.map percentDecodeBytes ++ [asBytes name], Spells part :=
    spells_concat decodable.spells (spells_segment (plain name (by simp)))
  have nameBytes : nameParts ([name].map asBytes) = [name].map asBytes :=
    nameParts_segments fun segment member => plain segment (List.mem_append_right _ member)
  rw [List.map_singleton] at nameBytes
  obtain ⟨parent, parentBytes⟩ := exists_path_of_spells decodable.spells
  obtain ⟨target, targetBytes⟩ := exists_path_of_spells spells
  have clear := forkShare_clear target []
  have within : parent <+: target := by
    rw [prefix_bytes, parentBytes, targetBytes, nameParts_append]
    exact List.prefix_append _ _
  have above := fork_finds target [] decodable.spells parentBytes (.inl within)
  have whole := fork_finds target [] spells targetBytes (.inl (List.prefix_refl _))
  have missing :
      (forkShare target []).look (forkShare target []).root (front.map asBytes) = .error .notFound := by
    refine fork_misses _ _ (spells_front plain) ?_ ?_
    · rw [nameParts_segments (plain_front plain), targetBytes, nameParts_append,
        nameBytes, List.prefix_concat_iff]
      rintro (ends | leads)
      · -- then the name is one of the segments, which all decode
        have member : asBytes name ∈ front.map asBytes := by rw [ends]; simp
        obtain ⟨segment, inside, bytes⟩ := List.mem_map.mp member
        obtain rfl := asBytes_injective bytes
        exact last ((decodable_singleton segment).mpr (decodable segment inside))
      · exact nameParts_changed changed leads
    · rw [nameParts_segments (plain_front plain)]
      intro leads
      obtain ⟨segment, member, _⟩ := changed
      exact absurd (List.prefix_nil.mp leads) (List.ne_nil_of_mem (List.mem_map_of_mem member))
  have step := Share.look_append clear spells
  rw [above, whole] at step
  have found := (same _ clear target).mp ⟨parent, .inr ⟨missing, decodable, above⟩, .inl step.symm⟩
  rcases found with literal | ⟨_, both, _⟩
  · rw [List.map_append, List.map_singleton, Share.look_append clear (spells_whole plain), missing] at literal
    cases literal
  · exact last ((decodable_append _ _).mp both).2

-- The literal parent is there with the decoded name in it.
theorem not_samePlace_of_name (refused : ¬Decodable front) (changed : percentDecodeBytes name ≠ asBytes name)
    (last : Decodable [name]) : ¬SamePlace front name := by
  intro same
  have spells := spells_mixed plain last
  obtain ⟨parent, parentBytes⟩ := exists_front plain
  obtain ⟨target, targetBytes⟩ := exists_path_of_spells spells
  have clear := forkShare_clear target []
  have literalParent := nameParts_segments (plain_front plain)
  have within : parent <+: target := by
    rw [prefix_bytes, parentBytes, targetBytes, nameParts_append, literalParent]
    exact List.prefix_append _ _
  have above := fork_finds target [] (spells_front plain) (parentBytes.trans literalParent.symm) (.inl within)
  have whole := fork_finds target [] spells targetBytes (.inl (List.prefix_refl _))
  have missing : (forkShare target []).look (forkShare target []).root (front.map asBytes ++ [asBytes name]) =
      .error .notFound := by
    refine fork_misses _ _ (spells_whole plain) ?_ ?_
    · rw [nameParts_whole plain, targetBytes, nameParts_append, literalParent, List.prefix_append_right_inj]
      intro leads
      have member : asBytes name ∈ nameParts [percentDecodeBytes name] := leads.subset (by simp)
      exact changed (List.mem_singleton.mp (List.mem_of_mem_filter member)).symm
    · rw [nameParts_whole plain]
      intro leads
      exact absurd (List.prefix_nil.mp leads) (by simp)
  have literal := missing
  have step := Share.look_append clear spells
  rw [above, whole] at step
  rw [Share.look_append clear (spells_whole plain), above] at missing
  have found := (same _ clear target).mp ⟨parent, .inl above, .inr ⟨missing, last, step.symm⟩⟩
  rcases found with there | ⟨_, both, _⟩
  · rw [List.map_append, List.map_singleton, literal] at there
    cases there
  · exact refused ((decodable_append _ _).mp both).1

end

theorem samePlace_iff {front : List String} {name : String}
    (plain : ∀ segment ∈ front ++ [name], PlainSegment segment) :
    SamePlace front name ↔ (∀ segment ∈ front, percentDecodeBytes segment = asBytes segment) ∨
      ¬Decodable front ∧ (percentDecodeBytes name = asBytes name ∨ ¬Decodable [name]) := by
  constructor
  · intro same
    by_cases unchanged : ∀ segment ∈ front, percentDecodeBytes segment = asBytes segment
    · exact .inl unchanged
    · simp only [not_forall, exists_prop] at unchanged
      by_cases last : Decodable [name]
      · by_cases decodable : Decodable front
        · exact absurd same (not_samePlace_of_decodable plain unchanged decodable last)
        · refine .inr ⟨decodable, .inl ?_⟩
          by_contra changed
          exact not_samePlace_of_name plain decodable changed last same
      · refine .inr ⟨fun decodable => ?_, .inr last⟩
        exact not_samePlace_of_refused plain unchanged decodable last same
  · rintro (unchanged | ⟨refused, last⟩)
    · exact samePlace_of_same plain unchanged
    · exact samePlace_of_refused plain refused last

theorem sameFile_iff_resolvesAlike {p r : String} (accepted : validateRelativePath p = .ok r)
    (named : r ≠ "") :
    SameFile r ↔ ResolvesAlike r := by
  have valid := ValidPath.of_validate accepted
  obtain ⟨whole, _, _⟩ := parentAndName_valid valid named
  rw [sameFile_iff valid named, samePlace_iff (by rw [← whole]; exact valid.plain)]
  rfl

theorem sameFile_iff_resolvesAlike_docs : SameFile "docs/a%20b" ↔ ResolvesAlike "docs/a%20b" :=
  sameFile_iff_resolvesAlike (p := " docs//a%20b") (by decide) (by decide)

def escapedTwin : Path := [entryName "a%20b", entryName "c d"]

def plainTwin : Path := [entryName "a b", entryName "c d"]

def twinShare : Share := forkShare escapedTwin plainTwin

-- With both entries there, a delete takes the one under the escaped parent, and a download opens the
-- other.
theorem not_sameFile_twins :
    twinShare.disk.run (deleteResolution twinShare.root "a%20b/c%20d") = (.ok escapedTwin, twinShare.disk) ∧
    twinShare.disk.run (downloadResolution twinShare.root "a%20b/c%20d") = (.ok plainTwin, twinShare.disk) ∧
    ¬SameFile "a%20b/c%20d" := by
  have valid : ValidPath "a%20b/c%20d" := ValidPath.of_validate (p := "a%20b/c%20d") (by decide)
  have clear : twinShare.disk.Clear := forkShare_clear escapedTwin plainTwin
  have decodable : Decodable ["a%20b", "c%20d"] := by
    intro segment member
    rcases List.mem_cons.mp member with rfl | last
    · exact ⟨by decide +kernel, by decide +kernel, by decide +kernel⟩
    · rw [List.mem_singleton.mp last]
      exact ⟨by decide +kernel, by decide +kernel, by decide +kernel⟩
  have parts : parentAndName "a%20b/c%20d" = ("a%20b", "c%20d") := by decide
  have deleted : twinShare.disk.run (deleteResolution twinShare.root "a%20b/c%20d") =
      (.ok escapedTwin, twinShare.disk) := by
    rw [deleteResolution_iff clear valid (by decide), parts]
    refine ⟨rfl, [entryName "a%20b"], .inl (by decide +kernel),
      .inr ⟨by decide +kernel, ?_, by decide +kernel⟩⟩
    exact fun segment member => decodable segment (List.mem_cons_of_mem _ member)
  have downloaded : twinShare.disk.run (downloadResolution twinShare.root "a%20b/c%20d") =
      (.ok plainTwin, twinShare.disk) := by
    rw [downloadResolution_iff clear valid]
    exact ⟨rfl, .inr ⟨by decide +kernel, decodable, by decide +kernel⟩⟩
  refine ⟨deleted, downloaded, fun same => ?_⟩
  have both := (same twinShare clear escapedTwin _).mp deleted
  rw [downloaded] at both
  have other : plainTwin = escapedTwin := Except.ok.inj (Prod.mk.inj both).1
  exact absurd other (by decide)

end Yafm
