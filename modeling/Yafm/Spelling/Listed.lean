import Yafm.Spelling.Masks
import Yafm.Spelling.SameFile

set_option autoImplicit false

namespace Yafm

open Text Posix Effect

def Share.Holds (share : Share) (directory : Path) (name : Name) : Prop :=
  (share.disk.tree.get (directory ++ [name])).isSome

/-- The child path of every listed entry opens that entry, where validation leaves the child
path alone, and no two entries are listed under one name. -/
def ReopensListed (share : Share) (r : String) (directory : Path) : Prop :=
  (∀ name, share.Holds directory name →
    validateRelativePath (toChildPath r (percentEncodeEntryName name.bytes)) =
      .ok (toChildPath r (percentEncodeEntryName name.bytes)) →
    ∀ message, share.disk.run (canonicalEntryTarget share.root
      (toChildPath r (percentEncodeEntryName name.bytes)) message) =
      (.ok (directory ++ [name]), share.disk)) ∧
  ∀ name other, share.Holds directory name → share.Holds directory other →
    percentEncodeEntryName name.bytes = percentEncodeEntryName other.bytes → name = other

-- No entry is literally named as the escapes of another one that is not text.
def Unambiguous (share : Share) (directory : Path) : Prop :=
  ∀ name twin, share.Holds directory name → share.Holds directory twin → fromUtf8 name.bytes = none →
    twin.bytes ≠ asBytes (percentEncodeEntryName name.bytes)

def Share.Literal (share : Share) (r : String) : Prop :=
  ∃ here, share.look share.root ((pathSegments r).map asBytes) = .ok here

-- Where nothing is refused. In a directory whose path is there as it is written: text, or a name without a
-- backslash, in a path without an escape, whose rendering is short enough to be looked up. In one that
-- only the decoded path leads to: text without escapes, or a name without a backslash.
def NameReopens (share : Share) (r : String) (name : Name) : Prop :=
  (share.Literal r → (fromUtf8 name.bytes).isSome ∨
    share.disk.Fits (asBytes (percentEncodeEntryName name.bytes)) ∧ asciiByte '\\' ∉ name.bytes ∧
      ∀ segment ∈ pathSegments r, percentDecodeBytes segment = asBytes segment) ∧
  (¬share.Literal r →
    if (fromUtf8 name.bytes).isSome then decodeEscapes name.bytes = name.bytes
      else asciiByte '\\' ∉ name.bytes)

theorem distinct_iff_unambiguous (share : Share) (directory : Path) :
    (∀ name other, share.Holds directory name → share.Holds directory other →
      percentEncodeEntryName name.bytes = percentEncodeEntryName other.bytes → name = other) ↔
      Unambiguous share directory := by
  constructor
  · intro distinct name twin held there noText same
    have rendered : percentEncodeEntryName name.bytes = percentEncodeEntryName twin.bytes := by
      rw [same, percentEncodeEntryName_text]
    obtain rfl := distinct name twin held there rendered
    rw [same, fromUtf8_asBytes] at noText
    cases noText
  · intro apart name other held there same
    apply Name.ext
    cases left : fromUtf8 name.bytes with
    | none =>
      cases right : fromUtf8 other.bytes with
      | none => rw [← percentDecodeBytes_rendered left, same, percentDecodeBytes_rendered right]
      | some text =>
        refine absurd ?_ (apart name other held there left)
        rw [same, asBytes_rendered_text (by simp [right])]
    | some text =>
      cases right : fromUtf8 other.bytes with
      | none =>
        refine absurd ?_ (apart other name there held right)
        rw [← same, asBytes_rendered_text (by simp [left])]
      | some spelled =>
        rw [← asBytes_rendered_text (by simp [left] : (fromUtf8 name.bytes).isSome), same,
          asBytes_rendered_text (by simp [right])]

theorem childPath_segments {p r : String} (accepted : validateRelativePath p = .ok r) {name : Name}
    (unchanged : validateRelativePath (toChildPath r (percentEncodeEntryName name.bytes)) =
      .ok (toChildPath r (percentEncodeEntryName name.bytes))) :
    pathSegments (toChildPath r (percentEncodeEntryName name.bytes)) =
        pathSegments r ++ [percentEncodeEntryName name.bytes] ∧
      PlainSegment (percentEncodeEntryName name.bytes) := by
  have valid := ValidPath.of_validate accepted
  have child := ValidPath.of_validate unchanged
  have cut : split '/' (toChildPath r (percentEncodeEntryName name.bytes)) =
      pathSegments r ++ [percentEncodeEntryName name.bytes] := by
    rw [toChildPath_eq valid.joined]
    refine split_join (by simp) fun part member => ?_
    rcases List.mem_append.mp member with early | last
    · exact (valid.plain part early).clean.1
    · rw [List.mem_singleton.mp last]
      exact rendered_clean name
  have filled : toChildPath r (percentEncodeEntryName name.bytes) ≠ "" := by
    intro empty
    rw [empty] at cut
    -- the only segment of the empty text is empty, and the rendered name is not
    have last : percentEncodeEntryName name.bytes ∈ split '/' "" := by rw [cut]; simp
    exact rendered_named name (List.mem_singleton.mp last)
  have segments : pathSegments (toChildPath r (percentEncodeEntryName name.bytes)) =
      pathSegments r ++ [percentEncodeEntryName name.bytes] := by rw [pathSegments, if_neg filled, cut]
  exact ⟨segments, child.plain _ (by rw [segments]; simp)⟩

section

variable {share : Share} (clear : share.disk.Clear) {directory : Path} (place : share.Place directory)
  {name : Name}
include clear place

theorem look_step :
    share.look directory [name.bytes] =
      walk share.disk.nameMax share.disk.tree maxLinks directory [.name name] := by
  have parsed :
      components (pathBuf directory ++ [name.bytes]) = some (directory.map .name ++ [.name name]) := by
    have whole := components_names (directory ++ [name])
    rwa [List.map_append, List.map_append] at whole
  rw [Share.look, Disk.canonicalize, clear.answered parsed, Posix.canonicalize_append place.canonical]

theorem look_entry (held : share.Holds directory name) :
    share.look directory [name.bytes] = .ok (directory ++ [name]) := by
  obtain ⟨node, found⟩ := Option.isSome_iff_exists.mp held
  obtain ⟨sub, rfl⟩ := place.within
  have plain := share.free.plain (by rw [← List.append_assoc]; exact found)
  rw [look_step clear place, walk_name maxLinks [] found plain, walk_nil]

theorem look_absent (isDirectory : ∃ entries, share.disk.tree.get directory = some (.dir entries))
    (gone : ¬share.Holds directory name) :
    share.look directory [name.bytes] = .error (absent share.disk.nameMax name) := by
  obtain ⟨entries, found⟩ := isDirectory
  rw [Share.Holds, Node.get_concat, found] at gone
  have missing : lookup entries name = none := by simpa using gone
  rw [look_step clear place]
  simp [maxLinks, walk, walkWith, found, missing]

end

theorem plain_concat {segments : List String} {last : String}
    (above : ∀ segment ∈ segments, PlainSegment segment) (ends : PlainSegment last) :
    ∀ segment ∈ segments ++ [last], PlainSegment segment := by
  rw [List.forall_mem_append]
  exact ⟨above, by simpa using ends⟩

section

variable {share : Share} (clear : share.disk.Clear) {r : String} (valid : ValidPath r)
  {directory : Path} {name : Name}
  (held : share.Holds directory name) (plain : PlainSegment (percentEncodeEntryName name.bytes))
include clear valid held plain

theorem reaches_child_literal (isDirectory : ∃ entries, share.disk.tree.get directory = some (.dir entries))
    (above : share.look share.root ((pathSegments r).map asBytes) = .ok directory)
    (apart : Unambiguous share directory) :
    share.Reaches share.root (pathSegments r ++ [percentEncodeEntryName name.bytes]) (directory ++ [name]) ↔
      (fromUtf8 name.bytes).isSome ∨
        share.disk.Fits (asBytes (percentEncodeEntryName name.bytes)) ∧ asciiByte '\\' ∉ name.bytes ∧
          ∀ segment ∈ pathSegments r, percentDecodeBytes segment = asBytes segment := by
  have segments := plain_concat valid.plain plain
  obtain ⟨place, front, top, written⟩ := Share.look_ok (spells_segments valid.plain) above
  have step := Share.look_append clear (spells_whole segments)
  rw [above] at step
  unfold Share.Reaches
  rw [List.map_append, List.map_append, List.map_singleton, List.map_singleton, step]
  cases text : fromUtf8 name.bytes with
  | some spelled =>
    have bytes : asBytes (percentEncodeEntryName name.bytes) = name.bytes :=
      asBytes_rendered_text (by simp [text])
    simp [bytes, Except.bind, look_entry clear place held]
  | none =>
    -- the rendered name is a name of its own, and no entry has it
    have gone : ¬share.Holds directory ⟨_, validName_segment plain⟩ :=
      fun twin => apart name _ held twin text rfl
    have literal : share.look directory [asBytes (percentEncodeEntryName name.bytes)] =
        .error (absent share.disk.nameMax ⟨_, validName_segment plain⟩) :=
      look_absent clear place isDirectory gone
    simp only [Except.bind, literal, Except.error.injEq, absent_notFound_iff, reduceCtorEq, false_or,
      Option.isSome_none, Bool.false_eq_true, decodable_append, decodable_singleton,
      percentDecodeBytes_rendered text]
    refine and_congr_right fun _ => ?_
    constructor
    · rintro ⟨⟨decodable, bytes⟩, found⟩
      refine ⟨bytes.clean.2.1, ?_⟩
      have spells := spells_concat decodable.spells (.inr (.inr name.valid))
      obtain ⟨_, sub, whole, spelled⟩ := Share.look_ok spells found
      rw [top, List.append_assoc, List.append_cancel_left_eq] at whole
      have ends : nameParts [name.bytes] = [name.bytes] := by
        simp [nameParts, name.valid.1, name.valid.2.2.2.1]
      rw [← whole, List.map_append, written, nameParts_append, List.map_singleton, ends,
        List.append_cancel_right_eq, nameParts_segments valid.plain] at spelled
      by_contra changed
      simp only [not_forall, exists_prop] at changed
      exact nameParts_changed changed (by rw [spelled])
    · rintro ⟨noBackslash, same⟩
      have bytes : PlainBytes name.bytes :=
        ⟨name.valid.1, name.valid.2.2.2.2, name.valid.2.1, noBackslash, name.valid.2.2.1⟩
      refine ⟨⟨decodable_of_same valid.plain same, bytes⟩, ?_⟩
      have unchanged : (pathSegments r).map percentDecodeBytes = (pathSegments r).map asBytes :=
        List.map_congr_left same
      have spells := spells_concat (spells_segments valid.plain) bytes.spells
      rw [unchanged, Share.look_append clear spells, above]
      exact look_entry clear place held

theorem reaches_child_decoded
    (missing : share.look share.root ((pathSegments r).map asBytes) = .error .notFound)
    (decodable : Decodable (pathSegments r))
    (above : share.look share.root ((pathSegments r).map percentDecodeBytes) = .ok directory) :
    share.Reaches share.root (pathSegments r ++ [percentEncodeEntryName name.bytes]) (directory ++ [name]) ↔
      if (fromUtf8 name.bytes).isSome then decodeEscapes name.bytes = name.bytes
        else asciiByte '\\' ∉ name.bytes := by
  have segments := plain_concat valid.plain plain
  obtain ⟨place, front, top, written⟩ := Share.look_ok decodable.spells above
  have literal := Share.look_append clear (spells_whole segments)
  rw [missing] at literal
  have onward {part : Bytes} (spells : Spells part) :
      share.look share.root ((pathSegments r).map percentDecodeBytes ++ [part]) =
        share.look directory [part] := by
    rw [Share.look_append clear (spells_concat decodable.spells spells), above]
    rfl
  unfold Share.Reaches
  rw [List.map_append, List.map_append, List.map_singleton, List.map_singleton, literal]
  simp only [Except.bind, reduceCtorEq, false_or, true_and, decodable_append, decodable_singleton, decodable]
  cases text : fromUtf8 name.bytes with
  | some spelled =>
    have bytes : percentDecodeBytes (percentEncodeEntryName name.bytes) = decodeEscapes name.bytes := by
      rw [percentDecodeBytes, asBytes_rendered_text (by simp [text])]
    have named : PlainBytes name.bytes := by
      have solid := plainBytes_segment plain
      rwa [asBytes_rendered_text (by simp [text])] at solid
    rw [Option.isSome_some, if_pos rfl, bytes]
    constructor
    · rintro ⟨solid, found⟩
      obtain ⟨_, sub, whole, read⟩ := Share.look_ok (spells_concat decodable.spells solid.spells) found
      rw [top, List.append_assoc, List.append_cancel_left_eq] at whole
      rw [← whole, List.map_append, written, nameParts_append, List.append_cancel_left_eq,
        List.map_singleton] at read
      have kept : name.bytes ∈ nameParts [decodeEscapes name.bytes] := by rw [← read]; simp
      exact (List.mem_singleton.mp (List.mem_of_mem_filter kept)).symm
    · intro same
      rw [same, onward named.spells]
      exact ⟨named, look_entry clear place held⟩
  | none =>
    rw [Option.isSome_none, if_neg (by simp), percentDecodeBytes_rendered text,
      onward (.inr (.inr name.valid))]
    constructor
    · rintro ⟨solid, _⟩
      exact solid.clean.2.1
    · intro noBackslash
      exact ⟨⟨name.valid.1, name.valid.2.2.2.2, name.valid.2.1, noBackslash, name.valid.2.2.1⟩,
        look_entry clear place held⟩

theorem reaches_child_iff (isDirectory : ∃ entries, share.disk.tree.get directory = some (.dir entries))
    (resolved : share.Reaches share.root (pathSegments r) directory) (apart : Unambiguous share directory) :
    share.Reaches share.root (pathSegments r ++ [percentEncodeEntryName name.bytes]) (directory ++ [name]) ↔
      NameReopens share r name := by
  unfold NameReopens Share.Literal
  rcases resolved with above | ⟨missing, decodable, above⟩
  · rw [reaches_child_literal clear valid held plain isDirectory above apart, above]
    simp
  · rw [reaches_child_decoded clear valid held plain missing decodable above, missing]
    simp

end

theorem reopensListed_iff {share : Share} {p r message : String} {directory : Path} {after : Disk}
    (accepted : validateRelativePath p = .ok r)
    (resolved : share.disk.run (canonicalEntryTarget share.root r message) = (.ok directory, after))
    (isDirectory : ∃ entries, share.disk.tree.get directory = some (.dir entries)) :
    ReopensListed share r directory ↔
      Unambiguous share directory ∧ ∀ name, share.Holds directory name →
        validateRelativePath (toChildPath r (percentEncodeEntryName name.bytes)) =
          .ok (toChildPath r (percentEncodeEntryName name.bytes)) →
        share.Unrefused (toChildPath r (percentEncodeEntryName name.bytes)) ∧
          NameReopens share.cleared r name := by
  have valid := ValidPath.of_validate accepted
  have calm : share.cleared.disk.Clear := fun _ => rfl
  obtain ⟨rfl, _, reaches⟩ := (Share.canonicalEntryTarget_cleared_iff valid _ _ _).mp resolved
  unfold ReopensListed
  rw [distinct_iff_unambiguous, and_comm, and_congr_right_iff]
  intro apart
  refine forall_congr' fun name => forall_congr' fun held => forall_congr' fun unchanged => ?_
  obtain ⟨segments, plain⟩ := childPath_segments accepted unchanged
  simp only [Share.canonicalEntryTarget_cleared_iff (ValidPath.of_validate unchanged),
    segments, true_and, forall_const]
  exact and_congr_right fun _ => reaches_child_iff calm valid held plain isDirectory reaches apart

def namedShare (left right : Path) : Share :=
  { forkShare left right with disk := { (forkShare left right).disk with nameMax := some 255 } }

def twinNames : Share := namedShare [⟨[0xff], by decide⟩] [entryName "%FF"]

theorem twinNames_root (message : String) :
    twinNames.disk.run (canonicalEntryTarget twinNames.root "" message) = (.ok [], twinNames.disk) := by
  rw [canonicalEntryTarget_ok_iff]
  exact ⟨rfl, _, by decide +kernel, .inl rfl⟩

theorem reopensListed_twins :
    ReopensListed twinNames "" [] ↔
      Unambiguous twinNames [] ∧ ∀ name, twinNames.Holds [] name →
        validateRelativePath (toChildPath "" (percentEncodeEntryName name.bytes)) =
          .ok (toChildPath "" (percentEncodeEntryName name.bytes)) →
        twinNames.Unrefused (toChildPath "" (percentEncodeEntryName name.bytes)) ∧
          NameReopens twinNames.cleared "" name :=
  reopensListed_iff (p := "") (by decide) (twinNames_root "") ⟨_, rfl⟩

-- Both are listed as `%FF`, and that path opens the second.
theorem not_reopensListed_twins : ¬ReopensListed twinNames "" [] := by
  rintro ⟨_, distinct⟩
  have held : twinNames.Holds [] ⟨[0xff], by decide⟩ := rfl
  have twin : twinNames.Holds [] (entryName "%FF") := rfl
  have same := distinct _ _ held twin (by decide +kernel)
  exact absurd (congrArg Name.bytes same) (by decide)

end Yafm
