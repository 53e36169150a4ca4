import Yafm.Spelling.Read

set_option autoImplicit false

namespace Yafm

open Text Posix Effect

theorem spells_segments {segments : List String} (plain : ∀ segment ∈ segments, PlainSegment segment) :
    ∀ part ∈ segments.map asBytes, Spells part := by
  rw [List.forall_mem_map]
  exact fun segment member => spells_segment (plain segment member)

theorem spells_concat {parts : List Bytes} {last : Bytes} (spells : ∀ part ∈ parts, Spells part)
    (ends : Spells last) :
    ∀ part ∈ parts ++ [last], Spells part := by
  rw [List.forall_mem_append]
  exact ⟨spells, by simpa using ends⟩

-- No segment hides a separator, a NUL byte or a parent step behind an escape.
def Decodable (segments : List String) : Prop := ∀ segment ∈ segments, PlainBytes (percentDecodeBytes segment)

theorem Decodable.spells {segments : List String} (decodable : Decodable segments) :
    ∀ part ∈ segments.map percentDecodeBytes, Spells part := by
  rw [List.forall_mem_map]
  exact fun segment member => (decodable segment member).spells

theorem decodable_append (front back : List String) :
    Decodable (front ++ back) ↔ Decodable front ∧ Decodable back := by
  simp only [Decodable, List.forall_mem_append]

theorem decodable_singleton (name : String) : Decodable [name] ↔ PlainBytes (percentDecodeBytes name) := by
  simp [Decodable]

theorem decodable_of_same {segments : List String} (plain : ∀ segment ∈ segments, PlainSegment segment)
    (same : ∀ segment ∈ segments, percentDecodeBytes segment = asBytes segment) : Decodable segments := by
  intro segment member
  rw [same segment member]
  exact plainBytes_segment (plain segment member)

namespace Share

def look (share : Share) (base : Path) (parts : List Bytes) : Except IoError Path :=
  share.disk.canonicalize (pathBuf base ++ parts)

def Reaches (share : Share) (base : Path) (segments : List String) (canonical : Path) : Prop :=
  share.look base (segments.map asBytes) = .ok canonical ∨
    share.look base (segments.map asBytes) = .error .notFound ∧ Decodable segments ∧
      share.look base (segments.map percentDecodeBytes) = .ok canonical

structure Place (share : Share) (here : Path) : Prop where
  within : share.root <+: here
  canonical : share.disk.tree.Canonical here

theorem look_ok {share : Share} {parts : List Bytes} {here : Path} (spells : ∀ part ∈ parts, Spells part)
    (reached : share.look share.root parts = .ok here) :
    share.Place here ∧ ∃ sub, here = share.root ++ sub ∧ sub.map Name.bytes = nameParts parts := by
  obtain ⟨sub, rfl, same, _⟩ := Share.canonicalize_ok spells reached
  exact ⟨⟨List.prefix_append share.root sub, Disk.canonicalize_ok share.shares.isDir reached⟩, sub, rfl, same⟩

theorem Reaches.place {share : Share} {segments : List String} {here : Path}
    (plain : ∀ segment ∈ segments, PlainSegment segment) (reaches : share.Reaches share.root segments here) :
    share.Place here := by
  rcases reaches with literal | ⟨_, decodable, decoded⟩
  · exact (look_ok (spells_segments plain) literal).1
  · exact (look_ok decodable.spells decoded).1

theorem look_root {share : Share} (clear : share.disk.Clear) {parts : List Bytes}
    (stay : parts = [] ∨ parts = [[]]) : share.look share.root parts = .ok share.root := by
  obtain ⟨entries, directory⟩ := share.shares
  unfold look Disk.canonicalize
  rcases stay with rfl | rfl
  · rw [List.append_nil, clear.answered (Disk.components_pathBuf _), canonicalize_self share.canonical_root]
  · have parsed : components (pathBuf share.root ++ [[]]) = some (share.root.map .name ++ [.current]) := by
      rw [components_append, Disk.components_pathBuf]
      rfl
    rw [clear.answered parsed, Posix.canonicalize_append share.canonical_root]
    simp [maxLinks, walk, walkWith, directory]

theorem look_literal {share : Share} (clear : share.disk.Clear) (r : String) :
    share.look share.root ((split '/' r).map asBytes) =
      share.look share.root ((pathSegments r).map asBytes) := by
  by_cases root : r = ""
  · subst root
    rw [look_root clear (.inr (by decide)), look_root clear (.inl (by decide))]
  · rw [pathSegments, if_neg root]

theorem opens_iff_reaches {share : Share} (clear : share.disk.Clear) {r : String} (valid : ValidPath r)
    (canonical : Path) :
    (∃ opened, Opens share.disk.canonicalize (pathBuf share.root) r opened canonical) ↔
      share.Reaches share.root (pathSegments r) canonical := by
  have literal := look_literal clear r
  unfold look at literal
  unfold Reaches look
  rw [← literal]
  constructor
  · rintro ⟨opened, found, rfl | ⟨missing, decoded, accepted, rfl⟩⟩
    · exact .inl found
    · rw [ValidPath.percentDecode_eq, decodeComponents_iff valid.named] at accepted
      obtain ⟨rfl, decodable⟩ := accepted
      exact .inr ⟨missing, decodable, found⟩
  · rintro (found | ⟨missing, decodable, found⟩)
    · exact ⟨_, found, .inl rfl⟩
    · refine ⟨_, found, .inr ⟨missing, _, ?_, rfl⟩⟩
      rw [ValidPath.percentDecode_eq, decodeComponents_iff valid.named]
      exact ⟨rfl, decodable⟩

theorem canonicalEntryTarget_iff {share : Share} (clear : share.disk.Clear) {r : String} (valid : ValidPath r)
    (message : String) (canonical : Path) (after : Disk) :
    share.disk.run (canonicalEntryTarget share.root r message) = (.ok canonical, after) ↔
      after = share.disk ∧ share.Reaches share.root (pathSegments r) canonical := by
  rw [canonicalEntryTarget_ok_iff, opens_iff_reaches clear valid]

theorem nothing_refused (_ : Op) : (none : Option IoError) ≠ some .notFound :=
  (Option.some_ne_none _).symm

-- The same share on a disk that refuses nothing.
def cleared (share : Share) : Share where
  disk := { share.disk with faults := fun _ => none, present := nothing_refused }
  root := share.root
  shares := share.shares
  free := share.free

-- The system refuses neither the path as it is written nor, where nothing is there, as it decodes.
def Unrefused (share : Share) (r : String) : Prop :=
  share.disk.faults (.canonicalize ((pathBuf share.root).join r)) = none ∧
    (share.cleared.disk.canonicalize ((pathBuf share.root).join r) = .error .notFound →
      ∀ decoded, percentDecodeRelativePath r = .ok decoded →
        share.disk.faults (.canonicalize (pathBuf share.root ++ decoded)) = none)

theorem canonicalize_cleared {share : Share} {path : PathBuf}
    (answers : share.disk.faults (.canonicalize path) = none) :
    share.disk.canonicalize path = share.cleared.disk.canonicalize path := by
  simp [Disk.canonicalize, Disk.answered, answers, cleared]

theorem canonicalize_refused {share : Share} {path : PathBuf} {error : IoError}
    (refuses : share.disk.faults (.canonicalize path) = some error) :
    share.disk.canonicalize path = .error error := by
  simp [Disk.canonicalize, Disk.answered, refuses]

theorem answers_of_ok {share : Share} {path : PathBuf} {canonical : Path}
    (reached : share.disk.canonicalize path = .ok canonical) :
    share.disk.faults (.canonicalize path) = none := by
  cases refuses : share.disk.faults (.canonicalize path) with
  | none => rfl
  | some error =>
    rw [canonicalize_refused refuses] at reached
    cases reached

theorem answers_of_missing {share : Share} {path : PathBuf}
    (missing : share.disk.canonicalize path = .error .notFound) :
    share.disk.faults (.canonicalize path) = none := by
  cases refuses : share.disk.faults (.canonicalize path) with
  | none => rfl
  | some error =>
    rw [canonicalize_refused refuses, Except.error.injEq] at missing
    exact absurd (missing ▸ refuses) (share.disk.present _)

theorem opens_cleared_iff (share : Share) (r : String) (canonical : Path) :
    (∃ opened, Opens share.disk.canonicalize (pathBuf share.root) r opened canonical) ↔
      share.Unrefused r ∧
      ∃ opened, Opens share.cleared.disk.canonicalize (pathBuf share.root) r opened canonical := by
  constructor
  · rintro ⟨opened, found, rfl | ⟨missing, decoded, accepted, rfl⟩⟩
    · have answers := answers_of_ok found
      rw [canonicalize_cleared answers] at found
      refine ⟨⟨answers, fun missing => ?_⟩, _, found, .inl rfl⟩
      rw [found] at missing
      cases missing
    · have first := answers_of_missing missing
      have second := answers_of_ok found
      rw [canonicalize_cleared first] at missing
      rw [canonicalize_cleared second] at found
      refine ⟨⟨first, fun _ other same => ?_⟩, _, found, .inr ⟨missing, decoded, accepted, rfl⟩⟩
      cases same.symm.trans accepted
      exact second
  · rintro ⟨⟨first, second⟩, opened, found, rfl | ⟨missing, decoded, accepted, rfl⟩⟩
    · exact ⟨_, by rw [canonicalize_cleared first, found], .inl rfl⟩
    · have answers := second missing decoded accepted
      refine ⟨_, by rw [canonicalize_cleared answers, found], .inr ⟨?_, decoded, accepted, rfl⟩⟩
      rw [canonicalize_cleared first, missing]

theorem canonicalEntryTarget_cleared_iff {share : Share} {r : String} (valid : ValidPath r)
    (message : String) (canonical : Path) (after : Disk) :
    share.disk.run (canonicalEntryTarget share.root r message) = (.ok canonical, after) ↔
      after = share.disk ∧ share.Unrefused r ∧
      share.cleared.Reaches share.root (pathSegments r) canonical := by
  have calm : share.cleared.disk.Clear := fun _ => rfl
  rw [canonicalEntryTarget_ok_iff, opens_cleared_iff]
  exact and_congr_right fun _ => and_congr_right fun _ => opens_iff_reaches calm valid canonical

theorem lstat_iff_reaches {share : Share} (clear : share.disk.Clear) {here : Path}
    (place : share.Place here) {name : String} (plain : PlainSegment name) (path : Path) :
    (∃ target metadata, Opens share.disk.lstat (pathBuf here) name target metadata ∧
      metadata.identity = path) ↔
      share.Reaches here [name] path := by
  have single : split '/' name = [name] := split_singleton plain.clean.1
  have located {part : Bytes} (spells : Spells part) :=
    clear.lstat_identity place.within place.canonical spells
  have literal := located (spells_segment plain)
  have join : PathBuf.join (pathBuf here) name = pathBuf here ++ [asBytes name] := by
    rw [PathBuf.join, single, List.map_singleton]
  have decode (decoded : List Bytes) : percentDecodeRelativePath name = .ok decoded ↔
      decoded = [percentDecodeBytes name] ∧ PlainBytes (percentDecodeBytes name) := by
    rw [percentDecodeRelativePath, single, decodeComponents_iff (by simpa using plain.named)]
    simp
  unfold Reaches look
  rw [List.map_singleton, List.map_singleton, decodable_singleton, ← literal]
  constructor
  · rintro ⟨target, metadata, ⟨found, rfl | ⟨missing, decoded, accepted, rfl⟩⟩, rfl⟩
    · rw [join] at found
      exact .inl (by rw [found]; rfl)
    · obtain ⟨rfl, bytes⟩ := (decode decoded).mp accepted
      rw [join] at missing
      refine .inr ⟨by rw [missing]; rfl, bytes, ?_⟩
      rw [← located bytes.spells, found]
      rfl
  · rintro (found | ⟨missing, bytes, found⟩)
    · obtain ⟨metadata, there, rfl⟩ := map_ok found
      exact ⟨_, metadata, ⟨by rw [join]; exact there, .inl rfl⟩, rfl⟩
    · rw [← located bytes.spells] at found
      obtain ⟨metadata, there, rfl⟩ := map_ok found
      refine ⟨_, metadata, ⟨there, .inr ⟨?_, _, (decode _).mpr ⟨rfl, bytes⟩, rfl⟩⟩, rfl⟩
      rw [join]
      cases outcome : share.disk.lstat (pathBuf here ++ [asBytes name]) with
      | ok metadata => simp [outcome, Except.map] at missing
      | error error => simpa [outcome, Except.map] using missing

theorem look_append {share : Share} (clear : share.disk.Clear) {front back : List Bytes}
    (spells : ∀ part ∈ front ++ back, Spells part) :
    share.look share.root (front ++ back) = (share.look share.root front).bind fun here =>
      share.look here back :=
  clear.canonicalize_join spells

end Share

end Yafm
