import Yafm.Spelling.Read

set_option autoImplicit false

namespace Yafm

open Text Posix Effect

def nameForms (name : String) : List Bytes :=
  asBytes name :: match percentDecodeRelativePath name with
    | .ok [bytes] => if bytes = asBytes "." then [] else [bytes]
    | _ => []

-- The names below the root of the files that a request path can remove. The parent and the name are each
-- literal or decoded; a file that the literal parent itself leads through keeps the decoded parent out of
-- reach.
def deleteForms (relative : String) : List (List Bytes) :=
  let (parent, name) := parentAndName relative
  let literal := (pathSegments parent).map asBytes
  (nameForms name).map (literal ++ [·]) ++
    match percentDecodeRelativePath parent with
    | .ok decoded => ((nameForms name).map (nameParts decoded ++ [·])).filter fun form =>
      !form.isPrefixOf literal
    | .error _ => []

theorem mem_nameForms {name : String} {bytes : Bytes} :
    bytes ∈ nameForms name ↔ bytes = asBytes name ∨
      percentDecodeRelativePath name = .ok [bytes] ∧ bytes ≠ asBytes "." := by
  unfold nameForms
  rw [List.mem_cons]
  refine or_congr Iff.rfl ?_
  split
  next only decoded =>
    rw [decoded]
    by_cases dot : only = asBytes "."
    · simp only [dot, if_true, List.not_mem_nil, Except.ok.injEq, List.cons.injEq, and_true,
        false_iff, not_and, not_not]
      exact fun same => same.symm
    · simp only [dot, if_false, List.mem_singleton, Except.ok.injEq, List.cons.injEq, and_true]
      constructor
      · rintro rfl
        exact ⟨rfl, dot⟩
      · rintro ⟨rfl, _⟩
        rfl
  next other =>
    simp only [List.not_mem_nil, false_iff, not_and, not_not]
    intro decoded
    exact absurd decoded (other bytes)

theorem nameForm_decoded {name : String} {bytes : Bytes} (plain : PlainSegment name)
    (accepted : percentDecodeRelativePath name = .ok [bytes]) :
    bytes = percentDecodeBytes name ∧ PlainBytes bytes := by
  rw [percentDecodeRelativePath, split_singleton plain.clean.1] at accepted
  obtain ⟨same, each⟩ := @decodeComponents_ok [name] [bytes] (by simpa using plain.named) accepted
  exact ⟨by simpa using same, each bytes (by simp)⟩

theorem mem_deleteForms {relative : String} {form : List Bytes} :
    form ∈ deleteForms relative ↔
      ∃ dirs last, form = dirs ++ [last] ∧ last ∈ nameForms (parentAndName relative).2 ∧
      (dirs = (pathSegments (parentAndName relative).1).map asBytes ∨
        ¬form <+: (pathSegments (parentAndName relative).1).map asBytes ∧
          ∃ decoded, percentDecodeRelativePath (parentAndName relative).1 = .ok decoded ∧
          dirs = nameParts decoded) := by
  unfold deleteForms
  dsimp only
  rw [List.mem_append]
  constructor
  · rintro (literal | decoded)
    · obtain ⟨last, member, rfl⟩ := List.mem_map.mp literal
      exact ⟨_, last, rfl, member, Or.inl rfl⟩
    · split at decoded
      next parts accepted =>
        obtain ⟨mapped, apart⟩ := List.mem_filter.mp decoded
        obtain ⟨last, member, rfl⟩ := List.mem_map.mp mapped
        refine ⟨_, last, rfl, member, Or.inr ⟨fun leads => ?_, parts, accepted, rfl⟩⟩
        rw [List.isPrefixOf_iff_prefix.mpr leads] at apart
        cases apart
      · cases decoded
  · rintro ⟨dirs, last, rfl, member, rfl | ⟨apart, parts, accepted, rfl⟩⟩
    · exact Or.inl (List.mem_map_of_mem member)
    · refine Or.inr ?_
      rw [accepted]
      refine List.mem_filter.mpr ⟨List.mem_map_of_mem member, ?_⟩
      rw [Bool.not_eq_true', ← Bool.not_eq_true, List.isPrefixOf_iff_prefix]
      exact apart

theorem parentAndName_eq {relative parent : String} {front : List String} {name : String}
    (joined : split '/' relative = front ++ [name]) (above : parent = join '/' front) :
    parentAndName relative = (parent, name) := by
  subst above
  unfold parentAndName rsplitOnce
  dsimp only
  by_cases top : front = []
  · subst top
    have whole := join_split '/' relative
    rw [joined, List.nil_append, join_singleton] at whole
    simp [joined, whole, join]
  · have long : ¬(split '/' relative).length ≤ 1 := by
      have := List.length_pos_iff.mpr top
      rw [joined, List.length_append, List.length_singleton]
      omega
    rw [if_neg long, joined]
    simp

theorem parentAndName_valid {r : String} (valid : ValidPath r) (named : r ≠ "") :
    pathSegments r = pathSegments (parentAndName r).1 ++ [(parentAndName r).2] ∧
    ValidPath (parentAndName r).1 ∧
      PlainSegment (parentAndName r).2 := by
  have segments : pathSegments r = split '/' r := if_neg named
  obtain ⟨front, name, parts⟩ := (List.eq_nil_or_concat' (split '/' r)).resolve_left (split_ne_nil '/' r)
  have plain : ∀ segment ∈ front ++ [name], PlainSegment segment := by
    rw [← parts, ← segments]
    exact valid.plain
  have above := pathSegments_join fun segment member => plain segment (List.mem_append_left _ member)
  rw [parentAndName_eq parts rfl]
  refine ⟨by rw [segments, parts, above], ⟨by rw [above], ?_⟩, plain name (by simp)⟩
  rw [above]
  exact fun segment member => plain segment (List.mem_append_left _ member)

-- A path that leads to a file, or past one, is not reported missing.
theorem Share.leaf_not_missing {share : Share} {file query : Path} {content : Bytes} (leads : file <+: query)
    (found : share.disk.tree.get (share.root ++ file) = some (.file content)) :
    share.disk.canonicalize (pathBuf share.root ++ query.map Name.bytes) ≠ .error .notFound := by
  have parsed : components (pathBuf share.root ++ query.map Name.bytes) =
      some (share.root.map .name ++ query.map .name) := by
    rw [components_append, Disk.components_pathBuf, components_names]
    rfl
  unfold Disk.canonicalize Disk.answered
  split
  next error refused =>
    rintro ⟨⟩
    exact share.disk.present _ refused
  next =>
    rw [parsed]
    dsimp only
    rw [canonicalize_append share.canonical_root]
    obtain ⟨rest, rfl⟩ := leads
    cases rest with
    | nil =>
      have walked : walk share.disk.nameMax _ maxLinks _ _ = _ := walk_names maxLinks [] found rfl
      rw [List.append_nil] at walked
      rw [List.append_nil, walked, walk_nil]
      simp
    | cons step rest =>
      rw [List.map_append, List.map_cons, walk_through_leaf maxLinks _ _ found rfl rfl]
      simp

theorem Share.removed {share : Share} {r : String} {parent gone : Path} {target : PathBuf}
    (valid : ValidPath r) (named : r ≠ "") (removable : Removable share.disk share.root r parent target)
    (taken : share.disk.removeFile target = .ok gone) :
    ∃ sub content, sub.map Name.bytes ∈ deleteForms r ∧
      share.disk.tree.get (share.root ++ sub) = some (.file content) ∧ gone = share.root ++ sub := by
  obtain ⟨_, above, _⟩ := parentAndName_valid valid named
  obtain ⟨opened, opens⟩ := removable.resolved
  obtain ⟨name, content, form, present, removed⟩ := removable.removed
    (Disk.canonicalize_ok share.shares.isDir opens.1) taken
  obtain ⟨dirs, rfl, _, spelled⟩ := Share.opens_names above opens
  rw [List.append_assoc] at present removed
  have last : name.bytes ∈ nameForms (parentAndName r).2 := by
    rw [mem_nameForms]
    exact form.imp_right fun decoded => ⟨decoded, name.valid.2.2.2.1⟩
  refine ⟨dirs ++ [name], content, ?_, present, removed⟩
  rw [List.map_append, List.map_singleton, mem_deleteForms]
  refine ⟨_, _, rfl, last, ?_⟩
  rcases spelled with literal | ⟨missing, decoded, accepted, same⟩
  · exact Or.inl literal
  · refine Or.inr ⟨fun leads => ?_, decoded, by rw [ValidPath.percentDecode_eq, accepted], same⟩
    obtain ⟨query, literal⟩ := above.exists_path
    have parts : (split '/' (parentAndName r).1).map asBytes = query.map Name.bytes := by
      rw [literal, pathSegments, if_neg]
      intro empty
      rw [empty] at leads
      simpa [pathSegments] using leads.length_le
    rw [PathBuf.join, parts] at missing
    refine Share.leaf_not_missing ?_ present missing
    rw [← List.prefix_map_iff_of_injective Name.bytes_injective, literal]
    simpa using leads

/-- One regular file below the root is gone, and every other entry is what it was. -/
structure Removes (share : Share) (after : Disk) (sub : Path) : Prop where
  present : ∃ content, share.disk.tree.get (share.root ++ sub) = some (.file content)
  gone : ∀ query, (after.tree.get query).map Node.kind =
    if query = share.root ++ sub then none else (share.disk.tree.get query).map Node.kind

theorem Removes.of_remove {share : Share} {sub : Path} {content : Bytes} (named : sub ≠ [])
    (present : share.disk.tree.get (share.root ++ sub) = some (.file content)) :
    Removes share (share.disk.without (share.root ++ sub)) sub :=
  ⟨⟨content, present⟩, kind_get_remove (by simp [named]) present rfl⟩

theorem deleteForms_ne_nil {r : String} {sub : Path} (member : sub.map Name.bytes ∈ deleteForms r) :
    sub ≠ [] := by
  rintro rfl
  obtain ⟨dirs, last, ends, _⟩ := mem_deleteForms.mp member
  simp at ends

theorem deleteFile_removes {share : Share} {after : Disk} {showHidden : Bool} {p : String}
    {context : Option AccessContext} {response : Response}
    (ran : share.disk.run (deleteFile (some ⟨share.root, showHidden⟩) p context) = (.ok response, after)) :
    ∃ r sub, Requested p r context ∧ sub.map Name.bytes ∈ deleteForms r ∧ Removes share after sub ∧
      response = { status := 204 } := by
  obtain ⟨answered, r, parent, target, gone, requested, removable, taken, rfl⟩ :=
    (deleteFile_ok_iff _ _ _ _ _ _).mp ran
  obtain ⟨sub, content, member, present, rfl⟩ :=
    Share.removed (ValidPath.of_validate requested.valid) requested.named removable taken
  exact ⟨r, sub, requested, member, .of_remove (deleteForms_ne_nil member) present, answered⟩

def emptyFile : Node Bytes := .file []

theorem components_child (dirs : Path) (name : Name) :
    components (pathBuf dirs ++ [name.bytes]) = some (dirs.map .name ++ [.name name]) := by
  have whole := components_names (dirs ++ [name])
  rwa [List.map_append, List.map_append, List.map_singleton, List.map_singleton] at whole

theorem chainDisk_lstat (dirs : Path) (last name : Name) :
    (chainDisk (dirs ++ [last]) emptyFile).lstat (pathBuf dirs ++ [name.bytes]) =
      if name = last then .ok ((chainDisk (dirs ++ [last]) emptyFile).metadata (dirs ++ [last], emptyFile))
      else .error .notFound := by
  rw [Disk.lstat, chainDisk_answered (components_child dirs name), lstat_name]
  change Except.map _ (entry none (chain (dirs ++ [last]) emptyFile) _ name) = _
  rw [entry_chain]
  split <;> rfl

theorem chainDisk_removeFile (dirs : Path) (last : Name) :
    (chainDisk (dirs ++ [last]) emptyFile).removeFile (pathBuf dirs ++ [last.bytes]) =
      .ok (dirs ++ [last]) := by
  rw [Disk.removeFile, chainDisk_answered (components_child dirs last), unlink]
  simp only [List.getLast?_append, List.getLast?_singleton, Option.some_or, List.dropLast_concat]
  have found :
      entry (chainDisk (dirs ++ [last]) emptyFile).nameMax (chainDisk (dirs ++ [last]) emptyFile).tree
      (dirs.map .name) last = .ok (dirs ++ [last], emptyFile) :=
    (entry_chain dirs last last emptyFile).trans (if_pos rfl)
  rw [found]
  rfl

theorem chainDisk_hasDir (dirs : Path) (last : Name) (leaf : Node Bytes) :
    (chainDisk (dirs ++ [last]) leaf).hasDir dirs := by
  have here : (chain (dirs ++ [last]) leaf).get dirs = some (.dir [(last, leaf)]) :=
    chain_get_append dirs [last] leaf
  have canonical : (chain (dirs ++ [last]) leaf).Canonical dirs := .of_isDir here rfl
  refine ⟨(chainDisk (dirs ++ [last]) leaf).metadata (dirs, .dir [(last, leaf)]), ?_, rfl⟩
  rw [Disk.stat, chainDisk_answered (Disk.components_pathBuf dirs)]
  change Except.map _ (Posix.stat none (chain (dirs ++ [last]) leaf) _) = _
  simp only [Posix.stat, canonicalize_self canonical, here]
  rfl

theorem chainDisk_parent {parent : String} {dirs : Path} {last : Name} (valid : ValidPath parent)
    (spelled : dirs.map Name.bytes = (pathSegments parent).map asBytes ∨
      ¬(dirs ++ [last]).map Name.bytes <+: (pathSegments parent).map asBytes ∧
        ∃ decoded, percentDecodeRelativePath parent = .ok decoded ∧ dirs.map Name.bytes = nameParts decoded) :
    ∃ opened, Opens (chainDisk (dirs ++ [last]) emptyFile).canonicalize (pathBuf []) parent opened dirs := by
  by_cases literal : dirs.map Name.bytes = (pathSegments parent).map asBytes
  · refine ⟨_, chainDisk_reaches (spells_literal valid) ?_ rfl, Or.inl rfl⟩
    rw [nameParts_literal valid, literal]
  · obtain ⟨apart, decoded, accepted, same⟩ := spelled.resolve_left literal
    have reached : (chainDisk (dirs ++ [last]) emptyFile).canonicalize decoded = .ok dirs := chainDisk_reaches
      (spells_decoded valid.named (by rw [← ValidPath.percentDecode_eq, accepted])) same.symm rfl
    refine ⟨_, reached, Or.inr ⟨?_, decoded, accepted, rfl⟩⟩
    have bytes := (decodeComponents_ok valid.named (by rw [← ValidPath.percentDecode_eq, accepted])).1
    have solid : parent ≠ "" := by
      rintro rfl
      rw [pathSegments, if_pos rfl, List.map_nil] at bytes
      rw [bytes] at same
      exact literal same
    obtain ⟨query, named⟩ := valid.exists_path
    have shorter : dirs.length ≤ query.length := by
      have left := congrArg List.length same
      have right := congrArg List.length named
      have fewer : (nameParts decoded).length ≤ decoded.length := List.length_filter_le _ _
      rw [bytes] at left fewer
      simp only [List.length_map] at left right fewer
      omega
    have beyond : ¬dirs ++ [last] <+: query := by
      intro leads
      apply apart
      rw [← named]
      exact leads.map Name.bytes
    have outside : ¬query <+: dirs ++ [last] := by
      intro leads
      rcases List.prefix_concat_iff.mp leads with whole | inside
      · exact beyond (whole ▸ List.prefix_rfl)
      · rw [inside.eq_of_length_le shorter] at named
        exact literal named
    have parts : (pathBuf []).join parent = query.map Name.bytes := by
      rw [PathBuf.join, named, pathSegments, if_neg solid]
      rfl
    rw [parts]
    exact chainDisk_missing outside (Or.inr beyond)

theorem chainDisk_entry {name : String} {dirs : Path} {last : Name} (plain : PlainSegment name)
    (spelled : last.bytes ∈ nameForms name) :
    ∃ metadata, Opens (chainDisk (dirs ++ [last]) emptyFile).lstat (pathBuf dirs) name
      (pathBuf dirs ++ [last.bytes])
      metadata ∧ metadata.isFile := by
  refine ⟨(chainDisk (dirs ++ [last]) emptyFile).metadata (dirs ++ [last], emptyFile), ⟨?_, ?_⟩, rfl⟩
  · rw [chainDisk_lstat, if_pos rfl]
  · have joined : (pathBuf dirs).join name = pathBuf dirs ++ [asBytes name] := by
      rw [PathBuf.join, split_singleton plain.clean.1, List.map_singleton]
    by_cases literal : last.bytes = asBytes name
    · exact Or.inl (by rw [joined, literal])
    · obtain ⟨decoded, _⟩ := (mem_nameForms.mp spelled).resolve_left literal
      refine Or.inr ⟨?_, [last.bytes], decoded, rfl⟩
      have missing := chainDisk_lstat dirs last ⟨asBytes name, validName_segment plain⟩
      rw [if_neg] at missing
      · rw [joined, missing]
      · rintro rfl
        exact literal rfl

theorem deleteForms_plain {r : String} {form : List Bytes} (valid : ValidPath r) (named : r ≠ "")
    (member : form ∈ deleteForms r) : ∀ part ∈ form, PlainBytes part ∧ part ≠ asBytes "." := by
  obtain ⟨_, above, plain⟩ := parentAndName_valid valid named
  obtain ⟨dirs, last, rfl, final, spelled⟩ := mem_deleteForms.mp member
  have literal {segment : String} (plain : PlainSegment segment) :
      PlainBytes (asBytes segment) ∧ asBytes segment ≠ asBytes "." :=
    ⟨plainBytes_segment plain, by simpa using plain.notDot⟩
  intro part inside
  rcases List.mem_append.mp inside with early | here
  · rcases spelled with rfl | ⟨_, decoded, accepted, rfl⟩
    · obtain ⟨segment, within, rfl⟩ := List.mem_map.mp early
      exact literal (above.plain segment within)
    · obtain ⟨within, kept⟩ := List.mem_filter.mp early
      rw [ValidPath.percentDecode_eq] at accepted
      simp only [Bool.and_eq_true, decide_eq_true_eq] at kept
      exact ⟨(decodeComponents_ok above.named accepted).2 part within, kept.2⟩
  · rw [List.mem_singleton] at here
    subst here
    rcases mem_nameForms.mp final with rfl | ⟨accepted, notDot⟩
    · exact literal plain
    · exact ⟨(nameForm_decoded plain accepted).2, notDot⟩

theorem deleteForms_valid {r : String} {form : List Bytes} (valid : ValidPath r) (named : r ≠ "")
    (member : form ∈ deleteForms r) : ∀ part ∈ form, ValidName part := fun part inside =>
  (deleteForms_plain valid named member part inside).1.validName
    (deleteForms_plain valid named member part inside).2

theorem chain_removes {p r : String} {access : AccessConfig} {groups : List String} {form : List Bytes}
    (accepted : validateRelativePath p = .ok r) (deletable : canDelete access groups r)
    (member : form ∈ deleteForms r) :
    ∃ (share : Share) (sub : Path) (after : Disk), sub.map Name.bytes = form ∧ Removes share after sub ∧
      ((∀ part ∈ form, (fromUtf8 part).isSome) → share.Utf8) ∧
      share.disk.run (deleteFile (some ⟨share.root, false⟩) p (some ⟨access, groups⟩)) =
        (.ok { status := 204 }, after) := by
  have valid := ValidPath.of_validate accepted
  have named : r ≠ "" := ((canDelete_iff _ _ _).mp deletable).1
  obtain ⟨_, above, plain⟩ := parentAndName_valid valid named
  obtain ⟨path, bytes⟩ := exists_path (deleteForms_valid valid named member)
  obtain ⟨dirBytes, lastBytes, rfl, final, spelled⟩ := mem_deleteForms.mp member
  obtain ⟨dirs, tail, rfl, rfl, ends⟩ := List.map_eq_append_iff.mp bytes
  obtain ⟨last, rfl, rfl⟩ := List.map_eq_singleton_iff.mp ends
  have top : (chain (dirs ++ [last]) emptyFile).isDir := by
    cases dirs <;> rfl
  have present : (chain (dirs ++ [last]) emptyFile).get (dirs ++ [last]) = some emptyFile := by
    have whole := chain_get_append (dirs ++ [last]) [] emptyFile
    rwa [List.append_nil] at whole
  refine ⟨chainShare (dirs ++ [last]) emptyFile rfl top, dirs ++ [last], _, bytes,
    .of_remove (by simp) present, ?_, ?_⟩
  · intro utf8
    refine chainShare_utf8 fun name inside => utf8 name.bytes ?_
    rw [← bytes]
    exact List.mem_map_of_mem inside
  · rw [deleteFile_ok_iff]
    refine ⟨rfl, r, dirs, pathBuf dirs ++ [last.bytes], _, ⟨accepted, named, ?_⟩, ⟨?_, ?_, ?_, ?_⟩,
      chainDisk_removeFile dirs last, rfl⟩
    · rintro held ⟨⟩
      exact deletable
    · refine chainDisk_parent above ?_
      rwa [List.map_append, List.map_singleton]
    · exact List.nil_prefix
    · exact chainDisk_hasDir dirs last emptyFile
    · exact chainDisk_entry plain final

def renderedSegments (sub : Path) : List String := sub.map fun name => percentEncodeEntryName name.bytes

def Lost (share : Share) (after : Disk) (sub : Path) : Prop :=
  (share.disk.tree.get (share.root ++ sub)).isSome ∧ after.tree.get (share.root ++ sub) = none

theorem Removes.lost_iff {share : Share} {after : Disk} {removed sub : Path}
    (removes : Removes share after removed) :
    Lost share after sub ↔ sub = removed := by
  have gone := removes.gone (share.root ++ sub)
  simp only [List.append_cancel_left_eq] at gone
  constructor
  · rintro ⟨present, absent⟩
    by_contra other
    rw [if_neg other, absent] at gone
    obtain ⟨node, found⟩ := Option.isSome_iff_exists.mp present
    simp [found] at gone
  · rintro rfl
    rw [if_pos rfl, Option.map_eq_none_iff] at gone
    obtain ⟨content, present⟩ := removes.present
    exact ⟨by simp [present], gone⟩

def DeletesOnlyGranted (p : String) : Prop :=
  ∀ (access : AccessConfig) (groups : List String) (share : Share) (showHidden : Bool) (response : Response)
    (after : Disk), access.Accepted →
    share.disk.run (deleteFile (some ⟨share.root, showHidden⟩) p (some ⟨access, groups⟩)) =
      (.ok response, after) →
    ∀ sub, Lost share after sub → DeleteCovered access groups (renderedSegments sub)

-- Every form of the path is rendered below the longest allow path that can cover its literal form.
def FormsStayCovered (p : String) : Prop :=
  ∀ r, validateRelativePath p = .ok r → r ≠ "" → ∀ form ∈ deleteForms r,
    writablePrefix (pathSegments r) <+: form.map percentEncodeEntryName

theorem DeleteCovered.of_leads {access : AccessConfig} {groups segments rendered : List String}
    (accepted : access.Accepted) (covered : DeleteCovered access groups segments)
    (leads : writablePrefix segments <+: rendered) : DeleteCovered access groups rendered := by
  obtain ⟨held, member, deletes, entry, inside, covers⟩ := covered
  refine ⟨held, member, deletes, entry, inside, ?_⟩
  rw [allowCovers_iff] at covers ⊢
  refine covers.imp_right fun front => ?_
  obtain ⟨raw, valid⟩ := accepted.allowPath (mem_held.mp member).1 inside
  exact (leads_writablePrefix front fun last found => validateAllowPath_last valid found).trans leads

theorem deletesOnlyGranted_of_forms {p : String} (covered : FormsStayCovered p) : DeletesOnlyGranted p := by
  intro access groups share showHidden response after accepted ran sub lost
  obtain ⟨r, removed, requested, member, removes, _⟩ := deleteFile_removes ran
  rw [removes.lost_iff] at lost
  subst lost
  obtain ⟨named, _, granted⟩ := (canDelete_iff _ _ _).mp (requested.deletable _ rfl)
  have leads := covered r requested.valid named _ member
  rw [List.map_map] at leads
  exact granted.of_leads accepted leads

def grantRules (path : List String) : Rules := ⟨[[]], [], [path]⟩

theorem grantRules_writable {path : List String} (writable : WritableAllow path) :
    (grantRules path).Writable :=
  ⟨by simp [grantRules, WritableAllow], by simp [grantRules],
    by simp [grantRules, writable], by simp [grantRules], by simp [grantRules]⟩

theorem grantRules_visible {path : List String} (writable : WritableAllow path)
    (groups segments : List String) :
    (evaluate (grantRules path).config groups segments).isHidden = false := by
  by_cases root : segments = []
  · subst root
    rw [evaluate_root]
    exact Or.inl (by simp [grantRules, Rules.config])
  · rw [Rules.visible_iff (grantRules_writable writable) _ _ root]
    exact ⟨Or.inl ⟨[], by simp [grantRules], List.nil_prefix⟩, by simp [grantRules]⟩

theorem grantRules_canDelete {r : String} {path : List String} (valid : ValidPath r) (named : r ≠ "")
    (writable : WritableAllow path) (leads : path <+: pathSegments r) :
    canDelete (grantRules path).config [Rules.group] r := by
  rw [canDelete_iff]
  refine ⟨named, ?_, ?_⟩
  · rw [valid.isPathVisible_iff]
    exact ⟨grantRules_visible writable _ _, fun _ _ => grantRules_visible writable _ _⟩
  · rw [Rules.deleteCovered_iff (grantRules_writable writable)]
    exact ⟨by simp, path, by simp [grantRules], leads⟩

theorem forms_of_deletesOnlyGranted {p : String} (deletes : DeletesOnlyGranted p) : FormsStayCovered p := by
  intro r accepted named form member
  have valid := ValidPath.of_validate accepted
  have writable := writablePrefix_writable valid.plain
  have deletable := grantRules_canDelete valid named writable (writablePrefix_leads _)
  obtain ⟨share, sub, after, spelled, removes, _, ran⟩ := chain_removes accepted deletable member
  have covered := deletes _ _ share false _ _ (Rules.config_accepted (grantRules_writable writable)) ran sub
    (removes.lost_iff.mpr rfl)
  obtain ⟨_, path, listed, leads⟩ := (Rules.deleteCovered_iff (grantRules_writable writable) _ _).mp covered
  have only : path = writablePrefix (pathSegments r) := by simpa [grantRules] using listed
  rw [only, renderedSegments] at leads
  rwa [← spelled, List.map_map]

theorem deletesOnlyGranted_iff (p : String) : DeletesOnlyGranted p ↔ FormsStayCovered p :=
  ⟨forms_of_deletesOnlyGranted, deletesOnlyGranted_of_forms⟩

def escapedGrant : Rules := grantRules ["%61"]

-- The grant on `%61` lets its holder remove `a/x`, which only the global allow covers.
theorem not_deletesOnlyGranted_escaped : ¬DeletesOnlyGranted "%61/x" := by
  intro deletes
  have accepted : validateRelativePath "%61/x" = .ok "%61/x" := by decide +kernel
  have writable : WritableAllow ["%61"] := Or.inr (.of_isWritable (by decide +kernel))
  have deletable : canDelete escapedGrant.config [Rules.group] "%61/x" := by decide +kernel
  obtain ⟨share, sub, after, spelled, removes, _, ran⟩ :=
    @chain_removes _ _ _ _ [asBytes "a", asBytes "x"] accepted deletable (by decide +kernel)
  have covered := deletes _ _ share false _ _ (Rules.config_accepted (grantRules_writable writable)) ran sub
    (removes.lost_iff.mpr rfl)
  obtain ⟨_, path, listed, leads⟩ := (Rules.deleteCovered_iff (grantRules_writable writable) _ _).mp covered
  have only : path = ["%61"] := by simpa [grantRules] using listed
  have rendered : renderedSegments sub = ["a", "x"] := by
    have bytes : renderedSegments sub = (sub.map Name.bytes).map percentEncodeEntryName := by
      rw [renderedSegments, List.map_map]
      rfl
    rw [bytes, spelled]
    decide +kernel
  rw [only, rendered] at leads
  exact absurd leads (by decide)

end Yafm
