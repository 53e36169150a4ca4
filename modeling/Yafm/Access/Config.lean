import Yafm.Access.Pattern
import Yafm.Shared.OrderedMap
import Mathlib.Data.List.Nodup

set_option autoImplicit false

namespace Yafm

open Text

structure AllowEntryFile where
  path : String
  deny : List String := []

structure GrantFile where
  delete : Bool := false
  allow : List AllowEntryFile := []

structure AccessConfigFile where
  allow : List String := []
  deny : List String := []
  grants : OrderedMap String GrantFile := OrderedMap.empty

structure AllowEntry where
  path : String
  deny : List DenyPattern
  deriving DecidableEq, Repr

structure Grant where
  delete : Bool
  allow : List AllowEntry
  deriving DecidableEq, Repr

structure AccessConfig where
  globalAllow : List String
  globalDeny : List DenyPattern
  grants : OrderedMap String Grant

def findDuplicates (values : List String) : Option String :=
  (values.zipIdx.find? fun occurrence => (values.take occurrence.2).contains occurrence.1).map Prod.fst

def normalizeRelativePath (raw : String) : String :=
  let trimmed := trim raw
  let withoutLeadingSlash := (stripPrefix "/" trimmed).getD trimmed
  (stripPrefix "./" withoutLeadingSlash).getD withoutLeadingSlash

def checkSegments (subject : String) : List String → Except String Unit
  | [] => .ok ()
  | segment :: rest =>
    if segment = "" then .error (subject ++ " is invalid; segments must not be empty.")
    else if segment = ".." then .error (subject ++ " is invalid; `..` components are not allowed.")
    else checkSegments subject rest

def validateAllowPath (raw : String) : Except String String := do
  let subject := "Configuration access path \"" ++ raw ++ "\""
  if contains '\x00' raw || contains '\\' raw then
    throw (subject ++ " is invalid; backslashes and NUL are not allowed.")
  let normalized := normalizeRelativePath raw
  if normalized = "" then return normalized
  checkSegments subject (split '/' normalized)
  return normalized

def compileSegment (segment : String) : SegmentMatcher := ⟨segment, segment = "**"⟩

def validateDenyPattern (raw : String) : Except String DenyPattern := do
  let subject := "Configuration access deny pattern \"" ++ raw ++ "\""
  if trim raw = "" then
    throw "Configuration access deny patterns must be non-empty strings."
  if contains '\x00' raw || contains '\\' raw then
    throw (subject ++ " is invalid; backslashes and NUL are not allowed.")
  if endsWith "/" raw then
    throw (subject ++ " is invalid; a trailing slash is not supported. Deny the directory by name instead.")
  let segments := split '/' (normalizeRelativePath raw)
  checkSegments subject segments
  return ⟨raw, segments.length > 1, segments.map compileSegment⟩

def refuseDuplicates (list : String) (values : List String) : Except String Unit :=
  match findDuplicates values with
  | some duplicate =>
    .error ("Configuration access " ++ list ++ " lists \"" ++ duplicate ++ "\" more than once.")
  | none => .ok ()

def validateAllowEntry (entry : AllowEntryFile) : Except String AllowEntry := do
  let path ← validateAllowPath entry.path
  let deny ← entry.deny.mapM validateDenyPattern
  return ⟨path, deny⟩

def validateGrant (group : String) (grant : GrantFile) : Except String (String × Grant) := do
  let groupName := trim group
  if groupName = "" then
    throw "Configuration access grants group names must be non-empty strings."
  let entries ← grant.allow.mapM validateAllowEntry
  if entries = [] then
    throw ("Configuration access grants \"" ++ groupName ++ "\" must list at least one allow entry.")
  return (groupName, ⟨grant.delete, entries⟩)

def validateAccessConfig (block : AccessConfigFile) : Except String AccessConfig := do
  let globalAllow ← block.allow.mapM validateAllowPath
  refuseDuplicates "allow" block.allow
  let globalDeny ← block.deny.mapM validateDenyPattern
  refuseDuplicates "deny" block.deny
  let grants ← block.grants.entries.mapM fun held => validateGrant held.1 held.2
  -- Two names that trim to the same group leave the later grant in place.
  return ⟨globalAllow, globalDeny, OrderedMap.ofList grants⟩

-- A config the server can be running with.
def AccessConfig.Accepted (access : AccessConfig) : Prop :=
  ∃ block, validateAccessConfig block = .ok access

theorem checkSegments_ok (subject : String) {segments : List String}
    (named : ∀ segment ∈ segments, segment ≠ "") (descending : ".." ∉ segments) :
    checkSegments subject segments = .ok () := by
  induction segments with
  | nil => rfl
  | cons segment rest ih =>
    rw [List.mem_cons, not_or] at descending
    rw [checkSegments, if_neg (named segment (by simp)), if_neg (Ne.symm descending.1)]
    exact ih (fun other member => named other (List.mem_cons_of_mem _ member)) descending.2

/-- Segments an operator can write down as a setting with a leading slash. -/
structure Writable (segments : List String) : Prop where
  nonempty : segments ≠ []
  named : ∀ segment ∈ segments, segment ≠ ""
  descending : ".." ∉ segments
  clean : ∀ segment ∈ segments, '/' ∉ segment.toList ∧ '\\' ∉ segment.toList ∧ '\x00' ∉ segment.toList
  untrimmed : ∀ last ∈ segments.getLast?, ∀ c ∈ last.toList.getLast?, isWhitespace c = false
  undotted : ∀ next rest, segments ≠ "." :: next :: rest

def isWritable (segments : List String) : Bool :=
  !segments.isEmpty
    && segments.all (fun segment => segment != "" && segment != ".."
      && !segment.toList.contains '/' && !segment.toList.contains '\\' && !segment.toList.contains '\x00')
    && (segments.getLast?.all fun last => last.toList.getLast?.all fun c => !isWhitespace c)
    && (segments.head? != some "." || segments.tail.isEmpty)

theorem Writable.of_isWritable {segments : List String} (checked : isWritable segments) :
    Writable segments := by
  simp only [isWritable, Bool.and_eq_true, Bool.or_eq_true, Bool.not_eq_true',
    List.all_eq_true, Option.all_eq_true,
    bne_iff_ne, List.isEmpty_eq_false_iff, List.isEmpty_iff, List.contains_eq_mem,
    decide_eq_false_iff_not] at checked
  obtain ⟨⟨⟨nonempty, each⟩, untrimmed⟩, undotted⟩ := checked
  exact {
    nonempty
    named := fun segment member => (each segment member).1.1.1.1
    descending := fun member => (each ".." member).1.1.1.2 rfl
    clean := fun segment member =>
      ⟨(each segment member).1.1.2, (each segment member).1.2, (each segment member).2⟩
    untrimmed := fun last final c ending => untrimmed last final c ending
    undotted := by
      rintro next rest rfl
      exact undotted.elim (fun other => other rfl) (fun alone => nomatch alone)
  }

def setting (segments : List String) : String := "/" ++ join '/' segments

theorem Writable.getLast?_setting {segments : List String} (writable : Writable segments) :
    ∃ last, segments.getLast? = some last ∧ (setting segments).toList.getLast? =
      last.toList.getLast? ∧ last ≠ "" := by
  obtain ⟨front, last, rfl⟩ := (List.eq_nil_or_concat' segments).resolve_left writable.nonempty
  obtain ⟨lead, chars⟩ := join_last '/' front last
  have solid : last ≠ "" := writable.named last (by simp)
  refine ⟨last, by simp, ?_, solid⟩
  have charsLast : last.toList ≠ [] := by simpa using solid
  rw [setting, String.toList_append, chars, ← List.append_assoc, List.getLast?_append_of_ne_nil _ charsLast]

theorem Writable.split_join {segments : List String} (writable : Writable segments) :
    split '/' (join '/' segments) = segments :=
  Text.split_join writable.nonempty fun segment member => (writable.clean segment member).1

theorem Writable.trim_setting {segments : List String} (writable : Writable segments) :
    trim (setting segments) = setting segments := by
  apply trim_eq_self
  · intro c first
    have slash : c = '/' := by simpa [setting] using first.symm
    subst slash
    decide
  · obtain ⟨last, found, same, _⟩ := writable.getLast?_setting
    rw [same]
    exact writable.untrimmed last found

theorem Writable.normalize_setting {segments : List String} (writable : Writable segments) :
    normalizeRelativePath (setting segments) = join '/' segments := by
  have plain : stripPrefix "./" (join '/' segments) = none := by
    cases found : stripPrefix "./" (join '/' segments) with
    | none => rfl
    | some rest =>
      have whole := congrArg (split '/') (stripPrefix_eq_some found)
      have dotted : split '/' ("./" ++ rest) = "." :: split '/' rest := split_append '/' "." rest
      rw [writable.split_join, dotted] at whole
      obtain ⟨next, others, more⟩ := List.exists_cons_of_ne_nil (split_ne_nil '/' rest)
      exact absurd (whole.trans (by rw [more])) (writable.undotted next others)
  have stripped : stripPrefix "/" (setting segments) = some (join '/' segments) := stripPrefix_append _ _
  simp only [normalizeRelativePath, writable.trim_setting, stripped, Option.getD_some,
    plain, Option.getD_none]

theorem Writable.contains_setting {segments : List String} {c : Char} (other : c ≠ '/')
    (absent : ∀ segment ∈ segments, c ∉ segment.toList) : contains c (setting segments) = false := by
  have outside : c ∉ (setting segments).toList := by
    intro member
    rw [setting, String.toList_append, List.mem_append] at member
    rcases member with slash | inside
    · exact other (by simpa using slash)
    · rcases mem_join inside with slash | ⟨segment, member, found⟩
      · exact other slash
      · exact absent segment member found
  simpa [contains] using outside

theorem Writable.plain_setting {segments : List String} (writable : Writable segments) :
    (contains '\x00' (setting segments) || contains '\\' (setting segments)) = false := by
  rw [Writable.contains_setting (by decide) fun segment member => (writable.clean segment member).2.2,
    Writable.contains_setting (by decide) fun segment member => (writable.clean segment member).2.1]
  rfl

theorem Writable.endsWith_setting {segments : List String} (writable : Writable segments) :
    endsWith "/" (setting segments) = false := by
  obtain ⟨last, found, same, solid⟩ := writable.getLast?_setting
  by_contra ends
  have tail : ['/'] <:+ (setting segments).toList :=
    List.isSuffixOf_iff_suffix.mp (by simpa [endsWith] using ends)
  obtain ⟨front, whole⟩ := tail
  rw [← whole, List.getLast?_append_of_ne_nil _ (by simp)] at same
  have inside : '/' ∈ last.toList := List.mem_of_getLast? same.symm
  exact (writable.clean last (List.mem_of_getLast? found)).1 inside

theorem validateAllowPath_setting {segments : List String} (writable : Writable segments) :
    validateAllowPath (setting segments) = .ok (join '/' segments) := by
  have checked := fun subject => checkSegments_ok subject writable.named writable.descending
  simp only [validateAllowPath, writable.plain_setting, writable.normalize_setting,
    writable.split_join, checked]
  by_cases empty : join '/' segments = ""
  · simp [empty]
    rfl
  · simp [empty]

def denyPattern (segments : List String) : DenyPattern :=
  ⟨setting segments, segments.length > 1, segments.map compileSegment⟩

theorem validateDenyPattern_setting {segments : List String} (writable : Writable segments) :
    validateDenyPattern (setting segments) = .ok (denyPattern segments) := by
  have solid : trim (setting segments) ≠ "" := by
    rw [writable.trim_setting]
    exact fun empty => by simpa [setting] using congrArg String.toList empty
  have checked := fun subject => checkSegments_ok subject writable.named writable.descending
  simp only [validateDenyPattern, if_neg solid, writable.plain_setting, writable.endsWith_setting,
    writable.normalize_setting, writable.split_join, checked]
  rfl

theorem validateAllowPath_root : validateAllowPath (setting []) = .ok (join '/' []) := by decide

-- The empty path is the root and covers everything.
def WritableAllow (segments : List String) : Prop := segments = [] ∨ Writable segments

theorem WritableAllow.validate {segments : List String} (writable : WritableAllow segments) :
    validateAllowPath (setting segments) = .ok (join '/' segments) := by
  rcases writable with rfl | writable
  · exact validateAllowPath_root
  · exact validateAllowPath_setting writable

theorem setting_injective {left right : List String} (here : WritableAllow left) (there : WritableAllow right)
    (same : setting left = setting right) : left = right := by
  have joined : join '/' left = join '/' right := by
    have chars := congrArg String.toList same
    simp only [setting, String.toList_append, List.append_cancel_left_eq] at chars
    exact String.toList_inj.mp chars
  have empty {segments : List String} (writable : Writable segments) : join '/' segments ≠ "" := by
    intro nothing
    have parts := writable.split_join
    rw [nothing] at parts
    exact writable.named "" (by rw [← parts]; decide) rfl
  rcases here with rfl | here <;> rcases there with rfl | there
  · rfl
  · exact absurd joined.symm (empty there)
  · exact absurd joined (empty here)
  · rw [← here.split_join, joined, there.split_join]

theorem findDuplicates_nodup {values : List String} (distinct : values.Nodup) :
    findDuplicates values = none := by
  rw [findDuplicates, Option.map_eq_none_iff, List.find?_eq_none]
  rintro ⟨value, index⟩ member repeated
  obtain ⟨_, within, here⟩ := List.mem_zipIdx member
  obtain ⟨earlier, before, there⟩ := List.mem_take_iff_getElem.mp (List.contains_iff_mem.mp repeated)
  have same := (List.Nodup.getElem_inj_iff distinct).mp (there.trans here)
  omega

theorem validateAllowPath_normalize {raw path : String} (valid : validateAllowPath raw = .ok path) :
    path = normalizeRelativePath raw := by
  unfold validateAllowPath at valid
  dsimp only at valid
  split at valid
  · cases valid
  · split at valid
    · exact (Except.ok.inj valid).symm
    · obtain ⟨_, _, ended⟩ := bind_ok valid
      exact (Except.ok.inj ended).symm

theorem validateAllowEntry_ok {source : AllowEntryFile} {entry : AllowEntry}
    (valid : validateAllowEntry source = .ok entry) :
    validateAllowPath source.path = .ok entry.path ∧
    source.deny.mapM validateDenyPattern = .ok entry.deny := by
  obtain ⟨path, allowed, compiled⟩ := bind_ok valid
  obtain ⟨deny, denied, ended⟩ := bind_ok compiled
  cases ended
  exact ⟨allowed, denied⟩

theorem validateGrant_ok {source : String × GrantFile} {held : String × Grant}
    (valid : validateGrant source.1 source.2 = .ok held) :
    held.1 = trim source.1 ∧ held.2.delete = source.2.delete ∧
      source.2.allow.mapM validateAllowEntry = .ok held.2.allow := by
  unfold validateGrant at valid
  dsimp only at valid
  split at valid
  · cases valid
  · obtain ⟨entries, allowed, named⟩ := bind_ok valid
    split at named
    · cases named
    · cases named
      exact ⟨rfl, rfl, allowed⟩

theorem validateAccessConfig_ok {block : AccessConfigFile} {access : AccessConfig}
    (accepted : validateAccessConfig block = .ok access) :
    block.allow.mapM validateAllowPath = .ok access.globalAllow ∧
    block.deny.mapM validateDenyPattern = .ok access.globalDeny ∧
    ∃ grants, (block.grants.entries.mapM fun held => validateGrant held.1 held.2) = .ok grants ∧
      access.grants = OrderedMap.ofList grants := by
  obtain ⟨allow, allowed, accepted⟩ := bind_ok accepted
  obtain ⟨_, _, accepted⟩ := bind_ok accepted
  obtain ⟨deny, denied, accepted⟩ := bind_ok accepted
  obtain ⟨_, _, accepted⟩ := bind_ok accepted
  obtain ⟨grants, granted, built⟩ := bind_ok accepted
  cases built
  exact ⟨allowed, denied, grants, granted, rfl⟩

theorem AccessConfig.Accepted.allowPath {access : AccessConfig} (accepted : access.Accepted)
    {held : String × Grant} {entry : AllowEntry} (member : held ∈ access.grants.entries)
    (inside : entry ∈ held.2.allow) :
    ∃ raw, validateAllowPath raw = .ok entry.path := by
  obtain ⟨block, validated⟩ := accepted
  obtain ⟨_, _, grants, granted, built⟩ := validateAccessConfig_ok validated
  rw [built] at member
  obtain ⟨source, _, valid⟩ := mem_mapM_ok granted (OrderedMap.mem_ofList member)
  obtain ⟨raw, _, checked⟩ := mem_mapM_ok (validateGrant_ok valid).2.2 inside
  exact ⟨raw.path, (validateAllowEntry_ok checked).1⟩

theorem endsWithWhitespace_suffix {s tail : String} (ends : tail.toList <:+ s.toList)
    (plain : endsWithWhitespace s = false) : endsWithWhitespace tail = false := by
  obtain ⟨front, whole⟩ := ends
  unfold endsWithWhitespace at plain ⊢
  by_cases empty : tail.toList = []
  · rw [empty]
    rfl
  · rwa [← whole, List.getLast?_append_of_ne_nil _ empty] at plain

theorem endsWithWhitespace_trim (s : String) : endsWithWhitespace (trim s) = false := by
  rw [endsWithWhitespace, trim, String.toList_ofList]
  by_cases empty : (s.toList.dropWhile isWhitespace).rdropWhile isWhitespace = []
  · rw [empty]
    rfl
  · rw [List.getLast?_eq_some_getLast empty]
    simpa using List.rdropWhile_last_not isWhitespace (s.toList.dropWhile isWhitespace) empty

theorem stripPrefix_suffix (lead s : String) : ((stripPrefix lead s).getD s).toList <:+ s.toList := by
  cases found : stripPrefix lead s with
  | none => exact List.suffix_rfl
  | some rest =>
    rw [stripPrefix_eq_some found, String.toList_append]
    exact List.suffix_append _ _

theorem endsWithWhitespace_normalize (raw : String) :
    endsWithWhitespace (normalizeRelativePath raw) = false := by
  unfold normalizeRelativePath
  dsimp only
  have trimmed := endsWithWhitespace_trim raw
  generalize trim raw = text at trimmed ⊢
  have slashed := endsWithWhitespace_suffix (stripPrefix_suffix "/" text) trimmed
  exact endsWithWhitespace_suffix (stripPrefix_suffix "./" _) slashed

theorem validateAllowPath_last {raw path last : String} (valid : validateAllowPath raw = .ok path)
    (found : (split '/' path).getLast? = some last) : endsWithWhitespace last = false := by
  obtain ⟨front, parts⟩ := List.getLast?_eq_some_iff.mp found
  obtain ⟨lead, chars⟩ := join_last '/' front last
  rw [← parts, join_split] at chars
  refine endsWithWhitespace_suffix (s := path) ⟨lead, chars.symm⟩ ?_
  rw [validateAllowPath_normalize valid]
  exact endsWithWhitespace_normalize raw

structure Rules where
  allow : List (List String)
  deny : List (List String)
  grant : List (List String)

namespace Rules

def group : String := "members"

def block (rules : Rules) : AccessConfigFile :=
  { allow := rules.allow.map setting
    deny := rules.deny.map setting
    grants :=
      if rules.grant = [] then OrderedMap.empty
      else OrderedMap.ofList [(group, ⟨true, rules.grant.map fun path => ⟨setting path, []⟩⟩)] }

def config (rules : Rules) : AccessConfig :=
  { globalAllow := rules.allow.map (join '/')
    globalDeny := rules.deny.map denyPattern
    grants :=
      if rules.grant = [] then OrderedMap.empty
      else OrderedMap.ofList [(group, ⟨true, rules.grant.map fun path => ⟨join '/' path, []⟩⟩)] }

structure Writable (rules : Rules) : Prop where
  allow : ∀ path ∈ rules.allow, WritableAllow path
  deny : ∀ pattern ∈ rules.deny, Yafm.Writable pattern
  grant : ∀ path ∈ rules.grant, WritableAllow path
  distinctAllow : rules.allow.Nodup
  distinctDeny : rules.deny.Nodup

theorem config_accepted {rules : Rules} (writable : rules.Writable) : rules.config.Accepted := by
  have allow : rules.block.allow.mapM validateAllowPath = .ok rules.config.globalAllow := by
    rw [block, List.mapM_map]
    exact mapM_ok fun path member => (writable.allow path member).validate
  have deny : rules.block.deny.mapM validateDenyPattern = .ok rules.config.globalDeny := by
    rw [block, List.mapM_map]
    refine mapM_ok (g := denyPattern) ?_
    intro pattern member
    rw [Function.comp_apply, validateDenyPattern_setting (writable.deny pattern member)]
  have allowOnce : refuseDuplicates "allow" rules.block.allow = .ok () := by
    have distinct : (rules.allow.map setting).Nodup :=
      List.Nodup.map_on (fun left here right there => setting_injective (writable.allow left here)
        (writable.allow right there)) writable.distinctAllow
    simp only [refuseDuplicates, block, findDuplicates_nodup distinct]
  have denyOnce : refuseDuplicates "deny" rules.block.deny = .ok () := by
    have distinct : (rules.deny.map setting).Nodup :=
      List.Nodup.map_on (fun left here right there => setting_injective (Or.inr (writable.deny left here))
        (Or.inr (writable.deny right there))) writable.distinctDeny
    simp only [refuseDuplicates, block, findDuplicates_nodup distinct]
  have grants : (rules.block.grants.entries.mapM fun held => validateGrant held.1 held.2) =
      .ok rules.config.grants.entries := by
    by_cases empty : rules.grant = []
    · simp only [block, config, empty, if_true]
      rfl
    · have entries : (rules.grant.map fun path => (⟨setting path, []⟩ : AllowEntryFile)).mapM
        validateAllowEntry =
          .ok (rules.grant.map fun path => ⟨join '/' path, []⟩) := by
        rw [List.mapM_map]
        refine mapM_ok (g := fun path => (⟨join '/' path, []⟩ : AllowEntry)) ?_
        intro path member
        simp only [Function.comp_apply, validateAllowEntry, (writable.grant path member).validate]
        rfl
      have named : trim group = group := by decide
      have solid : ¬group = "" := by decide
      have listed : ¬(rules.grant.map fun path => (⟨join '/' path, []⟩ : AllowEntry)) = [] := by
        simpa using empty
      simp only [block, config, empty, if_false, OrderedMap.entries_singleton, List.mapM_cons, List.mapM_nil,
        validateGrant, named, solid, entries]
      simp only [bind, Except.bind, pure, Except.pure, listed, if_false]
  refine ⟨rules.block, ?_⟩
  have same : OrderedMap.ofList rules.config.grants.entries = rules.config.grants := by
    unfold config
    split <;> rfl
  simp only [validateAccessConfig, allow, deny, allowOnce, denyOnce, grants, bind, Except.bind,
    pure, Except.pure, same]

end Rules

end Yafm
