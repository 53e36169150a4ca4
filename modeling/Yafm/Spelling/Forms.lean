import Yafm.Decoding

set_option autoImplicit false

-- The rules are judged on the literal segments and on the decoded ones, with the dots left in. What the
-- file system opens may be neither.

namespace Yafm

open Text

theorem isPathVisible_iff (access : AccessConfig) (groups : List String) (relative : String) :
    isPathVisible access groups relative ↔ isHidden access groups relative = false ∧
      ∀ decoded, decodeEquivalent relative = some decoded → isHidden access groups decoded = false := by
  unfold isPathVisible
  by_cases hidden : isHidden access groups relative
  · simp [hidden]
  · simp only [hidden, Bool.false_eq_true, if_false, true_and]
    cases equivalent : decodeEquivalent relative with
    | none => simp
    | some decoded =>
      simp only [Option.some.injEq, forall_eq']
      by_cases same : decoded = relative
      · simp [same, hidden]
      · simp [same]

theorem evaluate_root_visible {access : AccessConfig} {groups segments : List String}
    (visible : (evaluate access groups segments).isHidden = false) :
    (evaluate access groups []).isHidden = false := by
  by_cases root : segments = []
  · rwa [root] at visible
  · rw [evaluate_root]
    rcases ((evaluate_visible_iff access groups root).mp visible).1 with ⟨path, member, _⟩ | covering
    · exact Or.inl (List.ne_nil_of_mem member)
    · obtain ⟨cover, member⟩ := List.exists_mem_of_ne_nil _ covering
      obtain ⟨grant, held, inside, _⟩ := mem_covering.mp member
      exact Or.inr ⟨(cover.1, grant), held, List.ne_nil_of_mem inside⟩

structure Decodes (segments texts : List String) : Prop where
  accepted : decodeComponents segments = .ok (texts.map asBytes)
  bytes : texts.map asBytes = segments.map percentDecodeBytes
  named : ∀ text ∈ texts, text ≠ ""
  descending : ".." ∉ texts
  clean : ∀ text ∈ texts, '/' ∉ text.toList ∧ '\\' ∉ text.toList ∧ '\x00' ∉ text.toList

theorem asciiByte_nul : asciiByte '\x00' = 0 := by decide

theorem plainBytes_segment {segment : String} (plain : PlainSegment segment) :
    PlainBytes (asBytes segment) := by
  refine ⟨fun empty => plain.named (asBytes_injective (empty.trans rfl)), by simpa using plain.descending, ?_⟩
  rw [asciiByte_mem_asBytes (by decide), asciiByte_mem_asBytes (by decide), ← asciiByte_nul,
    asciiByte_mem_asBytes (by decide)]
  exact plain.clean

theorem Decodes.of_accepted {segments texts : List String} (named : ∀ segment ∈ segments, segment ≠ "")
    (accepted : decodeComponents segments = .ok (texts.map asBytes)) : Decodes segments texts := by
  obtain ⟨same, plain⟩ := decodeComponents_ok named accepted
  have each (text : String) (member : text ∈ texts) : PlainBytes (asBytes text) :=
    plain _ (List.mem_map_of_mem member)
  refine ⟨accepted, same, ?_, ?_, ?_⟩
  · rintro text member rfl
    exact (each "" member).nonempty rfl
  · intro member
    exact (each ".." member).descending rfl
  · intro text member
    obtain ⟨slash, backslash, nul⟩ := (each text member).clean
    rw [← asciiByte_nul] at nul
    exact ⟨fun bad => slash ((asciiByte_mem_asBytes (by decide) text).mpr bad),
      fun bad => backslash ((asciiByte_mem_asBytes (by decide) text).mpr bad),
      fun bad => nul ((asciiByte_mem_asBytes (by decide) text).mpr bad)⟩

theorem Decodes.length {segments texts : List String} (decodes : Decodes segments texts) :
    texts.length = segments.length := by
  simpa using congrArg List.length decodes.bytes

theorem Decodes.split_join {segments texts : List String} (decodes : Decodes segments texts)
    (nonempty : texts ≠ []) : split '/' (join '/' texts) = texts :=
  Text.split_join nonempty fun text member => (decodes.clean text member).1

theorem Decodes.pathSegments {segments texts : List String} (decodes : Decodes segments texts) :
    pathSegments (join '/' texts) = texts := by
  by_cases empty : texts = []
  · subst empty
    rfl
  · have split := decodes.split_join empty
    have solid : join '/' texts ≠ "" := by
      intro nothing
      rw [nothing] at split
      exact decodes.named "" (by rw [← split]; decide) rfl
    rw [Yafm.pathSegments, if_neg solid, split]

structure ValidPath (r : String) : Prop where
  joined : join '/' (pathSegments r) = r
  plain : ∀ segment ∈ pathSegments r, PlainSegment segment

theorem ValidPath.of_validate {p r : String} (valid : validateRelativePath p = .ok r) : ValidPath r :=
  ⟨(validateRelativePath_ok valid).1, (validateRelativePath_ok valid).2⟩

namespace ValidPath

variable {r : String} (valid : ValidPath r)
include valid

theorem named : ∀ segment ∈ pathSegments r, segment ≠ "" :=
  fun segment member => (valid.plain segment member).named

omit valid in
theorem percentDecode_eq : percentDecodeRelativePath r = decodeComponents (pathSegments r) := by
  unfold percentDecodeRelativePath pathSegments
  split
  next empty =>
    subst empty
    decide
  next => rfl

theorem decodes_iff (texts : List String) :
    decodeSegments (pathSegments r) = some texts ↔ Decodes (pathSegments r) texts := by
  rw [decodeSegments_iff valid.named]
  exact ⟨Decodes.of_accepted valid.named, Decodes.accepted⟩

theorem decodeEquivalent_iff (decoded : String) :
    decodeEquivalent r = some decoded ↔
      ∃ texts, decoded = join '/' texts ∧ Decodes (pathSegments r) texts := by
  have judged := valid.decodes_iff
  by_cases empty : r = ""
  · subst empty
    have root : decodeEquivalent "" = some "" := by decide
    have only (texts : List String) : Decodes (pathSegments "") texts ↔ texts = [] := by
      rw [← judged]
      simp [pathSegments, decodeSegments, eq_comm]
    simp only [root, only, exists_eq_right, Option.some.injEq]
    exact eq_comm
  · have split : split '/' r = pathSegments r := by rw [pathSegments, if_neg empty]
    simp only [decodeEquivalent, split, Option.map_eq_some_iff, judged]
    constructor
    · rintro ⟨texts, decodes, same⟩
      exact ⟨texts, same.symm, decodes⟩
    · rintro ⟨texts, same, decodes⟩
      exact ⟨texts, decodes, same.symm⟩

theorem isPathVisible_iff (access : AccessConfig) (groups : List String) :
    isPathVisible access groups r ↔ (evaluate access groups (pathSegments r)).isHidden = false ∧
      ∀ texts, Decodes (pathSegments r) texts → (evaluate access groups texts).isHidden = false := by
  rw [Yafm.isPathVisible_iff]
  refine and_congr Iff.rfl ?_
  constructor
  · intro visible texts decodes
    have judged := visible (join '/' texts) ((valid.decodeEquivalent_iff _).mpr ⟨texts, rfl, decodes⟩)
    rwa [isHidden, decodes.pathSegments] at judged
  · intro visible decoded equivalent
    obtain ⟨texts, rfl, decodes⟩ := (valid.decodeEquivalent_iff _).mp equivalent
    rw [isHidden, decodes.pathSegments]
    exact visible texts decodes

end ValidPath

-- The longest front an allow path can spell: a setting is trimmed, so its last segment ends in no whitespace.
def writablePrefix (segments : List String) : List String := segments.rdropWhile endsWithWhitespace

theorem writablePrefix_leads (segments : List String) : writablePrefix segments <+: segments :=
  List.rdropWhile_prefix _ _

theorem writablePrefix_split (segments : List String) :
    ∃ blank, segments = writablePrefix segments ++ blank ∧ ∀ segment ∈ blank, endsWithWhitespace segment :=
  ⟨segments.rtakeWhile endsWithWhitespace, (List.rdropWhile_append_rtakeWhile ..).symm, fun _ member =>
    List.mem_rtakeWhile_imp member⟩

theorem writablePrefix_last {segments : List String} {last : String}
    (found : (writablePrefix segments).getLast? = some last) : endsWithWhitespace last = false := by
  have nonempty : writablePrefix segments ≠ [] := by
    rintro empty
    rw [empty] at found
    cases found
  have ends := List.rdropWhile_last_not endsWithWhitespace segments nonempty
  rw [List.getLast?_eq_some_getLast nonempty, Option.some.injEq] at found
  rw [← found]
  exact (Bool.not_eq_true _).mp ends

theorem leads_writablePrefix {front segments : List String} (leads : front <+: segments)
    (ends : ∀ last ∈ front.getLast?, endsWithWhitespace last = false) :
    front <+: writablePrefix segments := by
  obtain ⟨blank, whole, blanks⟩ := writablePrefix_split segments
  rcases List.prefix_or_prefix_of_prefix leads (writablePrefix_leads segments) with inside | longer
  · exact inside
  · obtain ⟨extra, rfl⟩ := longer
    rcases List.eq_nil_or_concat' extra with rfl | ⟨lead, last, rfl⟩
    · simp
    · have within : writablePrefix segments ++ (lead ++ [last]) <+: writablePrefix segments ++ blank := by
        rw [← whole]
        exact leads
      have more := (List.prefix_append_right_inj _).mp within
      have blankLast := blanks last (more.subset (by simp))
      rw [ends last (by simp)] at blankLast
      cases blankLast

theorem writablePrefix_writable {segments : List String}
    (plain : ∀ segment ∈ segments, PlainSegment segment) : WritableAllow (writablePrefix segments) := by
  by_cases empty : writablePrefix segments = []
  · exact Or.inl empty
  · have each (segment : String) (member : segment ∈ writablePrefix segments) : PlainSegment segment :=
      plain segment ((writablePrefix_leads segments).subset member)
    refine Or.inr ⟨empty, fun segment member => (each segment member).named, fun member =>
      (each _ member).descending rfl, fun segment member => (each segment member).clean, ?_, ?_⟩
    · intro last found c ends
      have plainLast := writablePrefix_last found
      rw [endsWithWhitespace, ends] at plainLast
      simpa using plainLast
    · intro next rest same
      exact (each "." (by simp [same])).notDot rfl

-- The front of the decoded texts up to their first dot, the dot included.
def dotPrefix (texts : List String) : List String := texts.takeWhile (· ≠ ".") ++ ["."]

theorem dotPrefix_leads {texts : List String} (dotted : "." ∈ texts) : dotPrefix texts <+: texts := by
  induction texts with
  | nil => cases dotted
  | cons text rest ih =>
    by_cases dot : text = "."
    · subst dot
      simp [dotPrefix]
    · have later : "." ∈ rest := by
        rcases List.mem_cons.mp dotted with here | later
        · exact absurd here.symm dot
        · exact later
      have unfolded : dotPrefix (text :: rest) = text :: dotPrefix rest := by simp [dotPrefix, dot]
      rw [unfolded]
      simpa using ih later

theorem dotPrefix_writable {segments texts : List String} (decodes : Decodes segments texts)
    (dotted : "." ∈ texts) : WritableAllow (dotPrefix texts) := by
  have each (text : String) (member : text ∈ dotPrefix texts) : text ∈ texts :=
    (dotPrefix_leads dotted).subset member
  refine Or.inr ⟨by simp [dotPrefix], fun text member => decodes.named text (each text member),
    fun member => decodes.descending (each _ member),
    fun text member => decodes.clean text (each text member), ?_, ?_⟩
  · intro last found c ends
    have dot : last = "." := by simpa [dotPrefix] using found.symm
    subst dot
    have chars : c = '.' := by simpa using ends.symm
    subst chars
    decide
  · intro next rest same
    cases texts with
    | nil => cases dotted
    | cons text others =>
      by_cases dot : text = "."
      · simp [dotPrefix, dot] at same
      · simp only [dotPrefix, dot, ne_eq, not_false_eq_true, decide_true,
          List.takeWhile_cons_of_pos, List.cons_append, List.cons.injEq] at same
        exact same.1.elim

theorem not_prefix_of_blank {lead front blank : List String} {last : String}
    (found : lead.getLast? = some last) (ends : endsWithWhitespace last = false)
    (shorter : front.length < lead.length) (blanks : ∀ segment ∈ blank, endsWithWhitespace segment) :
    ¬lead <+: front ++ blank := by
  intro leads
  obtain ⟨above, rfl⟩ := List.getLast?_eq_some_iff.mp found
  rw [List.length_append, List.length_singleton] at shorter
  have reaches : front <+: above ++ [last] :=
    List.prefix_of_prefix_length_le (List.prefix_append front blank) leads (by simp; omega)
  obtain ⟨rest, whole⟩ := reaches
  rw [← whole] at leads
  have inside := (List.prefix_append_right_inj _).mp leads
  have member : last ∈ rest := by
    rcases List.eq_nil_or_concat' rest with rfl | ⟨others, final, rfl⟩
    · have := congrArg List.length whole
      simp at this
      omega
    · rw [← List.append_assoc] at whole
      have same := List.append_inj_right' whole rfl
      simp [List.singleton_inj.mp same]
  have blankLast := blanks last (inside.subset member)
  rw [ends] at blankLast
  cases blankLast

theorem endsWithWhitespace_decoded {segment text : String} (same : asBytes text = percentDecodeBytes segment)
    (blank : endsWithWhitespace segment) : endsWithWhitespace text := by
  unfold endsWithWhitespace at blank ⊢
  cases last : segment.toList.getLast? with
  | none => simp [last] at blank
  | some c =>
    rw [last] at blank
    have white : isWhitespace c := by simpa using blank
    obtain ⟨front, bytes⟩ := percentDecodeBytes_whitespace last white
    rw [getLast?_of_asBytes (same.trans bytes)]
    simpa using white

-- The dots drop out of a path that a handler opens, though the rules are judged with the dots in it.
def dropDots (segments : List String) : List String := segments.filter (· ≠ ".")

theorem endsWithWhitespace_dot : endsWithWhitespace "." = false := by decide

theorem Decodes.blank {segments texts : List String}
    (same : texts.map asBytes = segments.map percentDecodeBytes)
    (blanks : ∀ segment ∈ segments, endsWithWhitespace segment) :
    ∀ text ∈ texts, endsWithWhitespace text := by
  intro text member
  have inside : asBytes text ∈ segments.map percentDecodeBytes := same ▸ List.mem_map_of_mem member
  obtain ⟨segment, here, bytes⟩ := List.mem_map.mp inside
  exact endsWithWhitespace_decoded bytes.symm (blanks segment here)

theorem dropDots_shorter {texts : List String} (dotted : "." ∈ texts) :
    (dropDots texts).length < texts.length :=
  List.length_filter_lt_length_iff_exists.mpr ⟨".", dotted, by simp⟩

abbrev KeepsBlank (segments forms : List String) : Prop :=
  List.Forall₂ (fun segment form => endsWithWhitespace segment → endsWithWhitespace form) segments forms

theorem KeepsBlank.blank {segments forms : List String} (kept : KeepsBlank segments forms)
    (blanks : ∀ segment ∈ segments, endsWithWhitespace segment) :
    ∀ form ∈ forms, endsWithWhitespace form := by
  induction kept with
  | nil => simp
  | cons keeps _ ih =>
    intro form member
    rcases List.mem_cons.mp member with rfl | later
    · exact keeps (blanks _ (by simp))
    · exact ih (fun other inside => blanks other (List.mem_cons_of_mem _ inside)) form later

-- Once a dot has dropped out of the decoded front, the longest allow path for the literal form leads
-- elsewhere.
theorem not_prefix_dropDots {front texts rest forms : List String}
    (same : texts.map asBytes = front.map percentDecodeBytes) (dotted : "." ∈ texts)
    (kept : KeepsBlank rest forms) : ¬writablePrefix (front ++ rest) <+: dropDots texts ++ forms := by
  obtain ⟨blank, whole, blanks⟩ := writablePrefix_split (front ++ rest)
  have undotted {segments texts : List String} (same : texts.map asBytes = segments.map percentDecodeBytes)
      (blanks : ∀ segment ∈ segments, endsWithWhitespace segment) : "." ∉ texts := by
    intro member
    have white := Decodes.blank same blanks "." member
    rw [endsWithWhitespace_dot] at white
    cases white
  rcases List.append_eq_append_iff.mp whole.symm with ⟨tail, inner, outer⟩ | ⟨extra, inner, outer⟩
  · -- the allow path ends inside the decoded front
    rw [inner, List.map_append] at same
    obtain ⟨here, there, rfl, sameHere, sameThere⟩ := List.map_eq_append_iff.mp same
    have blankTail : ∀ segment ∈ tail, endsWithWhitespace segment := fun segment member =>
      blanks segment (by rw [outer]; exact List.mem_append_left _ member)
    have dottedHere : "." ∈ here :=
      (List.mem_append.mp dotted).resolve_right (undotted sameThere blankTail)
    have lengths : here.length = (writablePrefix (front ++ rest)).length := by
      simpa using congrArg List.length sameHere
    have shorter := dropDots_shorter dottedHere
    have nonempty : writablePrefix (front ++ rest) ≠ [] := by
      intro empty
      rw [empty] at lengths
      simp at lengths
      simp [lengths] at dottedHere
    have found := List.getLast?_eq_some_getLast nonempty
    have split : dropDots (here ++ there) ++ forms = dropDots here ++ (dropDots there ++ forms) := by
      simp [dropDots]
    rw [split]
    refine not_prefix_of_blank found (writablePrefix_last found) (by omega) ?_
    intro form member
    rcases List.mem_append.mp member with inside | inside
    · exact Decodes.blank sameThere blankTail form (List.mem_of_mem_filter inside)
    · exact kept.blank (fun segment member =>
        blanks segment (by rw [outer]; exact List.mem_append_right _ member)) form
        inside
  · -- the allow path reaches into what follows
    have lengths : texts.length = front.length := by simpa using congrArg List.length same
    have shorter := dropDots_shorter dotted
    have nonempty : writablePrefix (front ++ rest) ≠ [] := by
      rw [inner]
      rintro empty
      rw [(List.append_eq_nil_iff.mp empty).1] at lengths
      simp at lengths
      simp [lengths] at dotted
    have found := List.getLast?_eq_some_getLast nonempty
    have split : dropDots texts ++ forms =
        (dropDots texts ++ forms.take extra.length) ++ forms.drop extra.length := by simp
    rw [split]
    refine not_prefix_of_blank found (writablePrefix_last found) ?_ ?_
    · rw [inner]
      simp only [List.length_append, List.length_take]
      omega
    · have tail := List.forall₂_drop extra.length kept
      rw [outer, List.drop_left'  rfl] at tail
      exact KeepsBlank.blank tail blanks

-- A group sees and deletes what the literal form leads to, and the decoded form from its first dot on.
def spelledRules (segments texts : List String) : Rules :=
  ⟨[], [], [writablePrefix segments, dotPrefix texts]⟩

section

variable {front rest texts : List String} (plain : ∀ segment ∈ front ++ rest, PlainSegment segment)
  (decodes : Decodes front texts) (dotted : "." ∈ texts)
include plain decodes dotted

theorem spelledRules_writable : (spelledRules (front ++ rest) texts).Writable := by
  refine ⟨by simp [spelledRules], by simp [spelledRules], ?_, by simp [spelledRules], by simp [spelledRules]⟩
  intro path member
  simp only [spelledRules, List.mem_cons, List.not_mem_nil, or_false] at member
  rcases member with rfl | rfl
  · exact writablePrefix_writable plain
  · exact dotPrefix_writable decodes dotted

theorem spelledRules_covers {segments : List String}
    (leads : writablePrefix (front ++ rest) <+: segments ∨ dotPrefix texts <+: segments) :
    DeleteCovered (spelledRules (front ++ rest) texts).config [Rules.group] segments := by
  rw [Rules.deleteCovered_iff (spelledRules_writable plain decodes dotted)]
  refine ⟨by simp, ?_⟩
  rcases leads with literal | decoded
  · exact ⟨_, by simp [spelledRules], literal⟩
  · exact ⟨_, by simp [spelledRules], decoded⟩

theorem spelledRules_visible {segments : List String} (below : segments ≠ [])
    (leads : writablePrefix (front ++ rest) <+: segments ∨ dotPrefix texts <+: segments) :
    (evaluate (spelledRules (front ++ rest) texts).config [Rules.group] segments).isHidden = false := by
  have writable := spelledRules_writable plain decodes dotted
  rw [Rules.visible_iff writable _ _ below]
  exact ⟨Or.inr ((Rules.deleteCovered_iff writable _ _).mp (spelledRules_covers plain decodes dotted leads)),
    by simp [spelledRules]⟩

theorem spelledRules_passes {r : String} (valid : ValidPath r) (whole : pathSegments r = front ++ rest) :
    isPathVisible (spelledRules (front ++ rest) texts).config [Rules.group] r := by
  have nonempty : front ++ rest ≠ [] := by
    intro empty
    have lengths := decodes.length
    rw [(List.append_eq_nil_iff.mp empty).1, List.length_nil, List.length_eq_zero_iff] at lengths
    rw [lengths] at dotted
    cases dotted
  rw [valid.isPathVisible_iff, whole]
  refine ⟨spelledRules_visible plain decodes dotted nonempty (Or.inl (writablePrefix_leads _)),
    fun others there => ?_⟩
  have inside : texts <+: others := by
    rw [← List.prefix_map_iff_of_injective asBytes_injective, there.bytes, decodes.bytes, List.map_append]
    exact List.prefix_append _ _
  refine spelledRules_visible plain decodes dotted (List.ne_nil_of_mem (inside.subset dotted)) (Or.inr ?_)
  exact (dotPrefix_leads dotted).trans inside

theorem spelledRules_hides {forms : List String} (kept : KeepsBlank rest forms) (undotted : "." ∉ forms)
    (remains : dropDots texts ++ forms ≠ []) :
    (evaluate (spelledRules (front ++ rest) texts).config [Rules.group]
      (dropDots texts ++ forms)).isHidden := by
  by_contra visible
  obtain ⟨covered, _⟩ := (Rules.visible_iff (spelledRules_writable plain decodes dotted) _ _ remains).mp
    (by simpa using visible)
  rcases covered with ⟨path, member, _⟩ | ⟨_, path, member, leads⟩
  · cases member
  · simp only [spelledRules, List.mem_cons, List.not_mem_nil, or_false] at member
    rcases member with rfl | rfl
    · exact not_prefix_dropDots decodes.bytes dotted kept leads
    · have dot : "." ∈ dropDots texts ++ forms := leads.subset (by simp [dotPrefix])
      rcases List.mem_append.mp dot with early | late
      · simp [dropDots] at early
      · exact undotted late

end

end Yafm
