import Yafm.Shared.Text

set_option autoImplicit false

namespace Text

def Blank (text : String) : Prop := ∀ c ∈ text.toList, isWhitespace c

instance (text : String) : Decidable (Blank text) :=
  inferInstanceAs (Decidable (∀ c ∈ text.toList, isWhitespace c))

structure Solid (text : String) : Prop where
  first : ∀ c ∈ text.toList.head?, isWhitespace c = false
  last : ∀ c ∈ text.toList.getLast?, isWhitespace c = false

theorem blank_empty : Blank "" := by
  intro c member
  cases member

theorem Blank.append {front back : String} (before : Blank front) (after : Blank back) :
    Blank (front ++ back) := by
  intro c member
  rw [String.toList_append, List.mem_append] at member
  exact member.elim (before c) (after c)

theorem trim_blank {text : String} (blank : Blank text) : trim text = "" := by
  have nothing : text.toList.dropWhile isWhitespace = [] := List.dropWhile_eq_nil_iff.mpr blank
  rw [trim, nothing, List.rdropWhile_nil]

theorem trim_padded {lead core trail : String} (before : Blank lead) (after : Blank trail)
    (solid : Solid core) : trim (lead ++ core ++ trail) = core := by
  have dropped : (lead ++ core ++ trail).toList.dropWhile isWhitespace =
      (core.toList ++ trail.toList).dropWhile isWhitespace := by
    rw [String.toList_append, String.toList_append, List.append_assoc, List.dropWhile_append_of_pos before]
  cases chars : core.toList with
  | nil =>
    have empty : core = "" := String.toList_inj.mp chars
    rw [trim, dropped, chars, List.nil_append, List.dropWhile_eq_nil_iff.mpr after,
      List.rdropWhile_nil, empty]
  | cons c rest =>
    have start : isWhitespace c = false := solid.first c (by simp [chars])
    have kept : (core.toList ++ trail.toList).dropWhile isWhitespace = core.toList ++ trail.toList := by
      rw [chars, List.cons_append, List.dropWhile_cons_of_neg (by simp [start])]
    have backward : (core.toList ++ trail.toList).rdropWhile isWhitespace = core.toList := by
      have reversed : ∀ c ∈ trail.toList.reverse, isWhitespace c :=
        fun c member => after c (List.mem_reverse.mp member)
      rw [List.rdropWhile, List.reverse_append, List.dropWhile_append_of_pos reversed]
      refine List.rdropWhile_eq_self_iff.mpr fun nonempty => ?_
      simp [solid.last _ (List.getLast?_eq_some_getLast nonempty)]
    rw [trim, dropped, kept, backward, String.ofList_toList]

theorem trim_solid (text : String) : Solid (trim text) := by
  have kept := List.rdropWhile_prefix isWhitespace (l := text.toList.dropWhile isWhitespace)
  constructor
  · intro c first
    rw [trim, String.toList_ofList] at first
    obtain ⟨rest, chars⟩ := List.head?_eq_some_iff.mp first
    obtain ⟨tail, whole⟩ := kept
    rw [chars, List.cons_append] at whole
    have nonempty : text.toList.dropWhile isWhitespace ≠ [] := by simp [← whole]
    have start := List.head_dropWhile_not isWhitespace nonempty
    simpa [← whole] using start
  · intro c last
    rw [trim, String.toList_ofList] at last
    have nonempty := List.ne_nil_of_mem (List.mem_of_getLast? last)
    rw [List.getLast?_eq_some_getLast nonempty, Option.mem_some] at last
    subst last
    simpa using List.rdropWhile_last_not isWhitespace (text.toList.dropWhile isWhitespace) nonempty

theorem exists_trim (text : String) :
    ∃ lead trail, text = lead ++ trim text ++ trail ∧ Blank lead ∧ Blank trail := by
  refine ⟨String.ofList (text.toList.takeWhile isWhitespace),
    String.ofList ((text.toList.dropWhile isWhitespace).rtakeWhile isWhitespace), ?_, ?_, ?_⟩
  · apply String.toList_inj.mp
    rw [String.toList_append, String.toList_append, trim]
    simp only [String.toList_ofList]
    rw [List.append_assoc, List.rdropWhile_append_rtakeWhile, List.takeWhile_append_dropWhile]
  · intro c member
    rw [String.toList_ofList] at member
    exact List.mem_takeWhile_imp member
  · intro c member
    rw [String.toList_ofList] at member
    exact List.mem_rtakeWhile_imp member

theorem exists_padding (text : String) :
    ∃ lead core trail, text = lead ++ core ++ trail ∧ trim text = core ∧ Blank lead ∧
    Blank trail ∧ Solid core := by
  obtain ⟨lead, trail, whole, before, after⟩ := exists_trim text
  exact ⟨lead, trim text, trail, whole, rfl, before, after, trim_solid text⟩

theorem trim_eq_empty_iff (text : String) : trim text = "" ↔ Blank text := by
  constructor
  · intro nothing
    obtain ⟨lead, trail, whole, before, after⟩ := exists_trim text
    intro c member
    rw [whole, nothing] at member
    simp only [String.toList_append, List.mem_append] at member
    rcases member with (front | middle) | back
    · exact before c front
    · cases middle
    · exact after c back
  · exact trim_blank

theorem trim_around {lead trail : String} (before : Blank lead) (after : Blank trail) (s : String) :
    trim (lead ++ s ++ trail) = trim s := by
  obtain ⟨front, back, whole, blankFront, blankBack⟩ := exists_trim s
  have padded := trim_padded (before.append blankFront) (blankBack.append after) (trim_solid s)
  rw [← padded]
  conv_lhs => rw [whole]
  simp only [String.append_assoc]

theorem trim_trim (text : String) : trim (trim text) = trim text :=
  trim_eq_self (trim_solid text).first (trim_solid text).last

theorem Blank.clean {separator : Char} {blank : String} (blanks : Blank blank)
    (solid : isWhitespace separator = false) : separator ∉ blank.toList := by
  intro member
  rw [blanks separator member] at solid
  cases solid

theorem exists_first {separator : Char} {s : String} (member : separator ∈ s.toList) :
    ∃ front back, s = front ++ String.ofList [separator] ++ back ∧ separator ∉ front.toList := by
  obtain ⟨front, back, whole, clean⟩ := List.eq_append_cons_of_mem member
  exact ⟨String.ofList front, String.ofList back,
    String.toList_inj.mp (by simp [whole]), by simpa using clean⟩

theorem exists_last {separator : Char} {s : String} (member : separator ∈ s.toList) :
    ∃ front back, s = front ++ String.ofList [separator] ++ back ∧ separator ∉ back.toList := by
  obtain ⟨back, front, whole, clean⟩ := List.eq_append_cons_of_mem (List.mem_reverse.mpr member)
  have chars : s.toList = front.reverse ++ separator :: back.reverse := by
    rw [← List.reverse_reverse s.toList, whole]
    simp
  exact ⟨String.ofList front.reverse, String.ofList back.reverse,
    String.toList_inj.mp (by simp [chars]), by simpa using clean⟩

theorem split_trim {separator : Char} (solid : isWhitespace separator = false) (s : String) :
    (split separator (trim s)).map trim = (split separator s).map trim := by
  have leading {lead : String} (blank : Blank lead) (s : String) :
      (split separator (lead ++ s)).map trim = (split separator s).map trim := by
    have alone (core : String) : trim (lead ++ core) = trim core := by
      have around := trim_around blank blank_empty core
      rwa [String.append_empty] at around
    by_cases member : separator ∈ s.toList
    · obtain ⟨front, back, rfl, clean⟩ := exists_first member
      have both : separator ∉ (lead ++ front).toList := by simp [blank.clean solid, clean]
      rw [← String.append_assoc, ← String.append_assoc, split_append, split_append, split_singleton both,
        split_singleton clean]
      simp [alone]
    · have both : separator ∉ (lead ++ s).toList := by simp [blank.clean solid, member]
      rw [split_singleton both, split_singleton member]
      simp [alone]
  have trailing {trail : String} (blank : Blank trail) (s : String) :
      (split separator (s ++ trail)).map trim = (split separator s).map trim := by
    have alone (core : String) : trim (core ++ trail) = trim core := by
      have around := trim_around blank_empty blank core
      rwa [String.empty_append] at around
    by_cases member : separator ∈ s.toList
    · obtain ⟨front, back, rfl, clean⟩ := exists_last member
      have both : separator ∉ (back ++ trail).toList := by simp [blank.clean solid, clean]
      rw [String.append_assoc, split_append, split_append, split_singleton both, split_singleton clean]
      simp [alone]
    · have both : separator ∉ (s ++ trail).toList := by simp [blank.clean solid, member]
      rw [split_singleton both, split_singleton member]
      simp [alone]
  obtain ⟨lead, trail, whole, before, after⟩ := exists_trim s
  conv_rhs => rw [whole]
  rw [trailing after, leading before]

theorem splitOnce_eq_some {separator : Char} {s front back : String} :
    splitOnce separator s = some (front, back) ↔
      s = front ++ String.ofList [separator] ++ back ∧ separator ∉ front.toList := by
  unfold splitOnce
  constructor
  · intro found
    split at found
    next first next rest parts =>
      cases found
      have whole := join_split separator s
      rw [parts, join_cons_cons] at whole
      exact ⟨whole.symm, mem_split (by rw [parts]; simp)⟩
    · cases found
  · rintro ⟨rfl, clean⟩
    obtain ⟨next, rest, parts⟩ := List.exists_cons_of_ne_nil (split_ne_nil separator back)
    have cut : split separator (front ++ String.ofList [separator] ++ back) = front :: next :: rest := by
      rw [split_append, split_singleton clean, parts, List.singleton_append]
    have whole := join_split separator back
    rw [parts] at whole
    rw [cut]
    simp [whole]

end Text
