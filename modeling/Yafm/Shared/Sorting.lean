import Mathlib.Data.List.Sort

set_option autoImplicit false

namespace Sorting

variable {α : Type} {r : α → α → Prop} [DecidableRel r]

theorem insertionSort_eq_of_perm [Std.Total r] [IsTrans α r] {left right : List α}
    (perm : left.Perm right) (separated : ∀ a ∈ left, ∀ b ∈ left, r a b → r b a → a = b) :
    left.insertionSort r = right.insertionSort r := by
  have sorted (members : List α) := List.pairwise_insertionSort r members
  have same := (List.perm_insertionSort r left).trans (perm.trans (List.perm_insertionSort r right).symm)
  refine List.Perm.eq_of_pairwise ?_ (sorted left) (sorted right) same
  intro a b here there
  have inside := perm.mem_iff.mpr ((List.mem_insertionSort r).mp there)
  exact separated a ((List.mem_insertionSort r).mp here) b inside

theorem pairwise_insertionSort_and [Std.Total r] [IsTrans α r] {S : α → α → Prop}
    (symm : ∀ {a b}, S a b → S b a) {members : List α} (each : members.Pairwise S) :
    (members.insertionSort r).Pairwise fun a b => r a b ∧ S a b :=
  (List.pairwise_insertionSort r members).and ((List.perm_insertionSort r members).symm.pairwise each symm)

theorem filter_insertionSort {p : α → Bool} {members : List α}
    (ties : ∀ a ∈ members, ∀ b ∈ members, p a → p b → r a b) :
    (members.insertionSort r).filter p = members.filter p := by
  have tied : (members.filter p).Pairwise r := by
    rw [List.pairwise_iff_forall_sublist]
    intro a b inside
    obtain ⟨here, pa⟩ := List.mem_filter.mp (inside.subset (by simp : a ∈ [a, b]))
    obtain ⟨there, pb⟩ := List.mem_filter.mp (inside.subset (by simp : b ∈ [a, b]))
    exact ties a here b there pa pb
  have kept := (List.sublist_insertionSort tied List.filter_sublist).filter p
  simp only [List.filter_filter, Bool.and_self] at kept
  have size := ((List.perm_insertionSort r members).filter p).length_eq
  exact (kept.eq_of_length size.symm).symm

theorem eq_of_insertionSort_swap [Std.Total r] [IsTrans α r] {a b : α} {rest : List α}
    (same : (a :: b :: rest).insertionSort r = (b :: a :: rest).insertionSort r) (before : r a b)
    (after : r b a) : a = b := by
  have here : r a a := Trans.trans before after
  have tied : ∀ one two : α, decide (r a one ∧ r one a) → decide (r a two ∧ r two a) → r one two := by
    intro one two first second
    rw [decide_eq_true_eq] at first second
    exact Trans.trans first.2 second.1
  have kept := congrArg (List.filter fun member => r a member ∧ r member a) same
  rw [filter_insertionSort fun one _ two _ => tied one two,
    filter_insertionSort fun one _ two _ => tied one two] at kept
  simp only [List.filter_cons, here, before, after, and_self, decide_true, if_true, List.cons.injEq] at kept
  exact kept.1

end Sorting
