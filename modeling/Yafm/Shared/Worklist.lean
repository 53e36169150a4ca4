import Mathlib.Logic.Relation

set_option autoImplicit false

-- Each item that is taken off a stack leaves what it expands to in its place.

namespace Worklist

variable {α : Type} (expand : α → List α)

inductive Visits : List α → List α → Prop
  | done : Visits [] []
  | pop {item : α} {rest visited : List α} (onward : Visits (expand item ++ rest) visited) :
      Visits (item :: rest) (item :: visited)

variable {expand}

theorem Visits.append {front back early late : List α} (first : Visits expand front early)
    (second : Visits expand back late) : Visits expand (front ++ back) (early ++ late) := by
  induction first with
  | done => exact second
  | pop onward ih =>
    rw [List.append_assoc] at ih
    exact .pop ih

theorem Visits.mem_iff {stack visited : List α} (visits : Visits expand stack visited) (item : α) :
    item ∈ visited ↔
      ∃ start ∈ stack, Relation.ReflTransGen (fun above below => below ∈ expand above) start item := by
  induction visits with
  | done => simp
  | @pop top rest visited onward ih =>
    rw [List.mem_cons, ih]
    constructor
    · rintro (rfl | ⟨start, member, leads⟩)
      · exact ⟨item, List.mem_cons_self, .refl⟩
      · rcases List.mem_append.mp member with below | later
        · exact ⟨top, List.mem_cons_self, .head below leads⟩
        · exact ⟨start, List.mem_cons_of_mem _ later, leads⟩
    · rintro ⟨start, member, leads⟩
      rcases List.mem_cons.mp member with rfl | later
      · rcases leads.cases_head with rfl | ⟨next, below, onward⟩
        · exact .inl rfl
        · exact .inr ⟨next, List.mem_append_left _ below, onward⟩
      · exact .inr ⟨start, List.mem_append_right _ later, leads⟩

theorem Visits.pairwise {apart : α → α → Prop} (kind : α → Prop)
    (closed : ∀ above, kind above → ∀ below ∈ expand above, kind below)
    (siblings : ∀ above, kind above → (expand above).Pairwise apart)
    (inherited : ∀ left right, kind left → kind right → apart left right →
      (∀ below ∈ expand left, apart below right) ∧ ∀ below ∈ expand right, apart left below)
    {stack visited : List α} (visits : Visits expand stack visited) (each : ∀ item ∈ stack, kind item)
    (start : stack.Pairwise apart) :
    visited.Pairwise fun earlier later =>
      Relation.TransGen (fun above below => below ∈ expand above) earlier later ∨ apart earlier later := by
  induction visits with
  | done => exact .nil
  | @pop top rest visited onward ih =>
    have good := each top List.mem_cons_self
    obtain ⟨topFirst, rest_apart⟩ := List.pairwise_cons.mp start
    have others : ∀ item ∈ rest, kind item := fun item member => each item (List.mem_cons_of_mem _ member)
    have next : ∀ item ∈ expand top ++ rest, kind item := by
      intro item member
      rcases List.mem_append.mp member with below | later
      · exact closed top good item below
      · exact others item later
    have onwardApart : (expand top ++ rest).Pairwise apart := by
      refine List.pairwise_append.mpr ⟨siblings top good, rest_apart, ?_⟩
      intro below inside other later
      exact (inherited top other good (others other later) (topFirst other later)).1 below inside
    refine List.pairwise_cons.mpr ⟨?_, ih next onwardApart⟩
    intro item member
    obtain ⟨first, standing, leads⟩ := (onward.mem_iff item).mp member
    rcases List.mem_append.mp standing with below | later
    · exact .inl (.head' below leads)
    · right
      have reached : kind item ∧ apart top item := by
        clear member
        induction leads with
        | refl => exact ⟨others first later, topFirst first later⟩
        | tail _ step reached =>
          exact ⟨closed _ reached.1 _ step, (inherited top _ good reached.1 reached.2).2 _ step⟩
      exact reached.2

theorem exists_visits (kind : α → Prop) (size : α → Nat)
    (smaller : ∀ above, kind above → ∀ below ∈ expand above, kind below ∧ size below < size above)
    {stack : List α} (each : ∀ item ∈ stack, kind item) : ∃ visited, Visits expand stack visited := by
  have all (items : List α) (one : ∀ item ∈ items, ∃ visited, Visits expand [item] visited) :
      ∃ visited, Visits expand items visited := by
    induction items with
    | nil => exact ⟨[], .done⟩
    | cons item rest ih =>
      obtain ⟨early, first⟩ := one item List.mem_cons_self
      obtain ⟨late, second⟩ := ih fun other member => one other (List.mem_cons_of_mem _ member)
      exact ⟨early ++ late, first.append second⟩
  have bounded (bound : Nat) : ∀ item, kind item → size item < bound →
      ∃ visited, Visits expand [item] visited := by
    induction bound with
    | zero => exact fun _ _ none => absurd none (Nat.not_lt_zero _)
    | succ bound ih =>
      intro item good within
      obtain ⟨visited, onward⟩ := all (expand item) fun next member =>
        have below := smaller item good next member
        ih next below.1 (by omega)
      exact ⟨item :: visited, .pop (by simpa using onward)⟩
  exact all stack fun item member => bounded _ item (each item member) (Nat.lt_succ_self _)

end Worklist
