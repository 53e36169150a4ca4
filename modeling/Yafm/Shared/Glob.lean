import Mathlib.Algebra.GroupWithZero.Nat
import Mathlib.Algebra.Order.Group.Nat
import Mathlib.Data.List.Basic
import Mathlib.Tactic.Basic

set_option autoImplicit false

namespace Glob

inductive Token (α : Type) where
  | star
  | one
  | literal (value : α)
  deriving DecidableEq, Repr

variable {α β : Type}

/-- The words of a glob: a star stands for any run, `one` for any letter, a literal for itself. -/
inductive Matches : List (Token α) → List α → Prop
  | nil : Matches [] []
  | star {rest : List (Token α)} {tail : List α} (run : List α) (onward : Matches rest tail) :
      Matches (.star :: rest) (run ++ tail)
  | one {rest : List (Token α)} {tail : List α} (value : α) (onward : Matches rest tail) :
      Matches (.one :: rest) (value :: tail)
  | literal {rest : List (Token α)} {tail : List α} (value : α) (onward : Matches rest tail) :
      Matches (.literal value :: rest) (value :: tail)

@[simp] theorem matches_nil (word : List α) : Matches [] word ↔ word = [] := by
  constructor
  · rintro ⟨⟩
    rfl
  · rintro rfl
    exact .nil

theorem matches_star (rest : List (Token α)) (word : List α) :
    Matches (.star :: rest) word ↔ ∃ run tail, word = run ++ tail ∧ Matches rest tail := by
  constructor
  · rintro ⟨⟩
    next tail run onward => exact ⟨run, tail, rfl, onward⟩
  · rintro ⟨run, tail, rfl, onward⟩
    exact .star run onward

theorem matches_one (rest : List (Token α)) (word : List α) :
    Matches (.one :: rest) word ↔ ∃ value tail, word = value :: tail ∧ Matches rest tail := by
  constructor
  · rintro ⟨⟩
    next tail value onward => exact ⟨value, tail, rfl, onward⟩
  · rintro ⟨value, tail, rfl, onward⟩
    exact .one value onward

theorem matches_literal (value : α) (rest : List (Token α)) (word : List α) :
    Matches (.literal value :: rest) word ↔ ∃ tail, word = value :: tail ∧ Matches rest tail := by
  constructor
  · rintro ⟨⟩
    next tail onward => exact ⟨tail, rfl, onward⟩
  · rintro ⟨tail, rfl, onward⟩
    exact .literal value onward

-- What a block of wildcards asks of the size of its run: `few`, or at least that many.
def Fits (few : Nat) (more : Bool) (size : Nat) : Prop := if more then few ≤ size else size = few

@[simp] theorem fits_self (few : Nat) (more : Bool) : Fits few more few := by
  cases more <;> simp [Fits]

def total (weigh : α → Nat) (word : List α) : Nat := (word.map weigh).sum

@[simp] theorem total_nil (weigh : α → Nat) : total weigh [] = 0 := rfl

@[simp] theorem total_cons (weigh : α → Nat) (value : α) (word : List α) :
    total weigh (value :: word) = weigh value + total weigh word := by
  simp [total]

@[simp] theorem total_append (weigh : α → Nat) (front back : List α) :
    total weigh (front ++ back) = total weigh front + total weigh back := by
  simp [total]

@[simp] theorem total_one (word : List α) : total (fun _ => 1) word = word.length := by
  induction word with
  | nil => rfl
  | cons value rest ih =>
    rw [total_cons, ih, List.length_cons, Nat.add_comm]

@[simp] theorem total_replicate (weigh : α → Nat) (count : Nat) (value : α) :
    total weigh (List.replicate count value) = count * weigh value := by
  simp [total]

-- The glob read with a wildcard block open: the block has seen `few` single wildcards, and `more` when it
-- has seen a star. A literal closes the block, whose run weighs what the block asks.
def Gaps (weigh : α → Nat) : Nat → Bool → List (Token α) → List α → Prop
  | few, more, [], word => Fits few more (total weigh word)
  | few, _, .star :: rest, word => Gaps weigh few true rest word
  | few, more, .one :: rest, word => Gaps weigh (few + 1) more rest word
  | few, more, .literal value :: rest, word =>
    ∃ run tail, word = run ++ value :: tail ∧ Fits few more (total weigh run) ∧ Gaps weigh 0 false rest tail

theorem gaps_iff (few : Nat) (more : Bool) (glob : List (Token α)) (word : List α) :
    Gaps (fun _ => 1) few more glob word ↔
      ∃ run tail, word = run ++ tail ∧ Fits few more run.length ∧ Matches glob tail := by
  induction glob generalizing few more word with
  | nil => simp [Gaps]
  | cons token rest ih =>
    cases token with
    | star =>
      simp only [Gaps, ih, matches_star]
      constructor
      · rintro ⟨run, tail, rfl, fits, onward⟩
        -- the block takes what it must, and the star the rest of the run
        have enough : few ≤ run.length := by simpa [Fits] using fits
        have taken : (run.take few).length = few := by simp [enough]
        refine ⟨run.take few, run.drop few ++ tail, ?_, ?_, run.drop few, tail, rfl, onward⟩
        · rw [← List.append_assoc, List.take_append_drop]
        · rw [taken]
          exact fits_self few more
      · rintro ⟨run, _, rfl, fits, other, tail, rfl, onward⟩
        refine ⟨run ++ other, tail, by simp, ?_, onward⟩
        have enough : few ≤ run.length := by
          cases more <;> simp [Fits] at fits <;> omega
        simp only [Fits, if_true, List.length_append]
        omega
    | one =>
      simp only [Gaps, ih, matches_one]
      constructor
      · rintro ⟨run, tail, rfl, fits, onward⟩
        have long : run ≠ [] := by
          rintro rfl
          cases more <;> simp [Fits] at fits
        obtain ⟨front, last, rfl⟩ := (List.eq_nil_or_concat' run).resolve_left long
        refine ⟨front, last :: tail, by simp, ?_, last, tail, rfl, onward⟩
        cases more <;> simpa [Fits] using fits
      · rintro ⟨run, _, rfl, fits, value, tail, rfl, onward⟩
        refine ⟨run ++ [value], tail, by simp, ?_, onward⟩
        cases more <;> simpa [Fits] using fits
    | literal value =>
      have plain (tail : List α) : Gaps (fun _ => 1) 0 false rest tail ↔ Matches rest tail := by
        rw [ih]
        simp [Fits]
      simp only [Gaps, plain, matches_literal, total_one]
      constructor
      · rintro ⟨run, tail, rfl, fits, onward⟩
        exact ⟨run, value :: tail, rfl, fits, tail, rfl, onward⟩
      · rintro ⟨run, _, rfl, fits, tail, rfl, onward⟩
        exact ⟨run, tail, rfl, fits, onward⟩

theorem matches_iff_gaps (glob : List (Token α)) (word : List α) :
    Matches glob word ↔ Gaps (fun _ => 1) 0 false glob word := by
  rw [gaps_iff]
  simp [Fits]

-- A glob over letters as one over the code of each letter: a wildcard stays a single token.
def spell (encode : α → List β) (glob : List (Token α)) : List (Token β) :=
  glob.flatMap fun token => match token with
    | .star => [.star]
    | .one => [.one]
    | .literal value => (encode value).map .literal

/-- A code whose letters are found at their own places only. -/
structure Synchronizing (encode : α → List β) : Prop where
  written : ∀ value, encode value ≠ []
  aligned : ∀ word value front back, word.flatMap encode = front ++ encode value ++ back →
    ∃ run tail, word = run ++ value :: tail ∧ run.flatMap encode = front ∧ tail.flatMap encode = back

theorem gaps_pinned (values : List β) (rest : List (Token β)) (word : List β) :
    Gaps (fun _ => 1) 0 false (values.map .literal ++ rest) word ↔
      ∃ tail, word = values ++ tail ∧ Gaps (fun _ => 1) 0 false rest tail := by
  induction values generalizing word with
  | nil => simp
  | cons value others ih =>
    simp only [List.map_cons, List.cons_append, Gaps, ih, Fits, total_one, Bool.false_eq_true, if_false,
      List.length_eq_zero_iff]
    constructor
    · rintro ⟨_, _, rfl, rfl, tail, rfl, onward⟩
      exact ⟨tail, rfl, onward⟩
    · rintro ⟨tail, rfl, onward⟩
      exact ⟨[], _, rfl, rfl, tail, rfl, onward⟩

theorem gaps_literals {values : List β} (written : values ≠ []) (few : Nat) (more : Bool)
    (rest : List (Token β)) (word : List β) :
    Gaps (fun _ => 1) few more (values.map .literal ++ rest) word ↔
      ∃ front back, word = front ++ values ++ back ∧ Fits few more front.length ∧
        Gaps (fun _ => 1) 0 false rest back := by
  obtain ⟨value, others, rfl⟩ := List.exists_cons_of_ne_nil written
  simp only [List.map_cons, List.cons_append, Gaps, gaps_pinned, total_one]
  constructor
  · rintro ⟨front, _, rfl, fits, back, rfl, onward⟩
    exact ⟨front, back, by simp, fits, onward⟩
  · rintro ⟨front, back, rfl, fits, onward⟩
    exact ⟨front, others ++ back, by simp, fits, back, rfl, onward⟩

theorem length_flatMap (encode : α → List β) (word : List α) :
    (word.flatMap encode).length = total (fun value => (encode value).length) word := by
  induction word with
  | nil => rfl
  | cons value rest ih => simp [ih]

theorem gaps_spell {encode : α → List β} (code : Synchronizing encode) (few : Nat) (more : Bool)
    (glob : List (Token α)) (word : List α) :
    Gaps (fun _ => 1) few more (spell encode glob) (word.flatMap encode) ↔
      Gaps (fun value => (encode value).length) few more glob word := by
  induction glob generalizing few more word with
  | nil => simp only [spell, List.flatMap_nil, Gaps, total_one, length_flatMap]
  | cons token rest ih =>
    cases token with
    | star => exact ih few true word
    | one => exact ih (few + 1) more word
    | literal value =>
      have cut :
          spell encode (.literal value :: rest) = (encode value).map .literal ++ spell encode rest := rfl
      rw [cut, gaps_literals (code.written value)]
      simp only [Gaps]
      constructor
      · rintro ⟨front, back, whole, fits, onward⟩
        obtain ⟨run, tail, rfl, rfl, rfl⟩ := code.aligned word value front back whole
        exact ⟨run, tail, rfl, by rwa [← length_flatMap], (ih 0 false tail).mp onward⟩
      · rintro ⟨run, tail, rfl, fits, onward⟩
        refine ⟨run.flatMap encode, tail.flatMap encode, by simp, ?_, (ih 0 false tail).mpr onward⟩
        rwa [length_flatMap]

theorem matches_literals (values : List β) (rest : List (Token β)) (word : List β) :
    Matches (values.map .literal ++ rest) word ↔ ∃ tail, word = values ++ tail ∧ Matches rest tail := by
  simp only [matches_iff_gaps, gaps_pinned]

def fill (letter : α) (glob : List (Token α)) : List α :=
  glob.map fun token => match token with
    | .star => letter
    | .one => letter
    | .literal value => value

theorem matches_fill {encode : α → List β} {letter : α} {code : β} (short : encode letter = [code])
    (glob : List (Token α)) : Matches (spell encode glob) ((fill letter glob).flatMap encode) := by
  induction glob with
  | nil => exact .nil
  | cons token rest ih =>
    cases token with
    | star =>
      have written : (fill letter (.star :: rest)).flatMap encode =
          encode letter ++ (fill letter rest).flatMap encode := rfl
      rw [written, short]
      exact .star [code] ih
    | one =>
      have written : (fill letter (.one :: rest)).flatMap encode =
          encode letter ++ (fill letter rest).flatMap encode := rfl
      rw [written, short]
      exact .one code ih
    | literal value => exact (matches_literals (encode value) _ _).mpr ⟨_, rfl, ih⟩

-- Matching the code of a word weighs each run by its code, where matching the word counts letters.
theorem matches_spell {encode : α → List β} (code : Synchronizing encode) (glob : List (Token α))
    (word : List α) :
    Matches (spell encode glob) (word.flatMap encode) ↔
      Gaps (fun value => (encode value).length) 0 false glob word := by
  rw [matches_iff_gaps, gaps_spell code]

-- A block that weighing and counting read alike: no single wildcard, or one next to a star.
def steadyBlock (few : Nat) (more : Bool) : Bool := few = 0 || few = 1 && more

def steadyFrom : Nat → Bool → List (Token α) → Bool
  | few, more, [] => steadyBlock few more
  | few, _, .star :: rest => steadyFrom few true rest
  | few, more, .one :: rest => steadyFrom (few + 1) more rest
  | few, more, .literal _ :: rest => steadyBlock few more && steadyFrom 0 false rest

def isSteady (glob : List (Token α)) : Bool := steadyFrom 0 false glob

section

variable {weigh : α → Nat}

-- A crowded block has two single wildcards, a lone one has a single wildcard and no star.

def Crowded : Nat → List (Token α) → Prop
  | few, [] => 2 ≤ few
  | few, .star :: rest => Crowded few rest
  | few, .one :: rest => Crowded (few + 1) rest
  | few, .literal _ :: rest => 2 ≤ few ∨ Crowded 0 rest

def Lone : Nat → Bool → List (Token α) → Prop
  | few, more, [] => few = 1 ∧ more = false
  | few, _, .star :: rest => Lone few true rest
  | few, more, .one :: rest => Lone (few + 1) more rest
  | few, more, .literal _ :: rest => (few = 1 ∧ more = false) ∨ Lone 0 false rest

theorem steadyBlock_false {few : Nat} {more : Bool} (unsteady : steadyBlock few more = false) :
    2 ≤ few ∨ few = 1 ∧ more = false := by
  simp only [steadyBlock, Bool.or_eq_false_iff, Bool.and_eq_false_iff, decide_eq_false_iff_not] at unsteady
  obtain ⟨some, single⟩ := unsteady
  by_cases one : few = 1
  · exact Or.inr ⟨one, single.resolve_left (absurd one)⟩
  · exact Or.inl (by omega)

theorem crowded_or_lone {few : Nat} {more : Bool} {glob : List (Token α)}
    (unsteady : steadyFrom few more glob = false) :
    Crowded few glob ∨ Lone few more glob := by
  induction glob generalizing few more with
  | nil => exact steadyBlock_false unsteady
  | cons token rest ih =>
    cases token with
    | star => exact ih unsteady
    | one => exact ih unsteady
    | literal value =>
      simp only [steadyFrom, Bool.and_eq_false_iff] at unsteady
      rcases unsteady with here | later
      · exact (steadyBlock_false here).imp Or.inl Or.inl
      · exact (ih later).imp Or.inr Or.inr

def least : List (Token α) → Nat
  | [] => 0
  | .star :: rest => least rest
  | .one :: rest => least rest + 1
  | .literal _ :: rest => least rest + 1

theorem least_le {few : Nat} {more : Bool} {glob : List (Token α)} {word : List α}
    (matched : Gaps (fun _ => 1) few more glob word) : few + least glob ≤ word.length := by
  induction glob generalizing few more word with
  | nil =>
    simp only [Gaps, total_one] at matched
    cases more <;> simp [Fits] at matched <;> simp only [least] <;> omega
  | cons token rest ih =>
    cases token with
    | star => exact ih matched
    | one =>
      have bound := @ih (few + 1) more word matched
      simp only [least]
      omega
    | literal value =>
      obtain ⟨run, tail, rfl, fits, onward⟩ := matched
      have later := ih onward
      have here : few ≤ run.length := by
        rw [total_one] at fits
        cases more <;> simp [Fits] at fits <;> omega
      simp only [least, List.length_append, List.length_cons]
      omega

section

variable {light heavy : α} (lightly : weigh light = 1) (heavily : weigh heavy = 2)

include lightly in
theorem exists_least (few : Nat) (more : Bool) (glob : List (Token α)) :
    ∃ word, Gaps weigh few more glob word ∧ word.length = few + least glob := by
  induction glob generalizing few more with
  | nil => exact ⟨List.replicate few light, by simp [Gaps, lightly], by simp [least]⟩
  | cons token rest ih =>
    cases token with
    | star => exact ih few true
    | one =>
      obtain ⟨word, matched, length⟩ := ih (few + 1) more
      exact ⟨word, matched, by simp only [least]; omega⟩
    | literal value =>
      obtain ⟨tail, matched, length⟩ := ih 0 false
      refine ⟨List.replicate few light ++ value :: tail, ⟨_, tail, rfl, by simp [lightly], matched⟩, ?_⟩
      simp only [least, List.length_append, List.length_replicate, List.length_cons]
      omega

include lightly heavily in
-- One heavy letter stands for two of a crowded block.
theorem exists_shorter {few : Nat} (more : Bool) {glob : List (Token α)} (crowded : Crowded few glob) :
    ∃ word, Gaps weigh few more glob word ∧ word.length < few + least glob := by
  have short (few : Nat) (more : Bool) (long : 2 ≤ few) :
      Fits few more (total weigh (heavy :: List.replicate (few - 2) light)) := by
    have weight : total weigh (heavy :: List.replicate (few - 2) light) = few := by
      rw [total_cons, total_replicate, lightly, heavily]
      omega
    rw [weight]
    exact fits_self few more
  induction glob generalizing few more with
  | nil =>
    refine ⟨_, short few more crowded, ?_⟩
    simp only [Crowded] at crowded
    simp only [least, List.length_cons, List.length_replicate]
    omega
  | cons token rest ih =>
    cases token with
    | star => exact ih true crowded
    | one =>
      obtain ⟨word, matched, shorter⟩ := @ih (few + 1) more crowded
      exact ⟨word, matched, by simp only [least]; omega⟩
    | literal value =>
      rcases crowded with here | later
      · obtain ⟨tail, matched, length⟩ := exists_least lightly 0 false rest
        refine ⟨_, ⟨_, tail, rfl, short few more here, matched⟩, ?_⟩
        simp only [least, List.length_append, List.length_replicate, List.length_cons]
        omega
      · obtain ⟨tail, matched, shorter⟩ := ih false later
        refine ⟨List.replicate few light ++ value :: tail, ⟨_, tail, rfl, by simp [lightly], matched⟩, ?_⟩
        simp only [least, List.length_append, List.length_replicate, List.length_cons]
        omega

-- The letters of weight one, in a word and among the literals of a glob.
def lights (weigh : α → Nat) (word : List α) : Nat := word.countP fun value => weigh value = 1

theorem lights_append_cons (weigh : α → Nat) (run tail : List α) (value : α) :
    lights weigh (run ++ value :: tail) = lights weigh run + (lights weigh [value] + lights weigh tail) := by
  have cut : value :: tail = [value] ++ tail := rfl
  simp only [lights, cut, List.countP_append]

def literalLights (weigh : α → Nat) : List (Token α) → Nat
  | [] => 0
  | .star :: rest => literalLights weigh rest
  | .one :: rest => literalLights weigh rest
  | .literal value :: rest => lights weigh [value] + literalLights weigh rest

include heavily in
theorem exists_heavy (few : Nat) (more : Bool) (glob : List (Token α)) :
    ∃ word, Gaps (fun _ => 1) few more glob word ∧ lights weigh word = literalLights weigh glob := by
  have dark (count : Nat) : lights weigh (List.replicate count heavy) = 0 := by
    simp [lights, List.countP_replicate, heavily]
  induction glob generalizing few more with
  | nil => exact ⟨List.replicate few heavy, by simp [Gaps], by rw [dark, literalLights]⟩
  | cons token rest ih =>
    cases token with
    | star => exact ih few true
    | one => exact ih (few + 1) more
    | literal value =>
      obtain ⟨tail, matched, same⟩ := ih 0 false
      refine ⟨List.replicate few heavy ++ value :: tail, ⟨_, tail, rfl, by simp, matched⟩, ?_⟩
      rw [lights_append_cons, dark, same, literalLights, Nat.zero_add]

end

end

section

variable {weigh : α → Nat} (positive : ∀ value, 1 ≤ weigh value)
include positive

theorem length_le_total (word : List α) : word.length ≤ total weigh word := by
  induction word with
  | nil => simp
  | cons value rest ih =>
    have here := positive value
    simp only [List.length_cons, total_cons]
    omega

theorem fits_steady {few : Nat} {more : Bool} (steady : steadyBlock few more) (run : List α) :
    Fits few more (total weigh run) ↔ Fits few more run.length := by
  have bound := length_le_total positive run
  have empty : run.length = 0 → total weigh run = 0 := by
    intro none
    rw [List.length_eq_zero_iff.mp none, total_nil]
  simp only [steadyBlock, Bool.or_eq_true, Bool.and_eq_true, decide_eq_true_eq] at steady
  rcases steady with rfl | ⟨rfl, rfl⟩
  · cases more with
    | true => simp [Fits]
    | false =>
      simp only [Fits, Bool.false_eq_true, if_false]
      omega
  · simp only [Fits, if_true]
    omega

theorem gaps_steady {few : Nat} {more : Bool} {glob : List (Token α)} (steady : steadyFrom few more glob)
    (word : List α) : Gaps (fun _ => 1) few more glob word ↔ Gaps weigh few more glob word := by
  induction glob generalizing few more word with
  | nil =>
    simp only [Gaps, total_one]
    exact (fits_steady positive steady word).symm
  | cons token rest ih =>
    cases token with
    | star => exact ih steady word
    | one => exact ih steady word
    | literal value =>
      simp only [steadyFrom, Bool.and_eq_true] at steady
      simp only [Gaps, total_one, ih steady.2, fits_steady positive steady.1]

theorem lights_of_fits_one {run : List α} (single : Fits 1 false (total weigh run)) :
    0 < lights weigh run := by
  cases run with
  | nil => simp [Fits] at single
  | cons value rest =>
    have here := positive value
    simp only [Fits, Bool.false_eq_true, if_false, total_cons] at single
    have one : weigh value = 1 := by omega
    simp [lights, one]

theorem literalLights_lt {few : Nat} {more : Bool} {glob : List (Token α)} {word : List α}
    (lone : Lone few more glob) (matched : Gaps weigh few more glob word) :
    literalLights weigh glob < lights weigh word := by
  have bound {few : Nat} {more : Bool} {glob : List (Token α)} {word : List α}
      (matched : Gaps weigh few more glob word) : literalLights weigh glob ≤ lights weigh word := by
    induction glob generalizing few more word with
    | nil => exact Nat.zero_le _
    | cons token rest ih =>
      cases token with
      | star => exact ih matched
      | one => exact @ih (few + 1) more word matched
      | literal value =>
        obtain ⟨run, tail, rfl, _, onward⟩ := matched
        have later := ih onward
        rw [literalLights, lights_append_cons]
        omega
  induction glob generalizing few more word with
  | nil =>
    obtain ⟨rfl, rfl⟩ := lone
    exact lights_of_fits_one positive matched
  | cons token rest ih =>
    cases token with
    | star => exact ih lone matched
    | one => exact @ih (few + 1) more word lone matched
    | literal value =>
      obtain ⟨run, tail, rfl, fits, onward⟩ := matched
      rw [literalLights, lights_append_cons]
      rcases lone with ⟨rfl, rfl⟩ | later
      · have extra := lights_of_fits_one positive fits
        have rest := bound onward
        omega
      · have rest := ih later onward
        omega

variable {light heavy : α} (lightly : weigh light = 1) (heavily : weigh heavy = 2)

include lightly heavily in
theorem isSteady_iff (glob : List (Token α)) :
    (∀ word, Gaps (fun _ => 1) 0 false glob word ↔ Gaps weigh 0 false glob word) ↔ isSteady glob := by
  constructor
  · intro agree
    by_contra unsteady
    rcases crowded_or_lone (Bool.eq_false_iff.mpr unsteady) with crowded | lone
    · obtain ⟨word, matched, shorter⟩ := exists_shorter lightly heavily false crowded
      have bound := least_le ((agree word).mpr matched)
      omega
    · obtain ⟨word, matched, same⟩ := exists_heavy heavily 0 false glob
      have bound := literalLights_lt positive lone ((agree word).mp matched)
      omega
  · intro steady word
    exact gaps_steady positive steady word

theorem lights_of_ones {word : List α}
    (agree : Gaps (fun _ => 1) 0 false (List.replicate word.length .one) word ↔
      Gaps weigh 0 false (List.replicate word.length .one) word) : ∀ value ∈ word, weigh value = 1 := by
  have questions (few count : Nat) (weigh : α → Nat) :
      Gaps weigh few false (List.replicate count .one) word ↔ total weigh word = few + count := by
    induction count generalizing few with
    | zero => simp [Gaps, Fits]
    | succ count ih =>
      rw [List.replicate_succ, Gaps, ih]
      omega
  rw [questions, questions, total_one] at agree
  have weight : total weigh word = word.length := by omega
  clear agree questions
  induction word with
  | nil => simp
  | cons value rest ih =>
    have here := positive value
    have bound := length_le_total positive rest
    simp only [total_cons, List.length_cons] at weight
    rw [List.forall_mem_cons]
    exact ⟨by omega, ih (by omega)⟩

end

theorem total_light {weigh : α → Nat} {word : List α} (light : ∀ value ∈ word, weigh value = 1) :
    total weigh word = word.length := by
  rw [← total_one, total, total, List.map_congr_left light]

theorem gaps_light {weigh : α → Nat} (few : Nat) (more : Bool) (glob : List (Token α)) {word : List α}
    (light : ∀ value ∈ word, weigh value = 1) :
    Gaps (fun _ => 1) few more glob word ↔ Gaps weigh few more glob word := by
  induction glob generalizing few more word with
  | nil => simp only [Gaps, total_one, total_light light]
  | cons token rest ih =>
    cases token with
    | star => exact ih few true light
    | one => exact ih (few + 1) more light
    | literal value =>
      simp only [Gaps, total_one]
      refine exists_congr fun run => exists_congr fun tail => and_congr_right fun whole => ?_
      subst whole
      rw [total_light fun other inside => light other (List.mem_append_left _ inside),
        ih 0 false fun other inside => light other (by simp [inside])]

end Glob
