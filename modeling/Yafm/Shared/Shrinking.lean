import Yafm.Shared.Posix

set_option autoImplicit false

namespace Posix

open Text

variable {α : Type} {limit : Option Nat}

-- Each entry is what it was, or it was a file and is gone.
def Node.Shrinks (after before : Node α) : Prop :=
  ∀ path, (after.get path).map Node.kind = (before.get path).map Node.kind ∨
    after.get path = none ∧ ∃ content, before.get path = some (.file content)

theorem Node.Shrinks.refl (node : Node α) : node.Shrinks node := fun _ => .inl rfl

variable {before after : Node α}

theorem Node.Shrinks.missing (shrinks : after.Shrinks before) {path : Path}
    (absent : before.get path = none) : after.get path = none := by
  rcases shrinks path with same | ⟨gone, _⟩
  · rw [absent] at same
    exact Option.map_eq_none_iff.mp same
  · exact gone

theorem Node.Shrinks.dir (shrinks : after.Shrinks before) {path : Path} {entries : List (Name × Node α)}
    (found : before.get path = some (.dir entries)) : ∃ others, after.get path = some (.dir others) := by
  rcases shrinks path with same | ⟨_, content, file⟩
  · rw [found] at same
    obtain ⟨node, there, kind⟩ := Option.map_eq_some_iff.mp same
    cases node with
    | dir others => exact ⟨others, there⟩
    | file | symlink => cases kind
  · rw [found] at file
    cases file

theorem Node.Shrinks.symlink (shrinks : after.Shrinks before) {path : Path} {target : Bytes}
    (found : before.get path = some (.symlink target)) : after.get path = some (.symlink target) := by
  rcases shrinks path with same | ⟨_, content, file⟩
  · rw [found] at same
    obtain ⟨node, there, kind⟩ := Option.map_eq_some_iff.mp same
    cases node with
    | symlink other =>
      cases kind
      exact there
    | file | dir => cases kind
  · rw [found] at file
    cases file

theorem Node.Shrinks.file (shrinks : after.Shrinks before) {path : Path} {content : α}
    (found : after.get path = some (.file content)) : before.get path = some (.file content) := by
  rcases shrinks path with same | ⟨gone, _⟩
  · rw [found] at same
    obtain ⟨node, there, kind⟩ := Option.map_eq_some_iff.mp same.symm
    cases node with
    | file other =>
      cases kind
      exact there
    | symlink | dir => cases kind
  · rw [found] at gone
    cases gone

theorem Node.Shrinks.trans {later : Node α} (second : later.Shrinks after) (first : after.Shrinks before) :
    later.Shrinks before := by
  intro path
  rcases second path with same | ⟨gone, content, file⟩
  · rcases first path with earlier | ⟨gone, file⟩
    · exact .inl (same.trans earlier)
    · rw [gone] at same
      exact .inr ⟨Option.map_eq_none_iff.mp same, file⟩
  · exact .inr ⟨gone, content, first.file file⟩

theorem shrinks_remove {root : Node α} {path : Path} {content : α} (nonempty : path ≠ [])
    (found : root.get path = some (.file content)) : (root.remove path).Shrinks root := by
  intro query
  rw [kind_get_remove nonempty found rfl]
  split
  next same =>
    have gone := kind_get_remove nonempty found rfl query
    rw [if_pos same] at gone
    exact .inr ⟨Option.map_eq_none_iff.mp gone, content, by rw [same, found]⟩
  · exact .inl rfl

theorem names_remove {root : Node α} {path query : Path} {left : List (Name × Node α)}
    (found : (root.remove path).get query = some (.dir left)) :
    ∃ entries, root.get query = some (.dir entries) ∧ (left.map Prod.fst).Sublist (entries.map Prod.fst) := by
  induction path generalizing root query with
  | nil =>
    have same : root.remove [] = root := by cases root <;> rfl
    rw [same] at found
    exact ⟨left, found, .refl _⟩
  | cons name rest ih =>
    cases root with
    | file | symlink => exact ⟨left, found, .refl _⟩
    | dir entries =>
      cases query with
      | nil =>
        refine ⟨entries, rfl, ?_⟩
        cases rest with
        | nil =>
          simp only [Node.remove, Node.get_nil, Option.some.injEq, Node.dir.injEq] at found
          rw [← found]
          exact List.filter_sublist.map _
        | cons next others =>
          simp only [Node.remove, Node.get_nil, Option.some.injEq, Node.dir.injEq] at found
          have kept : left.map Prod.fst = entries.map Prod.fst := by
            rw [← found, List.map_map]
            apply List.map_congr_left
            intro entry _
            simp only [Function.comp_apply]
            split <;> rfl
          rw [kept]
      | cons other below =>
        cases rest with
        | nil =>
          simp only [Node.remove, Node.get, lookup_filter] at found ⊢
          by_cases same : other = name
          · simp [same] at found
          · rw [if_neg same] at found
            exact ⟨left, found, .refl _⟩
        | cons next others =>
          have changed := lookup_map entries (fun child => child.remove (next :: others)) name other
          simp only [Node.remove, Node.get, changed] at found ⊢
          by_cases same : other = name
          · rw [if_pos same] at found
            cases held : lookup entries other with
            | none => simp [held] at found
            | some child =>
              rw [held, Option.map_some] at found
              exact ih found
          · rw [if_neg same] at found
            exact ⟨left, found, .refl _⟩

-- A missing path stays missing, and an entry that is still there is reached again.
def Again (after : Node α) (first second : Except IoError Path) : Prop :=
  (first = .error .notFound → second = .error .notFound) ∧
    ∀ canonical, first = .ok canonical → (after.get canonical).isSome → second = .ok canonical

theorem Again.refl (answer : Except IoError Path) : Again after answer answer :=
  ⟨id, fun _ reached _ => reached⟩

-- A walk that stopped at something else than a missing name promises nothing.
theorem Again.stuck {error : IoError} (other : error ≠ .notFound) (second : Except IoError Path) :
    Again after (.error error) second := by
  constructor
  · intro missing
    cases missing
    exact absurd rfl other
  · intro canonical reached
    cases reached

theorem walkWith_file {root : Node α} {follow : Path → List Component → Except IoError Path}
    {here : Path} {content : α} (found : root.get here = some (.file content)) (step : Component)
    (rest : List Component) :
    walkWith limit root follow here (step :: rest) = .error .notADirectory := by
  cases step <;> simp only [walkWith, found]

theorem walkWith_again (shrinks : after.Shrinks before)
    {follow following : Path → List Component → Except IoError Path}
    (onward : ∀ here todo, Again after (follow here todo) (following here todo)) (todo : List Component)
    (here : Path) :
    Again after (walkWith limit before follow here todo) (walkWith limit after following here todo) := by
  induction todo generalizing here with
  | nil => exact Again.refl _
  | cons step rest ih =>
    cases step with
    | current | parent =>
      simp only [walkWith]
      split
      next entries found =>
        obtain ⟨others, there⟩ := shrinks.dir found
        rw [there]
        exact ih _
      · exact Again.stuck (by decide) _
    | name name =>
      simp only [walkWith]
      split
      next entries found =>
        obtain ⟨others, there⟩ := shrinks.dir found
        have below : before.get (here ++ [name]) = lookup entries name := by rw [Node.get_concat, found]
        have still : after.get (here ++ [name]) = lookup others name := by rw [Node.get_concat, there]
        rw [there]
        dsimp only
        split
        next gone =>
          rw [gone] at below
          rw [← still, shrinks.missing below]
          exact Again.refl _
        next target linked =>
          rw [linked] at below
          rw [← still, shrinks.symlink below]
          dsimp only
          split
          · exact Again.refl _
          · exact onward _ _
        next child plain held =>
          rw [held] at below
          cases gone : lookup others name with
          | none =>
            -- only a file goes away, and nothing is below it
            rw [gone] at still
            obtain ⟨content, file⟩ : ∃ content, child = .file content := by
              rcases shrinks (here ++ [name]) with same | ⟨_, content, file⟩
              · rw [still, below] at same
                cases same
              · rw [below, Option.some.injEq] at file
                exact ⟨content, file⟩
            subst file
            cases rest with
            | nil =>
              constructor
              · intro missing
                cases missing
              · intro canonical reached present
                cases reached
                rw [still] at present
                cases present
            | cons step rest =>
              rw [walkWith_file below]
              exact Again.stuck (by decide) _
          | some node =>
            rw [gone] at still
            split
            next linked => cases linked
            next target linked =>
              cases linked
              rcases shrinks (here ++ [name]) with same | ⟨absent, _⟩
              · rw [still, below, Option.map_some, Option.map_some, Option.some.injEq] at same
                cases child with
                | symlink other => exact absurd rfl (plain other)
                | file | dir => cases same
              · rw [still] at absent
                cases absent
            · exact ih _
      · exact Again.stuck (by decide) _

theorem walk_again (shrinks : after.Shrinks before) (links : Nat) (here : Path) (todo : List Component) :
    Again after (walk limit before links here todo) (walk limit after links here todo) := by
  induction links generalizing here todo with
  | zero => exact walkWith_again shrinks (fun _ _ => Again.refl _) todo here
  | succ links ih => exact walkWith_again shrinks ih todo here

theorem canonicalize_again (shrinks : after.Shrinks before) (path : List Component) :
    Again after (canonicalize limit before path) (canonicalize limit after path) :=
  walk_again shrinks maxLinks [] path

theorem entry_again (shrinks : after.Shrinks before) {path : List Component} {name : Name}
    (missing : entry limit before path name = .error .notFound) :
    entry limit after path name = .error .notFound := by
  have again : Again after (canonicalize limit before path) _ := canonicalize_again shrinks path
  obtain ⟨still, reached⟩ := again
  unfold entry at missing ⊢
  cases walked : canonicalize limit before path with
  | error error =>
    rw [walked, Except.error.injEq] at missing
    rw [walked, missing] at still
    rw [still rfl]
  | ok parent =>
    rw [walked] at missing
    dsimp only at missing
    split at missing
    next entries found =>
      obtain ⟨others, there⟩ := shrinks.dir found
      rw [reached parent walked (by simp [there])]
      dsimp only
      rw [there]
      dsimp only
      split at missing
      · cases missing
      next held =>
        have gone : after.get (parent ++ [name]) = none :=
          shrinks.missing (by rw [Node.get_concat, found]; exact held)
        rw [Node.get_concat, there] at gone
        dsimp only at gone
        rw [gone]
        exact missing
    · cases missing

end Posix
