import Mathlib.Data.List.Basic

set_option autoImplicit false

-- A tree of files seen from outside: which paths are there, and what is at them. Nothing is said about how
-- an entry is reached or stored.

inductive Catalog.Entry (α : Type) where
  | file (content : α)
  | directory

/-- What is at each path; whatever is below a path is below a directory. -/
structure Catalog (ν α : Type) where
  entry : List ν → Option (Catalog.Entry α)
  -- the names that are short enough to be asked for
  admits : ν → Bool
  top : entry [] = some .directory
  below : ∀ path name, entry (path ++ [name]) ≠ none → entry path = some .directory

namespace Catalog

variable {ν α ε : Type}

@[ext] theorem ext {left right : Catalog ν α} (same : ∀ path, left.entry path = right.entry path)
    (alike : ∀ name, left.admits name = right.admits name) : left = right := by
  cases left
  cases right
  congr
  · funext path
    exact same path
  · funext name
    exact alike name

variable (catalog : Catalog ν α)

-- A way down: a name to go to, or a step that stays in a directory.
abbrev Steps (ν : Type) := List (Option ν)

inductive Miss where
  | missing
  | inadmissible
  -- a step from something that is no directory
  | blocked
  deriving DecidableEq

def advance (here : List ν) (step : Option ν) : Except Miss (List ν) :=
  match catalog.entry here with
  | some .directory =>
    match step with
    | none => .ok here
    | some name =>
      if (catalog.entry (here ++ [name])).isSome then .ok (here ++ [name])
      else .error (if catalog.admits name then .missing else .inadmissible)
  | _ => .error .blocked

def descend : List ν → Steps ν → Except Miss (List ν)
  | here, [] => .ok here
  | here, step :: rest => (catalog.advance here step).bind fun next => descend next rest

/-- An entry as it is asked for: spelled one way, or another where there is nothing under the first
spelling. -/
structure Address (ε ν : Type) where
  literal : Steps ν
  decoded : Except ε (Steps ν)

inductive Refusal (ε : Type) where
  | missing
  | blocked
  | undecodable (error : ε)

def Miss.refusal : Miss → Refusal ε
  | .missing => .missing
  | .inadmissible | .blocked => .blocked

def locate (here : List ν) (address : Address ε ν) : Except (Refusal ε) (List ν) :=
  match catalog.descend here address.literal with
  | .ok path => .ok path
  | .error .inadmissible | .error .blocked => .error .blocked
  | .error .missing =>
    match address.decoded with
    | .error error => .error (.undecodable error)
    | .ok steps => (catalog.descend here steps).mapError Miss.refusal

@[simp] theorem descend_single (here : List ν) (step : Option ν) :
    catalog.descend here [step] = catalog.advance here step := by
  rw [descend]
  cases catalog.advance here step <;> rfl

theorem advance_ok {here path : List ν} {step : Option ν} (advanced : catalog.advance here step = .ok path) :
    here <+: path ∧ (catalog.entry path).isSome := by
  unfold advance at advanced
  split at advanced
  next directory =>
    split at advanced
    · cases advanced
      exact ⟨List.prefix_rfl, by simp [directory]⟩
    · split at advanced
      next there =>
        cases advanced
        exact ⟨List.prefix_append _ _, there⟩
      · cases advanced
  · cases advanced

theorem descend_ok {here path : List ν} {steps : Steps ν} (present : (catalog.entry here).isSome)
    (found : catalog.descend here steps = .ok path) : here <+: path ∧ (catalog.entry path).isSome := by
  induction steps generalizing here with
  | nil =>
    cases found
    exact ⟨List.prefix_rfl, present⟩
  | cons step rest ih =>
    rw [descend] at found
    cases advanced : catalog.advance here step with
    | error miss =>
      rw [advanced] at found
      cases found
    | ok next =>
      rw [advanced] at found
      obtain ⟨down, there⟩ := catalog.advance_ok advanced
      obtain ⟨onward, reached⟩ := ih there found
      exact ⟨down.trans onward, reached⟩

theorem locate_ok {here path : List ν} {address : Address ε ν} (present : (catalog.entry here).isSome)
    (found : catalog.locate here address = .ok path) : here <+: path ∧ (catalog.entry path).isSome := by
  unfold locate at found
  split at found
  next reached =>
    cases found
    exact catalog.descend_ok present reached
  · cases found
  · cases found
  · split at found
    · cases found
    next steps _ =>
      cases reached : catalog.descend here steps with
      | error miss =>
        rw [reached] at found
        cases found
      | ok path =>
        rw [reached] at found
        cases found
        exact catalog.descend_ok present reached

variable [DecidableEq ν]

def isFile (path : List ν) : Prop := ∃ content, catalog.entry path = some (.file content)

def erase (path : List ν) (file : catalog.isFile path) : Catalog ν α where
  entry query := if query = path then none else catalog.entry query
  admits := catalog.admits
  top := by
    have other : [] ≠ path := by
      rintro rfl
      obtain ⟨content, found⟩ := file
      rw [catalog.top] at found
      cases found
    rw [if_neg other, catalog.top]
  below query name present := by
    have there : catalog.entry (query ++ [name]) ≠ none := by
      intro absent
      rw [absent] at present
      simp at present
    have directory := catalog.below query name there
    have other : query ≠ path := by
      rintro rfl
      obtain ⟨content, found⟩ := file
      rw [directory] at found
      cases found
    rw [if_neg other, directory]

@[simp] theorem erase_entry {path : List ν} (file : catalog.isFile path) (query : List ν) :
    (catalog.erase path file).entry query = if query = path then none else catalog.entry query := rfl

end Catalog
