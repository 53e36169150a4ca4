import Yafm.Shared.Posix

set_option autoImplicit false

namespace Posix

open Text

variable {α : Type} {limit : Option Nat}

theorem walk_append {root : Node α} {top : Path} (free : root.SymlinkFree top) (links : Nat)
    {front : List Component} (descending : Component.parent ∉ front) (back : List Component)
    (sub : Path) :
    walk limit root links (top ++ sub) (front ++ back) =
      (walk limit root links (top ++ sub) front).bind fun here => walk limit root links here back := by
  induction front generalizing sub with
  | nil =>
    rw [walk_nil]
    rfl
  | cons step rest ih =>
    rw [List.mem_cons, not_or] at descending
    have onward := ih descending.2
    cases step with
    | parent => exact absurd rfl descending.1
    | current =>
      cases links <;>
      · simp only [walk, List.cons_append, walkWith] at onward ⊢
        split
        · exact onward sub
        · rfl
    | name name =>
      cases directory : root.get (top ++ sub) with
      | none => cases links <;> simp only [walk, List.cons_append, walkWith, directory] <;> rfl
      | some node =>
        cases node with
        | file | symlink => cases links <;> simp only [walk, List.cons_append, walkWith, directory] <;> rfl
        | dir entries =>
          cases held : lookup entries name with
          | none => cases links <;> simp only [walk, List.cons_append, walkWith, directory, held] <;> rfl
          | some child =>
            have found : root.get (top ++ sub ++ [name]) = some child := by
              rw [Node.get_concat, directory]; exact held
            have below : root.get (top ++ (sub ++ [name])) = some child := by rw [← List.append_assoc, found]
            have plain := free.plain below
            rw [List.cons_append, walk_name links _ found plain,
              walk_name links _ found plain, List.append_assoc]
            exact onward (sub ++ [name])

theorem lstat_ok {root : Node α} {path : List Component} {located : Path × Node α}
    (found : lstat limit root path = .ok located) : root.get located.1 = some located.2 := by
  unfold lstat at found
  split at found
  · obtain ⟨_, _, _, _, _, there⟩ := entry_ok found
    exact there
  · exact (stat_ok found).2

theorem lstat_location {root : Node α} {top parent : Path} (free : root.SymlinkFree top)
    (within : top <+: parent) (canonical : root.Canonical parent) {step : Component}
    (descending : step ≠ .parent) :
    (lstat limit root (parent.map .name ++ [step])).map Prod.fst =
      canonicalize limit root (parent.map .name ++ [step]) := by
  rw [canonicalize_append canonical]
  cases step with
  | parent => exact absurd rfl descending
  | current =>
    have last :
        (parent.map Component.name ++ [Component.current]).getLast? = some Component.current := by simp
    rw [lstat, last]
    simp only [stat, canonicalize_append canonical]
    obtain ⟨node, found, _⟩ := canonical
    cases node with
    | dir entries => simp only [maxLinks, walk, walkWith, found]; rfl
    | file | symlink => simp only [maxLinks, walk, walkWith, found]; rfl
  | name name =>
    rw [lstat_name, entry, canonicalize_self canonical]
    obtain ⟨sub, rfl⟩ := within
    cases directory : root.get (top ++ sub) with
    | none => simp only [maxLinks, walk, walkWith, directory]; rfl
    | some node =>
      cases node with
      | file | symlink => simp only [maxLinks, walk, walkWith, directory]; rfl
      | dir entries =>
        cases held : lookup entries name with
        | none => simp only [maxLinks, walk, walkWith, directory, held]; rfl
        | some child =>
          have found : root.get (top ++ sub ++ [name]) = some child := by
            rw [Node.get_concat, directory]; exact held
          have below : root.get (top ++ (sub ++ [name])) = some child := by rw [← List.append_assoc, found]
          rw [walk_name maxLinks _ found (free.plain below), walk_nil]
          simp only [directory, held]
          rfl

def Node.Bare (root : Node α) : Prop := ∀ path node, root.get path = some node → node.isDir

theorem Node.Bare.symlinkFree {root : Node α} (bare : root.Bare) (top : Path) : root.SymlinkFree top := by
  intro path target found
  exact absurd (bare _ _ found) (by simp [Node.isDir])

theorem Node.Bare.get {root : Node α} (bare : root.Bare) {path : Path} (found : (root.get path).isSome) :
    ∃ entries, root.get path = some (.dir entries) := by
  obtain ⟨node, there⟩ := Option.isSome_iff_exists.mp found
  have directory := bare path node there
  cases node with
  | dir entries => exact ⟨entries, there⟩
  | file | symlink => cases directory

theorem walk_bare {root : Node α} (bare : root.Bare) (links : Nat) {todo : List Component}
    (descending : Component.parent ∉ todo) {here : Path} (there : (root.get here).isSome) :
    walk none root links here todo =
      if (root.get (here ++ names todo)).isSome then .ok (here ++ names todo) else .error .notFound := by
  induction todo generalizing here with
  | nil => simp [walk_nil, names, there]
  | cons step rest ih =>
    rw [List.mem_cons, not_or] at descending
    obtain ⟨entries, directory⟩ := bare.get there
    cases step with
    | parent => exact absurd rfl descending.1
    | current =>
      have onward := ih descending.2 there
      have same : names (.current :: rest) = names rest := by simp [names]
      rw [same, ← onward]
      cases links <;> simp only [walk, walkWith, directory]
    | name name =>
      have spelled : here ++ names (.name name :: rest) = here ++ [name] ++ names rest := by simp [names]
      rw [spelled]
      cases held : lookup entries name with
      | none =>
        have missing : root.get (here ++ [name]) = none := by rw [Node.get_concat, directory]; exact held
        have below : root.get (here ++ [name] ++ names rest) = none := by rw [Node.get_append, missing]; rfl
        rw [below]
        cases links <;> simp [walk, walkWith, directory, held]
      | some child =>
        have found : root.get (here ++ [name]) = some child := by rw [Node.get_concat, directory]; exact held
        rw [walk_name links rest found (Node.isSymlink_of_isDir (bare _ _ found))]
        exact ih descending.2 (by rw [found]; rfl)

def fork : Path → Path → Node α
  | [], right => chain right (.dir [])
  | left, [] => chain left (.dir [])
  | first :: left, next :: right =>
    if first = next then .dir [(first, fork left right)]
    else .dir [(first, chain left (.dir [])), (next, chain right (.dir []))]

theorem chain_isSome (path query : Path) :
    ((chain path (.dir []) : Node α).get query).isSome ↔ query <+: path := by
  constructor
  · intro found
    obtain ⟨node, there⟩ := Option.isSome_iff_exists.mp found
    obtain ⟨back, rfl, _⟩ := chain_get_some rfl there
    exact List.prefix_append query back
  · rintro ⟨back, rfl⟩
    rw [chain_get_append]
    rfl

theorem chain_bare (path : Path) : (chain path (.dir []) : Node α).Bare := by
  intro query node found
  obtain ⟨back, _, rfl⟩ := chain_get_some rfl found
  cases back <;> rfl

theorem get_pair {first next : Name} (other : first ≠ next) (left right : Node α) (name : Name)
    (rest : Path) :
    (Node.dir [(first, left), (next, right)]).get (name :: rest) =
      if name = first then left.get rest else if name = next then right.get rest else none := by
  rw [Node.get_cons, Node.get_singleton]
  by_cases here : name = first
  · simp [lookup, here]
  · by_cases there : name = next
    · simp [lookup, there, other, Ne.symm other]
    · simp [lookup, here, there, Ne.symm here, Ne.symm there]

theorem get_single (first : Name) (child : Node α) (name : Name) (rest : Path) :
    (Node.dir [(first, child)]).get (name :: rest) = if name = first then child.get rest else none := by
  rw [Node.get_cons, Node.get_singleton]
  by_cases here : name = first
  · simp [lookup, here]
  · simp [lookup, here, Ne.symm here]

theorem fork_isSome (left right query : Path) :
    ((fork left right : Node α).get query).isSome ↔ query <+: left ∨ query <+: right := by
  induction left, right using fork.induct generalizing query with
  | case1 right =>
    rw [fork, chain_isSome, List.prefix_nil]
    refine ⟨.inr, fun leads => leads.elim (fun root => ?_) id⟩
    rw [root]
    exact List.nil_prefix
  | case2 left named =>
    rw [fork.eq_2 _ named, chain_isSome, List.prefix_nil]
    refine ⟨.inl, fun leads => leads.elim id fun root => ?_⟩
    rw [root]
    exact List.nil_prefix
  | case3 left first right ih =>
    rw [fork, if_pos rfl]
    cases query with
    | nil => simp
    | cons name rest =>
      rw [get_single]
      by_cases here : name = first
      · simp [here, ih rest]
      · simp [here]
  | case4 first left next right other =>
    rw [fork, if_neg other]
    cases query with
    | nil => simp
    | cons name rest =>
      rw [get_pair other]
      by_cases here : name = first
      · have apart : name ≠ next := by rwa [here]
        simp [here, other, chain_isSome]
      · by_cases there : name = next
        · simp [there, Ne.symm other, chain_isSome]
        · simp [here, there]

theorem fork_bare (left right : Path) : (fork left right : Node α).Bare := by
  induction left, right using fork.induct with
  | case1 right => exact chain_bare right
  | case2 left named =>
    rw [fork.eq_2 _ named]
    exact chain_bare left
  | case3 left first right ih =>
    rw [fork, if_pos rfl]
    intro query node found
    cases query with
    | nil =>
      cases found
      rfl
    | cons name rest =>
      rw [get_single] at found
      split at found
      · exact ih rest node found
      · cases found
  | case4 first left next right other =>
    rw [fork, if_neg other]
    intro query node found
    cases query with
    | nil =>
      cases found
      rfl
    | cons name rest =>
      rw [get_pair other] at found
      split at found
      · exact chain_bare left rest node found
      · split at found
        · exact chain_bare right rest node found
        · cases found

-- No link stands at the path or above it, whether or not anything else does.
def Node.Unlinked (root : Node α) (path : Path) : Prop :=
  ∀ front target, front <+: path → root.get front ≠ some (.symlink target)

theorem Node.Canonical.unlinked {root : Node α} {path : Path} (canonical : root.Canonical path) :
    root.Unlinked path := by
  intro front target leads found
  obtain ⟨node, here, plain⟩ := canonical.above leads
  rw [found, Option.some.injEq] at here
  rw [← here] at plain
  cases plain

theorem Node.Unlinked.above {root : Node α} {front path : Path} (unlinked : root.Unlinked path)
    (leads : front <+: path) : root.Unlinked front :=
  fun above target onward => unlinked above target (onward.trans leads)

theorem Node.Unlinked.plain {root node : Node α} {path : Path} (unlinked : root.Unlinked path)
    (found : root.get path = some node) : node.isSymlink = false := by
  cases node with
  | file | dir => rfl
  | symlink target => exact absurd found (unlinked path target (List.prefix_refl path))

theorem Node.Unlinked.canonical {root node : Node α} {path : Path} (unlinked : root.Unlinked path)
    (found : root.get path = some node) : root.Canonical path :=
  ⟨node, found, unlinked.plain found⟩

theorem walk_unlinked {root : Node α} {names here canonical : Path} {links : Nat} {rest : List Component}
    (unlinked : root.Unlinked (here ++ names))
    (reached : walk limit root links here (names.map .name ++ rest) = .ok canonical) :
    walk limit root links (here ++ names) rest = .ok canonical := by
  induction names generalizing here with
  | nil => simpa using reached
  | cons name others ih =>
    rw [List.append_cons] at unlinked ⊢
    cases found : root.get (here ++ [name]) with
    | some node =>
      have plain := (unlinked.above (List.prefix_append _ others)).plain found
      rw [List.map_cons, List.cons_append, walk_name links _ found plain] at reached
      exact ih unlinked reached
    | none =>
      -- nothing to step to: the walk stops here
      rw [Node.get_concat] at found
      cases links <;>
      · simp only [walk, List.map_cons, List.cons_append, walkWith] at reached
        split at reached
        next entries directory =>
          simp only [directory] at found
          simp [found] at reached
        · cases reached

theorem canonicalize_unlinked_append {root : Node α} {path canonical : Path} {rest : List Component}
    (unlinked : root.Unlinked path)
    (reached : canonicalize limit root (path.map .name ++ rest) = .ok canonical) :
    walk limit root maxLinks path rest = .ok canonical := by
  rw [← List.nil_append path] at unlinked ⊢
  exact walk_unlinked unlinked reached

theorem canonicalize_unlinked {root : Node α} {path canonical : Path} (unlinked : root.Unlinked path)
    (reached : canonicalize limit root (path.map .name) = .ok canonical) : canonical = path := by
  rw [← List.append_nil (path.map _)] at reached
  have walked := canonicalize_unlinked_append unlinked reached
  rw [walk_nil, Except.ok.injEq] at walked
  exact walked.symm

theorem stat_unlinked {root : Node α} {path : Path} {located : Path × Node α}
    (unlinked : root.Unlinked path) (found : stat limit root (path.map .name) = .ok located) :
    located.1 = path ∧ root.get path = some located.2 := by
  obtain ⟨reached, present⟩ := stat_ok found
  have same := canonicalize_unlinked unlinked reached
  rw [same] at present
  exact ⟨same, present⟩

theorem lstat_dot {root : Node α} {path : Path} {located : Path × Node α} (unlinked : root.Unlinked path)
    (found : lstat limit root (path.map .name ++ [.current]) = .ok located) : located.2.isDir := by
  simp only [lstat, List.getLast?_concat] at found
  obtain ⟨reached, present⟩ := stat_ok found
  have walked := canonicalize_unlinked_append unlinked reached
  simp only [maxLinks, walk, walkWith] at walked
  split at walked
  next entries directory =>
    cases walked
    rw [directory, Option.some.injEq] at present
    rw [← present]
    rfl
  · cases walked

theorem entry_unlinked {root : Node α} {parent : Path} {name : Name} {located : Path × Node α}
    (unlinked : root.Unlinked parent) (found : entry limit root (parent.map .name) name = .ok located) :
    located.1 = parent ++ [name] ∧ root.get (parent ++ [name]) = some located.2 := by
  obtain ⟨above, entries, reached, directory, place, present⟩ := entry_ok found
  rw [canonicalize_unlinked unlinked reached] at place
  rw [place] at present
  exact ⟨place, present⟩

-- Whatever else changed, no link stands where there was none.
def Node.LinksWithin (after before : Node α) : Prop :=
  ∀ path, (∃ target, after.get path = some (.symlink target)) →
  ∃ target, before.get path = some (.symlink target)

theorem Node.Unlinked.later {before after : Node α} {path : Path} (unlinked : before.Unlinked path)
    (within : after.LinksWithin before) : after.Unlinked path := by
  intro front target leads found
  obtain ⟨other, there⟩ := within front ⟨target, found⟩
  exact unlinked front other leads there

theorem linksWithin_remove {root leaf : Node α} {path : Path} (nonempty : path ≠ [])
    (found : root.get path = some leaf) (notDir : leaf.isDir = false) :
    (root.remove path).LinksWithin root := by
  rintro query ⟨target, held⟩
  have kinds := kind_get_remove nonempty found notDir query
  rw [held, Option.map_some] at kinds
  split at kinds
  · cases kinds
  · cases there : root.get query with
    | none =>
      rw [there] at kinds
      cases kinds
    | some node =>
      rw [there, Option.map_some, Option.some.injEq] at kinds
      cases node with
      | file | dir => cases kinds
      | symlink other => exact ⟨other, rfl⟩

end Posix
