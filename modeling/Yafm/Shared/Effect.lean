import Mathlib.Tactic.Basic

set_option autoImplicit false

-- A program is a value, or one operation and what to do with its answer. Its meaning is chosen later, by a
-- function that answers each operation from a state.

namespace Effect

inductive Program {Op : Type} (Answer : Op → Type) (α : Type) where
  | pure (value : α)
  | perform (op : Op) (next : Answer op → Program Answer α)

variable {Op State : Type} {Answer : Op → Type} {α β ε : Type}

namespace Program

def bind : Program Answer α → (α → Program Answer β) → Program Answer β
  | .pure value, rest => rest value
  | .perform op next, rest => .perform op fun answer => (next answer).bind rest

instance : Monad (Program Answer) where
  pure := .pure
  bind := .bind

theorem bind_bind {γ : Type} (program : Program Answer α) (next : α → Program Answer β)
    (last : β → Program Answer γ) :
    (program.bind next).bind last = program.bind fun value => (next value).bind last := by
  induction program with
  | pure value => rfl
  | perform op rest ih => exact congrArg (perform op) (funext ih)

def call (op : Op) : Program Answer (Answer op) := .perform op .pure

def run (answer : (op : Op) → State → Answer op × State) : Program Answer α → State → α × State
  | .pure value, state => (value, state)
  | .perform op next, state => (next (answer op state).1).run answer (answer op state).2

def after (answer : (op : Op) → State → Answer op × State) :
    Nat → Program Answer α → State → Program Answer α × State
  | 0, program, state => (program, state)
  | _ + 1, .pure value, state => (.pure value, state)
  | count + 1, .perform op next, state => (next (answer op state).1).after answer count (answer op state).2

def Performs : Program Answer α → Prop
  | .pure _ => False
  | .perform _ _ => True

def Only (allowed : Op → Prop) : Program Answer α → Prop
  | .pure _ => True
  | .perform op next => allowed op ∧ ∀ answer, (next answer).Only allowed

def Reaches (wanted : Op → Prop) : Program Answer α → Prop
  | .pure _ => False
  | .perform op next => wanted op ∨ ∃ answer, (next answer).Reaches wanted

section

variable {Larger : Type} {Answers : Larger → Type} (inject : Op → Larger)
  (back : ∀ op, Answers (inject op) → Answer op)

def embed : Program Answer α → Program Answers α
  | .pure value => .pure value
  | .perform op next => .perform (inject op) fun answer => (next (back op answer)).embed

theorem reaches_embed {wanted : Larger → Prop} (every : ∀ op, wanted (inject op))
    (program : Program Answer α) :
    (program.embed inject back).Reaches wanted ↔ program.Performs := by
  cases program with
  | pure value => exact Iff.rfl
  | perform op next => exact iff_of_true (.inl (every op)) trivial

theorem only_embed {allowed : Larger → Prop} (every : ∀ op, allowed (inject op))
    (program : Program Answer α) : (program.embed inject back).Only allowed := by
  induction program with
  | pure value => trivial
  | perform op next ih => exact ⟨every op, fun answer => ih _⟩

theorem not_reaches_embed {wanted : Larger → Prop} (other : ∀ op, ¬wanted (inject op))
    (program : Program Answer α) : ¬(program.embed inject back).Reaches wanted := by
  induction program with
  | pure value => exact id
  | perform op next ih =>
    rintro (here | ⟨answer, later⟩)
    · exact other op here
    · exact ih _ later

end

@[simp] theorem not_reaches_pure (wanted : Op → Prop) (value : α) :
    ¬(Pure.pure value : Program Answer α).Reaches wanted := id

theorem reaches_bind {wanted : Op → Prop} {program : Program Answer α} {rest : α → Program Answer β}
    (quiet : ∀ value, ¬(rest value).Reaches wanted) :
    (program >>= rest).Reaches wanted ↔ program.Reaches wanted := by
  change (program.bind rest).Reaches wanted ↔ _
  induction program with
  | pure value => exact iff_of_false (quiet value) id
  | perform op next ih => simp only [bind, Reaches, ih]

theorem only_of_quiet {wanted : Op → Prop} {program : Program Answer α} (quiet : ¬program.Reaches wanted) :
    program.Only fun op => ¬wanted op := by
  induction program with
  | pure value => trivial
  | perform op next ih =>
    constructor
    · intro here
      exact quiet (.inl here)
    · intro answer
      apply ih answer
      intro later
      exact quiet (.inr ⟨answer, later⟩)

attribute [irreducible] Reaches

-- What the program can come to when each operation may be answered by anything the relation admits.
def Yields (reply : (op : Op) → Answer op → Prop) : Program Answer α → α → Prop
  | .pure value, result => value = result
  | .perform op next, result => ∃ answer, reply op answer ∧ (next answer).Yields reply result

theorem yields_iff_run (reply : (op : Op) → Answer op) (program : Program Answer α) (value : α)
    (state : State) :
    program.Yields (fun op answer => answer = reply op) value ↔
      program.run (fun op state => (reply op, state)) state = (value, state) := by
  induction program with
  | pure result =>
    rw [Yields, run, Prod.mk.injEq]
    exact (and_iff_left rfl).symm
  | perform op next ih =>
    rw [Yields, run, ← ih (reply op)]
    exact exists_eq_left

theorem exists_yields (reply : (op : Op) → Answer op) (program : Program Answer α) :
    ∃ value, program.Yields (fun op answer => answer = reply op) value := by
  induction program with
  | pure value => exact ⟨value, rfl⟩
  | perform op next ih =>
    obtain ⟨value, yields⟩ := ih (reply op)
    exact ⟨value, reply op, rfl, yields⟩

theorem yields_bind (reply : (op : Op) → Answer op → Prop) (program : Program Answer α)
    (rest : α → Program Answer β) (result : β) :
    (program >>= rest).Yields reply result ↔
      ∃ value, program.Yields reply value ∧ (rest value).Yields reply result := by
  change (program.bind rest).Yields reply result ↔ _
  induction program with
  | pure value => simp [bind, Yields]
  | perform op next ih =>
    simp only [bind, Yields, ih]
    constructor
    · rintro ⟨answer, admitted, value, first, second⟩
      exact ⟨value, ⟨answer, admitted, first⟩, second⟩
    · rintro ⟨value, ⟨answer, admitted, first⟩, second⟩
      exact ⟨answer, admitted, value, first, second⟩

def Ends (good : α → Prop) : Program Answer α → Prop
  | .pure value => good value
  | .perform _ next => ∀ answer, (next answer).Ends good

@[simp] theorem ends_pure {good : α → Prop} {value : α} :
    (Pure.pure value : Program Answer α).Ends good ↔ good value :=
  Iff.rfl

theorem ends_bind {good : β → Prop} {program : Program Answer α} {rest : α → Program Answer β} :
    (program >>= rest).Ends good ↔ program.Ends fun value => (rest value).Ends good := by
  change (program.bind rest).Ends good ↔ _
  induction program with
  | pure value => exact Iff.rfl
  | perform op next ih => simp only [bind, Ends, ih]

theorem Ends.mono {good better : α → Prop} {program : Program Answer α} (ends : program.Ends good)
    (implies : ∀ value, good value → better value) : program.Ends better := by
  induction program with
  | pure value => exact implies value ends
  | perform op next ih => exact fun answer => ih answer (ends answer)

theorem ends_embed {Larger : Type} {Answers : Larger → Type} {inject : Op → Larger}
    {back : ∀ op, Answers (inject op) → Answer op} {good : α → Prop} {program : Program Answer α}
    (ends : program.Ends good) : (program.embed inject back).Ends good := by
  induction program with
  | pure value => exact ends
  | perform op next ih => exact fun answer => ih _ (ends _)

theorem ends_any (program : Program Answer α) {good : α → Prop} (every : ∀ value, good value) :
    program.Ends good := by
  induction program with
  | pure value => exact every value
  | perform op next ih => exact fun answer => ih answer

theorem Ends.run {good : α → Prop} {program : Program Answer α} (ends : program.Ends good)
    (answer : (op : Op) → State → Answer op × State) (state : State) : good (program.run answer state).1 := by
  induction program generalizing state with
  | pure value => exact ends
  | perform op next ih => exact ih _ (ends _) _

attribute [irreducible] Ends

variable (answer : (op : Op) → State → Answer op × State)

@[simp] theorem run_pure (value : α) (state : State) :
    (Pure.pure value : Program Answer α).run answer state = (value, state) := rfl

-- Beside the state of the program there may be more.
theorem run_embed_beside {Larger Wide : Type} {Answers : Larger → Type} {inject : Op → Larger}
    {back : ∀ op, Answers (inject op) → Answer op} {outer : (op : Larger) → Wide → Answers op × Wide}
    (lift : State → Wide)
    (same : ∀ op state, (back op (outer (inject op) (lift state)).1, (outer (inject op) (lift state)).2) =
      ((answer op state).1, lift (answer op state).2))
    (program : Program Answer α) (state : State) :
    (program.embed inject back).run outer (lift state) =
      ((program.run answer state).1, lift (program.run answer state).2) := by
  induction program generalizing state with
  | pure value => rfl
  | perform op next ih =>
    obtain ⟨value, kept⟩ := Prod.mk.inj (same op state)
    simp only [embed, run, value, kept]
    exact ih _ _

theorem run_embed {Larger : Type} {Answers : Larger → Type} {inject : Op → Larger}
    {back : ∀ op, Answers (inject op) → Answer op} {outer : (op : Larger) → State → Answers op × State}
    (same : ∀ op state, answer op state = (back op (outer (inject op) state).1, (outer (inject op) state).2))
    (program : Program Answer α) (state : State) :
    (program.embed inject back).run outer state = program.run answer state := by
  induction program generalizing state with
  | pure value => rfl
  | perform op next ih =>
    simp only [embed, run, same]
    exact ih _ _

theorem run_bind (program : Program Answer α) (rest : α → Program Answer β) (state : State) :
    (program >>= rest).run answer state =
      (rest (program.run answer state).1).run answer (program.run answer state).2 := by
  change (program.bind rest).run answer state = _
  induction program generalizing state with
  | pure value => rfl
  | perform op next ih => exact ih _ _

@[simp] theorem run_call (op : Op) (state : State) : (call op).run answer state = answer op state := rfl

@[simp] theorem only_pure (allowed : Op → Prop) (value : α) :
    (Pure.pure value : Program Answer α).Only allowed := trivial

theorem only_bind {allowed : Op → Prop} {program : Program Answer α} {rest : α → Program Answer β}
    (first : program.Only allowed) (second : ∀ value, (rest value).Only allowed) :
    (program >>= rest).Only allowed := by
  change (program.bind rest).Only allowed
  induction program with
  | pure value => exact second value
  | perform op next ih => exact ⟨first.1, fun answer => ih answer (first.2 answer)⟩

theorem only_call {allowed : Op → Prop} {op : Op} (permitted : allowed op) :
    (call op : Program Answer (Answer op)).Only allowed := ⟨permitted, fun _ => trivial⟩

theorem run_state {allowed : Op → Prop} (reads : ∀ op state, allowed op → (answer op state).2 = state)
    {program : Program Answer α} (only : program.Only allowed) (state : State) :
    (program.run answer state).2 = state := by
  induction program generalizing state with
  | pure value => rfl
  | perform op next ih =>
    simp only [run]
    rw [ih _ (only.2 _), reads op state only.1]

theorem run_congr {allowed : Op → Prop} {answer other : (op : Op) → State → Answer op × State}
    (agree : ∀ op, allowed op → answer op = other op) {program : Program Answer α}
    (only : program.Only allowed) (state : State) :
    program.run answer state = program.run other state := by
  induction program generalizing state with
  | pure value => rfl
  | perform op next ih =>
    simp only [run]
    rw [agree op only.1, ih _ (only.2 _)]

end Program

abbrev Fallible (Answer : Op → Type) (ε α : Type) := ExceptT ε (Program Answer) α

namespace Fallible

variable (answer : (op : Op) → State → Answer op × State)

def run (program : Fallible Answer ε α) (state : State) : Except ε α × State :=
  Program.run answer (ExceptT.run program) state

def call (op : Op) : Fallible Answer ε (Answer op) := ExceptT.lift (Program.call op)

def ofExcept (outcome : Except ε α) : Fallible Answer ε α :=
  match outcome with
  | .ok value => pure value
  | .error error => throw error

def Performs (program : Fallible Answer ε α) : Prop := Program.Performs (ExceptT.run program)

def Steps (program : Fallible Answer ε α) (op : Op) (answer : Answer op) (after : Fallible Answer ε α) :
    Prop :=
  ∃ next, ExceptT.run program = .perform op next ∧ next answer = ExceptT.run after

def Only (allowed : Op → Prop) (program : Fallible Answer ε α) : Prop :=
  Program.Only allowed (ExceptT.run program)

def Yields (reply : (op : Op) → Answer op → Prop) (program : Fallible Answer ε α) (outcome : Except ε α) :
    Prop :=
  Program.Yields reply (ExceptT.run program) outcome

section

variable (reply : (op : Op) → Answer op → Prop)

@[simp] theorem yields_pure (value : α) (outcome : Except ε α) :
    (pure value : Fallible Answer ε α).Yields reply outcome ↔ .ok value = outcome := Iff.rfl

@[simp] theorem yields_throw (error : ε) (outcome : Except ε α) :
    (throw error : Fallible Answer ε α).Yields reply outcome ↔ .error error = outcome := Iff.rfl

@[simp] theorem yields_call (op : Op) (result : Answer op) :
    (call op : Fallible Answer ε (Answer op)).Yields reply (.ok result) ↔ reply op result := by
  change (∃ answer, reply op answer ∧ Except.ok answer = Except.ok result) ↔ _
  simp

@[simp] theorem yields_ofExcept (outcome result : Except ε α) :
    (ofExcept outcome : Fallible Answer ε α).Yields reply result ↔ outcome = result := by
  cases outcome <;> exact Iff.rfl

theorem yields_bind_ok (program : Fallible Answer ε α) (rest : α → Fallible Answer ε β) (result : β) :
    (program >>= rest).Yields reply (.ok result) ↔
      ∃ value, program.Yields reply (.ok value) ∧ (rest value).Yields reply (.ok result) := by
  change Program.Yields reply (ExceptT.run program >>= _) _ ↔ _
  rw [Program.yields_bind]
  constructor
  · rintro ⟨outcome, first, second⟩
    cases outcome with
    | ok value => exact ⟨value, first, second⟩
    | error error => cases second
  · rintro ⟨value, first, second⟩
    exact ⟨.ok value, first, second⟩

end

theorem exists_yields (reply : (op : Op) → Answer op) (program : Fallible Answer ε α) :
    ∃ outcome, program.Yields (fun op answer => answer = reply op) outcome :=
  Program.exists_yields reply (ExceptT.run program)

theorem bind_bind {γ : Type} (program : Fallible Answer ε α) (next : α → Fallible Answer ε β)
    (last : β → Fallible Answer ε γ) :
    (program >>= next) >>= last = program >>= fun value => next value >>= last := by
  refine (Program.bind_bind (ExceptT.run program) _ _).trans
    (congrArg (Program.bind _) (funext fun outcome => ?_))
  cases outcome with
  | ok value => rfl
  | error error => rfl

theorem yields_unique {reply : (op : Op) → Answer op} {program : Fallible Answer ε α}
    {first second : Except ε α} (one : program.Yields (fun op answer => answer = reply op) first)
    (other : program.Yields (fun op answer => answer = reply op) second) : first = second := by
  have left := (Program.yields_iff_run reply (ExceptT.run program) first ()).mp one
  have right := (Program.yields_iff_run reply (ExceptT.run program) second ()).mp other
  exact (Prod.ext_iff.mp (left.symm.trans right)).1

theorem exists_outcome (holds : Except ε α → Prop) :
    (∃ outcome, holds outcome) ↔ (∃ value, holds (.ok value)) ∨ ∃ error, holds (.error error) := by
  constructor
  · rintro ⟨value | error, here⟩
    · exact .inr ⟨_, here⟩
    · exact .inl ⟨_, here⟩
  · rintro (⟨value, here⟩ | ⟨error, here⟩)
    · exact ⟨_, here⟩
    · exact ⟨_, here⟩

theorem yields_bind (reply : (op : Op) → Answer op → Prop) (program : Fallible Answer ε α)
    (rest : α → Fallible Answer ε β) (outcome : Except ε β) :
    (program >>= rest).Yields reply outcome ↔
      (∃ value, program.Yields reply (.ok value) ∧ (rest value).Yields reply outcome) ∨
        ∃ error, program.Yields reply (.error error) ∧ .error error = outcome := by
  change Program.Yields reply (ExceptT.run program >>= _) _ ↔ _
  rw [Program.yields_bind, exists_outcome]
  exact Iff.rfl

theorem yields_tryCatch (reply : (op : Op) → Answer op → Prop) (program : Fallible Answer ε α)
    (handler : ε → Fallible Answer ε α) (outcome : Except ε α) :
    (tryCatch program handler).Yields reply outcome ↔
      (∃ value, program.Yields reply (.ok value) ∧ .ok value = outcome) ∨
        ∃ error, program.Yields reply (.error error) ∧ (handler error).Yields reply outcome := by
  change Program.Yields reply (ExceptT.run program >>= _) _ ↔ _
  rw [Program.yields_bind, exists_outcome]
  exact Iff.rfl

theorem yields_iff_run (reply : (op : Op) → Answer op) (program : Fallible Answer ε α) (outcome : Except ε α)
    (state : State) :
    program.Yields (fun op answer => answer = reply op) outcome ↔
      Program.run (fun op state => (reply op, state)) (ExceptT.run program) state = (outcome, state) :=
  Program.yields_iff_run reply (ExceptT.run program) outcome state

-- a flow is a long term, and only the rules above should take it apart
attribute [irreducible] Yields

def Ends (good : α → Prop) (program : Fallible Answer ε α) : Prop :=
  Program.Ends (fun outcome : Except ε α => ∀ value, outcome = .ok value → good value) (ExceptT.run program)

@[simp] theorem ends_pure {good : α → Prop} {value : α} :
    (pure value : Fallible Answer ε α).Ends good ↔ good value := by
  change Program.Ends _ (Pure.pure (.ok value : Except ε α) : Program Answer _) ↔ _
  simp

@[simp] theorem ends_throw (good : α → Prop) (error : ε) : (throw error : Fallible Answer ε α).Ends good := by
  change Program.Ends _ (Pure.pure (.error error : Except ε α) : Program Answer _)
  simp

theorem Ends.bind {good : α → Prop} {better : β → Prop} {program : Fallible Answer ε α}
    {rest : α → Fallible Answer ε β} (ends : program.Ends good)
    (next : ∀ value, good value → (rest value).Ends better) : (program >>= rest).Ends better := by
  change Program.Ends _ (ExceptT.run program >>= _)
  apply Program.ends_bind.mpr
  apply Program.Ends.mono ends
  intro outcome reached
  cases outcome with
  | ok value => exact next value (reached value rfl)
  | error error => exact ends_throw better error

theorem ends_any (program : Fallible Answer ε α) {good : α → Prop} (every : ∀ value, good value) :
    program.Ends good :=
  Program.ends_any _ fun _ value _ => every value

theorem ends_bind {good : β → Prop} {program : Fallible Answer ε α} {rest : α → Fallible Answer ε β}
    (ends : ∀ value, (rest value).Ends good) : (program >>= rest).Ends good := by
  have any : program.Ends fun _ => True := ends_any program fun _ => trivial
  exact any.bind fun value _ => ends value

theorem Ends.outcomes {good : α → Prop} {program : Fallible Answer ε α} (ends : program.Ends good) :
    Program.Ends (fun outcome : Except ε α => ∀ value, outcome = .ok value → good value)
      (ExceptT.run program) := ends

attribute [irreducible] Ends

@[simp] theorem run_pure (value : α) (state : State) :
    run answer (pure value : Fallible Answer ε α) state = (.ok value, state) := rfl

@[simp] theorem run_throw (error : ε) (state : State) :
    run answer (throw error : Fallible Answer ε α) state = (.error error, state) := rfl

@[simp] theorem run_call (op : Op) (state : State) :
    run answer (call op : Fallible Answer ε (Answer op)) state =
      (.ok (answer op state).1, (answer op state).2) := rfl

@[simp] theorem run_ofExcept (outcome : Except ε α) (state : State) :
    run answer (ofExcept outcome : Fallible Answer ε α) state = (outcome, state) := by
  cases outcome <;> rfl

theorem run_bind (program : Fallible Answer ε α) (rest : α → Fallible Answer ε β) (state : State) :
    run answer (program >>= rest) state =
      match run answer program state with
      | (.ok value, after) => run answer (rest value) after
      | (.error error, after) => (.error error, after) := by
  change Program.run answer (ExceptT.run program >>= _) state = _
  rw [Program.run_bind]
  unfold run
  rcases Program.run answer (ExceptT.run program) state with ⟨outcome, after⟩
  cases outcome <;> rfl

theorem run_bind_ok {program : Fallible Answer ε α} {rest : α → Fallible Answer ε β}
    {state final : State} {result : β} (ran : run answer (program >>= rest) state = (.ok result, final)) :
    ∃ value middle, run answer program state = (.ok value, middle) ∧
      run answer (rest value) middle = (.ok result, final) := by
  rw [run_bind] at ran
  split at ran
  next value middle first => exact ⟨value, middle, first, ran⟩
  next => cases ran

theorem only_bind {allowed : Op → Prop} {program : Fallible Answer ε α}
    {rest : α → Fallible Answer ε β} (first : program.Only allowed)
    (second : ∀ value, (rest value).Only allowed) : (program >>= rest).Only allowed := by
  apply Program.only_bind first
  intro outcome
  cases outcome with
  | ok value => exact second value
  | error error => exact Program.only_pure allowed _

@[simp] theorem only_pure (allowed : Op → Prop) (value : α) :
    (pure value : Fallible Answer ε α).Only allowed := trivial

@[simp] theorem only_throw (allowed : Op → Prop) (error : ε) :
    (throw error : Fallible Answer ε α).Only allowed := trivial

@[simp] theorem only_ofExcept (allowed : Op → Prop) (outcome : Except ε α) :
    (ofExcept outcome : Fallible Answer ε α).Only allowed := by
  cases outcome <;> trivial

theorem only_call {allowed : Op → Prop} {op : Op} (permitted : allowed op) :
    (call op : Fallible Answer ε (Answer op)).Only allowed := ⟨permitted, fun _ => trivial⟩

theorem steps_bind {program after : Fallible Answer ε α} {op : Op} {reply : Answer op}
    (steps : program.Steps op reply after) (rest : α → Fallible Answer ε β) :
    (program >>= rest).Steps op reply (after >>= rest) := by
  obtain ⟨next, performs, left⟩ := steps
  refine ⟨fun reply => (next reply).bind (ExceptT.bindCont rest), ?_, ?_⟩
  · change (ExceptT.run program).bind (ExceptT.bindCont rest) = _
    rw [performs]
    rfl
  · change (next reply).bind (ExceptT.bindCont rest) = _
    rw [left]
    rfl

theorem steps_of_bind {program : Fallible Answer ε α} {rest : α → Fallible Answer ε β}
    {after : Fallible Answer ε β} {op : Op} {reply : Answer op} (performs : program.Performs)
    (steps : (program >>= rest).Steps op reply after) :
    ∃ middle, program.Steps op reply middle ∧ after = middle >>= rest := by
  obtain ⟨next, bound, left⟩ := steps
  change (ExceptT.run program).bind (ExceptT.bindCont rest) = _ at bound
  cases first : ExceptT.run program with
  | pure value =>
    rw [Performs, first] at performs
    exact performs.elim
  | perform asked onward =>
    rw [first] at bound
    cases bound
    exact ⟨onward reply, ⟨onward, first, rfl⟩, left.symm⟩

theorem run_state {allowed : Op → Prop} (reads : ∀ op state, allowed op → (answer op state).2 = state)
    {program : Fallible Answer ε α} (only : program.Only allowed) (state : State) :
    (program.run answer state).2 = state :=
  Program.run_state answer reads only state

theorem run_congr {allowed : Op → Prop} {answer other : (op : Op) → State → Answer op × State}
    (agree : ∀ op, allowed op → answer op = other op) {program : Fallible Answer ε α}
    (only : program.Only allowed) (state : State) :
    run answer program state = run other program state :=
  Program.run_congr agree only state

@[simp] theorem performs_pure (value : α) : ¬(pure value : Fallible Answer ε α).Performs := id

@[simp] theorem performs_throw (error : ε) : ¬(throw error : Fallible Answer ε α).Performs := id

end Fallible

end Effect
