import Yafm.Shared.Effect
import Yafm.Shared.Transition
import Mathlib.Logic.Function.Basic

set_option autoImplicit false

-- Programs run one operation at a time on a state that others change in between. What a program is sure of
-- holds whatever the others do within what it relies on.

namespace Effect

structure Discipline {Op : Type} (Answer : Op → Type) (State : Type) where
  rely : State → State → Prop
  reply : (op : Op) → State → Answer op → State → Prop
  pledge : Op → State → Prop
  refl : ∀ state, rely state state
  trans : ∀ {first second third}, rely first second → rely second third → rely first third

variable {Op State : Type} {Answer : Op → Type} {α β ε : Type}

namespace Program

-- However the others step in between, each operation is pledged when it is performed, and the result is
-- one of these and stays so.
def Sure (discipline : Discipline Answer State) : Program Answer α → (α → State → Prop) → State → Prop
  | .pure value, post, state => ∀ later, discipline.rely state later → post value later
  | .perform op next, post, state =>
    ∀ now, discipline.rely state now →
      discipline.pledge op now ∧
        ∀ answer after, discipline.reply op now answer after → (next answer).Sure discipline post after

variable {discipline : Discipline Answer State}

theorem Sure.rely {program : Program Answer α} {post : α → State → Prop} {state later : State}
    (sure : program.Sure discipline post state) (stepped : discipline.rely state later) :
    program.Sure discipline post later := by
  cases program with
  | pure value => exact fun now onward => sure now (discipline.trans stepped onward)
  | perform op next => exact fun now onward => sure now (discipline.trans stepped onward)

theorem Sure.mono {program : Program Answer α} {post weaker : α → State → Prop} {state : State}
    (sure : program.Sure discipline post state) (weaken : ∀ value now, post value now → weaker value now) :
    program.Sure discipline weaker state := by
  induction program generalizing state with
  | pure value => exact fun later stepped => weaken _ _ (sure later stepped)
  | perform op next ih =>
    intro now stepped
    obtain ⟨pledged, onward⟩ := sure now stepped
    exact ⟨pledged, fun answer after replied => ih answer (onward answer after replied)⟩

theorem Sure.and {program : Program Answer α} {post other : α → State → Prop} {state : State}
    (first : program.Sure discipline post state) (second : program.Sure discipline other state) :
    program.Sure discipline (fun value now => post value now ∧ other value now) state := by
  induction program generalizing state with
  | pure value => exact fun later stepped => ⟨first later stepped, second later stepped⟩
  | perform op next ih =>
    intro now stepped
    obtain ⟨pledged, left⟩ := first now stepped
    obtain ⟨_, right⟩ := second now stepped
    exact ⟨pledged, fun answer after replied =>
      ih answer (left answer after replied) (right answer after replied)⟩

theorem sure_pure {value : α} {post : α → State → Prop} {state : State}
    (holds : ∀ later, discipline.rely state later → post value later) :
    (Pure.pure value : Program Answer α).Sure discipline post state := holds

theorem Sure.bind {program : Program Answer α} {rest : α → Program Answer β} {middle : α → State → Prop}
    {post : β → State → Prop} {state : State} (sure : program.Sure discipline middle state)
    (onward : ∀ value now, middle value now → (rest value).Sure discipline post now) :
    (program >>= rest).Sure discipline post state := by
  change (program.bind rest).Sure discipline post state
  induction program generalizing state with
  | pure value => exact onward value state (sure state (discipline.refl state))
  | perform op next ih =>
    intro now stepped
    obtain ⟨pledged, left⟩ := sure now stepped
    exact ⟨pledged, fun answer after replied => ih answer (left answer after replied)⟩

theorem sure_of_only {allowed : Op → Prop} {keeps : State → Prop} {program : Program Answer α}
    (steady : ∀ before after, keeps before → discipline.rely before after → keeps after)
    (pledged : ∀ op now, allowed op → keeps now → discipline.pledge op now)
    (kept : ∀ op now answer after, allowed op → keeps now →
      discipline.reply op now answer after → keeps after)
    (only : program.Only allowed) {state : State} (holds : keeps state) :
    program.Sure discipline (fun _ now => keeps now) state := by
  induction program generalizing state with
  | pure value => exact fun later stepped => steady _ _ holds stepped
  | perform op next ih =>
    intro now stepped
    have here := steady _ _ holds stepped
    exact ⟨pledged op now only.1 here, fun answer after replied =>
      ih answer (only.2 answer) (kept op now answer after only.1 here replied)⟩

section

variable {Larger : Type} {Answers : Larger → Type} {inject : Op → Larger}
  {back : ∀ op, Answers (inject op) → Answer op}
  {outer : Discipline Answers State}

theorem Sure.embed {program : Program Answer α} {post : α → State → Prop} {state : State}
    (sure : program.Sure discipline post state)
    (relies : ∀ before after, outer.rely before after → discipline.rely before after)
    (pledges : ∀ op now, discipline.pledge op now → outer.pledge (inject op) now)
    (replies : ∀ op now answer after, outer.reply (inject op) now answer after →
      discipline.reply op now (back op answer) after) :
    (program.embed inject back).Sure outer post state := by
  induction program generalizing state with
  | pure value => exact fun later stepped => sure later (relies _ _ stepped)
  | perform op next ih =>
    intro now stepped
    obtain ⟨pledged, onward⟩ := sure now (relies _ _ stepped)
    exact ⟨pledges op now pledged, fun answer after replied =>
      ih (back op answer) (onward _ after (replies op now answer after replied))⟩

end

end Program

namespace Fallible

variable {discipline : Discipline Answer State}

def Outcome (good : α → State → Prop) (bad : ε → State → Prop) : Except ε α → State → Prop
  | .ok value, now => good value now
  | .error error, now => bad error now

def Sure (discipline : Discipline Answer State) (program : Fallible Answer ε α) (good : α → State → Prop)
    (bad : ε → State → Prop) (state : State) : Prop :=
  Program.Sure discipline (ExceptT.run program) (Outcome good bad) state

theorem sure_pure {value : α} {good : α → State → Prop} {bad : ε → State → Prop} {state : State}
    (holds : ∀ later, discipline.rely state later → good value later) :
    (pure value : Fallible Answer ε α).Sure discipline good bad state := holds

theorem sure_throw {error : ε} {good : α → State → Prop} {bad : ε → State → Prop} {state : State}
    (holds : ∀ later, discipline.rely state later → bad error later) :
    (throw error : Fallible Answer ε α).Sure discipline good bad state := holds

theorem sure_ofExcept_bind {outcome : Except ε α} {rest : α → Fallible Answer ε β} {good : β → State → Prop}
    {bad : ε → State → Prop} {state : State}
    (accepted : ∀ value, outcome = .ok value → (rest value).Sure discipline good bad state)
    (refused : ∀ error later, discipline.rely state later → bad error later) :
    (ofExcept outcome >>= rest).Sure discipline good bad state := by
  cases outcome with
  | ok value => exact accepted value rfl
  | error error => exact refused error

theorem Sure.bind {program : Fallible Answer ε α} {rest : α → Fallible Answer ε β} {middle : α → State → Prop}
    {good : β → State → Prop} {bad : ε → State → Prop} {state : State}
    (sure : program.Sure discipline middle bad state)
    (steady : ∀ error before after, bad error before → discipline.rely before after → bad error after)
    (onward : ∀ value now, middle value now → (rest value).Sure discipline good bad now) :
    (program >>= rest).Sure discipline good bad state := by
  change Program.Sure discipline (ExceptT.run program >>= _) _ state
  apply Program.Sure.bind (show Program.Sure discipline (ExceptT.run program) _ state from sure)
  intro outcome now holds
  cases outcome with
  | ok value => exact onward value now holds
  | error error => exact fun later stepped => steady error now later holds stepped

theorem sure_call_bind {op : Op} {rest : Answer op → Fallible Answer ε β} {good : β → State → Prop}
    {bad : ε → State → Prop} {state : State}
    (performed : ∀ now, discipline.rely state now → discipline.pledge op now ∧
      ∀ answer after, discipline.reply op now answer after → (rest answer).Sure discipline good bad after) :
    (call op >>= rest).Sure discipline good bad state := performed

theorem sure_call {op : Op} {good : Answer op → State → Prop} {bad : ε → State → Prop} {state : State}
    (performed : ∀ now, discipline.rely state now → discipline.pledge op now ∧
      ∀ answer after, discipline.reply op now answer after →
      ∀ later, discipline.rely after later → good answer later) :
    (call op : Fallible Answer ε (Answer op)).Sure discipline good bad state := performed

theorem Sure.mono {program : Fallible Answer ε α} {good better : α → State → Prop}
    {bad worse : ε → State → Prop} {state : State} (sure : program.Sure discipline good bad state)
    (values : ∀ value now, good value now → better value now)
    (errors : ∀ error now, bad error now → worse error now) :
    program.Sure discipline better worse state := by
  apply Program.Sure.mono (show Program.Sure discipline (ExceptT.run program) _ state from sure)
  intro outcome now holds
  cases outcome with
  | ok value => exact values value now holds
  | error error => exact errors error now holds

theorem Sure.rely {program : Fallible Answer ε α} {good : α → State → Prop} {bad : ε → State → Prop}
    {state later : State} (sure : program.Sure discipline good bad state)
    (stepped : discipline.rely state later) : program.Sure discipline good bad later :=
  Program.Sure.rely sure stepped

theorem Sure.program {program : Fallible Answer ε α} {good : α → State → Prop} {bad : ε → State → Prop}
    {state : State} (sure : program.Sure discipline good bad state) :
    Program.Sure discipline (ExceptT.run program) (Outcome good bad) state := sure

end Fallible

-- a handler is a long term, and only the rules should take it apart
attribute [irreducible] Fallible.Sure

structure Task (Answer : Op → Type) (State α : Type) where
  arrived : State
  rest : Program Answer α

structure Pool (ι : Type) (Answer : Op → Type) (State α : Type) where
  tasks : ι → Option (Task Answer State α)
  state : State

inductive PoolEvent (ι : Type) (Answer : Op → Type) where
  | arrive (who : ι)
  | perform (who : ι) (op : Op) (answer : Answer op)
  -- what happens to the state without any task
  | drift

variable {ι : Type} [DecidableEq ι]

inductive PoolStep (program : ι → Program Answer α) (reply : ι → (op : Op) → State → Answer op → State → Prop)
    (drift : State → State → Prop) : Pool ι Answer State α → PoolEvent ι Answer → Pool ι Answer State α → Prop
  | arrive {pool : Pool ι Answer State α} {who : ι} (absent : pool.tasks who = none) :
      PoolStep program reply drift pool (.arrive who)
        { pool with tasks := Function.update pool.tasks who (some ⟨pool.state, program who⟩) }
  | perform {pool : Pool ι Answer State α} {who : ι} {arrived after : State} {op : Op} {answer : Answer op}
      {next : Answer op → Program Answer α} (holds : pool.tasks who = some ⟨arrived, .perform op next⟩)
      (replied : reply who op pool.state answer after) :
      PoolStep program reply drift pool (.perform who op answer)
        ⟨Function.update pool.tasks who (some ⟨arrived, next answer⟩), after⟩
  | drift {pool : Pool ι Answer State α} {after : State} (drifts : drift pool.state after) :
      PoolStep program reply drift pool .drift { pool with state := after }

structure Workload (ι : Type) (Answer : Op → Type) (State α : Type) where
  program : ι → Program Answer α
  discipline : ι → Discipline Answer State
  promise : ι → State → α → State → Prop
  -- what a program counts on when it arrives
  ready : ι → State → Prop
  start : State → Prop
  drift : State → State → Prop

namespace Workload

variable (work : Workload ι Answer State α)

def Step : Pool ι Answer State α → PoolEvent ι Answer → Pool ι Answer State α → Prop :=
  PoolStep work.program (fun who => (work.discipline who).reply) work.drift

def system : Transition.System (Pool ι Answer State α) (PoolEvent ι Answer) :=
  ⟨fun pool => (∀ who, pool.tasks who = none) ∧ work.start pool.state, work.Step⟩

structure Sound : Prop where
  starts : ∀ state, work.start state → ∀ who, work.ready who state
  steady : ∀ who before after, work.ready who before →
    (work.discipline who).rely before after → work.ready who after
  sure : ∀ who state, work.ready who state →
    (work.program who).Sure (work.discipline who) (work.promise who state) state
  apart : ∀ who other op now answer after, who ≠ other → (work.discipline who).pledge op now →
    (work.discipline who).reply op now answer after → (work.discipline other).rely now after
  drifts : ∀ before after, work.drift before after → ∀ who, (work.discipline who).rely before after

def Kept (pool : Pool ι Answer State α) : Prop :=
  ∀ who, (pool.tasks who = none → work.ready who pool.state) ∧
    ∀ task, pool.tasks who = some task →
      task.rest.Sure (work.discipline who) (work.promise who task.arrived) pool.state

variable {work}

omit [DecidableEq ι] in
theorem Kept.pledged {pool : Pool ι Answer State α} (kept : work.Kept pool) {who : ι} {arrived : State}
    {op : Op} {next : Answer op → Program Answer α}
    (holds : pool.tasks who = some ⟨arrived, .perform op next⟩) :
    (work.discipline who).pledge op pool.state :=
  (((kept who).2 _ holds) pool.state ((work.discipline who).refl _)).1

theorem Kept.step (sound : work.Sound) {pool after : Pool ι Answer State α} {event : PoolEvent ι Answer}
    (kept : work.Kept pool) (steps : work.Step pool event after) : work.Kept after := by
  cases steps with
  | @arrive who absent =>
    intro other
    by_cases same : other = who
    · subst same
      refine ⟨?_, ?_⟩
      · simp
      · intro task holds
        simp only [Function.update_self, Option.some.injEq] at holds
        subst holds
        exact sound.sure other _ ((kept other).1 absent)
    · simp only [Function.update_of_ne same]
      exact kept other
  | @perform who arrived state op answer next holds replied =>
    intro other
    by_cases same : other = who
    · subst same
      refine ⟨?_, ?_⟩
      · simp
      · intro task left
        simp only [Function.update_self, Option.some.injEq] at left
        subst left
        exact (((kept other).2 _ holds) pool.state ((work.discipline other).refl _)).2 answer state replied
    · simp only [Function.update_of_ne same]
      have stepped := sound.apart who other op pool.state answer state (Ne.symm same)
        (kept.pledged holds) replied
      exact ⟨fun absent => sound.steady other _ _ ((kept other).1 absent) stepped,
        fun task held => ((kept other).2 task held).rely stepped⟩
  | drift drifts =>
    intro who
    have stepped := sound.drifts _ _ drifts who
    exact ⟨fun absent => sound.steady who _ _ ((kept who).1 absent) stepped,
      fun task held => ((kept who).2 task held).rely stepped⟩

theorem kept (sound : work.Sound) {pool : Pool ι Answer State α} (reached : work.system.Reachable pool) :
    work.Kept pool := by
  apply reached.invariant
  · intro first starts who
    refine ⟨fun _ => sound.starts _ starts.2 who, ?_⟩
    intro task held
    rw [starts.1 who] at held
    cases held
  · exact fun before event after holds steps => holds.step sound steps

theorem finished (sound : work.Sound) {pool : Pool ι Answer State α}
    (reached : work.system.Reachable pool) {who : ι} {arrived : State} {value : α}
    (done : pool.tasks who = some ⟨arrived, .pure value⟩) : work.promise who arrived value pool.state :=
  ((kept sound reached who).2 _ done) pool.state ((work.discipline who).refl _)

-- What every drift, and every operation as it was pledged, preserves holds of the state throughout.
theorem invariant (sound : work.Sound) (keeps : State → Prop)
    (starts : ∀ state, work.start state → keeps state)
    (drifts : ∀ before after, keeps before → work.drift before after → keeps after)
    (performs : ∀ who op now answer after, keeps now → (work.discipline who).pledge op now →
      (work.discipline who).reply op now answer after → keeps after)
    {pool : Pool ι Answer State α} (reached : work.system.Reachable pool) : keeps pool.state := by
  induction reached with
  | start first => exact starts _ first.2
  | step reached steps ih =>
    cases steps with
    | arrive => exact ih
    | perform holds replied => exact performs _ _ _ _ _ ih ((kept sound reached).pledged holds) replied
    | drift moved => exact drifts _ _ ih moved

-- A task may be left alone for some of its operations.
theorem reachable_after {who : ι} {answer : (op : Op) → State → Answer op × State}
    (replies : ∀ op now, (work.discipline who).reply op now (answer op now).1 (answer op now).2)
    {pool : Pool ι Answer State α} (reached : work.system.Reachable pool) {arrived : State}
    {program : Program Answer α} (holds : pool.tasks who = some ⟨arrived, program⟩) (count : Nat) :
    ∃ others, work.system.Reachable ⟨others, (program.after answer count pool.state).2⟩ ∧
      others who = some ⟨arrived, (program.after answer count pool.state).1⟩ ∧
      ∀ other, other ≠ who → others other = pool.tasks other := by
  induction count generalizing pool program with
  | zero => exact ⟨pool.tasks, reached, holds, fun _ _ => rfl⟩
  | succ count ih =>
    cases program with
    | pure value => exact ⟨pool.tasks, reached, holds, fun _ _ => rfl⟩
    | perform op next =>
      have steps : work.Step pool (.perform who op (answer op pool.state).1) _ :=
        .perform holds (replies op pool.state)
      obtain ⟨others, reaches, left, same⟩ := ih (reached.step steps) (Function.update_self _ _ _)
      exact ⟨others, reaches, left, fun other apart =>
        (same other apart).trans (Function.update_of_ne apart _ _)⟩

end Workload

attribute [irreducible] Program.Sure

end Effect
