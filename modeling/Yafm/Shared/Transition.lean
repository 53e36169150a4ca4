import Mathlib.Tactic.Basic

set_option autoImplicit false

namespace Transition

structure System (State Event : Type) where
  start : State → Prop
  step : State → Event → State → Prop

variable {State Event : Type}

namespace System

inductive Reachable (system : System State Event) : State → Prop
  | start {state : State} (starts : system.start state) : Reachable system state
  | step {before after : State} {event : Event} (reached : Reachable system before)
      (steps : system.step before event after) : Reachable system after

theorem Reachable.invariant {system : System State Event} {Invariant : State → Prop}
    (initially : ∀ state, system.start state → Invariant state)
    (preserved : ∀ before event after, Invariant before → system.step before event after → Invariant after)
    {state : State} (reached : system.Reachable state) : Invariant state := by
  induction reached with
  | start starts => exact initially _ starts
  | step _ steps ih => exact preserved _ _ _ ih steps

def guard (system : System State Event) (allowed : State → Event → Prop) : System State Event where
  start := system.start
  step before event after := system.step before event after ∧ allowed before event

def since (system : System State Event) (state : State) : System State Event where
  start := (· = state)
  step := system.step

theorem Reachable.guarded {system : System State Event} {allowed : State → Event → Prop}
    {before after : State} {event : Event} (reached : (system.guard allowed).Reachable before)
    (steps : system.step before event after) (allows : allowed before event) :
    (system.guard allowed).Reachable after :=
  reached.step ⟨steps, allows⟩

theorem reachable_since (system : System State Event) (allowed : State → Event → Prop) (state : State) :
    ((system.since state).guard allowed).Reachable state := .start rfl

theorem Reachable.of_guard {system : System State Event} {allowed : State → Event → Prop} {state : State}
    (reached : (system.guard allowed).Reachable state) : system.Reachable state := by
  induction reached with
  | start starts => exact .start starts
  | step _ steps ih => exact .step ih steps.1

end System

-- Where every event brings the state closer, enough of them bring it all the way.
theorem foldl_settles {step : State → Event → State} {holds : State → Prop} {rank : State → Nat}
    {fair : Event → Prop} (progress : ∀ state event, holds state → fair event →
      holds (step state event) ∧ rank (step state event) ≤ rank state - 1)
    {events : List Event} (every : ∀ event ∈ events, fair event) {state : State} (initially : holds state)
    (enough : rank state ≤ events.length) :
    holds (events.foldl step state) ∧ rank (events.foldl step state) = 0 := by
  induction events generalizing state with
  | nil => exact ⟨initially, Nat.le_zero.mp enough⟩
  | cons event rest ih =>
    obtain ⟨kept, closer⟩ := progress state event initially (every event List.mem_cons_self)
    apply ih (fun event member => every event (List.mem_cons_of_mem _ member)) kept
    rw [List.length_cons] at enough
    omega

end Transition
