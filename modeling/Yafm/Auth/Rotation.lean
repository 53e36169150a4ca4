import Yafm.Auth.Flow
import Yafm.Shared.Transition
import Mathlib.Logic.Function.Basic

set_option autoImplicit false

-- Logins, callbacks and logouts run at once, and each of them takes one step at a time. No lock is held
-- while a key set is on its way, so what one request writes back may have been fetched long before.

namespace Yafm

open Effect Transition

/-- A key set by the moment of its fetch: it is what the provider published then. -/
structure Snapshot where
  fetchedAt : Nat
  deriving DecidableEq, Repr

inductive Stage where
  | read
  | fetch
  | write (found : Snapshot)
  | got (found : Snapshot)
  deriving DecidableEq, Repr

inductive AuthRequest where
  -- a login or a logout, which look the provider up once
  | other
  | callback (code : String) (login : LoginCookieData)

/-- Where a request stands, with the moment at which its first verification failed. -/
inductive Task (oidc : Oidc) where
  | first (stage : Stage)
  | exchanged (found : Snapshot) (idToken : oidc.IdToken)
  | rejected (failedAt : Nat) (idToken : oidc.IdToken)
  | second (failedAt : Nat) (idToken : oidc.IdToken) (stage : Stage)
  | verified (failedAt : Nat) (idToken : oidc.IdToken) (found : Snapshot)
  | ended (outcome : Except AuthFlowError SessionClaims)

inductive CacheEvent (oidc : Oidc) where
  | hit (found : Snapshot)
  | miss
  | fetched (found : Snapshot)
  | unreachable
  | written (found : Snapshot)
  | exchanged (idToken : oidc.IdToken)
  | unanswered
  | tokenless
  | checked
  | invalidated

section

variable {oidc : Oidc}

inductive StageStep : Stage → CacheEvent oidc → Stage → Prop
  | hit (found : Snapshot) : StageStep .read (.hit found) (.got found)
  | miss : StageStep .read .miss .fetch
  | fetched (found : Snapshot) : StageStep .fetch (.fetched found) (.write found)
  | written (found : Snapshot) : StageStep (.write found) (.written found) (.got found)

inductive CacheStep (now : Nat) : Option Snapshot → CacheEvent oidc → Option Snapshot → Prop
  | hit (found : Snapshot) : CacheStep now (some found) (.hit found) (some found)
  | miss : CacheStep now none .miss none
  | fetched (cache : Option Snapshot) : CacheStep now cache (.fetched ⟨now⟩) cache
  | unreachable (cache : Option Snapshot) : CacheStep now cache .unreachable cache
  | written (cache : Option Snapshot) (found : Snapshot) : CacheStep now cache (.written found) (some found)
  | exchanged (cache : Option Snapshot) (idToken : oidc.IdToken) :
      CacheStep now cache (.exchanged idToken) cache
  | unanswered (cache : Option Snapshot) : CacheStep now cache .unanswered cache
  | tokenless (cache : Option Snapshot) : CacheStep now cache .tokenless cache
  | checked (cache : Option Snapshot) : CacheStep now cache .checked cache
  | invalidated (cache : Option Snapshot) : CacheStep now cache .invalidated none

variable (published : Nat → oidc.Provider)

inductive TaskStep (request : AuthRequest) (now : Nat) : Task oidc → CacheEvent oidc → Task oidc → Prop
  | first {stage after : Stage} {event : CacheEvent oidc} (moves : StageStep stage event after) :
      TaskStep request now (.first stage) event (.first after)
  | undiscovered : TaskStep request now (.first .fetch) .unreachable (.ended (.error .providerUnavailable))
  | exchanged {code : String} {login : LoginCookieData} (callback : request = .callback code login)
      (found : Snapshot) (idToken : oidc.IdToken) :
      TaskStep request now (.first (.got found)) (.exchanged idToken) (.exchanged found idToken)
  | unanswered {code : String} {login : LoginCookieData} (callback : request = .callback code login)
      (found : Snapshot) : TaskStep request now (.first (.got found)) .unanswered
        (.ended (.error .providerUnavailable))
  | tokenless {code : String} {login : LoginCookieData} (callback : request = .callback code login)
      (found : Snapshot) : TaskStep request now (.first (.got found)) .tokenless
        (.ended (.error .unauthorized))
  | accepted {code : String} {login : LoginCookieData} (callback : request = .callback code login)
      {found : Snapshot} {idToken : oidc.IdToken} {read : IdTokenClaims}
      (validated : oidc.claims (published found.fetchedAt) idToken login.nonce = .ok read) :
      TaskStep request now (.exchanged found idToken) .checked (.ended (.ok (sessionClaimsFromIdToken read)))
  | refused {code : String} {login : LoginCookieData} (callback : request = .callback code login)
      {found : Snapshot} {idToken : oidc.IdToken}
      (invalid : oidc.claims (published found.fetchedAt) idToken login.nonce = .error .other) :
      TaskStep request now (.exchanged found idToken) .checked (.ended (.error .unauthorized))
  | rejected {code : String} {login : LoginCookieData} (callback : request = .callback code login)
      {found : Snapshot} {idToken : oidc.IdToken}
      (stale : oidc.claims (published found.fetchedAt) idToken login.nonce = .error .noMatchingKey) :
      TaskStep request now (.exchanged found idToken) .checked (.rejected now idToken)
  | invalidated (failedAt : Nat) (idToken : oidc.IdToken) :
      TaskStep request now (.rejected failedAt idToken) .invalidated (.second failedAt idToken .read)
  | second (failedAt : Nat) (idToken : oidc.IdToken) {stage after : Stage} {event : CacheEvent oidc}
      (moves : StageStep stage event after) :
      TaskStep request now (.second failedAt idToken stage) event (.second failedAt idToken after)
  | lost (failedAt : Nat) (idToken : oidc.IdToken) :
      TaskStep request now (.second failedAt idToken .fetch) .unreachable
        (.ended (.error .providerUnavailable))
  | verified (failedAt : Nat) (idToken : oidc.IdToken) (found : Snapshot) :
      TaskStep request now (.second failedAt idToken (.got found)) .checked (.verified failedAt idToken found)

end

section

variable {oidc : Oidc} (published : Nat → oidc.Provider)

def Stage.flow : Stage → Flow oidc AuthFlowError oidc.Provider
  | .read => discoveredProvider
  | .fetch => do
    match ← ask .discoverProvider with
    | none => throw .providerUnavailable
    | some provider =>
      let _ ← ask (.cacheProvider provider)
      return provider
  | .write found => do
    let _ ← ask (.cacheProvider (published found.fetchedAt))
    return published found.fetchedAt
  | .got found => return published found.fetchedAt

def verifyAgain (login : LoginCookieData) (idToken : oidc.IdToken) (provider : oidc.Provider) :
    Flow oidc AuthFlowError SessionClaims :=
  match oidc.claims provider idToken login.nonce with
  | .ok claims => return sessionClaimsFromIdToken claims
  | .error _ => throw .unauthorized

def Task.flow (code : String) (login : LoginCookieData) : Task oidc → Flow oidc AuthFlowError SessionClaims
  | .first stage => do exchangeCodeAndValidateIdToken (← stage.flow published) code login
  | .exchanged found idToken =>
    match oidc.claims (published found.fetchedAt) idToken login.nonce with
    | .ok claims => return sessionClaimsFromIdToken claims
    | .error .noMatchingKey => do
      let _ ← ask .invalidateProviderCache
      verifyAgain login idToken (← discoveredProvider)
    | .error .other => throw .unauthorized
  | .rejected _ idToken => do
    let _ ← ask .invalidateProviderCache
    verifyAgain login idToken (← discoveredProvider)
  | .second _ idToken stage => do verifyAgain login idToken (← stage.flow published)
  | .verified _ idToken found => verifyAgain login idToken (published found.fetchedAt)
  | .ended outcome => Fallible.ofExcept outcome

inductive CacheEvent.Answers (code : String) (login : LoginCookieData) :
    CacheEvent oidc → (op : OidcOp oidc) → op.Answer → Prop
  | hit (found : Snapshot) : Answers code login (.hit found) .cachedProvider
      (some (published found.fetchedAt))
  | miss : Answers code login .miss .cachedProvider (none : Option oidc.Provider)
  | fetched (found : Snapshot) : Answers code login (.fetched found) .discoverProvider
      (some (published found.fetchedAt))
  | unreachable : Answers code login .unreachable .discoverProvider (none : Option oidc.Provider)
  | written (found : Snapshot) : Answers code login (.written found)
      (.cacheProvider (published found.fetchedAt)) ()
  | exchanged (found : Snapshot) (idToken : oidc.IdToken) : Answers code login (.exchanged idToken)
      (.exchangeCode (published found.fetchedAt) code login.verifier) (some (some idToken))
  | unanswered (found : Snapshot) : Answers code login .unanswered
      (.exchangeCode (published found.fetchedAt) code login.verifier) (none : Option (Option oidc.IdToken))
  | tokenless (found : Snapshot) : Answers code login .tokenless
      (.exchangeCode (published found.fetchedAt) code login.verifier) (some (none : Option oidc.IdToken))
  | invalidated : Answers code login .invalidated .invalidateProviderCache ()

theorem StageStep.flow {stage after : Stage} {event : CacheEvent oidc} (moves : StageStep stage event after)
    (code : String) (login : LoginCookieData) :
    ∃ op answer, event.Answers published code login op answer ∧
      (stage.flow published).Steps op answer (after.flow published) := by
  cases moves with
  | hit found => exact ⟨_, _, .hit found, _, rfl, rfl⟩
  | miss => exact ⟨_, _, .miss, _, rfl, rfl⟩
  | fetched found => exact ⟨_, _, .fetched found, _, rfl, rfl⟩
  | written found => exact ⟨_, _, .written found, _, rfl, rfl⟩

theorem exchange_flow (found : Snapshot) (code : String) (login : LoginCookieData) :
    ∃ next, ExceptT.run (exchangeCodeAndValidateIdToken (published found.fetchedAt) code login) =
        .perform (.exchangeCode (published found.fetchedAt) code login.verifier) next ∧
      next (none : Option (Option oidc.IdToken)) = ExceptT.run (throw .providerUnavailable) ∧
      next (some none : Option (Option oidc.IdToken)) = ExceptT.run (throw .unauthorized) ∧
      ∀ idToken, next (some (some idToken) : Option (Option oidc.IdToken)) =
        ExceptT.run ((Task.exchanged found idToken).flow published code login) := by
  refine ⟨_, rfl, rfl, rfl, fun idToken => ?_⟩
  simp only [Task.flow, Program.bind, Function.comp, ExceptT.bindCont]
  cases oidc.claims (published found.fetchedAt) idToken login.nonce with
  | ok read => rfl
  | error failure => cases failure <;> rfl

theorem TaskStep.flow {code : String} {login : LoginCookieData} {now : Nat} {before after : Task oidc}
    {event : CacheEvent oidc} (moves : TaskStep published (.callback code login) now before event after) :
    (∃ op answer, event.Answers published code login op answer ∧
      (before.flow published code login).Steps op answer (after.flow published code login)) ∨
    event = .checked ∧ before.flow published code login = after.flow published code login := by
  cases moves with
  | first moves =>
    obtain ⟨op, answer, answers, steps⟩ := moves.flow published code login
    exact .inl ⟨op, answer, answers, Fallible.steps_bind steps _⟩
  | undiscovered => exact .inl ⟨_, _, .unreachable, _, rfl, rfl⟩
  | exchanged callback found idToken =>
    cases callback
    obtain ⟨next, performs, _, _, onward⟩ := exchange_flow published found code login
    exact .inl ⟨_, _, .exchanged found idToken, next, performs, onward idToken⟩
  | unanswered callback found => exact .inl ⟨_, _, .unanswered found, _, rfl, rfl⟩
  | tokenless callback found => exact .inl ⟨_, _, .tokenless found, _, rfl, rfl⟩
  | accepted callback validated =>
    cases callback
    exact .inr ⟨rfl, by simp only [Task.flow, validated]; rfl⟩
  | refused callback invalid =>
    cases callback
    exact .inr ⟨rfl, by simp only [Task.flow, invalid]; rfl⟩
  | rejected callback stale =>
    cases callback
    exact .inr ⟨rfl, by simp only [Task.flow, stale]⟩
  | invalidated failedAt idToken => exact .inl ⟨_, _, .invalidated, _, rfl, rfl⟩
  | second failedAt idToken moves =>
    obtain ⟨op, answer, answers, steps⟩ := moves.flow published code login
    exact .inl ⟨op, answer, answers, Fallible.steps_bind steps _⟩
  | lost failedAt idToken => exact .inl ⟨_, _, .unreachable, _, rfl, rfl⟩
  | verified failedAt idToken found => exact .inr ⟨rfl, rfl⟩

-- the cache answers with what it holds, and a discovery that succeeds with what is published at the moment
def Honest (now : Nat) (cache : Option Snapshot) : (op : OidcOp oidc) → op.Answer → Prop
  | .cachedProvider, answer => answer = cache.map fun found => published found.fetchedAt
  | .discoverProvider, answer => answer = none ∨ answer = some (published now)
  | _, _ => True

theorem Stage.flow_steps {stage : Stage} {now : Nat} {cache : Option Snapshot} {op : OidcOp oidc}
    {answer : op.Answer} {rest : Flow oidc AuthFlowError oidc.Provider}
    (honest : Honest published now cache op answer)
    (steps : (stage.flow published).Steps op answer rest) :
    (∃ (event : CacheEvent oidc) (after : Stage) (stored : Option Snapshot), StageStep stage event after ∧
      CacheStep now cache event stored ∧ rest = after.flow published) ∨
    stage = .fetch ∧ rest = throw .providerUnavailable := by
  obtain ⟨next, performs, left⟩ := steps
  cases stage with
  | read =>
    have shape : ExceptT.run (Stage.read.flow published) = .perform .cachedProvider _ := rfl
    rw [shape] at performs
    cases performs
    obtain rfl : answer = cache.map fun found => published found.fetchedAt := honest
    cases cache with
    | none => exact .inl ⟨.miss, _, _, .miss, .miss, left.symm⟩
    | some found => exact .inl ⟨.hit found, _, _, .hit found, .hit found, left.symm⟩
  | fetch =>
    have shape : ExceptT.run (Stage.fetch.flow published) = .perform .discoverProvider _ := rfl
    rw [shape] at performs
    cases performs
    rcases honest with rfl | rfl
    · exact .inr ⟨rfl, left.symm⟩
    · exact .inl ⟨.fetched ⟨now⟩, _, _, .fetched ⟨now⟩, .fetched cache, left.symm⟩
  | write found =>
    have shape : ExceptT.run ((Stage.write found).flow published) =
      .perform (.cacheProvider (published found.fetchedAt)) _ := rfl
    rw [shape] at performs
    cases performs
    exact .inl ⟨.written found, _, _, .written found, .written cache found, left.symm⟩
  | got found => cases performs

theorem Stage.performs_or_got (stage : Stage) :
    (∃ found, stage = .got found) ∨ (stage.flow published).Performs := by
  cases stage with
  | got found => exact .inl ⟨found, rfl⟩
  | read | fetch | write => exact .inr trivial

-- a task that is not about to verify a token
def Task.Settled : Task oidc → Prop
  | .exchanged _ _ => False
  | .second _ _ (.got _) => False
  | _ => True

theorem Task.checks {code : String} {login : LoginCookieData} {before : Task oidc} (now : Nat)
    (unsettled : ¬before.Settled) :
    ∃ after, TaskStep published (.callback code login) now before .checked after ∧ after.Settled := by
  cases before with
  | exchanged found idToken =>
    cases validated : oidc.claims (published found.fetchedAt) idToken login.nonce with
    | ok read => exact ⟨_, .accepted rfl validated, trivial⟩
    | error failure =>
      cases failure with
      | noMatchingKey => exact ⟨_, .rejected rfl validated, trivial⟩
      | other => exact ⟨_, .refused rfl validated, trivial⟩
  | second failedAt idToken stage =>
    cases stage with
    | got found => exact ⟨_, .verified failedAt idToken found, trivial⟩
    | read | fetch | write => exact absurd trivial unsettled
  | first | rejected | verified | ended => exact absurd trivial unsettled

theorem Task.flow_steps {code : String} {login : LoginCookieData} {before : Task oidc} {now : Nat}
    {cache : Option Snapshot} {op : OidcOp oidc} {answer : op.Answer}
    {rest : Flow oidc AuthFlowError SessionClaims} (settled : before.Settled)
    (honest : Honest published now cache op answer)
    (steps : (before.flow published code login).Steps op answer rest) :
    ∃ event after stored, TaskStep published (.callback code login) now before event after ∧
      CacheStep now cache event stored ∧ rest = after.flow published code login := by
  cases before with
  | first stage =>
    rcases stage.performs_or_got published with ⟨found, rfl⟩ | performs
    · obtain ⟨next, shape, unanswered, tokenless, exchanged⟩ := exchange_flow published found code login
      obtain ⟨onward, performs, left⟩ := steps
      have first : ExceptT.run ((Task.first (.got found)).flow published code login) = _ := shape
      rw [first] at performs
      cases performs
      change Option (Option oidc.IdToken) at answer
      rcases answer with _ | _ | idToken
      · exact ⟨_, _, _, .unanswered rfl found, .unanswered cache, left.symm.trans unanswered⟩
      · exact ⟨_, _, _, .tokenless rfl found, .tokenless cache, left.symm.trans tokenless⟩
      · exact ⟨_, _, _, .exchanged rfl found idToken, .exchanged cache idToken,
          left.symm.trans (exchanged idToken)⟩
    · obtain ⟨middle, moves, rfl⟩ := Fallible.steps_of_bind performs steps
      rcases Stage.flow_steps published honest moves with
        ⟨event, after, stored, stage, stores, rfl⟩ | ⟨rfl, rfl⟩
      · exact ⟨event, _, stored, .first stage, stores, rfl⟩
      · exact ⟨_, _, _, .undiscovered, .unreachable cache, rfl⟩
  | exchanged => exact settled.elim
  | rejected failedAt idToken =>
    obtain ⟨onward, performs, left⟩ := steps
    have first : ExceptT.run ((Task.rejected failedAt idToken).flow published code login) =
      .perform .invalidateProviderCache _ := rfl
    rw [first] at performs
    cases performs
    exact ⟨_, _, _, .invalidated failedAt idToken, .invalidated cache, left.symm⟩
  | second failedAt idToken stage =>
    rcases stage.performs_or_got published with ⟨found, rfl⟩ | performs
    · exact settled.elim
    · obtain ⟨middle, moves, rfl⟩ := Fallible.steps_of_bind performs steps
      rcases Stage.flow_steps published honest moves with
        ⟨event, after, stored, stage, stores, rfl⟩ | ⟨rfl, rfl⟩
      · exact ⟨event, _, stored, .second failedAt idToken stage, stores, rfl⟩
      · exact ⟨_, _, _, .lost failedAt idToken, .unreachable cache, rfl⟩
  | verified failedAt idToken found =>
    obtain ⟨onward, performs, _⟩ := steps
    simp only [Task.flow, verifyAgain] at performs
    cases validated : oidc.claims (published found.fetchedAt) idToken login.nonce <;>
      rw [validated] at performs <;>
      cases performs
  | ended outcome =>
    obtain ⟨onward, performs, _⟩ := steps
    cases outcome <;> cases performs

end

structure World (ι : Type) (oidc : Oidc) where
  now : Nat
  cache : Option Snapshot
  tasks : ι → Task oidc

section

variable {ι : Type} [DecidableEq ι] {oidc : Oidc} (published : Nat → oidc.Provider)
  (requests : ι → AuthRequest)

inductive WorldStep (world : World ι oidc) : ι × CacheEvent oidc → World ι oidc → Prop
  | step {task : ι} {event : CacheEvent oidc} {moved : Task oidc} {cache : Option Snapshot}
      (moves : TaskStep published (requests task) world.now (world.tasks task) event moved)
      (stores : CacheStep world.now world.cache event cache) :
      WorldStep world (task, event) ⟨world.now + 1, cache, Function.update world.tasks task moved⟩

def cacheSystem : System (World ι oidc) (ι × CacheEvent oidc) where
  start world := world.cache = none ∧ ∀ task, world.tasks task = .first .read
  step := WorldStep published requests

/-- The second verification of every callback is made under keys that were fetched after the
first one failed. A token that the keys published from then on validate is accepted. -/
def SecondFresh (world : World ι oidc) : Prop :=
  ∀ task failedAt idToken found, world.tasks task = .verified failedAt idToken found →
    failedAt < found.fetchedAt ∧ ∀ code login, requests task = .callback code login →
      (∀ time, failedAt < time → ∃ read, oidc.claims (published time) idToken login.nonce = .ok read) →
      ∃ session, (world.tasks task).flow published code login = pure session

-- Nothing older than its failure is put into the cache between the clear of a callback and its second
-- read.
def KeepsFresh (world : World ι oidc) (event : ι × CacheEvent oidc) : Prop :=
  ∀ found, event.2 = .written found → ∀ task failedAt idToken,
    world.tasks task = .second failedAt idToken .read → failedAt < found.fetchedAt

def Stage.Fresh (failedAt : Nat) (cache : Option Snapshot) : Stage → Prop
  | .read => ∀ found ∈ cache, failedAt < found.fetchedAt
  | .fetch => True
  | .write found => failedAt < found.fetchedAt
  | .got found => failedAt < found.fetchedAt

def Task.Fresh (now : Nat) (cache : Option Snapshot) : Task oidc → Prop
  | .rejected failedAt _ => failedAt < now
  | .second failedAt _ stage => failedAt < now ∧ stage.Fresh failedAt cache
  | .verified failedAt _ found => failedAt < found.fetchedAt
  | _ => True

def World.Fresh (world : World ι oidc) : Prop := ∀ task, (world.tasks task).Fresh world.now world.cache

variable {published requests}

theorem StageStep.fresh {now failedAt : Nat} {cache stored : Option Snapshot} {stage after : Stage}
    {event : CacheEvent oidc} (moves : StageStep stage event after)
    (stores : CacheStep now cache event stored) (failed : failedAt < now)
    (fresh : stage.Fresh failedAt cache) : after.Fresh failedAt stored := by
  cases moves with
  | hit found =>
    cases stores
    exact fresh found rfl
  | miss => trivial
  | fetched found =>
    cases stores
    exact failed
  | written found => exact fresh

theorem TaskStep.fresh {request : AuthRequest} {now : Nat} {cache stored : Option Snapshot}
    {before after : Task oidc} {event : CacheEvent oidc}
    (moves : TaskStep published request now before event after)
    (stores : CacheStep now cache event stored) (fresh : before.Fresh now cache) :
    after.Fresh (now + 1) stored := by
  cases moves with
  | first | undiscovered | exchanged | unanswered | tokenless | accepted | refused | lost => trivial
  | rejected => exact Nat.lt_succ_self now
  | invalidated failedAt idToken =>
    cases stores
    exact ⟨Nat.lt_succ_of_lt fresh, fun found member => nomatch member⟩
  | second failedAt idToken moves => exact ⟨Nat.lt_succ_of_lt fresh.1, moves.fresh stores fresh.1 fresh.2⟩
  | verified failedAt idToken found => exact fresh.2

theorem CacheStep.fresh {now : Nat} {cache stored : Option Snapshot} {event : CacheEvent oidc}
    {task : Task oidc} (stores : CacheStep now cache event stored)
    (keeps : ∀ found, event = .written found → ∀ failedAt idToken, task = .second failedAt idToken .read →
      failedAt < found.fetchedAt)
    (fresh : task.Fresh now cache) : task.Fresh (now + 1) stored := by
  cases task with
  | first | exchanged | ended => trivial
  | rejected => exact Nat.lt_succ_of_lt fresh
  | verified => exact fresh
  | second failedAt idToken stage =>
    refine ⟨Nat.lt_succ_of_lt fresh.1, ?_⟩
    cases stage with
    | fetch => trivial
    | write | got => exact fresh.2
    | read =>
      cases stores with
      | written _ put =>
        intro found member
        obtain rfl : put = found := Option.some.inj member
        exact keeps put rfl failedAt idToken rfl
      | invalidated => exact fun found member => nomatch member
      | hit | miss | fetched | unreachable | exchanged | unanswered | tokenless | checked => exact fresh.2

theorem World.Fresh.step {before after : World ι oidc} {event : ι × CacheEvent oidc}
    (fresh : before.Fresh) (steps : WorldStep published requests before event after)
    (keeps : KeepsFresh before event) : after.Fresh := by
  intro other
  cases steps with
  | @step task event moved cache moves stores =>
    by_cases same : other = task
    · subst same
      simp only [Function.update_self]
      exact moves.fresh stores (fresh other)
    · simp only [Function.update_of_ne same]
      exact stores.fresh (fun found written failedAt idToken waits =>
        keeps found written other failedAt idToken waits)
        (fresh other)

theorem World.Fresh.reached {world : World ι oidc}
    (reached : ((cacheSystem published requests).guard KeepsFresh).Reachable world) : world.Fresh := by
  refine reached.invariant ?_ ?_
  · intro world starts task
    rw [starts.2 task]
    trivial
  · intro before event after fresh steps
    exact fresh.step steps.1 steps.2

omit [DecidableEq ι] in
theorem World.Fresh.secondFresh {world : World ι oidc} (fresh : world.Fresh) :
    SecondFresh published requests world := by
  intro task failedAt idToken found verified
  have later : failedAt < found.fetchedAt := by
    have mine := fresh task
    rwa [verified] at mine
  refine ⟨later, fun code login _ trusted => ?_⟩
  obtain ⟨read, validated⟩ := trusted found.fetchedAt later
  refine ⟨sessionClaimsFromIdToken read, ?_⟩
  rw [verified]
  simp only [Task.flow, verifyAgain, validated]

theorem reachable_moved {world : World ι oidc}
    (reached : (cacheSystem published requests).Reachable world) (task : ι) {stands moved : Task oidc}
    {event : CacheEvent oidc} {cache : Option Snapshot} (here : world.tasks task = stands)
    (moves : TaskStep published (requests task) world.now stands event moved)
    (stores : CacheStep world.now world.cache event cache) :
    (cacheSystem published requests).Reachable ⟨world.now + 1, cache,
      Function.update world.tasks task moved⟩ := by
  subst here
  exact reached.step (.step moves stores)

theorem CacheStep.stored {now : Nat} {cache stored : Option Snapshot} {found : Snapshot}
    (stores : CacheStep now cache (.written found : CacheEvent oidc) stored) : stored = some found := by
  cases stores
  rfl

theorem stale_of_not_keepsFresh {before after : World ι oidc} {event : ι × CacheEvent oidc}
    (reached : (cacheSystem published requests).Reachable before)
    (steps : WorldStep published requests before event after) (stale : ¬KeepsFresh before event) :
    ∃ later, (cacheSystem published requests).Reachable later ∧ ¬SecondFresh published requests later := by
  simp only [KeepsFresh, not_forall] at stale
  obtain ⟨found, written, task, failedAt, idToken, waits, older⟩ := stale
  have next := reached.step steps
  cases steps with
  | @step writer event moved cache moves stores =>
    obtain rfl : event = .written found := written
    obtain rfl := stores.stored
    -- the writer is past its read, so it is another task than the one that waits
    have apart : task ≠ writer := by
      rintro rfl
      rw [waits] at moves
      cases moves with
      | second _ _ moves => cases moves
    have unmoved : Function.update before.tasks writer moved task = .second failedAt idToken .read := by
      rw [Function.update_of_ne apart, waits]
    have read := reachable_moved next task unmoved (.second failedAt idToken (.hit found)) (.hit found)
    have verified := reachable_moved read task (Function.update_self ..)
      (.verified failedAt idToken found) (.checked _)
    exact ⟨_, verified, fun fresh => older (fresh task failedAt idToken found (Function.update_self ..)).1⟩

theorem secondFresh_iff_keepsFresh (published : Nat → oidc.Provider) (requests : ι → AuthRequest) :
    (∀ world, ((cacheSystem published requests).guard KeepsFresh).Reachable world →
      SecondFresh published requests world) ∧
    ∀ before event after, (cacheSystem published requests).Reachable before →
      WorldStep published requests before event after → ¬KeepsFresh before event →
      ∃ later, (cacheSystem published requests).Reachable later ∧ ¬SecondFresh published requests later :=
  ⟨fun _ reached => (World.Fresh.reached reached).secondFresh, fun _ _ _ => stale_of_not_keepsFresh⟩

end

-- Tokens are signed with the new key, and only providers that publish it validate them.
def rotatingOidc : Oidc where
  Provider := Bool
  IdToken := Unit
  claims rotated _ _ := if rotated then .ok ⟨"alice", none, none, none, none⟩ else .error .noMatchingKey
  endSessionUrl _ := none

def rotatesAtFive (time : Nat) : rotatingOidc.Provider := (decide (5 ≤ time) : Bool)

def slowLogin : Bool → AuthRequest
  | false => .other
  | true => .callback "code" ⟨"st", "no", "ve", "/"⟩

def sideBySide (login callback : Task rotatingOidc) : Bool → Task rotatingOidc
  | false => login
  | true => callback

def slowSystem : System (World Bool rotatingOidc) (Bool × CacheEvent rotatingOidc) :=
  cacheSystem rotatesAtFive slowLogin

theorem login_moved {now : Nat} {cache stored : Option Snapshot}
    {login callback moved : Task rotatingOidc} {event : CacheEvent rotatingOidc}
    (reached : slowSystem.Reachable ⟨now, cache, sideBySide login callback⟩)
    (moves : TaskStep rotatesAtFive .other now login event moved)
    (stores : CacheStep now cache event stored) :
    slowSystem.Reachable ⟨now + 1, stored, sideBySide moved callback⟩ := by
  have same : Function.update (sideBySide login callback) false moved = sideBySide moved callback := by
    funext task
    cases task <;> rfl
  rw [← same]
  exact reachable_moved reached false rfl moves stores

theorem callback_moved {now : Nat} {cache stored : Option Snapshot} {login callback moved : Task rotatingOidc}
    {event : CacheEvent rotatingOidc} (reached : slowSystem.Reachable ⟨now, cache, sideBySide login callback⟩)
    (moves : TaskStep rotatesAtFive (slowLogin true) now callback event moved)
    (stores : CacheStep now cache event stored) :
    slowSystem.Reachable ⟨now + 1, stored, sideBySide login moved⟩ := by
  have same : Function.update (sideBySide login callback) true moved = sideBySide login moved := by
    funext task
    cases task <;> rfl
  rw [← same]
  exact reachable_moved reached true rfl moves stores

-- A login fetched the keys before the rotation and stores them between the clear of a callback and its
-- second read.
theorem not_secondFresh_slowLogin :
    ¬∀ world, slowSystem.Reachable world → SecondFresh rotatesAtFive slowLogin world := by
  intro always
  have start : slowSystem.Reachable ⟨0, none, sideBySide (.first .read) (.first .read)⟩ :=
    .start ⟨rfl, fun task => by cases task <;> rfl⟩
  have loginMissed := login_moved start (.first .miss) .miss
  have loginFetched := login_moved loginMissed (.first (.fetched ⟨1⟩)) (.fetched none)
  have missed := callback_moved loginFetched (.first .miss) .miss
  have fetched := callback_moved missed (.first (.fetched ⟨3⟩)) (.fetched none)
  have written := callback_moved fetched (.first (.written ⟨3⟩)) (.written none ⟨3⟩)
  have exchanged := callback_moved written (.exchanged rfl ⟨3⟩ ()) (.exchanged _ _)
  -- the provider publishes other keys by now, but the callback verifies under those of its read
  have failed := callback_moved exchanged (.rejected rfl rfl) (.checked (some ⟨3⟩))
  have cleared := callback_moved failed (.invalidated _ _) (.invalidated (some ⟨3⟩))
  have loginWritten := login_moved cleared (.first (.written ⟨1⟩)) (.written none ⟨1⟩)
  have read := callback_moved loginWritten (.second _ _ (.hit ⟨1⟩)) (.hit ⟨1⟩)
  have verified := callback_moved read (.verified _ _ ⟨1⟩) (.checked (some ⟨1⟩))
  have fresh := (always _ verified true 6 () ⟨1⟩ rfl).1
  exact absurd fresh (by decide)

end Yafm
