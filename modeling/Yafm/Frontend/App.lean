import Yafm.Files.Order
import Yafm.Shared.Transition

set_option autoImplicit false

namespace Yafm

open Text Posix Effect Transition

/-- What a fetch throws: only an HTTP error has a status, and only an error object a message. -/
structure FetchFailure where
  status : Option Nat
  message : Option String
  deriving DecidableEq, Repr

structure Exchange where
  path : String
  updateHistory : Bool
  answer : Option (Except FetchFailure DirectoryListing)

structure App where
  -- the parameter `p` of the URL, empty where there is none
  url : String
  currentPath : String
  entries : List DirectoryEntry
  errorMessage : String
  isLoading : Bool
  noAccess : Bool
  deleteTarget : Option DirectoryEntry
  -- the latest request first
  requests : List Exchange
  deletes : List (String × String)

namespace App

def setup (p : String) : App where
  url := p
  currentPath := ""
  entries := []
  errorMessage := ""
  isLoading := true
  noAccess := false
  deleteTarget := none
  requests := []
  deletes := []

def updateUrl (app : App) (path : String) : App := { app with url := path }

def closeDialog (app : App) : App := { app with deleteTarget := none }

-- `loadDirectory` up to the await.
def loadDirectory (app : App) (path : String) (updateHistory : Bool) : App :=
  { app with
    isLoading := true
    errorMessage := ""
    noAccess := false
    requests := ⟨path, updateHistory, none⟩ :: app.requests }

def showListing (app : App) (updateHistory : Bool) (listing : DirectoryListing) : App :=
  let shown := { app.closeDialog with
    currentPath := listing.currentPath
    entries := listing.entries
    isLoading := false }
  if updateHistory then shown.updateUrl listing.currentPath else shown

def showFailure (app : App) (path : String) (failure : FetchFailure) : App :=
  if failure.status = some 404 ∧ path = "" then
    { app with entries := [], noAccess := true, isLoading := false }
  else
    { app with
      entries := []
      errorMessage := failure.message.getD "The shared directory is unavailable."
      isLoading := false }

-- `loadDirectory` from the await on.
def directoryAnswered (app : App) (index : Nat) (exchange : Exchange)
    (answer : Except FetchFailure DirectoryListing) : App :=
  let app := { app with requests := app.requests.set index { exchange with answer := some answer } }
  match answer with
  | .ok listing => app.showListing exchange.updateHistory listing
  | .error failure => app.showFailure exchange.path failure

def openDirectory (app : App) (path : String) : App := app.loadDirectory path true

def goToRoot (app : App) : App := app.loadDirectory "" true

def startDeleteConfirmation (app : App) (entry : DirectoryEntry) : App :=
  { app with deleteTarget := some entry }

-- `confirmDelete` up to the await: the request goes out for the path that is shown.
def confirmDelete (app : App) (entry : DirectoryEntry) : App :=
  { app.closeDialog with deletes := app.deletes ++ [(app.currentPath, entry.name)] }

-- Whether the listing is loaded again: the file is gone, by this request or before it.
def reloads : Except FetchFailure Unit → Bool
  | .ok _ => true
  | .error failure => failure.status = some 404

-- `confirmDelete` from the await on.
def deleteAnswered (app : App) (index : Nat) (outcome : Except FetchFailure Unit) : App :=
  let app := { app with deletes := app.deletes.eraseIdx index }
  if reloads outcome then app.loadDirectory app.currentPath false
  else
    match outcome with
    | .ok _ => app
    | .error failure =>
      { app with errorMessage := failure.message.getD "The shared directory is unavailable." }

def popstate (app : App) (p : String) : App := (app.updateUrl p).loadDirectory p false

end App

inductive AppEvent where
  | openDirectory (path : String)
  | goToRoot
  | popstate (p : String)
  | startDeleteConfirmation (entry : DirectoryEntry)
  | cancelDelete
  | confirmDelete (entry : DirectoryEntry)
  | directoryAnswered (index : Nat) (answer : Except FetchFailure DirectoryListing)
  | deleteAnswered (index : Nat) (outcome : Except FetchFailure Unit)

-- A listing that the server may send for a path: it names the path as the server reads it.
def Answers (path : String) (listing : DirectoryListing) : Prop :=
  validateRelativePath path = .ok listing.currentPath

theorem directory_answers {disk : Disk} {platform : Platform} {config : Option AppConfig}
    {context : Option AccessContext} {p : String} (order : ReaddirOrder) {response : Response}
    {listing : DirectoryListing}
    (answered : (disk.runIn order (directory platform config p context)).1 = .ok response)
    (body : response.body = .listing listing) : Answers p listing := by
  rcases runIn_directory disk platform config context p with
    ⟨settings, relative, canonical, items, lists, ran⟩ | ⟨_, error, ran⟩
  · rw [ran, Except.ok.injEq] at answered
    subst answered
    cases body
    exact lists.validated
  · rw [ran] at answered
    cases answered

inductive AppStep : App → AppEvent → App → Prop
  | openDirectory (app : App) (path : String) : AppStep app (.openDirectory path) (app.openDirectory path)
  | goToRoot (app : App) : AppStep app .goToRoot app.goToRoot
  | popstate (app : App) (p : String) : AppStep app (.popstate p) (app.popstate p)
  | startDeleteConfirmation (app : App) (entry : DirectoryEntry) :
      AppStep app (.startDeleteConfirmation entry) (app.startDeleteConfirmation entry)
  | cancelDelete (app : App) : AppStep app .cancelDelete app.closeDialog
  | confirmDelete (app : App) (entry : DirectoryEntry) :
      AppStep app (.confirmDelete entry) (app.confirmDelete entry)
  | directoryAnswered (app : App) (index : Nat) (exchange : Exchange)
      (answer : Except FetchFailure DirectoryListing)
      (sent : app.requests[index]? = some exchange) (waits : exchange.answer = none)
      (answers : ∀ listing, answer = .ok listing → Answers exchange.path listing) :
      AppStep app (.directoryAnswered index answer) (app.directoryAnswered index exchange answer)
  | deleteAnswered (app : App) (index : Nat) (outcome : Except FetchFailure Unit)
      (sent : index < app.deletes.length) :
      AppStep app (.deleteAnswered index outcome) (app.deleteAnswered index outcome)

def appSystem : System App AppEvent where
  start app := ∃ p, app = (App.setup p).loadDirectory p false
  step := AppStep

-- No request is outstanding, and all have succeeded.
def App.Settled (app : App) : Prop :=
  ∀ exchange ∈ app.requests, ∃ listing, exchange.answer = some (.ok listing)

def NamesPath (p path : String) : Prop := p = path ∨ validateRelativePath p = .ok path

/-- A page at rest shows the listing of the latest request, and its URL names the path of that. -/
def LastNavigationWins (app : App) : Prop :=
  app.Settled → ∀ latest listing, app.requests.head? = some latest → latest.answer = some (.ok listing) →
    app.currentPath = listing.currentPath ∧ app.entries = listing.entries ∧
    NamesPath app.url listing.currentPath

def App.Outstanding (app : App) (index : Nat) : Prop :=
  ∃ exchange, app.requests[index]? = some exchange ∧ exchange.answer = none

-- The last response is that of the latest request. A response that goes into the URL finds the latest
-- request to be one that will go there as well. A reload after a delete finds the shown path in the URL.
def InTurn (app : App) : AppEvent → Prop
  | .directoryAnswered index (.ok _) =>
    ((∀ other, app.Outstanding other → other = index) → index = 0) ∧
      ∀ exchange latest, app.requests[index]? = some exchange → app.requests.head? = some latest →
        exchange.updateHistory → latest.updateHistory
  | .deleteAnswered _ outcome =>
    App.reloads outcome → validateRelativePath app.url = validateRelativePath app.currentPath
  | _ => True

structure App.Steady (app : App) : Prop where
  answers : ∀ exchange ∈ app.requests, ∀ listing, exchange.answer = some (.ok listing) →
    Answers exchange.path listing
  names : ∀ latest, app.requests.head? = some latest → latest.updateHistory = false →
    validateRelativePath app.url = validateRelativePath latest.path
  shows : app.Settled → ∀ latest listing, app.requests.head? = some latest →
    latest.answer = some (.ok listing) →
    app.currentPath = listing.currentPath ∧ app.entries = listing.entries ∧
      (latest.updateHistory → app.url = listing.currentPath)

theorem App.Steady.wins {app : App} (steady : app.Steady) : LastNavigationWins app := by
  intro settled latest listing first answered
  obtain ⟨path, entries, pushed⟩ := steady.shows settled latest listing first answered
  refine ⟨path, entries, ?_⟩
  by_cases history : latest.updateHistory
  · exact .inl (pushed history)
  · right
    rw [steady.names latest first (Bool.eq_false_iff.mpr history)]
    exact steady.answers latest (List.mem_of_head? first) listing answered

theorem App.loadDirectory_steady {app : App} {path : String} {updateHistory : Bool}
    (answers : ∀ exchange ∈ app.requests, ∀ listing, exchange.answer = some (.ok listing) →
      Answers exchange.path listing)
    (names : updateHistory = false → validateRelativePath app.url = validateRelativePath path) :
    (app.loadDirectory path updateHistory).Steady := by
  constructor
  · intro exchange member listing answered
    rcases List.mem_cons.mp member with rfl | earlier
    · cases answered
    · exact answers exchange earlier listing answered
  · rintro latest ⟨⟩ quiet
    exact names quiet
  · intro settled
    obtain ⟨listing, answered⟩ := settled ⟨path, updateHistory, none⟩ List.mem_cons_self
    cases answered

section

variable {app : App} {index : Nat} {exchange : Exchange} {answer : Except FetchFailure DirectoryListing}

theorem App.directoryAnswered_requests : (app.directoryAnswered index exchange answer).requests =
    app.requests.set index { exchange with answer := some answer } := by
  cases answer with
  | ok listing =>
    unfold App.directoryAnswered App.showListing
    dsimp only
    split <;> rfl
  | error failure =>
    unfold App.directoryAnswered App.showFailure
    dsimp only
    split <;> rfl

theorem App.directoryAnswered_url (quiet : ∀ listing, answer = .ok listing → exchange.updateHistory = false) :
    (app.directoryAnswered index exchange answer).url = app.url := by
  cases answer with
  | ok listing =>
    unfold App.directoryAnswered App.showListing
    dsimp only
    rw [quiet listing rfl, if_neg Bool.false_ne_true]
    rfl
  | error failure =>
    unfold App.directoryAnswered App.showFailure
    dsimp only
    split <;> rfl

theorem App.directoryAnswered_ok (listing : DirectoryListing) :
    let after := app.directoryAnswered index exchange (.ok listing)
    after.currentPath = listing.currentPath ∧ after.entries = listing.entries ∧
      (exchange.updateHistory → after.url = listing.currentPath) := by
  unfold App.directoryAnswered App.showListing
  dsimp only
  split
  · exact ⟨rfl, rfl, fun _ => rfl⟩
  next quiet => exact ⟨rfl, rfl, fun history => absurd history quiet⟩

theorem App.directoryAnswered_head (sent : app.requests[index]? = some exchange) {latest : Exchange}
    (first : (app.directoryAnswered index exchange answer).requests.head? = some latest) :
    (index = 0 ∧ latest = { exchange with answer := some answer }) ∨
    (index ≠ 0 ∧ app.requests.head? = some latest) := by
  rw [App.directoryAnswered_requests] at first
  cases requests : app.requests with
  | nil => simp [requests] at sent
  | cons newest rest =>
    rw [requests] at first
    cases index with
    | zero => exact .inl ⟨rfl, (Option.some.inj first).symm⟩
    | succ index => exact .inr ⟨Nat.succ_ne_zero index, first⟩

theorem App.Settled.outstanding (settled : (app.directoryAnswered index exchange answer).Settled) :
    ∀ other, app.Outstanding other → other = index := by
  rintro other ⟨waiting, sent, waits⟩
  by_contra apart
  have kept : (app.directoryAnswered index exchange answer).requests[other]? = some waiting := by
    rw [App.directoryAnswered_requests, List.getElem?_set_ne (Ne.symm apart), sent]
  obtain ⟨listing, answered⟩ := settled waiting (List.mem_of_getElem? kept)
  rw [waits] at answered
  cases answered

theorem App.Steady.directoryAnswered (steady : app.Steady) (sent : app.requests[index]? = some exchange)
    (answers : ∀ listing, answer = .ok listing → Answers exchange.path listing)
    (turn : InTurn app (.directoryAnswered index answer)) :
    (app.directoryAnswered index exchange answer).Steady := by
  constructor
  case answers =>
    intro other member listing answered
    rw [App.directoryAnswered_requests] at member
    rcases List.mem_or_eq_of_mem_set member with earlier | rfl
    · exact steady.answers other earlier listing answered
    · exact answers listing (Option.some.inj answered)
  case names =>
    intro latest first quiet
    rcases App.directoryAnswered_head sent first with ⟨rfl, rfl⟩ | ⟨_, earlier⟩
    · have history : exchange.updateHistory = false := quiet
      rw [App.directoryAnswered_url fun _ _ => history]
      exact steady.names exchange (by rw [List.head?_eq_getElem?, sent]) history
    · have unpushed : ∀ listing, answer = .ok listing → exchange.updateHistory = false := by
        rintro listing rfl
        refine Bool.eq_false_iff.mpr fun history => ?_
        rw [turn.2 exchange latest sent earlier history] at quiet
        cases quiet
      rw [App.directoryAnswered_url unpushed]
      exact steady.names latest earlier quiet
  case shows =>
    intro settled latest listing first answered
    have alone := settled.outstanding
    obtain ⟨shown, succeeded⟩ := settled { exchange with answer := some answer } (by
      rw [App.directoryAnswered_requests]
      exact List.mem_set (List.getElem?_eq_some_iff.mp sent).1 _)
    obtain rfl : answer = .ok shown := Option.some.inj succeeded
    rcases App.directoryAnswered_head sent first with ⟨rfl, rfl⟩ | ⟨later, _⟩
    · obtain rfl : shown = listing := by simpa using answered
      exact App.directoryAnswered_ok shown
    · exact absurd (turn.1 alone) later

end

theorem App.Steady.step {before after : App} {event : AppEvent} (steady : before.Steady)
    (steps : AppStep before event after) (turn : InTurn before event) : after.Steady := by
  cases steps with
  | openDirectory path => exact App.loadDirectory_steady steady.answers nofun
  | goToRoot => exact App.loadDirectory_steady steady.answers nofun
  | popstate p => exact App.loadDirectory_steady steady.answers fun _ => rfl
  | startDeleteConfirmation | cancelDelete | confirmDelete =>
    exact ⟨steady.answers, steady.names, steady.shows⟩
  | directoryAnswered index exchange answer sent waits answers =>
    exact steady.directoryAnswered sent answers turn
  | deleteAnswered index outcome sent =>
    unfold App.deleteAnswered
    dsimp only
    split
    next again => exact App.loadDirectory_steady steady.answers fun _ => turn again
    next => split <;> exact ⟨steady.answers, steady.names, steady.shows⟩

theorem lastNavigationWins {app : App} (reached : (appSystem.guard InTurn).Reachable app) :
    LastNavigationWins app := by
  apply App.Steady.wins
  refine reached.invariant ?_ fun before event after steady steps => steady.step steps.1 steps.2
  rintro app ⟨p, rfl⟩
  exact App.loadDirectory_steady nofun fun _ => rfl

def emptyListing (path : String) : DirectoryListing := ⟨path, parentPath path, []⟩

def rootPage : App :=
  ((App.setup "").loadDirectory "" false).directoryAnswered 0 ⟨"", false, none⟩ (.ok (emptyListing ""))

def openedTwice : App := (rootPage.openDirectory "a").openDirectory "b"

theorem openedTwice_reachable : (appSystem.guard InTurn).Reachable openedTwice := by
  have mounted : (appSystem.guard InTurn).Reachable ((App.setup "").loadDirectory "" false) :=
    .start ⟨"", rfl⟩
  have shown : (appSystem.guard InTurn).Reachable rootPage := by
    refine mounted.guarded (AppStep.directoryAnswered _ 0 ⟨"", false, none⟩
      (.ok (emptyListing "")) rfl rfl ?_)
      ⟨fun _ => rfl, ?_⟩
    · rintro _ ⟨⟩
      rfl
    · rintro _ _ ⟨⟩ ⟨⟩ history
      exact history
  have first := shown.guarded (AppStep.openDirectory rootPage "a") trivial
  exact first.guarded (AppStep.openDirectory (rootPage.openDirectory "a") "b") trivial

def inOrder : App :=
  (openedTwice.directoryAnswered 1 ⟨"a", true, none⟩ (.ok (emptyListing "a"))).directoryAnswered 0
    ⟨"b", true, none⟩
    (.ok (emptyListing "b"))

theorem lastNavigationWins_inOrder :
    (appSystem.guard InTurn).Reachable inOrder ∧ LastNavigationWins inOrder ∧ inOrder.currentPath = "b" := by
  have early : (appSystem.guard InTurn).Reachable
      (openedTwice.directoryAnswered 1 ⟨"a", true, none⟩ (.ok (emptyListing "a"))) := by
    refine openedTwice_reachable.guarded
      (AppStep.directoryAnswered _ 1 ⟨"a", true, none⟩ (.ok (emptyListing "a")) rfl rfl ?_) ⟨?_, ?_⟩
    · rintro _ ⟨⟩
      rfl
    · intro alone
      exact absurd (alone 0 ⟨⟨"b", true, none⟩, rfl, rfl⟩) Nat.zero_ne_one
    · rintro _ _ ⟨⟩ ⟨⟩ history
      exact history
  have reached : (appSystem.guard InTurn).Reachable inOrder := by
    refine early.guarded (AppStep.directoryAnswered _ 0 ⟨"b", true, none⟩ (.ok (emptyListing "b")) rfl rfl ?_)
      ⟨fun _ => rfl, ?_⟩
    · rintro _ ⟨⟩
      rfl
    · rintro _ _ ⟨⟩ ⟨⟩ history
      exact history
  exact ⟨reached, lastNavigationWins reached, rfl⟩

def outOfOrder : App :=
  (openedTwice.directoryAnswered 0 ⟨"b", true, none⟩ (.ok (emptyListing "b"))).directoryAnswered 1
    ⟨"a", true, none⟩
    (.ok (emptyListing "a"))

-- The listing that comes back last is shown, though another folder was opened after it.
theorem not_lastNavigationWins : ¬∀ app, appSystem.Reachable app → LastNavigationWins app := by
  intro always
  have reached : appSystem.Reachable outOfOrder := by
    refine .step (.step openedTwice_reachable.of_guard
      (AppStep.directoryAnswered openedTwice 0 ⟨"b", true, none⟩ (.ok (emptyListing "b")) rfl rfl ?_))
      (AppStep.directoryAnswered _ 1 ⟨"a", true, none⟩ (.ok (emptyListing "a")) rfl rfl ?_)
    · rintro _ ⟨⟩
      rfl
    · rintro _ ⟨⟩
      rfl
  have settled : outOfOrder.Settled := by
    have requests : outOfOrder.requests = [⟨"b", true, some (.ok (emptyListing "b"))⟩,
        ⟨"a", true, some (.ok (emptyListing "a"))⟩, ⟨"", false, some (.ok (emptyListing ""))⟩] := rfl
    intro exchange member
    simp only [requests, List.mem_cons, List.not_mem_nil, or_false] at member
    rcases member with rfl | rfl | rfl <;> exact ⟨_, rfl⟩
  have shown := (always outOfOrder reached settled _ (emptyListing "b") rfl rfl).1
  exact absurd shown (by decide)

end Yafm
