import Yafm.Files.Containment
import Yafm.Files.Readdir
import Yafm.Shared.Sorting

set_option autoImplicit false

namespace Yafm

open Text Posix Effect Sorting

section

variable (platform : Platform)

-- Directories first, and case-insensitively by name among entries of one kind.
def InListingOrder (left right : DirectoryEntry) : Prop :=
  left.kind = .directory ∧ right.kind = .file ∨
    left.kind = right.kind ∧ platform.lowercase left.name ≤ platform.lowercase right.name

theorem entryOrder_iff (left right : DirectoryEntry) :
    entryOrder platform left right ≠ .gt ↔ InListingOrder platform left right := by
  have names : compare (platform.lowercase left.name) (platform.lowercase right.name) ≠ .gt ↔
      platform.lowercase left.name ≤ platform.lowercase right.name := by
    rw [ne_eq, compare_gt_iff_gt]
    exact not_lt
  unfold entryOrder InListingOrder
  cases left.kind <;> cases right.kind <;> simp [names]

instance : Std.Total fun left right => entryOrder platform left right ≠ .gt where
  total left right := by
    rw [entryOrder_iff, entryOrder_iff, InListingOrder, InListingOrder]
    have names := le_total (platform.lowercase left.name) (platform.lowercase right.name)
    cases left.kind <;> cases right.kind <;> simp [names]

instance : IsTrans DirectoryEntry fun left right => entryOrder platform left right ≠ .gt where
  trans left middle right := by
    rw [entryOrder_iff, entryOrder_iff, entryOrder_iff, InListingOrder, InListingOrder, InListingOrder]
    have names : platform.lowercase left.name ≤ platform.lowercase middle.name →
        platform.lowercase middle.name ≤ platform.lowercase right.name →
        platform.lowercase left.name ≤ platform.lowercase right.name := le_trans
    cases left.kind <;> cases middle.kind <;> cases right.kind <;> simp_all

theorem ties_iff (left right : DirectoryEntry) :
    entryOrder platform left right ≠ .gt ∧ entryOrder platform right left ≠ .gt ↔
      left.kind = right.kind ∧ platform.lowercase left.name = platform.lowercase right.name := by
  rw [entryOrder_iff, entryOrder_iff, InListingOrder, InListingOrder]
  have names := le_antisymm_iff (a := platform.lowercase left.name) (b := platform.lowercase right.name)
  cases left.kind <;> cases right.kind <;> simp [names]

end

section

variable (disk : Disk) (platform : Platform) (config : AppConfig) (context : Option AccessContext)
  (relative : String)
  (canonical : Path)

/-- The caller may see the item, which leads into the shared directory and has metadata; the entry describes
it. -/
structure Shows (item : Name) (entry : DirectoryEntry) : Prop where
  listed : config.showHidden ∨ startsWith "." (percentEncodeEntryName item.bytes) = false
  visible : ∀ held, context = some held →
    isPathVisible held.access held.groups (childPath relative (percentEncodeEntryName item.bytes))
  found : ∃ resolved metadata, disk.canonicalize (pathBuf canonical ++ [item.bytes]) = .ok resolved ∧
    config.sharedRoot <+: resolved ∧ disk.stat (pathBuf resolved) = .ok metadata ∧
    entry = describeEntry platform context (childPath relative (percentEncodeEntryName item.bytes))
      (percentEncodeEntryName item.bytes) metadata

theorem listEntry_shows (item : Name) :
    ∃ shown, disk.run (listEntry platform config context relative canonical item) = (.ok shown, disk) ∧
      ∀ entry, shown = some entry ↔ Shows disk platform config context relative canonical item entry := by
  have seen : (context.any fun held => !isPathVisible held.access held.groups
        (childPath relative (percentEncodeEntryName item.bytes))) = false ↔
      ∀ held, context = some held →
        isPathVisible held.access held.groups (childPath relative (percentEncodeEntryName item.bytes)) := by
    cases context <;> simp
  unfold listEntry
  dsimp only
  split
  next hidden =>
    refine ⟨none, rfl, fun entry => ⟨nofun, fun shows => ?_⟩⟩
    simp only [Bool.and_eq_true, Bool.not_eq_true'] at hidden
    simpa [hidden] using shows.listed
  next listed =>
    split
    next refused =>
      refine ⟨none, rfl, fun entry => ⟨nofun, fun shows => ?_⟩⟩
      rw [seen.mpr shows.visible] at refused
      cases refused
    next visible =>
      have listed : config.showHidden ∨ startsWith "." (percentEncodeEntryName item.bytes) = false := by
        cases shown : config.showHidden <;> simp_all
      have visible := seen.mp (Bool.not_eq_true _ ▸ visible)
      rw [Disk.run_bind, run_canonicalize]
      dsimp only
      split
      next missing =>
        refine ⟨none, rfl, fun entry => ⟨nofun, fun shows => ?_⟩⟩
        obtain ⟨resolved, _, reached, _⟩ := shows.found
        rw [missing] at reached
        cases reached
      next resolved reached =>
        split
        next outside =>
          refine ⟨none, rfl, fun entry => ⟨nofun, fun shows => ?_⟩⟩
          obtain ⟨target, _, same, within, _⟩ := shows.found
          rw [reached, Except.ok.injEq] at same
          rw [same, (ensureWithinRoot_ok_iff _ _ ()).mpr within] at outside
          cases outside
        next within =>
          rw [Disk.run_bind, run_metadata]
          dsimp only
          split
          next missing =>
            refine ⟨none, rfl, fun entry => ⟨nofun, fun shows => ?_⟩⟩
            obtain ⟨target, _, same, _, there, _⟩ := shows.found
            rw [reached, Except.ok.injEq] at same
            rw [← same, missing] at there
            cases there
          next metadata there =>
            refine ⟨_, rfl, fun entry => ⟨?_, fun shows => ?_⟩⟩
            · rintro ⟨⟩
              exact ⟨listed, visible, resolved, metadata, reached,
                (ensureWithinRoot_ok_iff _ _ _).mp within, there, rfl⟩
            · obtain ⟨target, described, same, _, found, entry⟩ := shows.found
              rw [reached, Except.ok.injEq] at same
              rw [← same, there, Except.ok.injEq] at found
              rw [entry, found]

def shownEntry (item : Name) : Option DirectoryEntry :=
  (disk.run (listEntry platform config context relative canonical item)).1.toOption.join

theorem run_listEntry (item : Name) :
    disk.run (listEntry platform config context relative canonical item) =
      (.ok (shownEntry disk platform config context relative canonical item), disk) := by
  obtain ⟨shown, ran, _⟩ := listEntry_shows disk platform config context relative canonical item
  rw [shownEntry, ran]
  rfl

theorem shownEntry_iff (item : Name) (entry : DirectoryEntry) :
    shownEntry disk platform config context relative canonical item = some entry ↔
      Shows disk platform config context relative canonical item entry := by
  obtain ⟨shown, ran, shows⟩ := listEntry_shows disk platform config context relative canonical item
  rw [shownEntry, ran, ← shows]
  rfl

theorem listEntry_unordered (item : Name) :
    (listEntry platform config context relative canonical item).Only Op.Unordered := by
  unfold listEntry
  dsimp only
  split
  · simp
  · split
    · simp
    · apply Fallible.only_bind (Fallible.only_call trivial)
      intro resolved
      split
      · simp
      · split
        · simp
        · apply Fallible.only_bind (Fallible.only_call trivial)
          intro metadata
          split <;> simp

theorem listEntries_unordered (items : List Name) :
    (listEntries platform config context relative canonical items).Only Op.Unordered := by
  induction items with
  | nil => simp [listEntries]
  | cons item rest ih =>
    unfold listEntries
    apply Fallible.only_bind (listEntry_unordered platform config context relative canonical item)
    intro entry
    apply Fallible.only_bind ih
    simp

theorem run_listEntries (items : List Name) :
    disk.run (listEntries platform config context relative canonical items) =
      (.ok (items.filterMap (shownEntry disk platform config context relative canonical)), disk) := by
  induction items with
  | nil => rfl
  | cons item rest ih =>
    rw [listEntries, Disk.run_bind, run_listEntry]
    dsimp only
    rw [Disk.run_bind, ih, List.filterMap_cons]
    cases shownEntry disk platform config context relative canonical item <;> rfl

end

def Disk.isDirectory (disk : Disk) (path : Path) : Bool :=
  (disk.stat (pathBuf path)).toOption.any Metadata.isDir

theorem Disk.isDirectory_iff (disk : Disk) (path : Path) : disk.isDirectory path ↔ disk.hasDir path := by
  unfold Disk.isDirectory Disk.hasDir
  cases disk.stat (pathBuf path) <;> simp [Except.toOption]

theorem Disk.runIn_isDir (order : ReaddirOrder) (disk : Disk) (path : Path) :
    disk.runIn order (Yafm.isDir path) = (.ok (disk.isDirectory path), disk) := by
  rw [Yafm.isDir, Disk.isDirectory, Disk.runIn_bind, Disk.runIn_metadata]
  cases disk.stat (pathBuf path) <;> rfl

-- The items of a path that passes for a directory.
def Disk.listable (disk : Disk) (path : Path) : Except ApiError (List (Name × FileType)) :=
  if disk.isDirectory path then do
    let _ ← (disk.readDir (pathBuf path)).mapError fun _ =>
      .unavailable "The shared directory is unavailable."
    (disk.nextEntries (pathBuf path)).mapError fun _ => .unavailable "The shared directory is unavailable."
  else .error (.notFound "The requested directory could not be found.")

theorem Disk.listable_iff (disk : Disk) (path : Path) (items : List (Name × FileType)) :
    disk.listable path = .ok items ↔
      disk.hasDir path ∧ disk.readDir (pathBuf path) = .ok () ∧
      disk.nextEntries (pathBuf path) = .ok items := by
  rw [← disk.isDirectory_iff, Disk.listable]
  cases disk.isDirectory path with
  | false => exact iff_of_false nofun nofun
  | true =>
    simp only [if_true, bind_ok_iff, mapError_ok_iff, true_and]
    constructor
    · rintro ⟨_, opened, read⟩
      exact ⟨opened, read⟩
    · rintro ⟨opened, read⟩
      exact ⟨(), opened, read⟩

section

variable (disk : Disk) (platform : Platform) (config : Option AppConfig)
  (context : Option AccessContext) (p : String)

structure Lists (settings : AppConfig) (relative : String) (canonical : Path)
    (items : List (Name × FileType)) : Prop where
  configured : config = some settings
  validated : validateRelativePath p = .ok relative
  resolved : ∃ opened, Opens disk.canonicalize (pathBuf settings.sharedRoot) relative opened canonical
  within : settings.sharedRoot <+: canonical
  directory : ∃ metadata, disk.stat (pathBuf canonical) = .ok metadata ∧ metadata.isDir
  opened : disk.readDir (pathBuf canonical) = .ok ()
  read : disk.nextEntries (pathBuf canonical) = .ok items

/-- The request as far as the items of the directory, of which no order has been seen yet. -/
structure ListRequest where
  settings : AppConfig
  relative : String
  canonical : Path
  items : List (Name × FileType)

def requested : Except ApiError ListRequest := do
  let settings ← getAppConfig config
  let relative ← validateRelativePath p
  let canonical ← (disk.run (canonicalEntryTarget settings.sharedRoot relative
    "The requested directory could not be found.")).1
  ensureWithinRoot settings.sharedRoot canonical
  let items ← disk.listable canonical
  return ⟨settings, relative, canonical, items⟩

theorem canonicalTarget_iff (root : Path) (relative message : String) (canonical : Path) :
    (disk.run (canonicalEntryTarget root relative message)).1 = .ok canonical ↔
      ∃ opened, Opens disk.canonicalize (pathBuf root) relative opened canonical := by
  have kept := Disk.run_reads (canonicalEntryTarget_reads root relative message) disk
  have found := canonicalEntryTarget_ok_iff disk root relative message canonical disk
  constructor
  · intro asked
    exact (found.mp (Prod.ext asked kept)).2
  · intro opens
    rw [found.mpr ⟨rfl, opens⟩]

theorem requested_iff (settings : AppConfig) (relative : String) (canonical : Path)
    (items : List (Name × FileType)) :
    requested disk config p = .ok ⟨settings, relative, canonical, items⟩ ↔
      Lists disk config p settings relative canonical items := by
  simp only [requested, bind_ok_iff, ensureWithinRoot_ok_iff, Disk.listable_iff, canonicalTarget_iff, pure,
    Except.pure, Except.ok.injEq, ListRequest.mk.injEq]
  constructor
  · intro request
    obtain ⟨_, configured, _, validated, _, resolved, _, within, _, ⟨directory, opened, read⟩, rfl,
      rfl, rfl, rfl⟩ := request
    refine ⟨?_, validated, resolved, within, directory, opened, read⟩
    cases config with
    | none => cases configured
    | some given => rw [Except.ok.inj configured]
  · intro lists
    have configured : getAppConfig config = .ok settings := by
      rw [lists.configured]
      rfl
    exact ⟨settings, configured, relative, lists.validated, canonical, lists.resolved,
      (), lists.within, items, ⟨lists.directory, lists.opened, lists.read⟩, rfl, rfl, rfl, rfl⟩

theorem Lists.unique {disk : Disk} {config : Option AppConfig} {p relative spelling : String}
    {settings given : AppConfig} {canonical place : Path} {items members : List (Name × FileType)}
    (lists : Lists disk config p settings relative canonical items)
    (other : Lists disk config p given spelling place members) :
    given = settings ∧ spelling = relative ∧ place = canonical ∧ members = items := by
  have asked := (requested_iff ..).mpr other
  rw [(requested_iff ..).mpr lists, Except.ok.injEq] at asked
  cases asked
  exact ⟨rfl, rfl, rfl, rfl⟩

def listingOf (settings : AppConfig) (relative : String) (canonical : Path) (items : List (Name × FileType)) :
    DirectoryListing :=
  ⟨relative, parentPath relative,
    ((items.map Prod.fst).filterMap
      (shownEntry disk platform settings context relative canonical)).insertionSort
      fun left right => entryOrder platform left right ≠ .gt⟩

def listingResponse (settings : AppConfig) (relative : String) (canonical : Path)
    (items : List (Name × FileType)) : Response :=
  { status := 200
    headers := [("cache-control", "no-store")]
    body := .listing (listingOf disk platform context settings relative canonical items) }

theorem runIn_listEntries (order : ReaddirOrder) (settings : AppConfig) (relative : String) (canonical : Path)
    (items : List Name) :
    disk.runIn order (listEntries platform settings context relative canonical items) =
      (.ok (items.filterMap (shownEntry disk platform settings context relative canonical)), disk) := by
  rw [Disk.runIn_unordered order disk
    (listEntries_unordered platform settings context relative canonical items)]
  exact run_listEntries disk platform settings context relative canonical items

theorem runIn_directory_eq (order : ReaddirOrder) :
    disk.runIn order (directory platform config p context) =
      (requested disk config p >>= fun found =>
        .ok (listingResponse disk platform context found.settings found.relative
        found.canonical (order.arrange (pathBuf found.canonical) found.items)), disk) := by
  have target (settings : AppConfig) (relative : String) := Disk.runIn_reads order disk
    (canonicalEntryTarget_reads settings.sharedRoot relative "The requested directory could not be found.")
    (canonicalEntryTarget_only (fun path => (trivial : Op.Unordered (.canonicalize path))) _ _ _)
  rw [directory, requested]
  simp only [bind_assoc, pure_bind]
  refine Disk.runIn_bind_eq (Disk.runIn_ofExcept order disk _) fun settings => ?_
  refine Disk.runIn_bind_eq (Disk.runIn_ofExcept order disk _) fun relative => ?_
  refine Disk.runIn_bind_eq (target settings relative) fun canonical => ?_
  refine Disk.runIn_bind_eq (Disk.runIn_ofExcept order disk _) fun _ => ?_
  rw [Disk.runIn_bind, Disk.runIn_isDir, Disk.listable]
  cases disk.isDirectory canonical with
  | false => rfl
  | true =>
    cases opened : disk.readDir (pathBuf canonical) with
    | error error =>
      simp [Disk.runIn_bind, opened]
      rfl
    | ok =>
      cases read : disk.nextEntries (pathBuf canonical) with
      | error error =>
        simp [Disk.runIn_bind, opened, read]
        rfl
      | ok items =>
        have listed : (disk.nextEntries (pathBuf canonical)).map (order.arrange (pathBuf canonical)) =
            .ok (order.arrange (pathBuf canonical) items) := by rw [read]; rfl
        simp [Disk.runIn_bind, opened, listed, runIn_listEntries, listingResponse, listingOf]
        rfl

theorem runIn_directory :
    (∃ settings relative canonical items, Lists disk config p settings relative canonical items ∧
      ∀ order : ReaddirOrder, disk.runIn order (directory platform config p context) =
        (.ok (listingResponse disk platform context settings relative canonical
          (order.arrange (pathBuf canonical) items)), disk)) ∨
    (∀ settings relative canonical items, ¬Lists disk config p settings relative canonical items) ∧
      ∃ error, ∀ order : ReaddirOrder, disk.runIn order (directory platform config p context) =
        (.error error, disk) := by
  cases asked : requested disk config p with
  | error error =>
    refine Or.inr ⟨fun _ _ _ _ lists => ?_, error, fun order => ?_⟩
    · rw [(requested_iff ..).mpr lists] at asked
      cases asked
    · rw [runIn_directory_eq, asked]
      rfl
  | ok found =>
    refine Or.inl ⟨_, _, _, _, (requested_iff ..).mp asked, fun order => ?_⟩
    rw [runIn_directory_eq, asked]
    rfl

structure DeterministicListing : Prop where
  same : ∀ order other : ReaddirOrder, (disk.runIn order (directory platform config p context)).1 =
    (disk.runIn other (directory platform config p context)).1
  sorted : ∀ (order : ReaddirOrder) response listing,
    (disk.runIn order (directory platform config p context)).1 = .ok response →
    response.body = .listing listing →
    listing.entries.Pairwise (InListingOrder platform)

-- No two entries of one kind that differ are shown under names that only differ in case.
def NamesApart : Prop :=
  ∀ settings relative canonical items, Lists disk config p settings relative canonical items →
    ∀ item ∈ items.map Prod.fst, ∀ other ∈ items.map Prod.fst, ∀ left right,
      Shows disk platform settings context relative canonical item left →
      Shows disk platform settings context relative canonical other right →
      left.kind = right.kind → platform.lowercase left.name = platform.lowercase right.name → left = right

variable {disk platform config context p}

theorem sorted_listing (order : ReaddirOrder) {response : Response} {listing : DirectoryListing}
    (answered : (disk.runIn order (directory platform config p context)).1 = .ok response)
    (body : response.body = .listing listing) : listing.entries.Pairwise (InListingOrder platform) := by
  rcases runIn_directory disk platform config context p with
    ⟨settings, relative, canonical, items, _, ran⟩ | ⟨_, error, ran⟩
  · rw [ran, Except.ok.injEq] at answered
    subst answered
    cases body
    exact (List.pairwise_insertionSort _ _).imp fun ordered =>
      (entryOrder_iff platform _ _).mp (by simpa using ordered)
  · rw [ran] at answered
    cases answered

theorem same_listing (apart : NamesApart disk platform config context p) (order other : ReaddirOrder) :
    (disk.runIn order (directory platform config p context)).1 =
      (disk.runIn other (directory platform config p context)).1 := by
  rcases runIn_directory disk platform config context p with
    ⟨settings, relative, canonical, items, lists, ran⟩ | ⟨_, error, ran⟩
  · have perm :=
      ((order.perm (pathBuf canonical) items).trans (other.perm (pathBuf canonical) items).symm).map Prod.fst
    rw [ran, ran, listingResponse, listingResponse, listingOf, listingOf]
    rw [insertionSort_eq_of_perm
      (perm.filterMap (shownEntry disk platform settings context relative canonical))]
    intro left here right there before after
    obtain ⟨item, member, shown⟩ := List.mem_filterMap.mp here
    obtain ⟨twin, inside, seen⟩ := List.mem_filterMap.mp there
    have items (item : Name) : item ∈ (order.arrange (pathBuf canonical) items).map Prod.fst ↔
        item ∈ items.map Prod.fst :=
      ((order.perm (pathBuf canonical) items).map Prod.fst).mem_iff
    obtain ⟨kind, name⟩ := (ties_iff platform left right).mp ⟨by simpa using before, by simpa using after⟩
    exact apart settings relative canonical _ lists item ((items item).mp member) twin
      ((items twin).mp inside) left right
      ((shownEntry_iff ..).mp shown) ((shownEntry_iff ..).mp seen) kind name
  · rw [ran, ran]

theorem exists_perm_pair {α : Type} {members : List α} {a b : α} (here : a ∈ members) (there : b ∈ members)
    (apart : a ≠ b) : ∃ rest, members.Perm (a :: b :: rest) := by
  obtain ⟨front, back, rfl⟩ := List.mem_iff_append.mp here
  have perm : (front ++ a :: back).Perm (a :: (front ++ back)) := List.perm_middle
  obtain same | elsewhere := List.mem_cons.mp (perm.mem_iff.mp there)
  · exact absurd same.symm apart
  · obtain ⟨early, late, cut⟩ := List.mem_iff_append.mp elsewhere
    rw [cut] at perm
    exact ⟨early ++ late, perm.trans (List.perm_middle.cons a)⟩

theorem namesApart_of_same (same : ∀ order other : ReaddirOrder,
      (disk.runIn order (directory platform config p context)).1 =
        (disk.runIn other (directory platform config p context)).1) : NamesApart disk
          platform config context p := by
  intro settings relative canonical items lists item member other inside left right shows seen kind name
  have first := (shownEntry_iff ..).mpr shows
  have second := (shownEntry_iff ..).mpr seen
  by_cases twin : item = other
  · subst twin
    rw [first, Option.some.injEq] at second
    exact second
  obtain ⟨a, memberA, rfl⟩ := List.mem_map.mp member
  obtain ⟨b, memberB, rfl⟩ := List.mem_map.mp inside
  obtain ⟨rest, perm⟩ := exists_perm_pair memberA memberB fun same => twin (congrArg Prod.fst same)
  -- two systems, which return one of the two items right before or right after the other
  obtain ⟨order, arranged⟩ := ReaddirOrder.exists_arrange (pathBuf canonical) perm.symm
  obtain ⟨swapped, rearranged⟩ :=
    ReaddirOrder.exists_arrange (pathBuf canonical) ((List.Perm.swap ..).trans perm.symm)
  rcases runIn_directory disk platform config context p with ⟨_, _, _, _, listed, ran⟩ | ⟨unlisted, _⟩
  · obtain ⟨rfl, rfl, rfl, rfl⟩ := lists.unique listed
    have alike := same order swapped
    rw [ran, ran, arranged, rearranged] at alike
    simp only [listingResponse, listingOf, Except.ok.injEq, Response.mk.injEq, Body.listing.injEq,
      DirectoryListing.mk.injEq, true_and, List.map_cons, List.filterMap_cons, first, second] at alike
    obtain ⟨before, after⟩ := (ties_iff platform left right).mpr ⟨kind, name⟩
    exact eq_of_insertionSort_swap alike before after
  · exact (unlisted _ _ _ _ lists).elim

end

theorem deterministicListing_iff (disk : Disk) (platform : Platform) (config : Option AppConfig)
    (context : Option AccessContext) (p : String) :
    DeterministicListing disk platform config context p ↔ NamesApart disk platform config context p := by
  constructor
  · intro deterministic
    exact namesApart_of_same deterministic.same
  · intro apart
    exact ⟨same_listing apart, fun order _ _ => sorted_listing order⟩

def casePlatform : Platform :=
  { noPlatform with lowercase := fun name => String.ofList (name.toList.map Char.toLower) }

theorem neverFails (op : Op) : (fun _ => none : Op → Option IoError) op ≠ some .notFound := nofun

def caseDisk : Disk :=
  { tree := .dir [
      (entryName "pub", .dir [(entryName "A.txt", .file [1]), (entryName "a.txt", .file [])])]
    modified := fun _ => none
    clock := fun _ => none
    nameMax := some 255
    faults := fun _ => none
    present := neverFails }

theorem not_deterministicListing :
    ¬∀ disk platform config context p, DeterministicListing disk platform config context p := by
  intro always
  have apart := namesApart_of_same
    (always caseDisk casePlatform (some ⟨[entryName "pub"], true⟩) none "").same
  have lists :
      Lists caseDisk (some ⟨[entryName "pub"], true⟩) "" ⟨[entryName "pub"], true⟩ "" [entryName "pub"]
      [(entryName "A.txt", .file), (entryName "a.txt", .file)] :=
    { configured := rfl
      validated := rfl
      resolved := ⟨_, rfl, Or.inl rfl⟩
      within := List.prefix_refl _
      directory := ⟨_, rfl, rfl⟩
      opened := rfl
      read := rfl }
  have upper :
      Shows caseDisk casePlatform ⟨[entryName "pub"], true⟩ none "" [entryName "pub"] (entryName "A.txt")
      ⟨"A.txt", .file, true, some 1, none⟩ :=
    ⟨Or.inl rfl, nofun, _, _, rfl, by decide, rfl, rfl⟩
  have lower :
      Shows caseDisk casePlatform ⟨[entryName "pub"], true⟩ none "" [entryName "pub"] (entryName "a.txt")
      ⟨"a.txt", .file, true, some 0, none⟩ :=
    ⟨Or.inl rfl, nofun, _, _, rfl, by decide, rfl, rfl⟩
  have same := apart _ _ _ _ lists _ (by decide) _ (by decide) _ _ upper lower rfl rfl
  exact absurd (congrArg DirectoryEntry.sizeBytes same) nofun

end Yafm
