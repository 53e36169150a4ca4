import Yafm.Files.Delete
import Yafm.Files.Download

set_option autoImplicit false

namespace Yafm

open Text Posix Effect

-- The root the server shares: a directory, named without links.
def Disk.Shares (disk : Disk) (root : Path) : Prop := ∃ entries, disk.tree.get root = some (.dir entries)

-- An entry below the root (or the root itself) that no link was followed past.
def Disk.Inside (disk : Disk) (root path : Path) : Prop := root <+: path ∧ disk.tree.Canonical path

theorem Disk.Shares.isDir {disk : Disk} {root : Path} (shares : disk.Shares root) : disk.tree.isDir := by
  obtain ⟨entries, found⟩ := shares
  by_cases top : root = []
  · subst top
    rw [Node.get_nil, Option.some.injEq] at found
    rw [found]
    rfl
  · exact Node.isDir_of_get_append (Node.get_nil _) top (by simp [found])

theorem target_inside {disk after : Disk} {root : Path} {relative message : String} {canonical : Path}
    (shares : disk.Shares root)
    (reached : disk.run (canonicalEntryTarget root relative message) = (.ok canonical, after))
    (within : root <+: canonical) : after = disk ∧ disk.Inside root canonical := by
  obtain ⟨same, opened, found, _⟩ :=
    (canonicalEntryTarget_ok_iff disk root relative message canonical after).mp reached
  exact ⟨same, within, Disk.canonicalize_ok shares.isDir found⟩

theorem openDownloadTarget_inside {disk after : Disk} {canonical : Path} {opened : Bytes × Metadata}
    (inside : disk.tree.Canonical canonical)
    (ran : disk.run (openDownloadTarget canonical) = (.ok opened, after)) :
    after = disk ∧ ∃ content, disk.tree.get canonical = some (.file content) ∧
      opened = (content, disk.metadata (canonical, .file content)) := by
  unfold openDownloadTarget at ran
  obtain ⟨expected, middle, asked, checked⟩ := Disk.run_bind_ok ran
  rw [run_metadata] at asked
  cases asked
  split at checked
  · cases checked
  next metadata stated =>
    obtain ⟨handle, middle, asked, verified⟩ := Disk.run_bind_ok checked
    rw [run_openFile] at asked
    cases asked
    split at verified
    · cases verified
    next file held =>
      obtain ⟨described, middle, asked, compared⟩ := Disk.run_bind_ok verified
      rw [run_fileMetadata] at asked
      cases asked
      split at compared
      · cases compared
      next metadata told =>
        obtain rfl := Disk.fileMetadata_ok told
        split at compared
        · cases compared
        next regular =>
          cases compared
          obtain ⟨node, present, rfl⟩ := Disk.openFile_canonical inside held
          have isFile : (disk.metadata (canonical, node)).isFile := by
            by_contra other
            simp [other] at regular
          obtain ⟨content, rfl⟩ := Disk.isFile_metadata isFile
          exact ⟨rfl, content, present, rfl⟩

theorem downloadTarget_inside {disk after : Disk} {config : AppConfig} {p : String}
    {opened : Path × Bytes × Metadata} (shares : disk.Shares config.sharedRoot)
    (ran : disk.run (downloadTarget (some config) p) = (.ok opened, after)) :
    after = disk ∧ disk.Inside config.sharedRoot opened.1 ∧ ∃ content,
      disk.tree.get opened.1 = some (.file content) ∧
      opened.2 = (content, disk.metadata (opened.1, .file content)) := by
  unfold downloadTarget at ran
  obtain ⟨_, _, asked, ran1⟩ := Disk.run_bind_ok ran
  obtain ⟨got, rfl⟩ := Disk.run_ofExcept_ok asked
  cases got
  obtain ⟨relative, _, asked, ran2⟩ := Disk.run_bind_ok ran1
  obtain ⟨_, rfl⟩ := Disk.run_ofExcept_ok asked
  split at ran2
  · cases ran2
  · obtain ⟨canonical, middle, reached, ran3⟩ := Disk.run_bind_ok ran2
    obtain ⟨_, middle, asked, ran4⟩ := Disk.run_bind_ok ran3
    obtain ⟨granted, rfl⟩ := Disk.run_ofExcept_ok asked
    obtain ⟨rfl, inside⟩ := target_inside shares reached ((ensureWithinRoot_ok_iff _ _ _).mp granted)
    obtain ⟨file, _, asked, ran5⟩ := Disk.run_bind_ok ran4
    obtain ⟨rfl, held⟩ := openDownloadTarget_inside inside.2 asked
    cases ran5
    exact ⟨rfl, inside, held⟩

theorem downloadInner_inside {disk after : Disk} {platform : Platform} {config : AppConfig}
    {headers : HeaderMap} {p : String} {response : Response} (shares : disk.Shares config.sharedRoot)
    (ran : disk.run (downloadInner platform (some config) headers p) = (.ok response, after)) :
    after = disk ∧ ∃ canonical content, disk.Inside config.sharedRoot canonical ∧
      disk.tree.get canonical = some (.file content) ∧
      response = downloadResponse platform headers canonical content
        (disk.metadata (canonical, .file content)) := by
  unfold downloadInner at ran
  obtain ⟨⟨canonical, file, metadata⟩, _, asked, ended⟩ := Disk.run_bind_ok ran
  obtain ⟨rfl, inside, content, present, same⟩ := downloadTarget_inside shares asked
  dsimp only at inside present same
  obtain ⟨rfl, rfl⟩ := Prod.mk.inj same
  cases ended
  exact ⟨rfl, canonical, file, inside, present, rfl⟩

-- The entry shows an item of the directory whose target, with every link followed, is under the root.
def ShowsInside (disk : Disk) (root canonical : Path) (item : Name) (entry : DirectoryEntry) : Prop :=
  entry.name = percentEncodeEntryName item.bytes ∧
    ∃ resolved, disk.canonicalize (pathBuf canonical ++ [item.bytes]) = .ok resolved ∧
    disk.Inside root resolved

section

variable {platform : Platform} {config : AppConfig} {context : Option AccessContext} {relative : String}
  {canonical : Path}

theorem listEntry_inside {disk after : Disk} {item : Name} {shown : Option DirectoryEntry}
    (directory : disk.tree.isDir)
    (ran : disk.run (listEntry platform config context relative canonical item) = (.ok shown, after)) :
    after = disk ∧ ∀ entry ∈ shown, ShowsInside disk config.sharedRoot canonical item entry := by
  unfold listEntry at ran
  dsimp only at ran
  split at ran
  · cases ran
    simp
  · split at ran
    · cases ran
      simp
    · obtain ⟨target, _, asked, ran⟩ := Disk.run_bind_ok ran
      rw [run_canonicalize] at asked
      cases asked
      split at ran
      · cases ran
        simp
      next resolved reached =>
        split at ran
        · cases ran
          simp
        next within =>
          obtain ⟨found, _, asked, ran⟩ := Disk.run_bind_ok ran
          rw [run_metadata] at asked
          cases asked
          split at ran
          · cases ran
            simp
          · cases ran
            refine ⟨rfl, ?_⟩
            rintro entry ⟨⟩
            exact ⟨rfl, resolved, reached, (ensureWithinRoot_ok_iff _ _ _).mp within,
              Disk.canonicalize_ok directory reached⟩

theorem listEntries_inside {disk after : Disk} {items : List Name} {entries : List DirectoryEntry}
    (directory : disk.tree.isDir)
    (ran : disk.run (listEntries platform config context relative canonical items) = (.ok entries, after)) :
    after = disk ∧ ∀ entry ∈ entries, ∃ item ∈ items,
      ShowsInside disk config.sharedRoot canonical item entry := by
  induction items generalizing entries after with
  | nil =>
    cases ran
    simp
  | cons item rest ih =>
    unfold listEntries at ran
    obtain ⟨shown, _, asked, rest⟩ := Disk.run_bind_ok ran
    obtain ⟨rfl, here⟩ := listEntry_inside directory asked
    obtain ⟨others, _, onward, ended⟩ := Disk.run_bind_ok rest
    obtain ⟨rfl, there⟩ := ih onward
    cases ended
    refine ⟨rfl, ?_⟩
    intro entry member
    rcases List.mem_append.mp member with first | later
    · exact ⟨item, by simp, here entry (by simpa using first)⟩
    · obtain ⟨other, inside, shows⟩ := there entry later
      exact ⟨other, List.mem_cons_of_mem _ inside, shows⟩

end

theorem directory_inside {disk after : Disk} {platform : Platform} {config : AppConfig} {p : String}
    {context : Option AccessContext} {response : Response} (shares : disk.Shares config.sharedRoot)
    (ran : disk.run (directory platform (some config) p context) = (.ok response, after)) :
    after = disk ∧ ∃ canonical items listing, disk.Inside config.sharedRoot canonical ∧
      disk.tree.get canonical = some (.dir items) ∧ response.body = .listing listing ∧
      ∀ entry ∈ listing.entries, ∃ item ∈ items, ShowsInside disk config.sharedRoot
        canonical item.1 entry := by
  unfold directory at ran
  obtain ⟨_, _, asked, configured⟩ := Disk.run_bind_ok ran
  obtain ⟨got, rfl⟩ := Disk.run_ofExcept_ok asked
  cases got
  obtain ⟨relative, _, asked, validated⟩ := Disk.run_bind_ok configured
  obtain ⟨_, rfl⟩ := Disk.run_ofExcept_ok asked
  obtain ⟨canonical, _, reached, resolved⟩ := Disk.run_bind_ok validated
  obtain ⟨_, _, asked, contained⟩ := Disk.run_bind_ok resolved
  obtain ⟨granted, rfl⟩ := Disk.run_ofExcept_ok asked
  obtain ⟨rfl, inside⟩ := target_inside shares reached ((ensureWithinRoot_ok_iff _ _ _).mp granted)
  obtain ⟨directory, _, asked, classified⟩ := Disk.run_bind_ok contained
  obtain ⟨rfl, _⟩ := (Disk.isDir_ok_iff _ _ _ _).mp asked
  split at classified
  · cases classified
  · obtain ⟨opened, _, asked, readable⟩ := Disk.run_bind_ok classified
    rw [run_readDir] at asked
    cases asked
    split at readable
    · cases readable
    · obtain ⟨read, _, asked, iterated⟩ := Disk.run_bind_ok readable
      rw [run_nextEntries] at asked
      cases asked
      split at iterated
      · cases iterated
      next items read =>
        obtain ⟨entries, _, asked, ended⟩ := Disk.run_bind_ok iterated
        obtain ⟨rfl, shows⟩ := listEntries_inside shares.isDir asked
        obtain ⟨nodes, present, same⟩ := Disk.nextEntries_canonical inside.2 read
        cases ended
        refine ⟨rfl, canonical, nodes, _, inside, present, rfl, ?_⟩
        intro entry member
        obtain ⟨name, named, shown⟩ := shows entry ((List.mem_insertionSort _).mp member)
        rw [same, Disk.listing, List.map_map, List.mem_map] at named
        obtain ⟨item, listed, rfl⟩ := named
        exact ⟨item, listed, shown⟩

theorem deleteFile_inside {disk after : Disk} {config : AppConfig} {p : String}
    {context : Option AccessContext} {response : Response} (shares : disk.Shares config.sharedRoot)
    (ran : disk.run (deleteFile (some config) p context) = (.ok response, after)) :
    ∃ parent name content, disk.Inside config.sharedRoot parent ∧
      disk.tree.get (parent ++ [name]) = some (.file content) ∧
      ∀ query, (after.tree.get query).map Node.kind =
        if query = parent ++ [name] then none else (disk.tree.get query).map Node.kind := by
  obtain ⟨_, relative, parent, target, gone, _, removable, taken, rfl⟩ :=
    (deleteFile_ok_iff _ _ _ _ _ _).mp ran
  obtain ⟨opened, found, _⟩ := removable.resolved
  have canonical := Disk.canonicalize_ok shares.isDir found
  obtain ⟨name, content, _, present, rfl⟩ := removable.removed canonical taken
  exact ⟨parent, name, content, ⟨removable.within, canonical⟩, present,
    kind_get_remove (by simp) present rfl⟩

theorem handlers_inside (platform : Platform) (disk : Disk) (config : AppConfig) (p : String)
    (context : Option AccessContext) (headers : HeaderMap) (shares : disk.Shares config.sharedRoot) :
    (∀ response after, disk.run (downloadInner platform (some config) headers p) = (.ok response, after) →
      after = disk ∧ ∃ canonical content, disk.Inside config.sharedRoot canonical ∧
        disk.tree.get canonical = some (.file content) ∧
        response = downloadResponse platform headers canonical content
          (disk.metadata (canonical, .file content))) ∧
    (∀ response after, disk.run (directory platform (some config) p context) = (.ok response, after) →
      after = disk ∧ ∃ canonical items listing, disk.Inside config.sharedRoot canonical ∧
        disk.tree.get canonical = some (.dir items) ∧ response.body = .listing listing ∧
        ∀ entry ∈ listing.entries, ∃ item ∈ items, ShowsInside disk config.sharedRoot
          canonical item.1 entry) ∧
    (∀ response after, disk.run (deleteFile (some config) p context) = (.ok response, after) →
      ∃ parent name content, disk.Inside config.sharedRoot parent ∧
        disk.tree.get (parent ++ [name]) = some (.file content) ∧
        ∀ query, (after.tree.get query).map Node.kind =
          if query = parent ++ [name] then none else (disk.tree.get query).map Node.kind) ∧
    (∀ error after, disk.run (deleteFile (some config) p context) = (.error error, after) → after = disk) :=
  ⟨fun _ _ ran => downloadInner_inside shares ran, fun _ _ ran => directory_inside shares ran,
    fun _ _ ran => deleteFile_inside shares ran, fun _ _ ran => deleteFile_error ran⟩

def entryName (name : String) (valid : ValidName (asBytes name) := by decide) : Name := ⟨asBytes name, valid⟩

def linkedDisk : Disk :=
  { tree := .dir [
      (entryName "srv", .dir [(entryName "a", .file [1]), (entryName "up", .symlink (asBytes "/etc"))]),
      (entryName "etc", .dir [(entryName "key", .file [2])])]
    modified := fun _ => none
    clock := fun _ => none
    nameMax := some 255
    faults := fun _ => none
    present := fun _ => by simp }

def noPlatform : Platform := ⟨id, fun _ => "", fun _ => none, fun _ => ""⟩

def linkedListing : Response where
  status := 200
  headers := [("cache-control", "no-store")]
  body := .listing ⟨"", none, [⟨"a", .file, true, some 1, none⟩]⟩

theorem handlers_inside_linked :
    linkedDisk.run (directory noPlatform (some ⟨[entryName "srv"], true⟩) "" none) =
      (.ok linkedListing, linkedDisk) ∧
      ∃ canonical items listing, linkedDisk.Inside [entryName "srv"] canonical ∧
        linkedDisk.tree.get canonical = some (.dir items) ∧ linkedListing.body = .listing listing ∧
        ∀ entry ∈ listing.entries, ∃ item ∈ items,
          ShowsInside linkedDisk [entryName "srv"] canonical item.1 entry := by
  have ran : linkedDisk.run (directory noPlatform (some ⟨[entryName "srv"], true⟩) "" none) =
      (.ok linkedListing, linkedDisk) := rfl
  have touched := handlers_inside noPlatform linkedDisk ⟨[entryName "srv"], true⟩ "" none [] ⟨_, rfl⟩
  exact ⟨ran, (touched.2.1 _ _ ran).2⟩

end Yafm
