import Yafm.Files.Resolve
import Yafm.Http
import Mathlib.Data.List.Sort

set_option autoImplicit false

namespace Yafm

open Text Posix Effect

/-- What the handlers take from the standard library and the date library. -/
structure Platform where
  lowercase : String → String
  rfc3339 : Time → String
  parseRfc2822 : String → Option Int
  lossy : Bytes → String

structure AppConfig where
  sharedRoot : Path
  showHidden : Bool

def getAppConfig (config : Option AppConfig) : Except ApiError AppConfig :=
  match config with
  | some config => .ok config
  | none => .error (.unavailable "The shared directory is unavailable.")

structure AccessContext where
  access : AccessConfig
  groups : List String

def classifyEntry (metadata : Metadata) : EntryKind := if metadata.isDir then .directory else .file

def entryOrder (platform : Platform) (left right : DirectoryEntry) : Ordering :=
  match left.kind, right.kind with
  | .directory, .file => .lt
  | .file, .directory => .gt
  | _, _ => compare (platform.lowercase left.name) (platform.lowercase right.name)

def modifiedToIso (platform : Platform) (metadata : Metadata) : Option String :=
  metadata.modified.map platform.rfc3339

def childPath (relative name : String) : String := if relative = "" then name else relative ++ "/" ++ name

def isDir (path : Path) : Storage ApiError Bool := do
  match ← Fs.metadata (pathBuf path) with
  | .ok metadata => return metadata.isDir
  | .error _ => return false

def describeEntry (platform : Platform) (context : Option AccessContext) (child name : String)
    (metadata : Metadata) : DirectoryEntry :=
  let kind := classifyEntry metadata
  { name := name
    kind := kind
    canDelete := match kind with
      | .file => match context with
        | some context => canDelete context.access context.groups child
        -- without an access context nothing is enforced
        | none => true
      | .directory => false
    sizeBytes := match kind with
      | .file => some metadata.len
      | .directory => none
    modifiedAt := modifiedToIso platform metadata }

def listEntry (platform : Platform) (config : AppConfig) (context : Option AccessContext) (relative : String)
    (canonical : Path) (item : Name) : Storage ApiError (Option DirectoryEntry) := do
  let name := percentEncodeEntryName item.bytes
  let child := childPath relative name
  if !config.showHidden && startsWith "." name then return none
  else if context.any fun context => !isPathVisible context.access context.groups child then return none
  else
    match ← Fs.canonicalize (pathBuf canonical ++ [item.bytes]) with
    | .error _ => return none
    | .ok resolved =>
      match ensureWithinRoot config.sharedRoot resolved with
      | .error _ => return none
      | .ok _ =>
        match ← Fs.metadata (pathBuf resolved) with
        | .error _ => return none
        | .ok metadata => return some (describeEntry platform context child name metadata)

def listEntries (platform : Platform) (config : AppConfig) (context : Option AccessContext)
    (relative : String) (canonical : Path) : List Name → Storage ApiError (List DirectoryEntry)
  | [] => return []
  | item :: rest => do
    let entry ← listEntry platform config context relative canonical item
    let entries ← listEntries platform config context relative canonical rest
    return entry.toList ++ entries

def directory (platform : Platform) (config : Option AppConfig) (p : String)
    (context : Option AccessContext) :
    Storage ApiError Response := do
  let config ← Fallible.ofExcept (getAppConfig config)
  let relative ← Fallible.ofExcept (validateRelativePath p)
  let canonical ← canonicalEntryTarget config.sharedRoot relative
    "The requested directory could not be found."
  Fallible.ofExcept (ensureWithinRoot config.sharedRoot canonical)
  if !(← isDir canonical) then throw (.notFound "The requested directory could not be found.")
  match ← Fs.readDir (pathBuf canonical) with
  | .error _ => throw (.unavailable "The shared directory is unavailable.")
  | .ok _ =>
    match ← Fs.nextEntries (pathBuf canonical) with
    | .error _ => throw (.unavailable "The shared directory is unavailable.")
    | .ok items =>
      let entries ← listEntries platform config context relative canonical (items.map Prod.fst)
      let sorted := entries.insertionSort fun left right => entryOrder platform left right ≠ .gt
      return {
        status := 200
        headers := [("cache-control", "no-store")]
        body := .listing ⟨relative, parentPath relative, sorted⟩ }

end Yafm
