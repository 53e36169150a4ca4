import Yafm.Files.Download
import Yafm.Files.Directory
import Yafm.Files.Delete
import Yafm.Store.View

set_option autoImplicit false

-- The answer to a request as a matter of the catalog alone: no path is resolved, nothing is opened.

namespace Yafm

open Text Posix Effect

inductive Wish where
  | list
  | fetch
  | erase
  deriving DecidableEq, Repr

/-- What becomes of a wish; one that is granted says what it is granted on. -/
inductive Outcome (catalog : Catalog Name Bytes) where
  | refused (error : ApiError)
  | lists (path : Path)
  | gives (path : Path) (content : Bytes)
  | erases (path : Path) (file : catalog.isFile path)

def address (relative : String) : Catalog.Address ApiError Name :=
  ⟨steps ((split '/' relative).map asBytes), (percentDecodeRelativePath relative).map steps⟩

def refusalError (message : String) : Catalog.Refusal ApiError → ApiError
  | .missing => .notFound message
  | .blocked => .unavailable "The shared directory is unavailable."
  | .undecodable error => error

def missingDirectory : String := "The requested directory could not be found."

def missingFile : String := "The requested file could not be found."

section

variable (catalog : Catalog Name Bytes) (context : AccessContext) (relative : String)

def listOutcome : Outcome catalog :=
  match catalog.locate [] (address relative) with
  | .error refusal => .refused (refusalError missingDirectory refusal)
  | .ok path =>
    match catalog.entry path with
    | some .directory => .lists path
    | _ => .refused (.notFound missingDirectory)

def fetchOutcome : Outcome catalog :=
  if relative = "" then .refused (.badRequest "The requested path is invalid.")
  else
    match catalog.locate [] (address relative) with
    | .error refusal => .refused (refusalError missingFile refusal)
    | .ok path =>
      match catalog.entry path with
      | some (.file content) => .gives path content
      | _ => .refused (.notFound missingFile)

-- The directory is found first, and the name in it, each spelled one way or the other.
def eraseOutcome : Outcome catalog :=
  if relative = "" then .refused (.badRequest "The requested path is invalid.")
  else if !canDelete context.access context.groups relative then
    .refused (.forbidden "The requested file cannot be deleted with this account.")
  else
    match catalog.locate [] (address (parentAndName relative).1) with
    | .error refusal => .refused (refusalError missingFile refusal)
    | .ok here =>
      match catalog.entry here with
      | some .directory =>
        match catalog.locate here (address (parentAndName relative).2) with
        | .error refusal => .refused (refusalError missingFile refusal)
        | .ok path =>
          match found : catalog.entry path with
          | some (.file content) => .erases path ⟨content, found⟩
          | _ =>
            .refused (.badRequest "Only regular files can be deleted; directories and symlinks are refused.")
      | _ => .refused (.notFound missingFile)

def Wish.outcome : Wish → Outcome catalog
  | .list => listOutcome catalog relative
  | .fetch => fetchOutcome catalog relative
  | .erase => eraseOutcome catalog context relative

end

def Outcome.after {catalog : Catalog Name Bytes} : Outcome catalog → Catalog Name Bytes
  | .erases path file => catalog.erase path file
  | _ => catalog

/-- What of a share the catalog leaves out. -/
structure Rendering where
  platform : Platform
  sharedRoot : Path
  showHidden : Bool
  modified : Path → Option Time
  -- the times at which the coming removals are made
  clock : Nat → Option Time

-- A removal is a change of the directory that held the file.
def Outcome.dated {catalog : Catalog Name Bytes} (rendering : Rendering) : Outcome catalog → Rendering
  | .erases path _ =>
    { rendering with
      modified := Function.update rendering.modified
        (rendering.sharedRoot ++ path).dropLast (rendering.clock 0)
      clock := fun later => rendering.clock (later + 1) }
  | _ => rendering

namespace Rendering

variable (rendering : Rendering)

def fileMetadata (path : Path) (content : Bytes) : Metadata :=
  ⟨.file, content.length, rendering.modified (rendering.sharedRoot ++ path), rendering.sharedRoot ++ path⟩

-- The size of a directory is shown to nobody.
def metadata (path : Path) : Catalog.Entry Bytes → Metadata
  | .file content => rendering.fileMetadata path content
  | .directory =>
    ⟨.directory, 0, rendering.modified (rendering.sharedRoot ++ path), rendering.sharedRoot ++ path⟩

-- A name in a directory, unless it is hidden from everyone or from this caller.
def shown (catalog : Catalog Name Bytes) (context : AccessContext) (relative : String) (path : Path)
    (name : Name) : Option DirectoryEntry :=
  let text := percentEncodeEntryName name.bytes
  let child := childPath relative text
  if (rendering.showHidden || !startsWith "." text) && isPathVisible context.access context.groups child then
    (catalog.entry (path ++ [name])).map fun entry =>
      describeEntry rendering.platform (some context) child text (rendering.metadata (path ++ [name]) entry)
  else none

def listing (catalog : Catalog Name Bytes) (context : AccessContext) (relative : String) (path : Path)
    (names : List Name) : Response where
  status := 200
  headers := [("cache-control", "no-store")]
  body := .listing ⟨relative, parentPath relative,
    (names.filterMap (rendering.shown catalog context relative path)).insertionSort fun left right =>
      entryOrder rendering.platform left right ≠ .gt⟩

-- The response says what became of the wish; a listing has each name of the directory once.
def Says (catalog : Catalog Name Bytes) (context : AccessContext) (headers : HeaderMap) (relative : String)
    (response : Response) : Outcome catalog → Prop
  | .refused error => response = error.intoResponse
  | .gives path content =>
    response = downloadResponse rendering.platform headers (rendering.sharedRoot ++ path) content
      (rendering.fileMetadata path content)
  | .erases _ _ => response = { status := 204 }
  | .lists path =>
    ∃ names : List Name, names.Nodup ∧ (∀ name, name ∈ names ↔ (catalog.entry (path ++ [name])).isSome) ∧
      response = rendering.listing catalog context relative path names

end Rendering

end Yafm
