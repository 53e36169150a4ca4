import Yafm.Files.Directory

set_option autoImplicit false

namespace Yafm

open Text Posix Effect

structure ByteRange where
  start : Nat
  last : Nat
  deriving DecidableEq, Repr

def ByteRange.length (range : ByteRange) : Nat := range.last - range.start + 1

inductive RangeDecision where
  | full
  | partialRange (range : ByteRange)
  | notSatisfiable
  deriving DecidableEq, Repr

def eqIgnoreAsciiCase (left right : String) : Bool :=
  left.toList.map Char.toLower = right.toList.map Char.toLower

-- Over the way it subtracts, which may fail; a saturating subtraction does not.
def parseByteRange {m : Type → Type} [Monad m] (sub : Nat → Nat → m Nat) (value : String) (total : Nat) :
    m RangeDecision :=
  match splitOnce '=' value with
  | none => return .full
  | some (unit, rawSpec) =>
    if !eqIgnoreAsciiCase unit "bytes" then return .full
    else
      let spec := trim rawSpec
      if total = 0 then return .notSatisfiable
      else if contains ',' spec then return .full
      else
        match stripPrefix "-" spec with
        | some suffix =>
          match parseU64 (trim suffix) with
          | none => return .full
          | some 0 => return .notSatisfiable
          | some length => return .partialRange ⟨total - length, ← sub total 1⟩
        | none =>
          match splitOnce '-' spec with
          | none => return .full
          | some (first, last) =>
            match parseU64 (trim first) with
            | none => return .full
            | some start =>
              if total ≤ start then return .notSatisfiable
              else
                match parseU64 (trim last) with
                | none => if trim last = "" then return .partialRange ⟨start, ← sub total 1⟩ else return .full
                | some stop =>
                  if start ≤ stop then return .partialRange ⟨start, min stop (← sub total 1)⟩
                    else return .full

def parseSingleByteRange (value : String) (total : Nat) : RangeDecision :=
  Id.run (parseByteRange (fun left right => pure (left - right)) value total)

def hexText (number : Nat) : String := String.ofList (Nat.toDigits 16 number)

def weakEtag (nanos len : Nat) : String := "W/\"" ++ hexText nanos ++ "-" ++ hexText len ++ "\""

-- A time before the epoch counts as the epoch.
def computeWeakEtag (metadata : Metadata) : Option String :=
  metadata.modified.bind fun modified => headerValue (weakEtag modified.toNat metadata.len)

def trimMatches (c : Char) (s : String) : String :=
  String.ofList ((s.toList.dropWhile (· = c)).rdropWhile (· = c))

def etagOpaqueValue (tag : String) : String :=
  let trimmed := trim tag
  trimMatches '"' ((stripPrefix "W/" trimmed).getD trimmed)

def etagMatchesWeakly (candidate current : String) : Bool :=
  etagOpaqueValue candidate = etagOpaqueValue current

def ifNoneMatchMatches (header currentEtag : String) : Bool :=
  let value := trim header
  if value = "*" then true else (split ',' value).any fun tag => etagMatchesWeakly tag currentEtag

def nanosPerSecond : Int := 1000000000

def ifRangeMatches (platform : Platform) (header : String) (currentEtag : Option String)
    (modified : Option Time) : Bool :=
  let value := trim header
  if startsWith "W/" value || startsWith "\"" value then
    currentEtag.any fun etag => etagMatchesWeakly value etag
  else
    match modified with
    | none => false
    | some modified => (platform.parseRfc2822 value).any fun parsed => parsed = modified.fdiv nanosPerSecond

def isAsciiAlphanumeric (byte : UInt8) : Bool :=
  (asciiByte '0' ≤ byte && byte ≤ asciiByte '9') || (asciiByte 'A' ≤ byte && byte ≤ asciiByte 'Z') ||
    (asciiByte 'a' ≤ byte && byte ≤ asciiByte 'z')

def encodeExtByte (byte : UInt8) : Bytes :=
  if isAsciiAlphanumeric byte || (asBytes "!#$&+-.^_\x60|~").contains byte then [byte] else percentEscape byte

def percentEncodeExtValue (name : String) : String := asciiText ((asBytes name).flatMap encodeExtByte)

def contentDispositionValue (fileName : String) : String :=
  if (asBytes fileName).all fun byte => byte < 128 then
    (headerValue ("attachment; filename=\"" ++ fileName ++ "\"")).getD "attachment"
  else
    let encoded := percentEncodeExtValue fileName
    (headerValue ("attachment; filename=\"" ++ encoded ++ "\"; filename*=UTF-8''" ++ encoded)).getD
      "attachment"

def contentResponseHeaders (fileName : String) (etag : Option String) : List (String × String) :=
  [("cache-control", "private"), ("content-type", "application/octet-stream"),
    ("content-disposition", contentDispositionValue fileName), ("x-content-type-options", "nosniff"),
    ("accept-ranges", "bytes")] ++ (etag.map fun value => ("etag", value)).toList

def sanitizeFileName (name : String) : String :=
  String.ofList (name.toList.map fun c => if c = '\r' || c = '\n' || c = '"' || c = '\\' then '_' else c)

def openDownloadTarget (canonicalTarget : Path) : Storage ApiError (Bytes × Metadata) := do
  match ← Fs.metadata (pathBuf canonicalTarget) with
  | .error error => throw (notFoundOrUnavailable error "The requested file could not be found.")
  | .ok expected =>
    match ← Fs.openFile (pathBuf canonicalTarget) with
    | .error error => throw (notFoundOrUnavailable error "The requested file could not be found.")
    | .ok file =>
      match ← Fs.fileMetadata file with
      | .error _ => throw (.unavailable "The shared directory is unavailable.")
      | .ok metadata =>
        if !metadata.isFile || metadata.identity ≠ expected.identity then
          throw (.notFound "The requested file could not be found.")
        else return (file.content, metadata)

def rangeDecision (platform : Platform) (requestHeaders : HeaderMap) (metadata : Metadata)
    (etag : Option String) : RangeDecision :=
  match ((requestHeaders.getText "range").map fun value =>
    parseSingleByteRange value metadata.len).getD .full with
  | .partialRange range =>
    let honored := ((requestHeaders.getText "if-range").map fun value =>
      ifRangeMatches platform value etag metadata.modified).getD true
    if honored then .partialRange range else .full
  | other => other

def downloadResponse (platform : Platform) (requestHeaders : HeaderMap) (canonical : Path) (file : Bytes)
    (metadata : Metadata) : Response :=
  let total := metadata.len
  let etag := computeWeakEtag metadata
  let unmodified := etag.any fun current =>
    (requestHeaders.getText "if-none-match").any fun value => ifNoneMatchMatches value current
  if unmodified then { status := 304, headers := (etag.map fun value => ("etag", value)).toList }
  else
    let name := match canonical.getLast? with
      | some name => name.bytes
      | none => asBytes "download.bin"
    let fileName := sanitizeFileName (platform.lossy name)
    let length (count : Nat) := [("content-length", toString count)]
    match rangeDecision platform requestHeaders metadata etag with
    | .notSatisfiable =>
      { status := 416
        headers := [("content-range", "bytes */" ++ toString total)]
        body := .message "The requested range is not satisfiable." }
    | .full =>
      { status := 200, headers := contentResponseHeaders fileName etag ++ length total, body :=
        .content file }
    | .partialRange range =>
      let contentRange := "bytes " ++ toString range.start ++ "-" ++
        toString range.last ++ "/" ++ toString total
      { status := 206
        headers := contentResponseHeaders fileName etag ++
        [("content-range", contentRange)] ++ length range.length
        body := .content ((file.drop range.start).take range.length) }

-- What `downloadInner` does before it looks at the request headers.
def downloadTarget (config : Option AppConfig) (p : String) : Storage ApiError (Path × Bytes × Metadata) := do
  let config ← Fallible.ofExcept (getAppConfig config)
  let relative ← Fallible.ofExcept (validateRelativePath p)
  if relative = "" then throw (.badRequest "The requested path is invalid.")
  else
    let canonical ← canonicalEntryTarget config.sharedRoot relative "The requested file could not be found."
    Fallible.ofExcept (ensureWithinRoot config.sharedRoot canonical)
    let opened ← openDownloadTarget canonical
    return (canonical, opened)

def downloadInner (platform : Platform) (config : Option AppConfig) (requestHeaders : HeaderMap)
    (p : String) :
    Storage ApiError Response := do
  let (canonical, file, metadata) ← downloadTarget config p
  return downloadResponse platform requestHeaders canonical file metadata

end Yafm
