import Yafm.Files.Directory

set_option autoImplicit false

namespace Yafm

open Text Posix Effect

def AccessDenial.reason : AccessDenial → String
  | .noAllow => "no allow entry matches"
  | .denied pattern source => "denied by \"" ++ pattern ++ "\" (" ++ source ++ ")"

structure CheckRule where
  label : String
  allowPath : Option String
  deny : Option DenyPattern
  used : Bool
  deriving DecidableEq, Repr

def checkRules (access : AccessConfig) : List CheckRule :=
  (access.globalAllow.map fun path => ⟨"allow \"/" ++ path ++ "\" (global allow)", some path, none, false⟩) ++
  (access.globalDeny.map fun pattern =>
    ⟨"denied by \"" ++ pattern.raw ++ "\" (global deny)", none, some pattern, false⟩) ++
  access.grants.entries.flatMap fun (group, grant) => grant.allow.flatMap fun entry =>
    ⟨"allow " ++ entry.source group, some entry.path, none, false⟩ ::
      entry.deny.map fun pattern =>
        ⟨"denied by \"" ++ pattern.raw ++ "\" (allow-specific deny under " ++ entry.source group ++ ")", none,
          some pattern, false⟩

def CheckRule.covers (segments : List String) (rule : CheckRule) : Bool :=
  rule.allowPath.any fun path => allowCovers path segments

def CheckRule.denies (segments : List String) (rule : CheckRule) : Bool :=
  rule.deny.any fun pattern => pattern.matches segments

def CheckRule.markDirectory (segments : List String) (rule : CheckRule) : CheckRule :=
  { rule with used := rule.used || rule.covers segments }

def CheckRule.markChild (segments : List String) (rule : CheckRule) : CheckRule :=
  { rule with used := rule.used || rule.covers segments || rule.denies segments }

structure BlockedEntry where
  name : String
  isDir : Bool
  denial : AccessDenial
  deriving DecidableEq, Repr

structure Visit where
  relative : String
  decision : AccessDecision
  blocked : List BlockedEntry
  deriving DecidableEq, Repr

structure Examined where
  blocked : List BlockedEntry
  subdirs : List String
  rules : List CheckRule

def displayPath (platform : Platform) (path : PathBuf) : String :=
  if path = [] then "/" else platform.lossy (path.flatMap fun part => asciiByte '/' :: part)

def unreadableDirectoryMessage (platform : Platform) (directory : PathBuf) : String :=
  "The shared directory \"" ++ displayPath platform directory ++ "\" could not be read."

def readDirectory (platform : Platform) (sharedRoot : Path) (relative : String) :
    Storage String (List (Name × FileType)) := do
  let directory := (pathBuf sharedRoot).join relative
  match ← Fs.readDir directory with
  | .error _ =>
    throw ("The shared directory \"" ++ displayPath platform directory ++
      "\" could not be read; the access check needs the real structure.")
  | .ok _ =>
    match ← Fs.nextEntries directory with
    | .error _ => throw (unreadableDirectoryMessage platform directory)
    | .ok items => return items

section

variable (access : AccessConfig) (groups : List String)

def examineItem (relative : String) (found : Examined) (item : Name × FileType) : Examined :=
  match fromUtf8 item.1.bytes with
  -- a name that is no text cannot be written into the report
  | none => found
  | some name =>
    let childSegments := pathSegments relative ++ [name]
    let rules := found.rules.map (·.markChild childSegments)
    let isDir : Bool := item.2 = .directory
    match evaluate access groups childSegments with
    | .visible _ =>
      if isDir then { found with subdirs := found.subdirs ++ [childPath relative name], rules := rules }
      else { found with rules := rules }
    | .hidden denial => { found with blocked := found.blocked ++ [⟨name, isDir, denial⟩], rules := rules }

def examine (relative : String) (rules : List CheckRule) (items : List (Name × FileType)) : Examined :=
  items.foldl (examineItem access groups relative) ⟨[], [], rules⟩

def sortBlocked (blocked : List BlockedEntry) : List BlockedEntry :=
  blocked.insertionSort fun left right => left.name ≤ right.name

def sortSubdirs (subdirs : List String) : List String := subdirs.insertionSort (· ≤ ·)

-- The directories that a stack leads to, the top of the stack in front; nothing when the fuel runs out
-- first.
def walkDirectories (platform : Platform) (sharedRoot : Path) :
    Nat → List String → List CheckRule → Storage String (Option (List Visit × List CheckRule))
  | _, [], rules => return some ([], rules)
  | 0, _ :: _, _ => return none
  | fuel + 1, relative :: queue, rules => do
    let segments := pathSegments relative
    let decision := evaluate access groups segments
    let rules := rules.map (·.markDirectory segments)
    if decision.isHidden then
      -- everything underneath is blocked by the same verdict
      let rest ← walkDirectories platform sharedRoot fuel queue rules
      return rest.map fun (visits, rules) => (⟨relative, decision, []⟩ :: visits, rules)
    else
      let items ← readDirectory platform sharedRoot relative
      let found := examine access groups relative rules items
      let rest ← walkDirectories platform sharedRoot fuel (sortSubdirs found.subdirs ++ queue) found.rules
      return rest.map fun (visits, rules) =>
        (⟨relative, decision, sortBlocked found.blocked⟩ :: visits, rules)

end

structure CheckReport where
  groups : List String
  sharedRoot : Path
  visits : List Visit
  unmatched : List String

def runAccessCheck (platform : Platform) (sharedRoot : Path) (access : AccessConfig)
    (groups : List String) (fuel : Nat) :
    Storage String (Option CheckReport) := do
  let walked ← walkDirectories access groups platform sharedRoot fuel [""] (checkRules access)
  return walked.map fun (visits, rules) =>
    let unmatched := (rules.filter fun rule => !rule.used).map CheckRule.label
    ⟨groups, sharedRoot, visits, unmatched.insertionSort (· ≤ ·)⟩

def verdictLine (relative : String) (decision : AccessDecision) : String :=
  let pathDisplay := if relative = "" then "/" else "/" ++ relative
  match decision with
  | .visible allowSource => pathDisplay ++ "  visible (" ++ allowSource ++ ")"
  | .hidden denial => pathDisplay ++ "  hidden: " ++ denial.reason

def BlockedEntry.line (entry : BlockedEntry) : String :=
  let kind := if entry.isDir then "directory (everything underneath is blocked)" else "file"
  entry.name ++ " (" ++ kind ++ "): " ++ entry.denial.reason

def Visit.lines (visit : Visit) : List String :=
  verdictLine visit.relative visit.decision ::
    if visit.decision.isHidden then []
    else if visit.blocked = [] then ["  blocked entries: none", ""]
    else "  blocked entries:" :: visit.blocked.map (fun entry => "    " ++ entry.line) ++ [""]

-- What is printed. The check is proved right of the report; its lines are only written from it, and a name
-- with a newline in it makes one that reads as two.
def CheckReport.text (platform : Platform) (report : CheckReport) : String :=
  let header := ["Access check", "groups: " ++ ", ".intercalate report.groups,
    "shared root: " ++ displayPath platform (pathBuf report.sharedRoot), ""]
  let unmatched :=
    if report.unmatched = [] then ["rules that matched nothing: none"]
    else "rules that matched nothing:" :: report.unmatched.map ("  " ++ ·)
  String.join ((header ++ report.visits.flatMap Visit.lines ++ unmatched).map (· ++ "\n"))

end Yafm
