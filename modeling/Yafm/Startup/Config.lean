import Yafm.Access.Config
import Yafm.Auth.Flow
import Yafm.Files.Containment
import Yafm.Log.Address
import Yafm.Shared.Blank
import Yafm.Startup.Options

set_option autoImplicit false

namespace Yafm

open Text Posix Effect

structure OidcConfigFile where
  issuer : String
  clientId : String
  clientSecret : String
  sessionSigningKey : Option String
  redirectUri : String
  cookieSecure : Option Bool
  deriving DecidableEq

structure AuthOidcConfig where
  issuer : String
  clientId : String
  clientSecret : String
  -- none makes the jar draw a key of its own
  sessionSigningKey : Option String
  redirectUri : String
  cookieSecure : Bool
  deriving DecidableEq

inductive Host where
  | ipv4 (address : Ipv4Addr)
  | ipv6 (address : Ipv6Addr)
  | domain (name : String)
  deriving DecidableEq

/-- What is read of a URL, with its serialization. -/
structure Url where
  scheme : String
  host : Option Host
  path : String
  text : String
  deriving DecidableEq

structure UrlLibrary where
  parse : String → Option Url

structure UrlLibrary.Lawful (urls : UrlLibrary) : Prop where
  reparses : ∀ raw url, urls.parse raw = some url → urls.parse url.text = some url

def isLoopbackHost (host : Option Host) : Bool :=
  match host with
  | some (.ipv4 address) => address = ⟨127, 0, 0, 1⟩
  | some (.ipv6 address) => address = ⟨#v[0, 0, 0, 0, 0, 0, 0, 1]⟩
  | some (.domain name) => name = "localhost"
  | none => false

def isHttpsOrLoopbackHttp (url : Url) : Bool :=
  if url.scheme = "https" then true
  else if url.scheme = "http" then isLoopbackHost url.host
  else false

def validateHttpsUrl (urls : UrlLibrary) (raw field : String) : Except String Url :=
  match urls.parse raw with
  | none => .error ("Configuration oidc " ++ field ++ " must be an absolute URL.")
  | some url =>
    if isHttpsOrLoopbackHttp url then .ok url
    else .error ("Configuration oidc " ++ field ++
      " must be an https URL; plain http is accepted only for the loopback" ++
      " hosts 127.0.0.1, localhost, and [::1].")

def oidcCallbackPath : String := "/api/v1/auth/callback"

def oidcSessionKeyTooShortError : String :=
  "Configuration oidc sessionSigningKey must be at least 32 bytes long; generate one with: " ++
    "openssl rand -base64 32"

-- A blank key is no key: nothing is derived from an empty text.
def presentKey (key : Option String) : Option String := (key.map trim).filter (· ≠ "")

def keyTooShort (key : Option String) : Bool := key.any fun key => (asBytes key).length < 32

def require (condition : Bool) (message : String) : Except String Unit :=
  if condition then .ok () else .error message

def validateOidcConfig (urls : UrlLibrary) (oidc : OidcConfigFile) : Except String AuthOidcConfig := do
  let issuer ← validateHttpsUrl urls oidc.issuer "issuer"
  require (trim oidc.clientId ≠ "") "Configuration oidc clientId must be a non-empty string."
  require (trim oidc.clientSecret ≠ "") "Configuration oidc clientSecret must be a non-empty string."
  let redirectUri ← validateHttpsUrl urls oidc.redirectUri "redirectUri"
  require (redirectUri.path = oidcCallbackPath)
    ("Configuration oidc redirectUri path must be \"" ++ oidcCallbackPath ++
      "\"; the backend serves the site directly.")
  let cookieSecure := oidc.cookieSecure.getD false
  require (redirectUri.scheme = "https" → cookieSecure)
    ("Configuration oidc cookieSecure must be true when redirectUri is an https URL; set cookieSecure: " ++
      "true, or use a loopback http redirectUri for plain-HTTP local development.")
  let sessionSigningKey := presentKey oidc.sessionSigningKey
  require (!keyTooShort sessionSigningKey) oidcSessionKeyTooShortError
  return ⟨issuer.text, trim oidc.clientId, trim oidc.clientSecret, sessionSigningKey,
    redirectUri.text, cookieSecure⟩

structure ConfigFile where
  sharedRoot : String
  showHidden : Option Bool
  listenAddress : Option String
  listenPort : Option UInt16
  oidc : Option OidcConfigFile
  access : Option AccessConfigFile
  trustProxy : Option Bool

/-- The two readers of config files: none for a text that is not such a file. -/
structure ConfigReaders where
  json : String → Option ConfigFile
  yaml : String → Option ConfigFile

-- Lowering letters outside ASCII yields none of the extensions.
def lowercaseExtension (path : FsPath) : String :=
  String.ofList (((path.extension.bind fromUtf8).getD "").toList.map Char.toLower)

def parseConfigFile (readers : ConfigReaders) (raw : String) (configPath : FsPath) :
    Except String ConfigFile :=
  let extension := lowercaseExtension configPath
  let parsed :=
    if extension = "json" then readers.json raw
    else if extension = "yaml" ∨ extension = "yml" then readers.yaml raw
    else (readers.yaml raw).or (readers.json raw)
  parsed.elim (.error "Configuration file is invalid") .ok

structure LoadedConfig extends AppConfig where
  listenAddress : String
  listenPort : UInt16
  oidc : Option AuthOidcConfig
  access : Option AccessConfig
  trustProxy : Bool

def unreadableConfigError : String := "Configuration file could not be read"

-- A directory opens, but does not read.
def readToString (path : PathBuf) : Storage String String := do
  match ← Fs.openFile path with
  | .error _ => throw unreadableConfigError
  | .ok file =>
    match file.metadata.isFile, fromUtf8 file.content with
    | true, some raw => return raw
    | _, _ => throw unreadableConfigError

def canonicalRoot (cwd : Path) (sharedRoot : String) : Storage String Path :=
  if trim sharedRoot = "" then throw "Configuration sharedRoot is required"
  else do
    let subject := "Configuration sharedRoot \"" ++ trim sharedRoot ++ "\""
    let root := (FsPath.ofText (trim sharedRoot)).resolve cwd
    match ← Fs.metadata root with
    | .error _ => throw (subject ++ " does not exist; create it or fix the config file")
    | .ok _ =>
      match ← Fs.canonicalize root with
      | .error _ => throw (subject ++ " is invalid")
      | .ok canonical =>
        match ← Fs.metadata (pathBuf canonical) with
        | .error _ => throw (subject ++ " must be a directory")
        | .ok metadata =>
          if metadata.isDir then return canonical else throw (subject ++ " must be a directory")

def validateBlock {α β : Type} (validate : α → Except String β) : Option α → Except String (Option β)
  | none => .ok none
  | some block => (validate block).map some

def validateListenAddress (listenAddress : Option String) : Except String String :=
  let address := trim (listenAddress.getD "0.0.0.0")
  if address = "" then .error "Configuration listenAddress must be a non-empty string" else .ok address

def loadAppConfig (readers : ConfigReaders) (urls : UrlLibrary) (cwd : Path) (configPath : FsPath) :
    Storage String LoadedConfig := do
  let raw ← readToString (configPath.resolve cwd)
  let parsed ← Fallible.ofExcept (parseConfigFile readers raw configPath)
  let sharedRoot ← canonicalRoot cwd parsed.sharedRoot
  let listenAddress ← Fallible.ofExcept (validateListenAddress parsed.listenAddress)
  let oidc ← Fallible.ofExcept (validateBlock (validateOidcConfig urls) parsed.oidc)
  let access ← Fallible.ofExcept (validateBlock validateAccessConfig parsed.access)
  return { sharedRoot
           showHidden := parsed.showHidden.getD false
           listenAddress
           listenPort := parsed.listenPort.getD 8080
           oidc
           access
           trustProxy := parsed.trustProxy.getD false }

theorem validateHttpsUrl_ok_iff {urls : UrlLibrary} {raw field : String} {url : Url} :
    validateHttpsUrl urls raw field = .ok url ↔ urls.parse raw = some url ∧ isHttpsOrLoopbackHttp url := by
  unfold validateHttpsUrl
  cases urls.parse raw with
  | none => simp
  | some found =>
    dsimp only
    split
    next confidential =>
      constructor
      · intro same
        cases same
        exact ⟨rfl, confidential⟩
      · intro same
        rw [Option.some.injEq] at same
        rw [same.1]
    next exposed =>
      constructor
      · intro same
        cases same
      · intro same
        cases same.1
        exact absurd same.2 exposed

structure OidcConfigFile.Fits (urls : UrlLibrary) (block : OidcConfigFile) (issuer redirectUri : Url) :
    Prop where
  issuerUrl : urls.parse block.issuer = some issuer ∧ isHttpsOrLoopbackHttp issuer
  clientId : trim block.clientId ≠ ""
  clientSecret : trim block.clientSecret ≠ ""
  redirectUrl : urls.parse block.redirectUri = some redirectUri ∧ isHttpsOrLoopbackHttp redirectUri
  callback : redirectUri.path = oidcCallbackPath
  secure : redirectUri.scheme = "https" → block.cookieSecure.getD false
  key : ∀ key, block.sessionSigningKey = some key → trim key = "" ∨ 32 ≤ (asBytes (trim key)).length

@[simp] theorem require_ok_iff {condition : Bool} {message : String} {nothing : Unit} :
    require condition message = .ok nothing ↔ condition := by
  cases condition <;> simp [require]

theorem keyTooShort_iff (key : Option String) :
    keyTooShort (presentKey key) = false ↔
      ∀ given, key = some given → trim given = "" ∨ 32 ≤ (asBytes (trim given)).length := by
  cases key with
  | none => simp [presentKey, keyTooShort]
  | some given =>
    by_cases blank : trim given = ""
    · simp [presentKey, keyTooShort, blank]
    · simp [presentKey, keyTooShort, blank, Option.filter]

theorem validateOidcConfig_ok_iff {urls : UrlLibrary} {block : OidcConfigFile} {config : AuthOidcConfig} :
    validateOidcConfig urls block = .ok config ↔
      ∃ issuer redirectUri, block.Fits urls issuer redirectUri ∧
        config = ⟨issuer.text, trim block.clientId, trim block.clientSecret,
          presentKey block.sessionSigningKey,
          redirectUri.text, block.cookieSecure.getD false⟩ := by
  unfold validateOidcConfig
  simp only [bind_ok_iff, validateHttpsUrl_ok_iff, require_ok_iff, decide_eq_true_eq, Bool.not_eq_true',
    keyTooShort_iff, pure, Except.pure, Except.ok.injEq]
  constructor
  · rintro ⟨issuer, issuerUrl, _, clientId, _, clientSecret, redirectUri, redirectUrl, _,
      callback, _, secure, _, key, rfl⟩
    exact ⟨issuer, redirectUri, ⟨issuerUrl, clientId, clientSecret, redirectUrl, callback, secure, key⟩, rfl⟩
  · rintro ⟨issuer, redirectUri, fits, rfl⟩
    exact ⟨issuer, fits.issuerUrl, (), fits.clientId, (), fits.clientSecret,
      redirectUri, fits.redirectUrl, (), fits.callback, (), fits.secure, (), fits.key, rfl⟩

-- Only a directory is said to be one, and only below the root of the file system, which is one too.
theorem Disk.stat_isDir {disk : Disk} {path : PathBuf} {metadata : Metadata}
    (found : disk.stat path = .ok metadata) (directory : metadata.isDir) : disk.tree.isDir := by
  obtain ⟨todo, _, mapped⟩ := Disk.answered_ok found
  obtain ⟨⟨target, node⟩, located, rfl⟩ := map_ok mapped
  obtain ⟨entries, rfl⟩ := Disk.isDir_metadata directory
  obtain ⟨_, present⟩ := Posix.stat_ok located
  exact Disk.Shares.isDir ⟨entries, present⟩

theorem canonicalRoot_ok {disk after : Disk} {cwd : Path} {sharedRoot : String} {root : Path}
    (ran : disk.run (canonicalRoot cwd sharedRoot) = (.ok root, after)) :
    after = disk ∧ disk.canonicalize ((FsPath.ofText (trim sharedRoot)).resolve cwd) = .ok root ∧
      disk.Shares root := by
  unfold canonicalRoot at ran
  split at ran
  · cases ran
  · obtain ⟨_, _, asked, ran⟩ := Disk.run_bind_ok ran
    rw [run_metadata, Prod.mk.injEq] at asked
    obtain ⟨_, rfl⟩ := asked
    split at ran
    · cases ran
    · obtain ⟨_, _, asked, ran⟩ := Disk.run_bind_ok ran
      rw [run_canonicalize, Prod.mk.injEq, Except.ok.injEq] at asked
      obtain ⟨rfl, rfl⟩ := asked
      split at ran
      · cases ran
      next canonical reached =>
        obtain ⟨_, _, asked, ran⟩ := Disk.run_bind_ok ran
        rw [run_metadata, Prod.mk.injEq, Except.ok.injEq] at asked
        obtain ⟨rfl, rfl⟩ := asked
        split at ran
        · cases ran
        next metadata found =>
          split at ran
          next directory =>
            cases ran
            have top := Disk.stat_isDir found directory
            obtain ⟨node, present, same⟩ := Disk.stat_canonical (Disk.canonicalize_ok top reached) found
            subst same
            obtain ⟨entries, rfl⟩ := Disk.isDir_metadata directory
            exact ⟨rfl, reached, entries, present⟩
          · cases ran

attribute [local irreducible] Fallible.Only

theorem readToString_reads (path : PathBuf) : (readToString path).Only Op.Reads := by
  unfold readToString
  refine Fallible.only_bind (Fallible.only_call trivial) fun opened => ?_
  split
  · simp
  · split <;> simp

theorem canonicalRoot_reads (cwd : Path) (sharedRoot : String) :
    (canonicalRoot cwd sharedRoot).Only Op.Reads := by
  unfold canonicalRoot
  by_cases unnamed : trim sharedRoot = ""
  · simp [unnamed]
  rw [if_neg unnamed]
  refine Fallible.only_bind (Fallible.only_call trivial) fun found => ?_
  split
  · simp
  refine Fallible.only_bind (Fallible.only_call trivial) fun reached => ?_
  split
  · simp
  refine Fallible.only_bind (Fallible.only_call trivial) fun described => ?_
  split
  · simp
  · split <;> simp

theorem loadAppConfig_reads (readers : ConfigReaders) (urls : UrlLibrary) (cwd : Path) (configPath : FsPath) :
    (loadAppConfig readers urls cwd configPath).Only Op.Reads := by
  unfold loadAppConfig
  refine Fallible.only_bind (readToString_reads _) fun raw => ?_
  refine Fallible.only_bind (by simp) fun parsed => ?_
  refine Fallible.only_bind (canonicalRoot_reads _ _) fun sharedRoot => ?_
  refine Fallible.only_bind (by simp) fun listenAddress => ?_
  refine Fallible.only_bind (by simp) fun oidc => ?_
  refine Fallible.only_bind (by simp) fun access => ?_
  simp

/-- The settings that a config file stands for, once it has passed the checks on this disk. -/
structure LoadedConfig.Sound (config : LoadedConfig) (file : ConfigFile) (urls : UrlLibrary) (disk : Disk)
    (cwd : Path) : Prop where
  root : disk.canonicalize ((FsPath.ofText (trim file.sharedRoot)).resolve cwd) = .ok config.sharedRoot
  shares : disk.Shares config.sharedRoot
  showHidden : config.showHidden = file.showHidden.getD false
  listenAddress : validateListenAddress file.listenAddress = .ok config.listenAddress
  listenPort : config.listenPort = file.listenPort.getD 8080
  oidc : validateBlock (validateOidcConfig urls) file.oidc = .ok config.oidc
  access : validateBlock validateAccessConfig file.access = .ok config.access
  trustProxy : config.trustProxy = file.trustProxy.getD false

theorem validateBlock_some {α β : Type} {validate : α → Except String β} {block : Option α} {held : β}
    (valid : validateBlock validate block = .ok (some held)) :
    ∃ given, block = some given ∧ validate given = .ok held := by
  cases block with
  | none => cases valid
  | some given =>
    obtain ⟨value, checked, same⟩ := map_ok valid
    cases same
    exact ⟨given, rfl, checked⟩

theorem loadAppConfig_ok {disk after : Disk} {readers : ConfigReaders} {urls : UrlLibrary} {cwd : Path}
    {configPath : FsPath} {config : LoadedConfig}
    (ran : disk.run (loadAppConfig readers urls cwd configPath) = (.ok config, after)) :
    after = disk ∧ ∃ raw file, disk.run (readToString (configPath.resolve cwd)) = (.ok raw, disk) ∧
      parseConfigFile readers raw configPath = .ok file ∧ config.Sound file urls disk cwd := by
  have same : after = disk := by
    rw [← Disk.run_reads (loadAppConfig_reads readers urls cwd configPath) disk, ran]
  subst same
  refine ⟨rfl, ?_⟩
  obtain ⟨raw, _, read, ran⟩ := Disk.run_bind_ok ran
  have kept : (after.run (readToString (configPath.resolve cwd))).2 = after :=
    Disk.run_reads (readToString_reads _) _
  rw [read] at kept
  obtain rfl : _ = after := kept
  obtain ⟨file, _, asked, ran⟩ := Disk.run_bind_ok ran
  obtain ⟨parsed, rfl⟩ := Disk.run_ofExcept_ok asked
  obtain ⟨root, _, asked, ran⟩ := Disk.run_bind_ok ran
  obtain ⟨rfl, reached, shares⟩ := canonicalRoot_ok asked
  obtain ⟨address, _, asked, ran⟩ := Disk.run_bind_ok ran
  obtain ⟨listens, rfl⟩ := Disk.run_ofExcept_ok asked
  obtain ⟨oidc, _, asked, ran⟩ := Disk.run_bind_ok ran
  obtain ⟨oidcValid, rfl⟩ := Disk.run_ofExcept_ok asked
  obtain ⟨access, _, asked, ran⟩ := Disk.run_bind_ok ran
  obtain ⟨accessValid, rfl⟩ := Disk.run_ofExcept_ok asked
  cases ran
  exact ⟨raw, file, read, parsed, reached, shares, rfl, listens, rfl, oidcValid, accessValid, rfl⟩

end Yafm
