import Yafm.Check.Report
import Yafm.Server.Router
import Yafm.Startup.Config

set_option autoImplicit false

namespace Yafm

open Text Posix Effect

structure KeyLibrary where
  digest : Bytes → Bytes
  deriveFrom : Bytes → CookieLibrary
  -- the random key of this process
  generate : CookieLibrary

def SessionCookieJar.new (keys : KeyLibrary) (signingKey : Option String) (secure : Bool) :
    SessionCookieJar where
  library :=
    (signingKey.map fun material => keys.deriveFrom (keys.digest (asBytes material))).getD keys.generate
  secure

def sessionCookieJar (keys : KeyLibrary) (config : AuthOidcConfig) : SessionCookieJar :=
  .new keys config.sessionSigningKey config.cookieSecure

inductive AuthCell where
  | disabled
  | oidc (config : AuthOidcConfig)

def AuthCell.state (keys : KeyLibrary) : AuthCell → AuthState
  | .disabled => .disabled
  | .oidc config => .oidc (sessionCookieJar keys config)

/-- The cells of the process: the first value put into one stays. -/
structure Process where
  config : Option LoadedConfig := none
  auth : Option AuthCell := none

structure Environment where
  -- built without debug assertions
  release : Bool
  args : List String
  currentDir : Option Path
  yafmDisableAuth : Option String
  platform : Platform
  readers : ConfigReaders
  urls : UrlLibrary
  keys : KeyLibrary
  frontendAssets : String → Option Bytes
  mimeType : String → String
  -- bounds the access check
  fuel : Nat

namespace Process

variable (process : Process)

def getOidcConfig : Option AuthOidcConfig := process.config.bind (·.oidc)

def getAccessConfig : Option AccessConfig := process.config.bind (·.access)

def getSharedRoot : Option Path := process.config.map (·.sharedRoot)

def getServerBinding : Except String (String × UInt16) :=
  match process.config with
  | none => .error "Application configuration was not initialized"
  | some config => .ok (config.listenAddress, config.listenPort)

def initializeAppConfig (environment : Environment) (cwd : Path) (configPath : FsPath) :
    Storage String Process :=
  match process.config with
  | some _ => return process
  | none => do
    let config ← loadAppConfig environment.readers environment.urls cwd configPath
    return { process with config := some config }

def initializeAuth : Except String Process :=
  match process.getOidcConfig with
  | none => .error "Configuration oidc is required; the backend refuses to start without authentication."
  | some config => .ok { process with auth := process.auth.or (some (.oidc config)) }

def initializeAuthDisabledForTests : Process := { process with auth := process.auth.or (some .disabled) }

def initializeAccess : Except String Unit :=
  match process.getAccessConfig with
  | none =>
    .error "Configuration access is required; the backend refuses to start without an access configuration."
  | some _ => .ok ()

def server (environment : Environment) : Server where
  platform := environment.platform
  config := process.config.map (·.toAppConfig)
  auth := process.auth.map (·.state environment.keys)
  access := process.getAccessConfig
  frontendAssets := environment.frontendAssets
  mimeType := environment.mimeType

end Process

inductive Started where
  -- none when the check ran out of fuel
  | checked (report : Option CheckReport)
  | serving (address : String) (port : UInt16) (server : Server)

def startProcess (environment : Environment) (cwd : Path) (configPath : FsPath) : Storage String Process := do
  let process ← ({} : Process).initializeAppConfig environment cwd configPath
  -- only a debug build lets the variable turn authentication off
  if !environment.release ∧ environment.yafmDisableAuth = some "1" then
    return process.initializeAuthDisabledForTests
  else do
    let process ← Fallible.ofExcept process.initializeAuth
    let _ ← Fallible.ofExcept process.initializeAccess
    return process

def accessCheck (environment : Environment) (process : Process) (groups : List String) :
    Storage String Started :=
  match process.getSharedRoot with
  | none => throw "Application configuration was not initialized"
  | some sharedRoot =>
    match process.getAccessConfig with
    | none => throw "Configuration access is required for the access check."
    | some access => do
      return .checked (← runAccessCheck environment.platform sharedRoot access groups environment.fuel)

-- Up to the listener: what it is bound to, and the server behind it.
def Environment.run (environment : Environment) : Storage String Started :=
  match environment.currentDir with
  | none => throw "Could not determine current directory"
  | some cwd => do
    let options ← resolveStartupOptions environment.args cwd
    let process ← startProcess environment cwd options.configPath
    if options.checkAccess then accessCheck environment process options.groups
    else do
      let binding ← Fallible.ofExcept process.getServerBinding
      return .serving binding.1 binding.2 (process.server environment)

section

variable {environment : Environment} {disk after : Disk}

/-- The file that the command line names, or the first default there is, is on the disk and reads as this. -/
structure Environment.Configured (environment : Environment) (disk : Disk) (cwd : Path)
    (options : StartupOptions) (raw : String) (file : ConfigFile) : Prop where
  located : environment.currentDir = some cwd
  chosen : disk.run (resolveStartupOptions environment.args cwd) = (.ok options, disk)
  read : disk.run (readToString (options.configPath.resolve cwd)) = (.ok raw, disk)
  parsed : parseConfigFile environment.readers raw options.configPath = .ok file

structure Process.Settled (process : Process) (environment : Environment) (disk : Disk) (cwd : Path)
    (file : ConfigFile) (config : LoadedConfig) (oidc : AuthOidcConfig) (access : AccessConfig) :
    Prop where
  loaded : process.config = some config
  sound : config.Sound file environment.urls disk cwd
  block : config.oidc = some oidc
  authorized : process.auth = some (.oidc oidc)
  ruled : config.access = some access

theorem initializeAppConfig_ok {cwd : Path} {configPath : FsPath} {process : Process}
    (ran : disk.run (({} : Process).initializeAppConfig environment cwd configPath) = (.ok process, after)) :
    after = disk ∧ ∃ raw file config, disk.run (readToString (configPath.resolve cwd)) = (.ok raw, disk) ∧
      parseConfigFile environment.readers raw configPath = .ok file ∧ process = ⟨some config, none⟩ ∧
      config.Sound file environment.urls disk cwd := by
  obtain ⟨config, _, loaded, ended⟩ := Disk.run_bind_ok ran
  obtain ⟨rfl, raw, file, read, parsed, sound⟩ := loadAppConfig_ok loaded
  cases ended
  exact ⟨rfl, raw, file, config, read, parsed, rfl, sound⟩

theorem startProcess_release {cwd : Path} {configPath : FsPath} {process : Process}
    (release : environment.release)
    (ran : disk.run (startProcess environment cwd configPath) = (.ok process, after)) :
    after = disk ∧ ∃ raw file config oidc access,
      disk.run (readToString (configPath.resolve cwd)) = (.ok raw, disk) ∧
      parseConfigFile environment.readers raw configPath = .ok file ∧
      process.Settled environment disk cwd file config oidc access := by
  obtain ⟨first, _, asked, ran1⟩ := Disk.run_bind_ok ran
  obtain ⟨rfl, raw, file, config, read, parsed, rfl, sound⟩ := initializeAppConfig_ok asked
  simp only [release, Bool.not_true, Bool.false_eq_true, false_and, if_false] at ran1
  obtain ⟨second, _, asked, ran2⟩ := Disk.run_bind_ok ran1
  obtain ⟨authorized, rfl⟩ := Disk.run_ofExcept_ok asked
  obtain ⟨_, _, asked, ran3⟩ := Disk.run_bind_ok ran2
  obtain ⟨ruled, rfl⟩ := Disk.run_ofExcept_ok asked
  cases ran3
  refine ⟨rfl, raw, file, config, ?_⟩
  unfold Process.initializeAuth at authorized
  split at authorized
  · cases authorized
  next oidc configured =>
    cases authorized
    unfold Process.initializeAccess at ruled
    split at ruled
    · cases ruled
    next access allowed => exact ⟨oidc, access, read, parsed, rfl, sound, configured, rfl, allowed⟩

theorem run_serving {address : String} {port : UInt16} {server : Server} (release : environment.release)
    (ran : disk.run environment.run = (.ok (.serving address port server), after)) :
    after = disk ∧
    ∃ (cwd : Path) (options : StartupOptions) (raw : String) (file : ConfigFile) (process : Process)
        (config : LoadedConfig) (oidc : AuthOidcConfig) (access : AccessConfig),
      environment.Configured disk cwd options raw file ∧
      process.Settled environment disk cwd file config oidc access ∧
      server = process.server environment ∧ address = config.listenAddress ∧ port = config.listenPort := by
  unfold Environment.run at ran
  split at ran
  · cases ran
  next cwd located =>
    obtain ⟨options, middle, asked, ran1⟩ := Disk.run_bind_ok ran
    have same : (disk.run (resolveStartupOptions environment.args cwd)).2 = disk :=
      Disk.run_reads (resolveStartupOptions_reads _ _) disk
    have chosen := asked
    rw [asked] at same
    obtain rfl : middle = disk := same
    obtain ⟨process, _, asked, ran2⟩ := Disk.run_bind_ok ran1
    obtain ⟨rfl, raw, file, config, oidc, access, read, parsed, settled⟩ := startProcess_release release asked
    split at ran2
    · unfold accessCheck at ran2
      split at ran2
      · cases ran2
      · split at ran2
        · cases ran2
        · obtain ⟨report, _, _, ended⟩ := Disk.run_bind_ok ran2
          cases ended
    · obtain ⟨binding, _, asked, ran3⟩ := Disk.run_bind_ok ran2
      obtain ⟨bound, rfl⟩ := Disk.run_ofExcept_ok asked
      cases ran3
      rw [Process.getServerBinding, settled.loaded] at bound
      cases bound
      exact ⟨rfl, cwd, options, raw, file, process, config, oidc, access,
        ⟨located, chosen, read, parsed⟩, settled, rfl, rfl, rfl⟩

end

end Yafm
