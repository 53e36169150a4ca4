import Yafm.Files.Answer
import Yafm.Files.Order
import Yafm.Server.Headers
import Yafm.Server.Mediation
import Yafm.Startup.Run

set_option autoImplicit false

namespace Yafm

open Text Posix Effect

theorem serve_reaches_verified {oidc : Oidc} {jar : SessionCookieJar} {server : Server}
    {request : Request} {now : Nat} (auth : server.auth = some (.oidc jar))
    (reaches : (serve now server request : Serving oidc).Reaches ServerOp.IsStorage) :
    ∃ claims, jar.verifySession now ((cookieHeader request).getD "") = .ok claims := by
  unfold serve authGate at reaches
  split at reaches
  next decided =>
    -- a path that passes without a session is none of the share's
    rw [auth] at decided
    have other := isPublicPath_data (gateDecision_passThrough decided)
    unfold accessGate at reaches
    dsimp only at reaches
    rw [if_pos other] at reaches
    exact absurd reaches (routes_quiet server other)
  next claims decided =>
    rw [auth] at decided
    exact ⟨claims, (gateDecision_authenticated decided).2⟩
  · simp at reaches
  · simp at reaches
  · simp at reaches

-- The settings of the file that the command line names: its directory is shared, its rules hold, its key
-- signs, and its redirect address decides how safe the cookies are.
theorem run_serving_guarded {environment : Environment} {disk after : Disk} {address : String} {port : UInt16}
    {server : Server} (release : environment.release)
    (started : disk.run environment.run = (.ok (.serving address port server), after)) :
    after = disk ∧ ∃ cwd options raw file, environment.Configured disk cwd options raw file ∧
      validateListenAddress file.listenAddress = .ok address ∧ port = file.listenPort.getD 8080 ∧
      (∃ config, server.config = some config ∧ disk.Shares config.sharedRoot ∧
        disk.canonicalize ((FsPath.ofText (trim file.sharedRoot)).resolve cwd) = .ok config.sharedRoot ∧
        config.showHidden = file.showHidden.getD false) ∧
      (∃ rules access, file.access = some rules ∧ validateAccessConfig rules = .ok access ∧
        server.access = some access) ∧
      ∃ block issuer redirectUri, file.oidc = some block ∧ block.Fits environment.urls issuer redirectUri ∧
        ∃ jar, server.auth = some (.oidc jar) ∧
          jar = .new environment.keys (presentKey block.sessionSigningKey) (block.cookieSecure.getD false) ∧
          ∀ (oidc : Oidc) (now : Nat) (request : Request),
            ((serve now server request : Serving oidc).Reaches ServerOp.IsStorage →
              ∃ claims, jar.verifySession now ((cookieHeader request).getD "") = .ok claims) ∧
            (serve now server request : Serving oidc).Ends fun response =>
              ∀ value, ("set-cookie", value) ∈ response.headers →
              ∃ cookie : Cookie, value = jar.library.encoded cookie ∧
                cookie.httpOnly ∧ cookie.sameSite = .lax ∧
                (redirectUri.scheme = "https" → cookie.secure) := by
  obtain ⟨same, cwd, options, raw, file, process, config, oidc, access, configured, settled, rfl, rfl, rfl⟩ :=
    run_serving release started
  have sound := settled.sound
  obtain ⟨rules, ruled, accepted⟩ := validateBlock_some (settled.ruled ▸ sound.access)
  obtain ⟨block, held, valid⟩ := validateBlock_some (settled.block ▸ sound.oidc)
  obtain ⟨issuer, redirectUri, fits, rfl⟩ := validateOidcConfig_ok_iff.mp valid
  have auth : (process.server environment).auth =
      some (.oidc (.new environment.keys (presentKey block.sessionSigningKey)
      (block.cookieSecure.getD false))) := by
    rw [Process.server, settled.authorized]
    rfl
  refine ⟨same, cwd, options, raw, file, configured, sound.listenAddress, sound.listenPort,
    ⟨config.toAppConfig, by simp [Process.server, settled.loaded], sound.shares,
      sound.root, sound.showHidden⟩,
    ⟨rules, access, ruled, accepted,
      by simp [Process.server, Process.getAccessConfig, settled.loaded, settled.ruled]⟩,
    block, issuer, redirectUri, held, fits, _, auth, rfl,
    fun provider now request => ⟨serve_reaches_verified auth, ?_⟩⟩
  apply (serve_guarded auth).mono
  intro response guarded value sent
  obtain ⟨cookie, safe, rfl⟩ := guarded.cookies value sent
  exact ⟨cookie, rfl, safe.httpOnly, safe.sameSite, fun https => safe.secure.trans (fits.secure https)⟩

theorem validName_conf : ValidName (asBytes "conf") := by decide +kernel

def startDisk : Disk where
  tree := .dir [(⟨asBytes "conf", validName_conf⟩, .file []), (⟨asBytes "srv", validName_srv⟩, .dir [])]
  modified _ := none
  clock _ := none
  nameMax := some 255
  faults _ := none
  present := neverFails

def callbackUrl : Url :=
  ⟨"https", some (.domain "files.example"), oidcCallbackPath, "https://files.example/api/v1/auth/callback"⟩

def startOidc : OidcConfigFile :=
  ⟨callbackUrl.text, "yafm", "secret", none, callbackUrl.text, some true⟩

def startConfig : ConfigFile where
  sharedRoot := "/srv"
  showHidden := none
  listenAddress := none
  listenPort := none
  oidc := some startOidc
  access := some {}
  trustProxy := none

def startEnvironment : Environment where
  release := true
  args := ["/conf"]
  currentDir := some []
  yafmDisableAuth := some "1"
  platform := plainServer.platform
  readers := ⟨fun _ => none, fun _ => some startConfig⟩
  urls := ⟨fun raw => if raw = callbackUrl.text then some callbackUrl else none⟩
  keys := ⟨id, fun _ => plainJar.library, plainJar.library⟩
  frontendAssets _ := none
  mimeType _ := "text/html"
  fuel := 0

def startServer : Server where
  platform := plainServer.platform
  config := some ⟨[⟨asBytes "srv", validName_srv⟩], false⟩
  auth := some (.oidc plainJar)
  access := some ⟨[], [], OrderedMap.ofList []⟩
  frontendAssets _ := none
  mimeType _ := "text/html"

theorem start_serves : startDisk.run startEnvironment.run =
    (.ok (.serving "0.0.0.0" 8080 startServer), startDisk) := by
  rfl

theorem run_serving_guarded_plain :
    ∃ cwd options raw file block, startEnvironment.Configured startDisk cwd options raw file ∧
      file.oidc = some block ∧ ∃ jar, startServer.auth = some (.oidc jar) ∧
        jar.secure = block.cookieSecure.getD false := by
  obtain ⟨_, cwd, options, raw, file, configured, _, _, _, _, block, _, _, held, _, jar, auth, rfl, _⟩ :=
    run_serving_guarded rfl start_serves
  exact ⟨cwd, options, raw, file, block, configured, held, _, auth, rfl⟩

end Yafm
