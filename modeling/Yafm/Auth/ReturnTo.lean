import Yafm.Auth.Run

set_option autoImplicit false

namespace Yafm

open Text Effect

structure WebOrigin where
  scheme : String
  host : String
  port : Nat
  deriving DecidableEq, Repr

/-- The parts of the WHATWG parser that read a host or a whole URL. -/
structure UrlParser where
  authority : List Char → Option WebOrigin
  absolute : List Char → Option WebOrigin

def isC0OrSpace (c : Char) : Bool := c.toNat ≤ 32

def isTabOrNewline (c : Char) : Bool := c = '\t' || c = '\n' || c = '\r'

def urlTail (chars : List Char) : List Char :=
  (chars.rdropWhile isC0OrSpace).filter fun c => !isTabOrNewline c

def urlCharacters (location : String) : List Char := urlTail (location.toList.dropWhile isC0OrSpace)

def isSlash (c : Char) : Bool := c = '/' || c = '\\'

-- The slashes before an authority are skipped, however many there are.
def authorityText (chars : List Char) : List Char :=
  (chars.dropWhile isSlash).takeWhile fun c => !(isSlash c || c = '?' || c = '#')

def hasScheme (chars : List Char) : Bool :=
  chars.head?.any Char.isAlpha &&
    (chars.dropWhile fun c => c.isAlphanum || c = '+' || c = '-' || c = '.').head? = some ':'

def UrlParser.resolve (parser : UrlParser) (site : WebOrigin) (location : String) : Option WebOrigin :=
  let chars := urlCharacters location
  if hasScheme chars then parser.absolute chars
  else
    match chars with
    | first :: second :: rest =>
      if isSlash first && isSlash second then parser.authority (authorityText rest) else some site
    | _ => some site

/-- No location of a callback that a login with this `returnTo` leads to is on another origin. -/
def StaysOnOrigin (parser : UrlParser) (site : WebOrigin) (returnTo : String) : Prop :=
  ∀ (oidc : Oidc) (jar : SessionCookieJar), jar.library.Lawful →
  ∀ (now later : Nat) (granted redirect : Redirect)
    (cookie : Cookie) (header : Option String) (query : CallbackQuery),
    (loginResponse (some (.oidc jar)) returnTo : Flow oidc _ _).Yields (Replies now) (.ok granted) →
    cookie ∈ granted.cookies → extractCookie jar.library (header.getD "") loginCookieName =
      some cookie.value →
    (callbackResponse (some (.oidc jar)) header query : Flow oidc _ _).Yields (Replies later) (.ok redirect) →
    ∀ location ∈ redirect.location, parser.resolve site location = some site

/-- A second slash comes after tabs, in a value that makes a header. -/
structure HidesAuthority (returnTo : String) (rest : List Char) : Prop where
  spelled : ∃ tabs, returnTo.toList = '/' :: '\t' :: List.replicate tabs '\t' ++ '/' :: rest
  slashed : '\\' ∉ rest
  header : (asBytes returnTo).all isHeaderByte

theorem sanitizeReturnTo_passes {value : String}
    (passes : startsWith "/" value && !contains '\\' value && !startsWith "//" value) :
    sanitizeReturnTo (some value) = value := by
  simp only [sanitizeReturnTo, passes, if_true]

theorem sanitizeReturnTo_cases (value : String) :
    (sanitizeReturnTo (some value) = "/") ∨ (sanitizeReturnTo (some value) = value ∧
      startsWith "/" value ∧ '\\' ∉ value.toList ∧ startsWith "//" value = false) := by
  by_cases passes : startsWith "/" value && !contains '\\' value && !startsWith "//" value
  · right
    refine ⟨sanitizeReturnTo_passes passes, ?_⟩
    simpa [contains, and_assoc] using passes
  · left
    simp only [sanitizeReturnTo, passes]
    rfl

theorem sanitizeReturnTo_twice (value : String) :
    sanitizeReturnTo (some (sanitizeReturnTo (some value))) = sanitizeReturnTo (some value) := by
  rcases sanitizeReturnTo_cases value with root | ⟨same, _⟩
  · rw [root]
    decide
  · rw [same, same]

theorem rdropWhile_cons (p : Char → Bool) (c : Char) (rest : List Char) :
    (c :: rest).rdropWhile p = c :: rest.rdropWhile p ∨ ∀ d ∈ c :: rest, p d := by
  induction rest using List.reverseRecOn with
  | nil =>
    by_cases dropped : p c
    · exact .inr (by simpa using dropped)
    · exact .inl (by simp [List.rdropWhile, dropped])
  | append_singleton front last ih =>
    rw [← List.cons_append]
    by_cases dropped : p last
    · rw [List.rdropWhile_concat_pos _ _ _ dropped, List.rdropWhile_concat_pos _ _ _ dropped]
      rcases ih with apart | all
      · exact .inl apart
      · right
        intro d member
        rcases List.mem_append.mp member with early | final
        · exact all d early
        · rwa [List.mem_singleton.mp final]
    · left
      rw [List.rdropWhile_concat_neg _ _ _ dropped,
        List.rdropWhile_concat_neg _ _ _ dropped, List.cons_append]

theorem urlTail_kept {c : Char} (kept : isC0OrSpace c = false) (rest : List Char) :
    urlTail (c :: rest) = c :: urlTail rest := by
  have stays : isTabOrNewline c = false := by
    by_contra removed
    simp only [isTabOrNewline, Bool.not_eq_false, Bool.or_eq_true, decide_eq_true_eq] at removed
    rcases removed with (rfl | rfl) | rfl <;> simp [isC0OrSpace] at kept
  rcases rdropWhile_cons isC0OrSpace c rest with apart | all
  · simp [urlTail, apart, stays]
  · have dropped := all c List.mem_cons_self
    rw [kept] at dropped
    cases dropped

theorem urlTail_tab (rest : List Char) : urlTail ('\t' :: rest) = urlTail rest := by
  rcases rdropWhile_cons isC0OrSpace '\t' rest with apart | all
  · simp [urlTail, apart, isTabOrNewline]
  · have whole := List.rdropWhile_eq_nil_iff.mpr all
    have part := List.rdropWhile_eq_nil_iff.mpr fun d member => all d (List.mem_cons_of_mem _ member)
    rw [urlTail, urlTail, whole, part]

theorem urlTail_tabs (tabs : Nat) (rest : List Char) :
    urlTail (List.replicate tabs '\t' ++ rest) = urlTail rest := by
  induction tabs with
  | zero => rfl
  | succ tabs ih => rw [List.replicate_succ, List.cons_append, urlTail_tab, ih]

theorem urlTail_head {chars tail : List Char} {first : Char} (oneLine : '\n' ∉ chars ∧ '\r' ∉ chars)
    (reads : urlTail chars = first :: tail) :
    ∃ tabs rest, chars = List.replicate tabs '\t' ++ first :: rest ∧ tail = urlTail rest := by
  induction chars with
  | nil => cases reads
  | cons c rest ih =>
    by_cases tab : c = '\t'
    · subst tab
      rw [urlTail_tab] at reads
      obtain ⟨tabs, more, spelled, same⟩ :=
        ih ⟨fun inside => oneLine.1 (.tail _ inside), fun inside => oneLine.2 (.tail _ inside)⟩ reads
      exact ⟨tabs + 1, more, by rw [spelled, List.replicate_succ, List.cons_append], same⟩
    · have stays : isTabOrNewline c = false := by
        by_contra removed
        simp only [isTabOrNewline, Bool.not_eq_false, Bool.or_eq_true, decide_eq_true_eq] at removed
        rcases removed with (rfl | rfl) | rfl <;> simp at tab oneLine
      rcases rdropWhile_cons isC0OrSpace c rest with apart | all
      · have parts : urlTail (c :: rest) = c :: urlTail rest := by simp [urlTail, apart, stays]
        rw [parts] at reads
        cases reads
        exact ⟨0, rest, rfl, rfl⟩
      · rw [urlTail, List.rdropWhile_eq_nil_iff.mpr all] at reads
        cases reads

theorem urlCharacters_slash {value : String} {rest : List Char} (spelled : value.toList = '/' :: rest) :
    urlCharacters value = '/' :: urlTail rest := by
  rw [urlCharacters, spelled, List.dropWhile_cons_of_neg (by decide), urlTail_kept (by decide)]

theorem resolve_slash (parser : UrlParser) (site : WebOrigin) {value : String} {rest : List Char}
    (spelled : value.toList = '/' :: rest) :
    parser.resolve site value =
      match urlTail rest with
      | second :: rest => if isSlash second then parser.authority (authorityText rest) else some site
      | [] => some site := by
  have relative : hasScheme ('/' :: urlTail rest) = false := by simp [hasScheme]
  simp only [UrlParser.resolve, urlCharacters_slash spelled, relative, Bool.false_eq_true, if_false]
  cases urlTail rest with
  | nil => rfl
  | cons second rest => simp [isSlash]

theorem HidesAuthority.resolves {returnTo : String} {rest : List Char} (hides : HidesAuthority returnTo rest)
    (parser : UrlParser) (site : WebOrigin) :
    parser.resolve site returnTo = parser.authority (authorityText (urlTail rest)) := by
  obtain ⟨tabs, spelled⟩ := hides.spelled
  rw [List.cons_append, List.cons_append] at spelled
  rw [resolve_slash parser site spelled, urlTail_tab, urlTail_tabs, urlTail_kept (by decide)]
  rfl

theorem HidesAuthority.passes {returnTo : String} {rest : List Char} (hides : HidesAuthority returnTo rest) :
    sanitizeReturnTo (some returnTo) = returnTo := by
  obtain ⟨tabs, spelled⟩ := hides.spelled
  apply sanitizeReturnTo_passes
  have slashed := hides.slashed
  simp [startsWith, contains, spelled, slashed, List.isPrefixOf]

-- The header rules leave the tab as the only character that the browser takes out again.
theorem resolve_accepted (parser : UrlParser) (site : WebOrigin) {value : String}
    (slash : startsWith "/" value) (clean : '\\' ∉ value.toList)
    (single : startsWith "//" value = false) (header : (asBytes value).all isHeaderByte) :
    parser.resolve site value = some site ∨
      ∃ rest, HidesAuthority value rest ∧ parser.resolve site value =
        parser.authority (authorityText (urlTail rest)) := by
  obtain ⟨more, spelled⟩ : ∃ more, value.toList = '/' :: more := by
    obtain ⟨more, whole⟩ := List.isPrefixOf_iff_prefix.mp slash
    exact ⟨more, whole.symm⟩
  have legal (c : Char) (ascii : c.toNat < 0x80) (illegal : isHeaderByte (asciiByte c) = false) :
      c ∉ value.toList := by
    intro inside
    have sent := List.all_eq_true.mp header _ ((asciiByte_mem_asBytes ascii value).mpr inside)
    rw [illegal] at sent
    cases sent
  have oneLine : '\n' ∉ more ∧ '\r' ∉ more := by
    have line := legal '\n' (by decide) (by decide)
    have feed := legal '\r' (by decide) (by decide)
    rw [spelled] at line feed
    exact ⟨fun inside => line (.tail _ inside), fun inside => feed (.tail _ inside)⟩
  rw [resolve_slash parser site spelled]
  cases reads : urlTail more with
  | nil => exact .inl rfl
  | cons second tail =>
    by_cases opens : isSlash second
    · right
      obtain ⟨tabs, rest, parts, rfl⟩ := urlTail_head oneLine reads
      rw [spelled, parts] at clean
      obtain rfl : second = '/' := by
        simp only [isSlash, Bool.or_eq_true, decide_eq_true_eq] at opens
        rcases opens with slash | rfl
        · exact slash
        · simp at clean
      cases tabs with
      | zero =>
        rw [startsWith, spelled, parts] at single
        simp at single
      | succ tabs =>
        refine ⟨rest, ⟨⟨tabs, ?_⟩, ?_, header⟩, ?_⟩
        · rw [spelled, parts, List.replicate_succ]
          rfl
        · simp only [List.mem_cons, List.mem_append, not_or] at clean
          exact clean.2.2.2
        · rfl
    · left
      simp [opens]

theorem callback_location {oidc : Oidc} {jar : SessionCookieJar} (lawful : jar.library.Lawful)
    {now later : Nat} {returnTo : String} {granted redirect : Redirect} {cookie : Cookie}
    {header : Option String} {query : CallbackQuery}
    (login : (loginResponse (some (.oidc jar)) returnTo : Flow oidc _ _).Yields (Replies now) (.ok granted))
    (member : cookie ∈ granted.cookies)
    (sent : extractCookie jar.library (header.getD "") loginCookieName = some cookie.value)
    (callback : (callbackResponse (some (.oidc jar)) header query : Flow oidc _ _).Yields
      (Replies later) (.ok redirect)) :
    redirect.location = headerValue (sanitizeReturnTo (some returnTo)) := by
  obtain ⟨_, _, request, ⟨state, nonce, verifier⟩, rfl⟩ :=
    (loginResponse_ok_iff jar returnTo granted).mp login
  obtain ⟨_, read, _, verified, _, _, _, _, _, _, _, rfl⟩ :=
    (callbackResponse_ok_iff jar header query redirect).mp callback
  rw [List.mem_singleton.mp (mem_redirectWithCookies member)] at sent
  obtain ⟨value, payload, found, signed, parsed⟩ := verifyLogin_ok verified
  obtain rfl := Option.some.inj (sent.symm.trans found)
  obtain rfl : loginPayload _ = payload := Option.some.inj ((lawful.signed _).symm.trans signed)
  rw [parseLoginPayload_minted ⟨state, nonce, verifier⟩] at parsed
  cases parsed
  simp only [redirectWithCookies, sanitizeReturnTo_twice]

theorem StaysOnOrigin.authority {parser : UrlParser} {site : WebOrigin} {returnTo : String}
    (stays : StaysOnOrigin parser site returnTo) {rest : List Char} (hides : HidesAuthority returnTo rest) :
    parser.authority (authorityText (urlTail rest)) = some site := by
  have sent : extractCookie plainLibrary ((plainCallback returnTo).header.getD "") loginCookieName =
      some (plainJar.mintLogin (plainLogin returnTo)).value := plainJar_sent returnTo
  have granted : plainJar.mintLogin (plainLogin returnTo) ∈ (plainGranted returnTo).cookies := by
    rw [plainGranted, plainLibrary_sets]
    exact List.mem_singleton_self _
  have lands := stays plainOidc plainJar plainLibrary_lawful 50
    (plainCallback returnTo).now (plainGranted returnTo)
    (plainCallback returnTo).redirect (plainJar.mintLogin (plainLogin returnTo))
      (plainCallback returnTo).header
    (plainCallback returnTo).query (plainGranted_granted 50 returnTo) granted sent
      (plainCallback_answered returnTo)
  have location : (plainCallback returnTo).redirect.location = some returnTo := by
    have same : (plainLogin returnTo).returnTo = returnTo := hides.passes
    rw [plainCallback_location, same, hides.passes, headerValue, if_pos hides.header]
  rw [← hides.resolves parser site]
  exact lands returnTo (Option.mem_def.mpr location)

theorem staysOnOrigin_iff (parser : UrlParser) (site : WebOrigin) (returnTo : String) :
    StaysOnOrigin parser site returnTo ↔
      ∀ rest, HidesAuthority returnTo rest → parser.authority (authorityText (urlTail rest)) = some site := by
  constructor
  · exact fun stays rest hides => stays.authority hides
  · intro own oidc jar lawful now later granted redirect cookie header query login member
      sent callback location here
    rw [callback_location lawful login member sent callback, headerValue] at here
    split at here
    next legal =>
      obtain rfl := Option.some.inj here
      rcases sanitizeReturnTo_cases returnTo with root | ⟨same, slash, clean, single⟩
      · rw [root, resolve_slash parser site (show "/".toList = ['/'] from rfl)]
        rfl
      · rw [same] at legal ⊢
        rcases resolve_accepted parser site slash clean single legal with home | ⟨rest, hides, away⟩
        · exact home
        · rw [away, own rest hides]
    · cases here

def hostParser : UrlParser where
  authority chars := if chars.isEmpty then none else some ⟨"https", String.ofList chars, 443⟩
  absolute _ := none

theorem not_staysOnOrigin_tab :
    ¬ StaysOnOrigin hostParser ⟨"https", "files.example", 443⟩ "/\t/evil.example" := by
  intro stays
  have hides : HidesAuthority "/\t/evil.example" "evil.example".toList :=
    ⟨⟨0, by decide +kernel⟩, by decide +kernel, by decide +kernel⟩
  have site := stays.authority hides
  have away : hostParser.authority (authorityText (urlTail "evil.example".toList)) =
      some ⟨"https", "evil.example", 443⟩ := by decide +kernel
  rw [away] at site
  exact absurd site (by decide +kernel)

end Yafm
