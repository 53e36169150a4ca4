import Yafm.Browser.Client
import Yafm.Server.Headers
import Yafm.Concurrent.Server

set_option autoImplicit false

namespace Yafm

open Text Effect

structure StoredCookie where
  name : String
  value : String
  expires : Nat
  named : name ≠ ""

/-- How a browser reads a `Set-Cookie` header and writes a `Cookie` header. -/
structure UserAgent where
  -- name, value and lifetime
  setCookie : String → Option (String × String × Nat)
  cookieHeader : List StoredCookie → String
  -- browsers drop a cookie of more than some 4 KB without notice, and keep what they had under its name
  holds : Cookie → Bool

/-- As the cookies of the server are: browsers also bound how long they hold one. -/
structure Cookie.Ordinary (cookie : Cookie) : Prop where
  path : cookie.path = "/"
  maxAge : cookie.maxAge ≤ sessionMaxAgeSeconds

/-- The browser and the cookie library of the server understand each other, and no browser finds a removal
too long. -/
structure UserAgent.Lawful (agent : UserAgent) (library : CookieLibrary) : Prop where
  encoded : ∀ cookie : Cookie, cookie.Ordinary → (headerValue (library.encoded cookie)).isSome
  stores : ∀ cookie : Cookie, cookie.Ordinary → agent.setCookie (library.encoded cookie) =
    if agent.holds cookie then some (cookie.name, cookie.value, cookie.maxAge) else none
  clears : ∀ secure, ∀ name ∈ [sessionCookieName, loginCookieName],
    agent.holds (SessionCookieJar.clearCookie ⟨library, secure⟩ name)
  visible : ∀ cookies, ∀ c ∈ (agent.cookieHeader cookies).toList, 0x20 ≤ c.toNat ∧ c.toNat < 0x7f
  sends : ∀ cookies, library.splitParseEncoded (agent.cookieHeader cookies) =
    cookies.map fun cookie => (cookie.name, cookie.value)
  nothing : agent.cookieHeader [] = ""

abbrev Browser := List StoredCookie

namespace Browser

variable (agent : UserAgent)

-- A cookie that is set takes the place of an older one of its name; one without a lifetime is gone.
def store (now : Nat) (browser : Browser) (name value : String) (maxAge : Nat) : Browser :=
  if named : name = "" then browser
  else
    let others := browser.filter fun cookie => cookie.name ≠ name
    if maxAge = 0 then others else ⟨name, value, now + maxAge, named⟩ :: others

def receive (now : Nat) (browser : Browser) (headers : List (String × String)) : Browser :=
  headers.foldl
    (fun browser header =>
      if header.1 ≠ "set-cookie" then browser
      else
        match agent.setCookie header.2 with
        | some (name, value, maxAge) => browser.store now name value maxAge
        | none => browser)
    browser

def keep (now : Nat) (browser : Browser) (cookies : List Cookie) : Browser :=
  cookies.foldl
    (fun browser cookie => if agent.holds cookie then
      browser.store now cookie.name cookie.value cookie.maxAge else browser)
    browser

def live (now : Nat) (browser : Browser) : List StoredCookie :=
  browser.filter fun cookie => now < cookie.expires

def lookup (later : Nat) (name : String) (browser : Browser) : Option StoredCookie :=
  browser.find? fun cookie => later < cookie.expires && cookie.name = name

-- No page sets the `Cookie` header itself.
def attach (now : Nat) (browser : Browser) (request : Request) : Request :=
  let cookies := browser.live now
  let own := if cookies = [] then [] else [("cookie", asBytes (agent.cookieHeader cookies))]
  { request with headers := own ++ request.headers.filter fun header => header.1 ≠ "cookie" }

def send {oidc : Oidc} (server : Server) (provider : (op : OidcOp oidc) → op.Answer) (disk : Disk) (now : Nat)
    (browser : Browser) (request : Request) : Response × Browser :=
  let response := ((serve now server (browser.attach agent now request) : Serving oidc).run
    (serverAnswer provider) disk).1
  (response, browser.receive agent now response.headers)

end Browser

section

variable {now later : Nat} {browser : Browser} {name other : String} (value : String)

theorem lookup_store {maxAge : Nat} (named : name ≠ "") (lasting : maxAge ≠ 0) (live : later < now + maxAge) :
    (browser.store now name value maxAge).lookup later name = some ⟨name, value, now + maxAge, named⟩ := by
  simp [Browser.lookup, Browser.store, named, lasting, live]

theorem lookup_store_expired {maxAge : Nat} (named : name ≠ "") (expired : now + maxAge ≤ later) :
    (browser.store now name value maxAge).lookup later name = none := by
  have other : ∀ cookie ∈ browser, cookie.name ≠ name → later < cookie.expires → cookie.name ≠ name :=
    fun _ _ apart _ => apart
  unfold Browser.lookup Browser.store
  rw [dif_neg named]
  dsimp only
  split
  · simpa using other
  · simpa [expired] using other

theorem lookup_store_other (apart : other ≠ name) (maxAge : Nat) :
    (browser.store now name value maxAge).lookup later other = browser.lookup later other := by
  have kept : Browser.lookup later other (browser.filter fun cookie => cookie.name ≠ name) =
      browser.lookup later other := by
    rw [Browser.lookup, Browser.lookup, List.find?_filter]
    congr 1
    funext cookie
    by_cases hit : cookie.name = other
    · simp [hit, apart]
    · simp [hit]
  unfold Browser.store
  split
  · rfl
  dsimp only
  split
  · exact kept
  · rw [← kept, Browser.lookup, List.find?_cons_of_neg]
    · rfl
    · simp [apart.symm]

end

section

variable (agent : UserAgent) (now : Nat) (browser : Browser)

theorem lookup_keep_other {cookies : List Cookie} {later : Nat} {other : String}
    (apart : ∀ cookie ∈ cookies, other ≠ cookie.name) :
    (browser.keep agent now cookies).lookup later other = browser.lookup later other := by
  induction cookies generalizing browser with
  | nil => rfl
  | cons cookie rest ih =>
    rw [List.forall_mem_cons] at apart
    have next := fun held : Browser => ih held apart.2
    unfold Browser.keep at next ⊢
    rw [List.foldl_cons, next]
    split
    · exact lookup_store_other cookie.value apart.1 cookie.maxAge
    · rfl

theorem receive_append (front back : List (String × String)) :
    browser.receive agent now (front ++ back) = (browser.receive agent now front).receive agent now back :=
  List.foldl_append

theorem receive_unset {headers : List (String × String)}
    (unset : ∀ header ∈ headers, header.1 ≠ "set-cookie") :
    browser.receive agent now headers = browser := by
  induction headers with
  | nil => rfl
  | cons header rest ih =>
    have kept : browser.receive agent now (header :: rest) = browser.receive agent now rest := by
      rw [Browser.receive, List.foldl_cons, if_pos (unset header List.mem_cons_self)]
      rfl
    rw [kept]
    exact ih fun other inside => unset other (List.mem_cons_of_mem _ inside)

end

section

variable {agent : UserAgent} {jar : SessionCookieJar} (lawful : agent.Lawful jar.library)
include lawful

theorem cookieHeader_attach (now : Nat) (browser : Browser) (request : Request) :
    (cookieHeader (browser.attach agent now request)).getD "" = agent.cookieHeader (browser.live now) := by
  have foreign :
      (request.headers.filter fun header => header.1 ≠ "cookie").find?
        (fun header => header.1 = "cookie") = none := by
    rw [List.find?_eq_none]
    intro header member
    simpa using (List.mem_filter.mp member).2
  rw [cookieHeader, Browser.attach, HeaderMap.getText, HeaderMap.get]
  dsimp only
  split
  next empty =>
    rw [List.nil_append, foreign, empty, lawful.nothing]
    rfl
  · rw [List.cons_append, List.find?_cons_of_pos rfl, Option.map_some, Option.bind_some,
      headerText_asBytes (lawful.visible _)]
    rfl

theorem extractCookie_live (now : Nat) (browser : Browser) (name : String) :
    extractCookie jar.library (agent.cookieHeader (browser.live now)) name =
      (browser.lookup now name).map StoredCookie.value := by
  rw [extractCookie, lawful.sends, Browser.live, List.find?_map, List.find?_filter,
    Option.map_map, Browser.lookup]
  simp only [Function.comp_def, Bool.decide_and, Bool.decide_eq_true]

theorem receive_cookies (now : Nat) {cookies : List Cookie} (ordinary : ∀ cookie ∈ cookies, cookie.Ordinary)
    (browser : Browser) :
    browser.receive agent now (cookies.map fun cookie => ("set-cookie", jar.library.encoded cookie)) =
      browser.keep agent now cookies := by
  induction cookies generalizing browser with
  | nil => rfl
  | cons cookie rest ih =>
    have stored := lawful.stores cookie (ordinary cookie List.mem_cons_self)
    have next := ih fun other inside => ordinary other (List.mem_cons_of_mem _ inside)
    unfold Browser.receive Browser.keep at next ⊢
    rw [List.map_cons, List.foldl_cons, List.foldl_cons, if_neg (by simp), stored]
    by_cases holds : agent.holds cookie
    · rw [if_pos holds, if_pos holds]
      exact next _
    · rw [if_neg holds, if_neg holds]
      exact next _

theorem receive_redirect (now : Nat) (browser : Browser) (location : String) {cookies : List Cookie}
    (ordinary : ∀ cookie ∈ cookies, cookie.Ordinary) :
    browser.receive agent now ((redirectWithCookies jar.library location cookies).intoResponse
      jar.library).headers =
      browser.keep agent now cookies := by
  have kept : (redirectWithCookies jar.library location cookies).cookies = cookies :=
    List.filter_eq_self.mpr fun cookie inside => lawful.encoded cookie (ordinary cookie inside)
  have plain : ∀ header ∈ (headerValue location).toList.map fun value => ("location", value),
    header.1 ≠ "set-cookie" := by
    simp
  rw [Redirect.intoResponse, receive_append, redirectWithCookies, receive_unset agent now browser plain]
  rw [redirectWithCookies] at kept
  rw [kept, receive_cookies lawful now ordinary]

end

theorem headerValue_visible {text : String} (visible : ∀ c ∈ text.toList, 0x20 ≤ c.toNat ∧ c.toNat < 0x7f) :
    headerValue text = some text := by
  have shown := headerText_asBytes visible
  have each (byte : UInt8) : (byte = 9 || (32 ≤ byte && byte < 127)) → isHeaderByte byte := by
    revert byte
    exact forall_byte (by decide +kernel)
  unfold headerText at shown
  split at shown
  next printed =>
    exact if_pos (List.all_eq_true.mpr fun byte member => each byte (List.all_eq_true.mp printed byte member))
  · cases shown

def cookiePair (name value : String) : String := urlEncode name ++ "=" ++ urlEncode value

def readPair (pair : String) : Option (String × String) := do
  let (name, value) ← splitOnce '=' pair
  let name ← fromUtf8 (percentDecodeBytes name)
  let value ← fromUtf8 (percentDecodeBytes value)
  return (name, value)

def unspaced (piece : String) : String := String.ofList (piece.toList.dropWhile (· = ' '))

def crumbAttributes : String := " HttpOnly; SameSite=Lax; Path=/; Max-Age="

def crumbs : List StoredCookie → List String
  | [] => []
  | first :: rest => cookiePair first.name first.value :: rest.map fun cookie =>
    " " ++ cookiePair cookie.name cookie.value

def crumbLibrary : CookieLibrary where
  splitParseEncoded header := (split ';' header).filterMap fun piece => readPair (unspaced piece)
  encoded cookie := cookiePair cookie.name cookie.value ++ ";" ++ (crumbAttributes ++ toString cookie.maxAge)
  sign payload := "signed." ++ payload
  verify value := stripPrefix "signed." value

def crumbAgent : UserAgent where
  setCookie text := do
    let (pair, attributes) ← splitOnce ';' text
    let (name, value) ← readPair pair
    let maxAge ← (stripPrefix crumbAttributes attributes).bind parseU64
    if pair.toList.length ≤ 4096 then some (name, value, maxAge) else none
  cookieHeader cookies := join ';' (crumbs cookies)
  holds cookie := (cookiePair cookie.name cookie.value).toList.length ≤ 4096

theorem crumbLibrary_lawful : crumbLibrary.Lawful := ⟨fun payload => stripPrefix_append _ payload, by decide⟩

theorem readPair_cookiePair (name value : String) :
    readPair (cookiePair name value) = some (name, value) := by
  have cut : splitOnce '=' (cookiePair name value) = some (urlEncode name, urlEncode value) :=
    splitOnce_eq_some.mpr ⟨rfl, not_mem_encodeClaim name (by decide) (by decide)⟩
  have back (text : String) : percentDecodeBytes (urlEncode text) = asBytes text :=
    percentEncodeExcept_decodes isUnreserved_below (by decide) text
  simp [readPair, cut, back]

theorem not_mem_cookiePair {c : Char} (narrow : c.toNat < 0x80) (other : c ≠ '=')
    (reserved : isUnreserved (asciiByte c) = false ∧ asciiByte c ≠ asciiByte '%') (name value : String) :
    c ∉ (cookiePair name value).toList := by
  have front : c ∉ (urlEncode name).toList := not_mem_encodeClaim name narrow reserved
  have back : c ∉ (urlEncode value).toList := not_mem_encodeClaim value narrow reserved
  simp [cookiePair, front, back, other]

theorem cookiePair_visible (name value : String) :
    ∀ c ∈ (cookiePair name value).toList, 0x20 ≤ c.toNat ∧ c.toNat < 0x7f := by
  have written (byte : UInt8) : (isUnreserved byte || isEscapeByte byte) →
      0x20 ≤ (Char.ofNat byte.toNat).toNat ∧ (Char.ofNat byte.toNat).toNat < 0x7f := by
    revert byte
    exact forall_byte (by decide +kernel)
  have each (text : String) : ∀ c ∈ (urlEncode text).toList, 0x20 ≤ c.toNat ∧ c.toNat < 0x7f := by
    intro c member
    obtain ⟨byte, kept, rfl⟩ : ∃ byte, (isUnreserved byte ∨ isEscapeByte byte) ∧ c = Char.ofNat byte.toNat :=
      mem_percentEncodeExcept member
    exact written byte (by simpa using kept)
  intro c member
  rw [cookiePair, String.toList_append, String.toList_append, List.mem_append, List.mem_append] at member
  rcases member with (front | equals) | back
  · exact each name c front
  · obtain rfl : c = '=' := by simpa using equals
    decide
  · exact each value c back

theorem unspaced_cookiePair (name value : String) :
    unspaced (cookiePair name value) = cookiePair name value := by
  have clear : ' ' ∉ (cookiePair name value).toList :=
    not_mem_cookiePair (by decide) (by decide) (by decide) name value
  have kept : (cookiePair name value).toList.dropWhile (· = ' ') = (cookiePair name value).toList := by
    rw [List.dropWhile_eq_self_iff]
    intro nonempty
    have first : (cookiePair name value).toList[0] ∈ (cookiePair name value).toList :=
      List.getElem_mem nonempty
    simp only [decide_eq_true_eq]
    intro space
    rw [space] at first
    exact clear first
  rw [unspaced, kept, String.ofList_toList]

theorem unspaced_space (text : String) : unspaced (" " ++ text) = unspaced text := by simp [unspaced]

theorem crumbs_pieces (cookies : List StoredCookie) : ∀ piece ∈ crumbs cookies,
    ∃ cookie ∈ cookies, piece = cookiePair cookie.name cookie.value ∨
    piece = " " ++ cookiePair cookie.name cookie.value := by
  intro piece member
  cases cookies with
  | nil => cases member
  | cons first rest =>
    rw [crumbs, List.mem_cons, List.mem_map] at member
    rcases member with rfl | ⟨cookie, inside, rfl⟩
    · exact ⟨first, List.mem_cons_self, .inl rfl⟩
    · exact ⟨cookie, List.mem_cons_of_mem _ inside, .inr rfl⟩

theorem crumbs_read (cookies : List StoredCookie) :
    (crumbs cookies).filterMap (fun piece => readPair (unspaced piece)) =
      cookies.map fun cookie => (cookie.name, cookie.value) := by
  cases cookies with
  | nil => rfl
  | cons first rest =>
    simp [crumbs, unspaced_cookiePair, unspaced_space, readPair_cookiePair, List.filterMap_map]

theorem crumbLibrary_sends (cookies : List StoredCookie) :
    crumbLibrary.splitParseEncoded (crumbAgent.cookieHeader cookies) =
      cookies.map fun cookie => (cookie.name, cookie.value) := by
  have whole : ∀ piece ∈ crumbs cookies, ';' ∉ piece.toList := by
    intro piece member
    obtain ⟨cookie, _, rfl | rfl⟩ := crumbs_pieces cookies piece member
    · exact not_mem_cookiePair (by decide) (by decide) (by decide) cookie.name cookie.value
    · simpa using not_mem_cookiePair (c := ';') (by decide) (by decide) (by decide) cookie.name cookie.value
  cases cookies with
  | nil => decide
  | cons first rest =>
    have parts : split ';' (join ';' (crumbs (first :: rest))) = crumbs (first :: rest) :=
      split_join (by simp [crumbs]) whole
    simp only [crumbLibrary, crumbAgent]
    rw [parts, crumbs_read]

theorem crumbAgent_visible (cookies : List StoredCookie) :
    ∀ c ∈ (crumbAgent.cookieHeader cookies).toList, 0x20 ≤ c.toNat ∧ c.toNat < 0x7f := by
  intro c member
  rcases mem_join member with rfl | ⟨piece, inside, found⟩
  · decide
  · obtain ⟨cookie, _, rfl | rfl⟩ := crumbs_pieces cookies piece inside
    · exact cookiePair_visible cookie.name cookie.value c found
    · rw [String.toList_append, List.mem_append] at found
      rcases found with space | pair
      · obtain rfl : c = ' ' := by simpa using space
        decide
      · exact cookiePair_visible cookie.name cookie.value c pair

theorem crumbAttributes_visible :
    (crumbAttributes.toList.all fun c => 0x20 ≤ c.toNat && c.toNat < 0x7f) = true := by decide

theorem crumbLibrary_visible (cookie : Cookie) :
    ∀ c ∈ (crumbLibrary.encoded cookie).toList, 0x20 ≤ c.toNat ∧ c.toNat < 0x7f := by
  intro c member
  have spelled : crumbLibrary.encoded cookie =
      cookiePair cookie.name cookie.value ++ ";" ++ (crumbAttributes ++ toString cookie.maxAge) := rfl
  rw [spelled, String.toList_append, String.toList_append, String.toList_append] at member
  simp only [List.mem_append] at member
  rcases member with (pair | mark) | (attributes | age)
  · exact cookiePair_visible cookie.name cookie.value c pair
  · obtain rfl : c = ';' := by simpa using mark
    decide
  · simpa using List.all_eq_true.mp crumbAttributes_visible c attributes
  · rw [Nat.toString_eq_ofList_toDigits, String.toList_ofList] at age
    have digit := Nat.isDigit_of_mem_toDigits (by decide) (by decide) age
    rw [Char.isDigit_iff_toNat] at digit
    have zero : '0'.toNat = 0x30 := rfl
    have nine : '9'.toNat = 0x39 := rfl
    omega

theorem crumbAgent_stores (cookie : Cookie) (ordinary : cookie.Ordinary) :
    crumbAgent.setCookie (crumbLibrary.encoded cookie) =
      if crumbAgent.holds cookie then some (cookie.name, cookie.value, cookie.maxAge) else none := by
  have cut : splitOnce ';' (crumbLibrary.encoded cookie) =
      some (cookiePair cookie.name cookie.value, crumbAttributes ++ toString cookie.maxAge) :=
    splitOnce_eq_some.mpr ⟨rfl, not_mem_cookiePair (by decide) (by decide) (by decide)
      cookie.name cookie.value⟩
  have age : parseU64 (toString cookie.maxAge) = some cookie.maxAge :=
    parseU64_toString (ordinary.maxAge.trans_lt (by decide))
  simp only [crumbAgent, cut, readPair_cookiePair, stripPrefix_append, age, bind,
    Option.bind, decide_eq_true_eq]

theorem crumbAgent_lawful : crumbAgent.Lawful crumbLibrary where
  encoded cookie _ := by
    rw [headerValue_visible (crumbLibrary_visible cookie)]
    rfl
  stores := crumbAgent_stores
  clears secure name member := by
    have short : ∀ name ∈ [sessionCookieName, loginCookieName],
      (cookiePair name "").toList.length ≤ 4096 := by decide +kernel
    simp only [crumbAgent, SessionCookieJar.clearCookie, decide_eq_true_eq]
    exact short name member
  visible := crumbAgent_visible
  sends := crumbLibrary_sends
  nothing := rfl

end Yafm
