import Yafm.Decoding

set_option autoImplicit false

namespace Yafm

open Text

def sessionCookieName : String := "yafm_session"

def loginCookieName : String := "yafm_oidc_login"

def sessionMaxAgeSeconds : Nat := 12 * 60 * 60

def loginMaxAgeSeconds : Nat := 10 * 60

def sessionPayloadVersion : String := "v2"

structure SessionClaims where
  subject : String
  displayName : String
  email : String
  groups : List String
  deriving DecidableEq, Repr

structure LoginCookieData where
  state : String
  nonce : String
  verifier : String
  returnTo : String
  deriving DecidableEq, Repr

def isUnreserved (byte : UInt8) : Bool :=
  (asciiByte '0' ≤ byte && byte ≤ asciiByte '9') || (asciiByte 'A' ≤ byte && byte ≤ asciiByte 'Z') ||
    (asciiByte 'a' ≤ byte && byte ≤ asciiByte 'z') || byte = asciiByte '-' || byte = asciiByte '_' ||
    byte = asciiByte '.' || byte = asciiByte '~'

-- `urlencoding::encode`.
def urlEncode (value : String) : String :=
  asciiText ((asBytes value).flatMap fun byte => if isUnreserved byte then [byte] else percentEscape byte)

def encodeClaim (value : String) : String := urlEncode value

def unrecognizable {α : Type} : Except String α := .error "The session cookie is not recognizable."

def decodeClaim (value : String) : Except String String :=
  match fromUtf8 (percentDecodeBytes value) with
  | some decoded => .ok decoded
  | none => unrecognizable

def sessionPayload (now maxAge : Nat) (claims : SessionClaims) : String :=
  -- the sum is taken in 64 bits
  let expiration := (now + maxAge) % 2 ^ 64
  join ':' [sessionPayloadVersion, toString expiration, encodeClaim claims.subject,
    encodeClaim claims.displayName, encodeClaim claims.email, join ',' (claims.groups.map encodeClaim)]

def nextField (fields : List String) (index : Nat) : Except String String :=
  match fields[index]? with
  | some field => .ok field
  | none => unrecognizable

def parseSessionPayload (now : Nat) (value : String) : Except String SessionClaims := do
  let fields := splitN ':' 6 value
  let version := fields.headD ""
  let expiration ← nextField fields 1
  if version ≠ sessionPayloadVersion then unrecognizable
  else
    match parseU64 expiration with
    | none => unrecognizable
    | some expiration =>
      if expiration ≤ now then throw "The session cookie has expired."
      else
        let subject ← nextField fields 2
        let displayName ← nextField fields 3
        let email ← nextField fields 4
        let groups ← nextField fields 5
        let subject ← decodeClaim subject
        if subject = "" then unrecognizable
        else
          let displayName ← decodeClaim displayName
          let email ← decodeClaim email
          -- the entries were encoded one by one, so a raw comma only ever separates them
          let groups ← if groups = "" then pure [] else (split ',' groups).mapM decodeClaim
          return ⟨subject, displayName, email, groups⟩

def loginPayload (data : LoginCookieData) : String :=
  join '|' [data.state, data.nonce, data.verifier, data.returnTo]

def parseLoginPayload (value : String) : Except String LoginCookieData :=
  let fields := splitN '|' 4 value
  let field := fun index => fields.getD index ""
  if field 0 = "" || field 1 = "" || field 2 = "" then .error "The login cookie is not recognizable."
  else .ok ⟨field 0, field 1, field 2, field 3⟩

example : parseLoginPayload "s|n|v|/a|b" = .ok ⟨"s", "n", "v", "/a|b"⟩ := by decide

theorem isUnreserved_ascii (byte : UInt8) : isUnreserved byte ∨ byte = asciiByte '%' → byte < 0x80 := by
  revert byte
  exact forall_byte (by decide +kernel)

theorem urlEncode_bytes (raw : Bytes) :
    ∀ byte ∈ raw.flatMap fun byte => if isUnreserved byte then [byte] else percentEscape byte,
      isUnreserved byte ∨ byte = asciiByte '%' := by
  have escaped : ∀ source, ∀ byte ∈ percentEscape source, isUnreserved byte || byte == asciiByte '%' :=
    forall_byte_all (by decide +kernel)
  intro byte member
  obtain ⟨source, _, inside⟩ := List.mem_flatMap.mp member
  split at inside
  next plain =>
    rw [List.mem_singleton.mp inside]
    exact Or.inl plain
  next => simpa using escaped source byte inside

theorem asBytes_urlEncode (value : String) :
    asBytes (urlEncode value) = (asBytes value).flatMap fun byte => if isUnreserved byte then [byte]
      else percentEscape byte := by
  rw [urlEncode, asBytes_asciiText fun byte member => isUnreserved_ascii byte (urlEncode_bytes _ byte member)]

theorem encodeClaim_bytes (value : String) :
    ∀ byte ∈ asBytes (encodeClaim value), isUnreserved byte ∨ byte = asciiByte '%' := by
  rw [encodeClaim, asBytes_urlEncode]
  exact urlEncode_bytes _

theorem not_mem_encodeClaim {c : Char} (value : String) (narrow : c.toNat < 0x80)
    (reserved : isUnreserved (asciiByte c) = false ∧ asciiByte c ≠ asciiByte '%') :
    c ∉ (encodeClaim value).toList := by
  rw [← asciiByte_mem_asBytes narrow]
  intro member
  rcases encodeClaim_bytes value _ member with plain | percent
  · rw [reserved.1] at plain
    cases plain
  · exact reserved.2 percent

theorem not_mem_groups {c : Char} (groups : List String) (narrow : c.toNat < 0x80) (other : c ≠ ',')
    (reserved : isUnreserved (asciiByte c) = false ∧ asciiByte c ≠ asciiByte '%') :
    c ∉ (join ',' (groups.map encodeClaim)).toList := by
  intro member
  rcases mem_join member with separates | ⟨part, inside, found⟩
  · exact other separates
  · obtain ⟨group, _, rfl⟩ := List.mem_map.mp inside
    exact not_mem_encodeClaim group narrow reserved found

theorem not_mem_toString {c : Char} (n : Nat) (other : c.isDigit = false) : c ∉ (toString n).toList := by
  rw [Nat.toString_eq_ofList_toDigits, String.toList_ofList]
  intro member
  have digit := Nat.isDigit_of_mem_toDigits (by decide) (by decide) member
  rw [other] at digit
  cases digit

theorem splitN_sessionPayload (now maxAge : Nat) (claims : SessionClaims) :
    splitN ':' 6 (sessionPayload now maxAge claims) =
      [sessionPayloadVersion, toString ((now + maxAge) % 2 ^ 64), encodeClaim claims.subject,
        encodeClaim claims.displayName, encodeClaim claims.email,
          join ',' (claims.groups.map encodeClaim)] := by
  refine splitN_join [_, _, _, _, _] (join ',' (claims.groups.map encodeClaim)) ?_
  have claim (value : String) : ':' ∉ (encodeClaim value).toList :=
    not_mem_encodeClaim value (by decide) (by decide)
  intro field member
  simp only [List.mem_cons, List.not_mem_nil, or_false] at member
  rcases member with rfl | rfl | rfl | rfl | rfl
  · decide
  · exact not_mem_toString _ (by decide)
  · exact claim _
  · exact claim _
  · exact claim _

theorem parseSessionPayload_ok {now : Nat} {value : String} {parsed : SessionClaims}
    (accepted : parseSessionPayload now value = .ok parsed) :
    (splitN ':' 6 value).headD "" = sessionPayloadVersion ∧
      ∃ field expiration, (splitN ':' 6 value)[1]? = some field ∧
      parseU64 field = some expiration ∧ now < expiration := by
  unfold parseSessionPayload at accepted
  obtain ⟨field, found, checked⟩ := bind_ok accepted
  split at checked
  · cases checked
  next version =>
    split at checked
    · cases checked
    next expiration read =>
      split at checked
      · cases checked
      next future =>
        refine ⟨by simpa using version, field, expiration, ?_, read, by omega⟩
        unfold nextField at found
        split at found
        next other present =>
          rw [present, Except.ok.inj found]
        · cases found

theorem parseSessionPayload_minted {minted maxAge now : Nat} {claims parsed : SessionClaims}
    (accepted : parseSessionPayload now (sessionPayload minted maxAge claims) = .ok parsed) :
    now < minted + maxAge := by
  obtain ⟨_, field, expiration, found, read, future⟩ := parseSessionPayload_ok accepted
  rw [splitN_sessionPayload, List.getElem?_cons_succ, List.getElem?_cons_zero, Option.some.injEq] at found
  rw [← found, parseU64_toString (Nat.mod_lt _ (by decide)), Option.some.injEq] at read
  have small := Nat.mod_le (minted + maxAge) (2 ^ 64)
  omega

theorem decodeClaim_encodeClaim (value : String) : decodeClaim (encodeClaim value) = .ok value := by
  have bytes : percentDecodeBytes (encodeClaim value) = asBytes value := by
    rw [percentDecodeBytes, encodeClaim, asBytes_urlEncode]
    exact decodeEscapes_escaped (by decide) _
  rw [decodeClaim, bytes, (fromUtf8_eq_some _ _).mpr rfl]

-- A group whose name is empty leaves no trace where it stands alone.
def mintedGroups (groups : List String) : List String := if groups = [""] then [] else groups

theorem encodeClaim_empty_iff (value : String) : encodeClaim value = "" ↔ value = "" := by
  constructor
  · intro empty
    have decoded := decodeClaim_encodeClaim value
    rw [empty] at decoded
    exact (Except.ok.inj decoded).symm
  · rintro rfl
    rfl

theorem joinedGroups_empty_iff (groups : List String) :
    join ',' (groups.map encodeClaim) = "" ↔ groups = [] ∨ groups = [""] := by
  match groups with
  | [] => simp [join]
  | [group] => simp [join_singleton, encodeClaim_empty_iff]
  | group :: next :: rest =>
    rw [List.map_cons, List.map_cons, join_cons_cons]
    refine iff_of_false (fun empty => ?_) (by simp)
    simpa using congrArg String.toList empty

theorem parseGroups_minted (groups : List String) :
    (if join ',' (groups.map encodeClaim) = "" then pure []
      else (split ',' (join ',' (groups.map encodeClaim))).mapM decodeClaim) =
      (.ok (mintedGroups groups) : Except String (List String)) := by
  by_cases empty : join ',' (groups.map encodeClaim) = ""
  · rw [if_pos empty, mintedGroups]
    rcases (joinedGroups_empty_iff groups).mp empty with rfl | rfl
    · rfl
    · rfl
  · rw [if_neg empty]
    rw [joinedGroups_empty_iff, not_or] at empty
    have clean : ∀ field ∈ groups.map encodeClaim, ',' ∉ field.toList := by
      intro field member
      obtain ⟨group, _, rfl⟩ := List.mem_map.mp member
      exact not_mem_encodeClaim group (by decide) (by decide)
    rw [split_join (by simpa using empty.1) clean, List.mapM_map, mintedGroups, if_neg empty.2]
    have read := mapM_ok fun group (_ : group ∈ groups) => decodeClaim_encodeClaim group
    rwa [List.map_id'] at read

theorem parseSessionPayload_live {minted maxAge now : Nat} {claims : SessionClaims}
    (named : claims.subject ≠ "") (fits : minted + maxAge < 2 ^ 64) (live : now < minted + maxAge) :
    parseSessionPayload now (sessionPayload minted maxAge claims) =
      .ok { claims with groups := mintedGroups claims.groups } := by
  have expiration : parseU64 (toString ((minted + maxAge) % 2 ^ 64)) = some (minted + maxAge) := by
    rw [Nat.mod_eq_of_lt fits, parseU64_toString fits]
  have future : ¬minted + maxAge ≤ now := by omega
  have groups := parseGroups_minted claims.groups
  unfold parseSessionPayload
  simp only [splitN_sessionPayload, nextField, List.getElem?_cons_succ,
    List.getElem?_cons_zero, List.headD_cons,
    expiration, decodeClaim_encodeClaim, bind, Except.bind, named, future, ne_eq, not_true_eq_false, if_false]
  split
  next empty =>
    rw [if_pos empty] at groups
    rw [← Except.ok.inj groups]
    rfl
  next filled =>
    rw [if_neg filled] at groups
    rw [groups]
    rfl

theorem parseSessionPayload_nameless {claims : SessionClaims} (nameless : claims.subject = "")
    (minted maxAge now : Nat) (parsed : SessionClaims) :
    parseSessionPayload now (sessionPayload minted maxAge claims) ≠ .ok parsed := by
  intro accepted
  unfold parseSessionPayload at accepted
  simp only [splitN_sessionPayload, nextField, List.getElem?_cons_succ,
    List.getElem?_cons_zero, List.headD_cons,
    decodeClaim_encodeClaim, bind, Except.bind, nameless, ne_eq, not_true_eq_false,
    if_false, if_true] at accepted
  split at accepted
  · cases accepted
  · split at accepted
    · cases accepted
    · cases accepted

theorem parseSessionPayload_expired {minted maxAge now : Nat} (claims : SessionClaims)
    (fits : minted + maxAge < 2 ^ 64) (expired : minted + maxAge ≤ now) :
    parseSessionPayload now (sessionPayload minted maxAge claims) =
      .error "The session cookie has expired." := by
  have expiration : parseU64 (toString ((minted + maxAge) % 2 ^ 64)) = some (minted + maxAge) := by
    rw [Nat.mod_eq_of_lt fits, parseU64_toString fits]
  unfold parseSessionPayload
  simp only [splitN_sessionPayload, nextField, List.getElem?_cons_succ,
    List.getElem?_cons_zero, List.headD_cons,
    expiration, bind, Except.bind, expired, ne_eq, not_true_eq_false, if_false, if_true]
  rfl

theorem parseSessionPayload_roundTrip {minted maxAge : Nat} {claims : SessionClaims}
    (named : claims.subject ≠ "") (fits : minted + maxAge < 2 ^ 64) (now : Nat) :
    (now < minted + maxAge → ∃ parsed, parseSessionPayload now
      (sessionPayload minted maxAge claims) = .ok parsed ∧
      parsed.subject = claims.subject ∧ parsed.displayName = claims.displayName ∧
      parsed.email = claims.email ∧
      parsed.groups.filter (· ≠ "") = claims.groups.filter (· ≠ "")) ∧
    (minted + maxAge ≤ now →
      ∃ message, parseSessionPayload now (sessionPayload minted maxAge claims) = .error message) := by
  constructor
  · intro live
    refine ⟨_, parseSessionPayload_live named fits live, rfl, rfl, rfl, ?_⟩
    unfold mintedGroups
    split
    next alone => rw [alone]; rfl
    · rfl
  · intro expired
    exact ⟨_, parseSessionPayload_expired claims fits expired⟩

theorem parseSessionPayload_roundTrip_separators :
    (150 < 100 + 60 → ∃ parsed, parseSessionPayload 150
        (sessionPayload 100 60 ⟨"sub:ject", "User, the: 2%3A", "", ["", "group, one", "group:two"]⟩) =
          .ok parsed ∧
      parsed.subject = "sub:ject" ∧ parsed.displayName = "User, the: 2%3A" ∧ parsed.email = "" ∧
      parsed.groups.filter (· ≠ "") = ["", "group, one", "group:two"].filter (· ≠ "")) ∧
    (100 + 60 ≤ 150 → ∃ message, parseSessionPayload 150
        (sessionPayload 100 60 ⟨"sub:ject", "User, the: 2%3A", "", ["", "group, one", "group:two"]⟩) =
          .error message) :=
  parseSessionPayload_roundTrip (by decide) (by decide) 150

-- The alphabet of the values that the OIDC library generates.
def isBase64Url (c : Char) : Bool := c.isAlphanum || c = '-' || c = '_'

def isSecret (value : String) : Bool := value ≠ "" && value.toList.all isBase64Url

/-- The path to return to may be anything. -/
structure LoginCookieData.WellFormed (data : LoginCookieData) : Prop where
  state : isSecret data.state
  nonce : isSecret data.nonce
  verifier : isSecret data.verifier

theorem isSecret_iff (value : String) : isSecret value ↔ value ≠ "" ∧ ∀ c ∈ value.toList, isBase64Url c := by
  simp [isSecret]

theorem not_mem_secret {c : Char} {value : String} (secret : isSecret value) (other : isBase64Url c = false) :
    c ∉ value.toList := by
  intro member
  have inside := ((isSecret_iff value).mp secret).2 c member
  rw [other] at inside
  cases inside

theorem parseLoginPayload_minted {data : LoginCookieData} (wellFormed : data.WellFormed) :
    parseLoginPayload (loginPayload data) = .ok data := by
  have fields :
      splitN '|' 4 (loginPayload data) = [data.state, data.nonce, data.verifier, data.returnTo] := by
    refine splitN_join [_, _, _] data.returnTo ?_
    intro field member
    simp only [List.mem_cons, List.not_mem_nil, or_false] at member
    rcases member with rfl | rfl | rfl
    · exact not_mem_secret wellFormed.state (by decide)
    · exact not_mem_secret wellFormed.nonce (by decide)
    · exact not_mem_secret wellFormed.verifier (by decide)
  simp [parseLoginPayload, fields, ((isSecret_iff _).mp wellFormed.state).1,
    ((isSecret_iff _).mp wellFormed.nonce).1, ((isSecret_iff _).mp wellFormed.verifier).1]

theorem head_split {separator : Char} {value head : String}
    (found : (split separator value).headD "" = head) :
    value = head ∨ ∃ rest, value.toList = head.toList ++ separator :: rest := by
  obtain ⟨first, others, parts⟩ := List.exists_cons_of_ne_nil (split_ne_nil separator value)
  have whole := join_split separator value
  rw [parts, List.headD_cons] at found
  rw [parts, found] at whole
  cases others with
  | nil => exact Or.inl (by rw [← whole, join_singleton])
  | cons next rest =>
    refine Or.inr ⟨(join separator (next :: rest)).toList, ?_⟩
    rw [← whole, join_cons_cons]
    simp

theorem headD_splitN {separator : Char} {count : Nat} (value : String) (several : 1 < count) :
    (splitN separator count value).headD "" = (split separator value).headD "" := by
  obtain ⟨first, others, parts⟩ := List.exists_cons_of_ne_nil (split_ne_nil separator value)
  obtain ⟨more, rfl⟩ := Nat.exists_eq_add_of_lt several
  have front : 1 + more + 1 - 1 = more + 1 := by omega
  simp only [splitN, parts]
  split
  · rfl
  · rw [front, List.take_succ_cons, List.cons_append, List.headD_cons, List.headD_cons]

theorem parseLoginPayload_ok {value : String} {login : LoginCookieData}
    (accepted : parseLoginPayload value = .ok login) : login.state ≠ "" := by
  unfold parseLoginPayload at accepted
  dsimp only at accepted
  split at accepted
  · cases accepted
  next named =>
    cases accepted
    simp only [Bool.or_eq_true, decide_eq_true_eq, not_or] at named
    exact named.1.1

-- A login payload is no session: the pipe after its state comes before any colon.
theorem parseSessionPayload_login {data : LoginCookieData} (wellFormed : data.WellFormed) (now : Nat)
    (parsed : SessionClaims) : parseSessionPayload now (loginPayload data) ≠ .ok parsed := by
  intro accepted
  obtain ⟨version, _⟩ := parseSessionPayload_ok accepted
  rw [headD_splitN _ (by decide)] at version
  obtain ⟨tail, chars⟩ : ∃ tail, (loginPayload data).toList = data.state.toList ++ '|' :: tail := by
    refine ⟨(join '|' [data.nonce, data.verifier, data.returnTo]).toList, ?_⟩
    rw [loginPayload, join_cons_cons]
    simp
  have piped : ((loginPayload data).toList.dropWhile isBase64Url).head? = some '|' := by
    rw [chars, List.dropWhile_append_of_pos ((isSecret_iff _).mp wellFormed.state).2]
    rfl
  rcases head_split version with same | ⟨rest, same⟩
  · rw [same] at piped
    exact absurd piped (by decide)
  · rw [same] at piped
    exact absurd piped (by simp [sessionPayloadVersion, List.dropWhile, isBase64Url])

-- A session payload has no pipe, so it is no login.
theorem parseLoginPayload_session (minted maxAge : Nat) (claims : SessionClaims) (parsed : LoginCookieData) :
    parseLoginPayload (sessionPayload minted maxAge claims) ≠ .ok parsed := by
  have claim (value : String) : '|' ∉ (encodeClaim value).toList :=
    not_mem_encodeClaim value (by decide) (by decide)
  have unpiped : '|' ∉ (sessionPayload minted maxAge claims).toList := by
    intro member
    rcases mem_join member with colon | ⟨field, inside, found⟩
    · cases colon
    · simp only [List.mem_cons, List.not_mem_nil, or_false] at inside
      rcases inside with rfl | rfl | rfl | rfl | rfl | rfl
      · exact absurd found (by decide)
      · exact not_mem_toString _ (by decide) found
      · exact claim _ found
      · exact claim _ found
      · exact claim _ found
      · exact not_mem_groups claims.groups (by decide) (by decide) (by decide) found
  simp [parseLoginPayload, splitN, split_singleton unpiped]

end Yafm
