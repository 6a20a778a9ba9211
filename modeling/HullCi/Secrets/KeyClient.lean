/-
**The client of the key service, and what it does with the answers.**

Every operation is a program of requests to the service and calls of the client's two caches; the
answers are the far end's to choose. A result is a value or an error; a panic is neither, and ends
the program. Times are nanoseconds of the process's clock.

* `openEnvelope_ok` — an envelope that opens is the one of the key, for just these arguments.
* `bearer_ensures` — a request carries a token that is in hand, and what is kept of a login has its
  date.
* `body_ensures` — what every operation ends in, along every path of answers.
-/

import HullCi.Base.Path
import HullCi.Secrets.Infisical

namespace HullCi.Secrets.KeyClient

open HullCi.Base HullCi.Base.Program
open Infisical (InfisicalConfig maxKeyNameLen digestChars sealEnvelope openEnvelope)

/-! ### Values of JSON -/

/-- A number, as it was read. -/
inductive Number where
  | posInt (n : UInt64)
  | negInt (n : Int64)
  | float (bits : UInt64)
  deriving DecidableEq

inductive Value where
  | null
  | bool (b : Bool)
  | number (n : Number)
  | string (s : String)
  | array (items : List Value)
  | object (members : List (String × Value))

namespace Value

def get : Value → String → Option Value
  | .object members, key => members.lookup key
  | _, _ => none

def asStr : Value → Option String
  | .string s => some s
  | _ => none

def asU64 : Value → Option UInt64
  | .number (.posInt n) => some n
  | _ => none

end Value

/-! ### Errors and answers -/

/-- A `SecretError`, with the one that only this client makes. -/
inductive ClientError where
  | secret (e : SecretError)
  | keyService (detail : String)
  deriving DecidableEq

/-- A failed call. -/
inductive ApiError where
  /-- a response with another status than 2xx -/
  | status (code : ℕ)
  /-- nothing usable came back -/
  | transport (what : String)
  /-- raised before the request went out -/
  | refused (e : ClientError)
  deriving DecidableEq

/-- Into the error that an operator sees, naming the operation. -/
def ApiError.intoError (op : String) : ApiError → ClientError
  | .refused e => e
  | .status code => .keyService ("infisical " ++ op ++ " returned HTTP " ++ toString code)
  | .transport what => .keyService ("infisical " ++ op ++ " failed: " ++ what)

/-- The body of a response. -/
inductive Body where
  | empty
  /-- bytes that are no JSON -/
  | garbled
  | json (value : Value)

/-- What comes of a request that is sent. -/
inductive Response where
  | failed (what : String)
  | answered (status : ℕ) (body : Body)

/-- `Http::send`, once the outcome is there. An empty body of a 2xx is `null`. -/
def Response.read : Response → Except ApiError Value
  | .failed what => .error (.transport what)
  | .answered status body =>
    if 200 ≤ status ∧ status < 300 then
      match body with
      | .empty => .ok .null
      | .garbled => .error (.transport "response was not JSON")
      | .json value => .ok value
    else .error (.status status)

/-! ### The client -/

inductive InfisicalAuth where
  | token (t : String)
  | machineIdentity (clientId clientSecret : String)

/-- Reject what cannot be in front of a legal key name. -/
def validate (p : String) : Except String Unit :=
  let small (c : Char) : Bool := c.isLower || c.isDigit
  if (p.toList.all fun c => small c || c == '-') = false then
    .error "expected lowercase letters, digits and dashes"
  else if p.toList.head?.any small = false then .error "must start with a letter or digit"
  else if maxKeyNameLen < p.utf8ByteSize + 1 + 4 + 1 + digestChars then
    .error
      "too long to leave room for a tenant slug within Infisical's 32-character key names"
  else .ok ()

/-- What a client is built with; `new` takes no other. -/
structure ClientConfig where
  names : InfisicalConfig
  baseUrl : String
  projectId : String
  auth : InfisicalAuth
  valid : validate names.keyNamePrefix = .ok ()

/-- What is used of the platform: base64, and the last moment that an `Instant` can hold. -/
structure Platform where
  encode : Bytes → String
  decode : String → Option Bytes
  last : ℕ

inductive Method where
  | get
  | post
  | delete
  deriving DecidableEq

/-- One atomic call: of the client's caches, of its clock, or of the service. -/
inductive Call where
  /-- the cached token, where the clock says that it is good; the lock is held across both -/
  | liveToken
  /-- the clock, read to date a token that is good for `ttl` seconds -/
  | now (ttl : UInt64)
  | putToken (token : String) (expires : ℕ)
  | cachedId (tenant : String)
  | cacheId (tenant id : String)
  | evictId (tenant : String)
  | send (method : Method) (url : String) (bearer : Option String) (body : Option Value)

@[reducible] def Answer : Call → Type
  /- the token, and the moment at which it was good -/
  | .liveToken => Option (String × ℕ)
  | .now _ => ℕ
  | .putToken .. => Unit
  | .cachedId _ => Option String
  | .cacheId .. => Unit
  | .evictId _ => Unit
  | .send .. => Response

inductive Panic where
  | overflow
  deriving DecidableEq

/-- A program of the client; it fails where the code panics. -/
abbrev ClientProg (A : Type) := Program Answer Panic A

/-- How long before its end a token is replaced, in seconds. -/
def tokenRefreshMargin : ℕ := 60

/-- For how long a token is kept that is good for `ttl` seconds. -/
def validFor (ttl : UInt64) : ℕ := (ttl.toNat - tokenRefreshMargin) * 10 ^ 9

def accessToken (json : Value) : Option String :=
  (json.get "accessToken").bind Value.asStr

/-- A missing or absurd value is none at all. -/
def expiresIn (json : Value) : UInt64 :=
  ((json.get "expiresIn").bind Value.asU64).getD 0

/-- Pull `(id, version)` out of a response with a `key` in it. -/
def parseKey (json : Value) : Except ClientError (String × UInt32) :=
  match json.get "key" with
  | none => .error (.keyService "response has no `key` object")
  | some key =>
    match (key.get "id").bind Value.asStr with
    | none => .error (.keyService "key object has no `id`")
    | some id =>
      let version := ((key.get "version").bind Value.asU64).getD 1
      if version.toNat < 2 ^ 32 then .ok (id, UInt32.ofNat version.toNat)
      else .error (.keyService "key version does not fit in 32 bits")

section Client

variable (platform : Platform) (cfg : ClientConfig)

def loginUrl : String := cfg.baseUrl ++ "/api/v1/auth/universal-auth/login"

def keyUrl (id operation : String) : String :=
  cfg.baseUrl ++ "/api/v1/kms/keys/" ++ id ++ operation

/-- The key name of a tenant. The budget of its slug is a subtraction of lengths. -/
def keyName (tenant : String) : ClientProg String :=
  if maxKeyNameLen < cfg.names.keyNamePrefix.utf8ByteSize + 1 + 1 + digestChars then fail .overflow
  else done (cfg.names.keyName tenant)

/-- A bearer token for the next request, logging in first if the cached one is missing or stale. -/
def bearer : ClientProg (Except ClientError String) :=
  match cfg.auth with
  | .token t => done (.ok t)
  | .machineIdentity clientId clientSecret => do
    match ← request Call.liveToken with
    | some (token, _) => return .ok token
    | none =>
      let response ← request (Call.send .post (loginUrl cfg) none
        (some (.object [("clientId", .string clientId), ("clientSecret", .string clientSecret)])))
      match response.read with
      | .error e => return .error (e.intoError "login")
      | .ok json =>
        match accessToken json with
        | none => return .error (.keyService "login response has no accessToken")
        | some access =>
          let now ← request (Call.now (expiresIn json))
          if now + validFor (expiresIn json) ≤ platform.last then
            let _ ← request (Call.putToken access (now + validFor (expiresIn json)))
            return .ok access
          -- the sum is made before the lock is taken, so the panic poisons no lock
          else fail .overflow

/-- A request behind a token. -/
def send (method : Method) (url : String) (body : Option Value) :
    ClientProg (Except ApiError Value) := do
  match ← bearer platform cfg with
  | .error e => return .error (.refused e)
  | .ok token =>
    let response ← request (Call.send method url (some token) body)
    return response.read

def get (url : String) : ClientProg (Except ApiError Value) :=
  send platform cfg .get url none

def post (url : String) (body : Option Value) : ClientProg (Except ApiError Value) :=
  send platform cfg .post url body

def delete (url : String) : ClientProg (Except ApiError Value) :=
  send platform cfg .delete url none

/-- Look the tenant's key up by its derived name. -/
def lookupKey (tenant : String) : ClientProg (Except ClientError (String × UInt32)) := do
  let name ← keyName cfg tenant
  match ← get platform cfg (cfg.baseUrl ++ "/api/v1/kms/keys/key-name/" ++ name ++
      "?projectId=" ++ cfg.projectId) with
  | .error (.status 404) => return .error (.secret (.noTenantKey tenant))
  | .error e => return .error (e.intoError "key lookup")
  | .ok json =>
    match parseKey json with
    | .error e => return .error e
    | .ok (id, version) =>
      let _ ← request (Call.cacheId tenant id)
      return .ok (id, version)

/-- The tenant's key id, from the cache when possible. -/
def keyId (tenant : String) : ClientProg (Except ClientError String) := do
  match ← request (Call.cachedId tenant) with
  | some id => return .ok id
  | none =>
    let found ← lookupKey platform cfg tenant
    return found.map Prod.fst

/-- An operation of the key manager. -/
inductive Operation where
  | currentVersion (tenant : String)
  | wrapDek (tenant : String) (version : UInt32) (dek : Dek) (aad : Bytes)
  | unwrapDek (tenant : String) (version : UInt32) (wrapped aad : Bytes)
  | provisionTenant (tenant : String)
  | rotate (tenant : String)
  | shred (tenant : String)

/-- The value that it returns. -/
inductive Reply where
  | version (version : UInt32)
  | wrapped (blob : Bytes)
  | dek (dek : Dek)
  | unit

def currentVersion (tenant : String) : ClientProg (Except ClientError Reply) := do
  let found ← lookupKey platform cfg tenant
  return found.map fun key => .version key.2

def wrapDek (tenant : String) (version : UInt32) (dek : Dek) (aad : Bytes) :
    ClientProg (Except ClientError Reply) := do
  match ← lookupKey platform cfg tenant with
  | .error e => return .error e
  | .ok (id, current) =>
    if version ≠ current then return .error (.secret (.noKekVersion tenant version))
    else
      let plaintext := platform.encode (sealEnvelope tenant version aad dek)
      match ← post platform cfg (keyUrl cfg id "/encrypt")
          (some (.object [("plaintext", .string plaintext)])) with
      | .error e => return .error (e.intoError "wrap")
      | .ok json =>
        match (json.get "ciphertext").bind Value.asStr with
        | none => return .error (.keyService "encrypt response has no ciphertext")
        | some ciphertext => return .ok (.wrapped (asBytes ciphertext))

/-- The key in the answer of a `decrypt`. -/
def opened (tenant : String) (version : UInt32) (aad : Bytes) (json : Value) :
    Except ClientError Dek :=
  match (json.get "plaintext").bind Value.asStr with
  | none => .error (.keyService "decrypt response has no plaintext")
  | some b64 =>
    match platform.decode b64 with
    | none => .error (.secret .decrypt)
    | some envelope => (openEnvelope tenant version aad envelope).mapError .secret

def unwrapDek (tenant : String) (version : UInt32) (wrapped aad : Bytes) :
    ClientProg (Except ClientError Reply) := do
  match ← keyId platform cfg tenant with
  | .error e => return .error e
  | .ok id =>
    match String.fromUTF8? wrapped.toByteArray with
    | none => return .error (.secret .decrypt)
    | some ciphertext =>
      match ← post platform cfg (keyUrl cfg id "/decrypt")
          (some (.object [("ciphertext", .string ciphertext)])) with
      | .ok json => return (opened platform tenant version aad json).map .dek
      | .error (.status code) =>
        -- a ciphertext that the key cannot open is a failed authentication, not an outage
        if 400 ≤ code ∧ code < 500 then return .error (.secret .decrypt)
        else return .error ((ApiError.status code).intoError "unwrap")
      | .error e => return .error (e.intoError "unwrap")

/-- Create the tenant's key; where the service refuses it, the one that is there decides. -/
def createKey (tenant : String) : ClientProg (Except ClientError Reply) := do
  let name ← keyName cfg tenant
  match ← post platform cfg (cfg.baseUrl ++ "/api/v1/kms/keys") (some (.object
      [("projectId", .string cfg.projectId), ("name", .string name),
        ("description", .string ("hull-ci tenant KEK for `" ++ tenant ++ "` (D§7.4)")),
        ("keyUsage", .string "encrypt-decrypt"), ("isExportable", .bool false)])) with
  | .ok json =>
    match parseKey json with
    | .error e => return .error e
    | .ok (id, version) =>
      let _ ← request (Call.cacheId tenant id)
      return .ok (.version version)
  | .error (.status code) =>
    if code = 409 ∨ code = 400 then
      match ← lookupKey platform cfg tenant with
      | .ok (_, version) => return .ok (.version version)
      | .error (.secret (.noTenantKey _)) =>
        return .error ((ApiError.status code).intoError "provision")
      | .error e => return .error e
    else return .error ((ApiError.status code).intoError "provision")
  | .error e => return .error (e.intoError "provision")

def provisionTenant (tenant : String) : ClientProg (Except ClientError Reply) := do
  match ← lookupKey platform cfg tenant with
  | .ok (_, version) => return .ok (.version version)
  | .error (.secret (.noTenantKey _)) => createKey platform cfg tenant
  | .error e => return .error e

def rotate (tenant : String) : ClientProg (Except ClientError Reply) := do
  match ← keyId platform cfg tenant with
  | .error e => return .error e
  | .ok id =>
    match ← post platform cfg (keyUrl cfg id "/rotate") none with
    | .error e => return .error (e.intoError "rotate")
    | .ok json => return (parseKey json).map fun key => .version key.2

/-- Delete the tenant's key. Its id is evicted before the result is inspected. -/
def shred (tenant : String) : ClientProg (Except ClientError Reply) := do
  match ← keyId platform cfg tenant with
  | .error e => return .error e
  | .ok id =>
    let result ← delete platform cfg (keyUrl cfg id "")
    let _ ← request (Call.evictId tenant)
    match result with
    | .ok _ => return .ok .unit
    | .error (.status 404) => return .ok .unit
    | .error e => return .error (e.intoError "shred")

def Operation.body : Operation → ClientProg (Except ClientError Reply)
  | .currentVersion tenant => KeyClient.currentVersion platform cfg tenant
  | .wrapDek tenant version dek aad => KeyClient.wrapDek platform cfg tenant version dek aad
  | .unwrapDek tenant version wrapped aad =>
    KeyClient.unwrapDek platform cfg tenant version wrapped aad
  | .provisionTenant tenant => KeyClient.provisionTenant platform cfg tenant
  | .rotate tenant => KeyClient.rotate platform cfg tenant
  | .shred tenant => KeyClient.shred platform cfg tenant

end Client

/-! ### The envelope, read back -/

theorem beBytes_digits (a b c d : UInt8) :
    beBytes (a.toNat * 2 ^ 24 + b.toNat * 2 ^ 16 + c.toNat * 2 ^ 8 + d.toNat) = [a, b, c, d] := by
  have bounds : a.toNat < 256 ∧ b.toNat < 256 ∧ c.toNat < 256 ∧ d.toNat < 256 :=
    ⟨a.toNat_lt, b.toNat_lt, c.toNat_lt, d.toNat_lt⟩
  have byte : ∀ (n : ℕ) (x : UInt8), n % 256 = x.toNat → UInt8.ofNat n = x := by
    intro n x same
    rw [← UInt8.toNat_inj, UInt8.toNat_ofNat']
    exact same
  unfold beBytes
  rw [byte _ a (by omega), byte _ b (by omega), byte _ c (by omega), byte _ d (by omega)]

theorem takeField_ok {bytes field rest : Bytes}
    (taken : Infisical.takeField bytes = some (field, rest)) :
    bytes = beBytes field.length ++ (field ++ rest) := by
  unfold Infisical.takeField at taken
  split at taken
  · next a b c d tail =>
    dsimp only at taken
    split at taken
    · cases taken
    · rename_i fits
      cases taken
      rw [List.length_take, Nat.min_eq_left (Nat.le_of_not_lt fits), beBytes_digits,
        List.take_append_drop]
      rfl
  · cases taken

theorem takeFields_ok {n : ℕ} {bytes rest : Bytes} {fields : List Bytes}
    (taken : Infisical.takeFields n bytes = some (fields, rest)) :
    bytes = framed fields ++ rest := by
  induction n generalizing bytes fields with
  | zero =>
    cases taken
    rfl
  | succ n ih =>
    unfold Infisical.takeFields at taken
    cases first : Infisical.takeField bytes with
    | none =>
      rw [first] at taken
      cases taken
    | some pair =>
      obtain ⟨field, tail⟩ := pair
      rw [first] at taken
      dsimp only at taken
      cases others : Infisical.takeFields n tail with
      | none =>
        rw [others] at taken
        cases taken
      | some more =>
        obtain ⟨fields', rest'⟩ := more
        rw [others] at taken
        cases taken
        rw [takeField_ok first, ih others, framed, List.append_assoc, List.append_assoc]

/-- **What opens is the envelope of the key**, for just these arguments. -/
theorem openEnvelope_ok {tenant : String} {version : UInt32} {aad envelope : Bytes} {dek : Dek}
    (opens : openEnvelope tenant version aad envelope = .ok dek) :
    envelope = sealEnvelope tenant version aad dek := by
  cases taken : Infisical.takeFields 4 envelope with
  | none =>
    unfold openEnvelope at opens
    rw [taken] at opens
    cases opens
  | some pair =>
    obtain ⟨context, rest⟩ := pair
    rw [Infisical.openEnvelope_taken taken] at opens
    split at opens
    · next same =>
      rw [takeFields_ok taken, same, Dek.fromBytes_ok opens]
      rfl
    · cases opens

/-! ### Along a path -/

/-- The calls of one operation, the latest first. -/
abbrev Path := List (Event Answer)

/-- The clock can hold every date that is made of an `expiresIn`. -/
def Timely (platform : Platform) (path : Path) : Prop :=
  ∀ (ttl : UInt64) (t : ℕ), (⟨.now ttl, t⟩ : Event Answer) ∈ path →
    t + validFor ttl ≤ platform.last

/-- A token in hand: configured, kept after a login just now, or just now good in the cache. -/
inductive Held (cfg : ClientConfig) (token : String) : Path → Prop where
  | configured {path : Path} (auth : cfg.auth = .token token) : Held cfg token path
  | fresh (expires : ℕ) (older : Path) :
    Held cfg token (⟨.putToken token expires, ()⟩ :: older)
  | live (t : ℕ) (older : Path) : Held cfg token (⟨.liveToken, some (token, t)⟩ :: older)

/-- A login has answered with the token, and then the clock was read. -/
def Dated (cfg : ClientConfig) (token : String) (ttl : UInt64) (t : ℕ) (path : Path) : Prop :=
  ∃ body response json older,
    path = ⟨.now ttl, t⟩ :: ⟨.send .post (loginUrl cfg) none body, response⟩ :: older ∧
      response.read = .ok json ∧ accessToken json = some token ∧ expiresIn json = ttl

/-- What is known of a token when a request carries it, and of a date when it is made and kept. -/
def Known (platform : Platform) (cfg : ClientConfig) (path : Path) : Call → Prop
  | .now ttl => ∃ body response json older,
    path = ⟨.send .post (loginUrl cfg) none body, response⟩ :: older ∧
      response.read = .ok json ∧ expiresIn json = ttl
  | .send _ _ (some token) _ => Held cfg token path
  | .putToken token expires => ∃ ttl t, Dated cfg token ttl t path ∧
    expires = t + validFor ttl ∧ expires ≤ platform.last
  | _ => True

/-- Where a call may be made. -/
def Made (platform : Platform) (cfg : ClientConfig) (path : Path) (call : Call) : Prop :=
  Timely platform path ∧ Known platform cfg path call

/-- The end of a program: a panic where a date was past what the clock can hold, and only there. -/
def Ends {A : Type} (platform : Platform) (Q : Path → A → Prop) (path : Path) :
    Except Panic A → Prop
  | .error _ => ¬ Timely platform path
  | .ok a => Timely platform path ∧ Q path a

section Ensured

variable {platform : Platform} {cfg : ClientConfig} {A B : Type}

theorem Timely.cons {path : Path} {op : Call} {answer : Answer op}
    (timely : Timely platform path) (other : ∀ ttl, op ≠ .now ttl) :
    Timely platform (⟨op, answer⟩ :: path) := by
  intro ttl t member
  rcases List.mem_cons.mp member with same | older
  · cases same
    exact absurd rfl (other ttl)
  · exact timely ttl t older

theorem timely_now {path : Path} {ttl : UInt64} {t : ℕ} (timely : Timely platform path) :
    Timely platform (⟨.now ttl, t⟩ :: path) ↔ t + validFor ttl ≤ platform.last := by
  constructor
  · intro all
    exact all ttl t List.mem_cons_self
  · intro fits ttl' t' member
    rcases List.mem_cons.mp member with same | older
    · cases same
      exact fits
    · exact timely ttl' t' older

theorem ensures_request {Q : Path → Except Panic A → Prop} {path : Path} {op : Call}
    {f : Answer op → ClientProg A} (timely : Timely platform path)
    (known : Known platform cfg path op)
    (rest : ∀ answer, Ensures (Made platform cfg) Q (⟨op, answer⟩ :: path) (f answer)) :
    Ensures (Made platform cfg) Q path (request op >>= f) :=
  ⟨⟨timely, known⟩, rest⟩

theorem ensures_bind {Q₁ : Path → B → Prop} {Q : Path → A → Prop} {path : Path}
    {p : ClientProg B} {f : B → ClientProg A}
    (first : Ensures (Made platform cfg) (Ends platform Q₁) path p)
    (rest : ∀ path' b, Timely platform path' → Q₁ path' b →
      Ensures (Made platform cfg) (Ends platform Q) path' (f b)) :
    Ensures (Made platform cfg) (Ends platform Q) path (p >>= f) := by
  refine first.bind fun path' r ends => ?_
  cases r with
  | error e => exact ends
  | ok b => exact rest path' b ends.1 ends.2

/-- **A token is in hand when it is used**, and what is kept of a login has its date. -/
theorem bearer_ensures {path : Path} (timely : Timely platform path) :
    Ensures (Made platform cfg)
      (Ends platform fun path' r => ∀ token, r = .ok token → Held cfg token path') path
      (bearer platform cfg) := by
  unfold bearer
  cases auth : cfg.auth with
  | token t =>
    refine ⟨timely, fun token same => ?_⟩
    cases same
    exact .configured auth
  | machineIdentity clientId clientSecret =>
    refine ensures_request timely trivial fun found => ?_
    cases found with
    | some found =>
      refine ⟨timely.cons nofun, fun token same => ?_⟩
      cases same
      exact .live found.2 path
    | none =>
      have looked : Timely platform (⟨.liveToken, none⟩ :: path) := timely.cons nofun
      refine ensures_request looked trivial fun response => ?_
      have sent : Timely platform (⟨.send .post (loginUrl cfg) none (some (.object
          [("clientId", .string clientId), ("clientSecret", .string clientSecret)])), response⟩ ::
            ⟨.liveToken, none⟩ :: path) := looked.cons nofun
      cases read : response.read with
      | error e => exact ⟨sent, nofun⟩
      | ok json =>
        cases access : accessToken json with
        | none =>
          simp only [access]
          exact ⟨sent, nofun⟩
        | some token =>
          simp only [access]
          refine ensures_request sent ⟨_, response, json, _, rfl, read, rfl⟩ fun t => ?_
          by_cases fits : t + validFor (expiresIn json) ≤ platform.last
          · rw [if_pos fits]
            have dated := (timely_now sent).mpr fits
            refine ensures_request dated ⟨expiresIn json, t, ⟨_, response, json, _, rfl, read,
              access, rfl⟩, rfl, fits⟩ fun _ => ?_
            refine ⟨dated.cons nofun, fun token' same => ?_⟩
            cases same
            exact .fresh _ _
          · rw [if_neg fits]
            exact fun all => fits ((timely_now sent).mp all)

/-- The last call was the request, and it was answered with the value. -/
def Answered (method : Method) (url : String) (body : Option Value) (json : Value) (path : Path) :
    Prop :=
  ∃ token response older, path = ⟨.send method url (some token) body, response⟩ :: older ∧
    response.read = .ok json

theorem send_ensures {path : Path} (timely : Timely platform path) (method : Method) (url : String)
    (body : Option Value) :
    Ensures (Made platform cfg)
      (Ends platform fun path' r => ∀ json, r = .ok json → Answered method url body json path') path
      (send platform cfg method url body) := by
  refine ensures_bind (bearer_ensures timely) fun path' found timely held => ?_
  cases found with
  | error e => exact ⟨timely, nofun⟩
  | ok token =>
    refine ensures_request timely (held token rfl) fun response => ?_
    exact ⟨timely.cons nofun, fun json read => ⟨token, response, path', rfl, read⟩⟩

/-- An answer among the calls gives the version. -/
def Told (version : UInt32) (path : Path) : Prop :=
  ∃ method url token body response json id,
    (⟨.send method url (some token) body, response⟩ : Event Answer) ∈ path ∧
      response.read = .ok json ∧ parseKey json = .ok (id, version)

theorem Told.cons {version : UInt32} {path : Path} (told : Told version path)
    (e : Event Answer) : Told version (e :: path) := by
  obtain ⟨method, url, token, body, response, json, id, member, rest⟩ := told
  exact ⟨method, url, token, body, response, json, id, List.mem_cons_of_mem _ member, rest⟩

theorem Answered.told {method : Method} {url : String} {body : Option Value} {json : Value}
    {path : Path} {id : String} {version : UInt32} (answered : Answered method url body json path)
    (parsed : parseKey json = .ok (id, version)) : Told version path := by
  obtain ⟨token, response, older, rfl, read⟩ := answered
  exact ⟨method, url, token, body, response, json, id, List.mem_cons_self, read, parsed⟩

theorem keyName_eq (cfg : ClientConfig) (tenant : String) :
    keyName cfg tenant = done (cfg.names.keyName tenant) := by
  have valid := cfg.valid
  unfold validate at valid
  dsimp only at valid
  unfold keyName
  split at valid
  · cases valid
  split at valid
  · cases valid
  split at valid
  · cases valid
  · rename_i fits
    rw [if_neg (by omega)]

theorem lookupKey_ensures {path : Path} (timely : Timely platform path) (tenant : String) :
    Ensures (Made platform cfg)
      (Ends platform fun path' r => ∀ key, r = .ok key → Told key.2 path') path
      (lookupKey platform cfg tenant) := by
  unfold lookupKey
  rw [keyName_eq, bind_done]
  refine ensures_bind (send_ensures timely _ _ _) fun path' r timely answered => ?_
  cases r with
  | error e =>
    split
    · exact ⟨timely, nofun⟩
    · exact ⟨timely, nofun⟩
    · next no => cases no
  | ok json =>
    cases parsed : parseKey json with
    | error e =>
      simp only [parsed]
      exact ⟨timely, nofun⟩
    | ok key =>
      obtain ⟨id, version⟩ := key
      simp only [parsed]
      refine ensures_request timely trivial fun _ => ?_
      refine ⟨timely.cons nofun, fun key same => ?_⟩
      cases same
      exact ((answered json rfl).told parsed).cons _

theorem keyId_ensures {path : Path} (timely : Timely platform path) (tenant : String) :
    Ensures (Made platform cfg) (Ends platform fun _ _ => True) path
      (keyId platform cfg tenant) := by
  refine ensures_request timely trivial fun cached => ?_
  cases cached with
  | some id => exact ⟨timely.cons nofun, trivial⟩
  | none =>
    have looked : Timely platform (⟨.cachedId tenant, none⟩ :: path) := timely.cons nofun
    refine ensures_bind (lookupKey_ensures looked tenant) fun path' r timely _ => ?_
    exact ⟨timely, trivial⟩

/-- The last call was a decryption, and it gave back the envelope of the key. -/
def Unwrapped (platform : Platform) (cfg : ClientConfig) (tenant : String) (version : UInt32)
    (wrapped aad : Bytes) (dek : Dek) (path : Path) : Prop :=
  ∃ id ciphertext token status json text older,
    String.fromUTF8? wrapped.toByteArray = some ciphertext ∧
      path = ⟨.send .post (keyUrl cfg id "/decrypt") (some token)
        (some (.object [("ciphertext", .string ciphertext)])), .answered status (.json json)⟩ ::
          older ∧
      200 ≤ status ∧ status < 300 ∧ (json.get "plaintext").bind Value.asStr = some text ∧
      platform.decode text = some (sealEnvelope tenant version aad dek)

/-- What stands behind a value that is returned. -/
def Backed (platform : Platform) (cfg : ClientConfig) (op : Operation) (path : Path) : Reply → Prop
  | .version version => Told version path
  | .dek dek => ∃ tenant version wrapped aad, op = .unwrapDek tenant version wrapped aad ∧
    Unwrapped platform cfg tenant version wrapped aad dek path
  | _ => True

/-- What an operation ends in: a value with what stands behind it, or an error. -/
def Closed (platform : Platform) (cfg : ClientConfig) (op : Operation) (path : Path)
    (r : Except ClientError Reply) : Prop :=
  ∀ reply, r = .ok reply → Backed platform cfg op path reply

theorem currentVersion_ensures (tenant : String) {path : Path} (timely : Timely platform path) :
    Ensures (Made platform cfg)
      (Ends platform (Closed platform cfg (.currentVersion tenant))) path
      (currentVersion platform cfg tenant) := by
  refine ensures_bind (lookupKey_ensures timely tenant) fun path' r timely told => ?_
  refine ⟨timely, fun reply same => ?_⟩
  cases r with
  | error e => cases same
  | ok key =>
    cases same
    exact told key rfl

theorem wrapDek_ensures (tenant : String) (version : UInt32) (dek : Dek) (aad : Bytes)
    {path : Path} (timely : Timely platform path) :
    Ensures (Made platform cfg)
      (Ends platform (Closed platform cfg (.wrapDek tenant version dek aad))) path
      (wrapDek platform cfg tenant version dek aad) := by
  refine ensures_bind (lookupKey_ensures timely tenant) fun path' r timely _ => ?_
  cases r with
  | error e => exact ⟨timely, nofun⟩
  | ok key =>
    obtain ⟨id, current⟩ := key
    by_cases other : version ≠ current
    · simp only [if_pos other]
      exact ⟨timely, nofun⟩
    simp only [if_neg other]
    refine ensures_bind (send_ensures timely _ _ _) fun path' r timely _ => ?_
    cases r with
    | error e => exact ⟨timely, nofun⟩
    | ok json =>
      dsimp only
      cases text : (json.get "ciphertext").bind Value.asStr with
      | none => exact ⟨timely, nofun⟩
      | some ciphertext =>
        refine ⟨timely, fun reply same => ?_⟩
        cases same
        trivial

/-- A value that is read is the body of a 2xx, or there is no body. -/
theorem read_ok {response : Response} {json : Value} (read : response.read = .ok json) :
    ∃ status, 200 ≤ status ∧ status < 300 ∧
      (response = .answered status (.json json) ∨ json = .null) := by
  cases response with
  | failed what => cases read
  | answered status body =>
    unfold Response.read at read
    dsimp only at read
    split at read
    · next fine =>
      cases body with
      | empty =>
        cases read
        exact ⟨status, fine.1, fine.2, .inr rfl⟩
      | garbled => cases read
      | json value =>
        cases read
        exact ⟨status, fine.1, fine.2, .inl rfl⟩
    · cases read

theorem opened_ok {tenant : String} {version : UInt32} {aad : Bytes} {json : Value} {dek : Dek}
    (opens : opened platform tenant version aad json = .ok dek) :
    ∃ text, (json.get "plaintext").bind Value.asStr = some text ∧
      platform.decode text = some (sealEnvelope tenant version aad dek) := by
  unfold opened at opens
  cases plain : (json.get "plaintext").bind Value.asStr with
  | none =>
    rw [plain] at opens
    cases opens
  | some text =>
    rw [plain] at opens
    dsimp only at opens
    cases decoded : platform.decode text with
    | none =>
      rw [decoded] at opens
      cases opens
    | some envelope =>
      rw [decoded] at opens
      dsimp only at opens
      cases inner : openEnvelope tenant version aad envelope with
      | error e =>
        rw [inner] at opens
        cases opens
      | ok dek' =>
        rw [inner] at opens
        cases opens
        exact ⟨text, rfl, by rw [decoded, openEnvelope_ok inner]⟩

theorem unwrapDek_ensures (tenant : String) (version : UInt32) (wrapped aad : Bytes)
    {path : Path} (timely : Timely platform path) :
    Ensures (Made platform cfg)
      (Ends platform (Closed platform cfg (.unwrapDek tenant version wrapped aad))) path
      (unwrapDek platform cfg tenant version wrapped aad) := by
  refine ensures_bind (keyId_ensures timely tenant) fun path' r timely _ => ?_
  cases r with
  | error e => exact ⟨timely, nofun⟩
  | ok id =>
    dsimp only
    cases utf8 : String.fromUTF8? wrapped.toByteArray with
    | none => exact ⟨timely, nofun⟩
    | some ciphertext =>
      refine ensures_bind (send_ensures timely _ _ _) fun path' r timely answered => ?_
      cases r with
      | ok json =>
        refine ⟨timely, fun reply same => ?_⟩
        cases opens : opened platform tenant version aad json with
        | error e =>
          rw [opens] at same
          cases same
        | ok dek =>
          rw [opens] at same
          cases same
          obtain ⟨text, plain, decoded⟩ := opened_ok opens
          obtain ⟨token, response, older, rfl, read⟩ := answered json rfl
          obtain ⟨status, low, high, rfl | rfl⟩ := read_ok read
          · exact ⟨tenant, version, wrapped, aad, rfl, id, ciphertext, token, status, json, text,
              older, utf8, rfl, low, high, plain, decoded⟩
          · cases plain
      | error e =>
        cases e with
        | status code =>
          dsimp only
          split
          · exact ⟨timely, nofun⟩
          · exact ⟨timely, nofun⟩
        | transport what => exact ⟨timely, nofun⟩
        | refused e => exact ⟨timely, nofun⟩

theorem createKey_ensures (tenant : String) {path : Path} (timely : Timely platform path) :
    Ensures (Made platform cfg)
      (Ends platform (Closed platform cfg (.provisionTenant tenant))) path
      (createKey platform cfg tenant) := by
  unfold createKey
  rw [keyName_eq, bind_done]
  refine ensures_bind (send_ensures timely _ _ _) fun path' r timely answered => ?_
  cases r with
  | ok json =>
    dsimp only
    cases parsed : parseKey json with
    | error e => exact ⟨timely, nofun⟩
    | ok key =>
      obtain ⟨id, version⟩ := key
      refine ensures_request timely trivial fun _ => ?_
      refine ⟨timely.cons nofun, fun reply same => ?_⟩
      cases same
      exact ((answered json rfl).told parsed).cons _
  | error e =>
    cases e with
    | status code =>
      dsimp only
      split
      · refine ensures_bind (lookupKey_ensures timely tenant) fun path' r timely told => ?_
        split
        · next id version =>
          refine ⟨timely, fun reply same => ?_⟩
          cases same
          exact told _ rfl
        · exact ⟨timely, nofun⟩
        · exact ⟨timely, nofun⟩
      · exact ⟨timely, nofun⟩
    | transport what => exact ⟨timely, nofun⟩
    | refused e => exact ⟨timely, nofun⟩

theorem provisionTenant_ensures (tenant : String) {path : Path} (timely : Timely platform path) :
    Ensures (Made platform cfg)
      (Ends platform (Closed platform cfg (.provisionTenant tenant))) path
      (provisionTenant platform cfg tenant) := by
  refine ensures_bind (lookupKey_ensures timely tenant) fun path' r timely told => ?_
  split
  · next id version =>
    refine ⟨timely, fun reply same => ?_⟩
    cases same
    exact told _ rfl
  · exact createKey_ensures tenant timely
  · exact ⟨timely, nofun⟩

theorem rotate_ensures (tenant : String) {path : Path} (timely : Timely platform path) :
    Ensures (Made platform cfg) (Ends platform (Closed platform cfg (.rotate tenant))) path
      (rotate platform cfg tenant) := by
  refine ensures_bind (keyId_ensures timely tenant) fun path' r timely _ => ?_
  cases r with
  | error e => exact ⟨timely, nofun⟩
  | ok id =>
    refine ensures_bind (send_ensures timely _ _ _) fun path' r timely answered => ?_
    cases r with
    | error e => exact ⟨timely, nofun⟩
    | ok json =>
      refine ⟨timely, fun reply same => ?_⟩
      cases parsed : parseKey json with
      | error e =>
        rw [parsed] at same
        cases same
      | ok key =>
        rw [parsed] at same
        cases same
        exact (answered json rfl).told parsed

theorem shred_ensures (tenant : String) {path : Path} (timely : Timely platform path) :
    Ensures (Made platform cfg) (Ends platform (Closed platform cfg (.shred tenant))) path
      (shred platform cfg tenant) := by
  refine ensures_bind (keyId_ensures timely tenant) fun path' r timely _ => ?_
  cases r with
  | error e => exact ⟨timely, nofun⟩
  | ok id =>
    refine ensures_bind (send_ensures timely _ _ _) fun path' r timely _ => ?_
    refine ensures_request timely trivial fun _ => ?_
    have evicted : Timely platform (⟨.evictId tenant, ()⟩ :: path') := timely.cons nofun
    split
    · refine ⟨evicted, fun reply same => ?_⟩
      cases same
      trivial
    · refine ⟨evicted, fun reply same => ?_⟩
      cases same
      trivial
    · exact ⟨evicted, nofun⟩

variable (platform cfg) in
/-- **What every operation ends in**, whatever the far end answers. -/
theorem body_ensures (op : Operation) :
    Ensures (Made platform cfg) (Ends platform (Closed platform cfg op)) []
      (op.body platform cfg) := by
  have start : Timely platform [] := fun _ _ none => by cases none
  cases op with
  | currentVersion tenant => exact currentVersion_ensures tenant start
  | wrapDek tenant version dek aad => exact wrapDek_ensures tenant version dek aad start
  | unwrapDek tenant version wrapped aad => exact unwrapDek_ensures tenant version wrapped aad start
  | provisionTenant tenant => exact provisionTenant_ensures tenant start
  | rotate tenant => exact rotate_ensures tenant start
  | shred tenant => exact shred_ensures tenant start

end Ensured

end HullCi.Secrets.KeyClient
