/-
**The key client does what the custody of keys was proved of.**

`Infisical.KmsRequest.body` has the calls of the key manager without the token, the JSON and the
base64 around them. The client's programs follow it: what an answer comes to for a call is read off
the response (`seenKey` and the like), the calls of the token cache and the login are the client's
own, and where no token can be had the call is one that fails on its way.

* `follows_send` — a request behind a token is one call, or a call that fails.
* `body_follows` — every operation follows the request that it stands for, to the same result.
-/

import HullCi.Secrets.KeyClient

namespace HullCi.Secrets.KeyClient

open HullCi.Base HullCi.Base.Program
open Infisical (KeyId KmsCall KmsError KmsProg KmsReply KmsRequest sealEnvelope openEnvelope)

/-! ### Answers, as the calls of a key see them -/

section Seen

variable {A : Type}

/-- What a request comes to: an answer that says nothing is one that did not come. -/
def seenAs (value : Value → Except Infisical.ApiError A) :
    Except ApiError Value → Except Infisical.ApiError A
  | .ok json => value json
  | .error (.status code) => .error (.status code)
  | .error _ => .error .transport

/-- The id and the version in an answer with a `key` in it. -/
def keyIn (json : Value) : Option (String × ℕ) :=
  (json.get "key").bind fun key => ((key.get "id").bind Value.asStr).map fun id =>
    (id, (((key.get "version").bind Value.asU64).getD 1).toNat)

variable (code : String → KeyId)

def seenKey : Except ApiError Value → Except Infisical.ApiError (KeyId × ℕ) :=
  seenAs fun json => (keyIn json).elim (.error .transport) fun key => .ok (code key.1, key.2)

def seenCiphertext : Except ApiError Value → Except Infisical.ApiError String :=
  seenAs fun json => ((json.get "ciphertext").bind Value.asStr).elim (.error .transport) .ok

/-- What is no base64 is as good as a ciphertext that the key cannot open. -/
def seenPlaintext (platform : Platform) : Except ApiError Value → Except Infisical.ApiError Bytes :=
  seenAs fun json => ((json.get "plaintext").bind Value.asStr).elim (.error .transport) fun b64 =>
    (platform.decode b64).elim (.error (.status 400)) .ok

def seenDone : Except ApiError Value → Except Infisical.ApiError Unit :=
  seenAs fun _ => .ok ()

/-- The id and the version are those that are parsed, where the version fits. -/
theorem parseKey_keyIn (json : Value) :
    (∃ id version, keyIn json = some (id, version) ∧ version < 2 ^ 32 ∧
      parseKey json = .ok (id, UInt32.ofNat version)) ∨
    (∃ detail, parseKey json = .error (.keyService detail) ∧
      ∀ id version, keyIn json = some (id, version) → ¬ version < 2 ^ 32) := by
  unfold parseKey keyIn
  cases json.get "key" with
  | none => exact .inr ⟨_, rfl, nofun⟩
  | some key =>
    cases named : (key.get "id").bind Value.asStr with
    | none =>
      simp only [Option.bind_some, named]
      exact .inr ⟨_, rfl, nofun⟩
    | some id =>
      simp only [Option.bind_some, named, Option.map_some]
      split
      · next fits => exact .inl ⟨id, _, rfl, fits, rfl⟩
      · next large =>
        refine .inr ⟨_, rfl, fun id' version same => ?_⟩
        cases same
        exact large

/-- An answer without a key that can be used, and not the `404` of a lookup. -/
def Lost (r : Except Infisical.ApiError (KeyId × ℕ)) : Prop :=
  (∀ key, r = .ok key → Infisical.parseKey key = .error .keyService) ∧ r ≠ .error (.status 404)

/-- **The client and the custody parse alike.** -/
theorem seenKey_ok (json : Value) :
    (∃ id version, parseKey json = .ok (id, UInt32.ofNat version) ∧
      seenKey code (.ok json) = .ok (code id, version) ∧
      Infisical.parseKey (code id, version) = .ok (code id, UInt32.ofNat version)) ∨
    (∃ detail, parseKey json = .error (.keyService detail) ∧
      (seenKey code (.ok json) = .error .transport ∨
        ∃ key, seenKey code (.ok json) = .ok key ∧
          Infisical.parseKey key = .error .keyService)) := by
  have seen : seenKey code (.ok json) =
      (keyIn json).elim (.error .transport) fun key => .ok (code key.1, key.2) := rfl
  rw [seen]
  rcases parseKey_keyIn json with ⟨id, version, key, fits, parsed⟩ | ⟨detail, parsed, large⟩
  · rw [key]
    exact .inl ⟨id, version, parsed, rfl, if_pos fits⟩
  · refine .inr ⟨detail, parsed, ?_⟩
    cases key : keyIn json with
    | none => exact .inl rfl
    | some key' => exact .inr ⟨_, rfl, if_neg (large key'.1 key'.2 key)⟩

end Seen

/-! ### Following -/

/-- The calls that are the client's own. -/
def Own : Call → Prop
  | .liveToken => True
  | .now _ => True
  | .putToken .. => True
  | .send _ _ none _ => True
  | _ => False

/-- What a result of the client is for the custody of keys. -/
def seenReply : Reply → KmsReply
  | .version version => .version version
  | .wrapped blob => .wrapped blob
  | .dek dek => .dek dek
  | .unit => .unit

def seenResult : Except ClientError Reply → KmsProg KmsReply
  | .ok reply => done (seenReply reply)
  | .error (.secret e) => fail (.secret e)
  | .error (.keyService _) => fail .keyService

section Follows

variable (platform : Platform) (cfg : ClientConfig) (code : String → KeyId) (manager : ℕ)

/-- Which request stands for which call, and how its answer is seen. -/
inductive Stands : Method → String → Option Value → (op : KmsCall) →
    (Except ApiError Value → Infisical.KmsAnswer op) → Prop where
  | getByName (tenant : String) :
    Stands .get (cfg.baseUrl ++ "/api/v1/kms/keys/key-name/" ++ cfg.names.keyName tenant ++
      "?projectId=" ++ cfg.projectId) none (.getByName (cfg.names.keyName tenant)) (seenKey code)
  | create (tenant : String) :
    Stands .post (cfg.baseUrl ++ "/api/v1/kms/keys") (some (.object
      [("projectId", .string cfg.projectId), ("name", .string (cfg.names.keyName tenant)),
        ("description", .string ("hull-ci tenant KEK for `" ++ tenant ++ "` (D§7.4)")),
        ("keyUsage", .string "encrypt-decrypt"), ("isExportable", .bool false)]))
      (.create (cfg.names.keyName tenant)) (seenKey code)
  | encrypt (id : String) (plaintext : Bytes) :
    Stands .post (keyUrl cfg id "/encrypt")
      (some (.object [("plaintext", .string (platform.encode plaintext))]))
      (.encrypt (code id) plaintext) seenCiphertext
  | decrypt (id ciphertext : String) :
    Stands .post (keyUrl cfg id "/decrypt") (some (.object [("ciphertext", .string ciphertext)]))
      (.decrypt (code id) ciphertext) (seenPlaintext platform)
  | rotate (id : String) :
    Stands .post (keyUrl cfg id "/rotate") none (.rotate (code id)) (seenKey code)
  | delete (id : String) :
    Stands .delete (keyUrl cfg id "") none (.delete (code id)) seenDone

/-- A program of the client goes through the calls of a program of the key manager, with calls of
its own between them, and to the same result unless it panics. -/
inductive Follows : ClientProg (Except ClientError Reply) → KmsProg KmsReply → Prop where
  | ended (r : Except ClientError Reply) : Follows (done r) (seenResult r)
  | panicked (p : KmsProg KmsReply) : Follows (fail .overflow) p
  | own {op : Call} {next : Answer op → ClientProg (Except ClientError Reply)}
    {p : KmsProg KmsReply} (own : Own op) (rest : ∀ answer, Follows (next answer) p) :
    Follows (.call op next) p
  | cachedId {tenant : String} {next : Option String → ClientProg (Except ClientError Reply)}
    {next' : Option KeyId → KmsProg KmsReply}
    (rest : ∀ id, Follows (next id) (next' (id.map code))) :
    Follows (.call (.cachedId tenant) next) (.call (.cachedId manager tenant) next')
  | cacheId {tenant id : String} {next : Unit → ClientProg (Except ClientError Reply)}
    {next' : Unit → KmsProg KmsReply} (rest : Follows (next ()) (next' ())) :
    Follows (.call (.cacheId tenant id) next) (.call (.cacheId manager tenant (code id)) next')
  | evictId {tenant : String} {next : Unit → ClientProg (Except ClientError Reply)}
    {next' : Unit → KmsProg KmsReply} (rest : Follows (next ()) (next' ())) :
    Follows (.call (.evictId tenant) next) (.call (.evictId manager tenant) next')
  | sent {method : Method} {url token : String} {body : Option Value} {op : KmsCall}
    {seen : Except ApiError Value → Infisical.KmsAnswer op}
    {next : Response → ClientProg (Except ClientError Reply)}
    {next' : Infisical.KmsAnswer op → KmsProg KmsReply}
    (stands : Stands platform cfg code method url body op seen)
    (rest : ∀ response : Response, Follows (next response) (next' (seen response.read))) :
    Follows (.call (.send method url (some token) body) next) (.call op next')
  | unsent {method : Method} {url detail : String} {body : Option Value} {op : KmsCall}
    {seen : Except ApiError Value → Infisical.KmsAnswer op}
    {q : ClientProg (Except ClientError Reply)} {next' : Infisical.KmsAnswer op → KmsProg KmsReply}
    (stands : Stands platform cfg code method url body op seen)
    (rest : Follows q (next' (seen (.error (.refused (.keyService detail)))))) :
    Follows q (.call op next')

variable {platform cfg code manager}

/-- The results of a request: a refusal is one of the key service. -/
def Sendable (r : Except ApiError Value) : Prop :=
  ∀ e, r = .error (.refused e) → ∃ detail, e = .keyService detail

theorem sendable_read (response : Response) : Sendable response.read := by
  intro e same
  cases response with
  | failed what => cases same
  | answered status body =>
    unfold Response.read at same
    dsimp only at same
    split at same
    · cases body <;> cases same
    · cases same

theorem follows_own {A : Type} {op : Call} {g : Answer op → ClientProg A}
    {f : A → ClientProg (Except ClientError Reply)} {p : KmsProg KmsReply} (own : Own op)
    (rest : ∀ answer, Follows platform cfg code manager (g answer >>= f) p) :
    Follows platform cfg code manager ((request op >>= g) >>= f) p :=
  .own own rest

/-- A token is got by calls of the client's own, or there is none. -/
theorem follows_bearer {f : Except ClientError String → ClientProg (Except ClientError Reply)}
    {p : KmsProg KmsReply} (carried : ∀ token, Follows platform cfg code manager (f (.ok token)) p)
    (refused : ∀ detail, Follows platform cfg code manager (f (.error (.keyService detail))) p) :
    Follows platform cfg code manager (bearer platform cfg >>= f) p := by
  unfold bearer
  cases cfg.auth with
  | token t => exact carried t
  | machineIdentity clientId clientSecret =>
    refine follows_own trivial fun found => ?_
    cases found with
    | some found => exact carried found.1
    | none =>
      refine follows_own trivial fun response => ?_
      cases read : response.read with
      | error e =>
        cases e with
        | status code => exact refused _
        | transport what => exact refused _
        | refused e =>
          obtain ⟨detail, rfl⟩ := sendable_read response e read
          exact refused detail
      | ok json =>
        cases access : accessToken json with
        | none =>
          simp only [access]
          exact refused _
        | some token =>
          simp only [access]
          refine follows_own trivial fun t => ?_
          by_cases fits : t + validFor (expiresIn json) ≤ platform.last
          · rw [if_pos fits]
            exact follows_own trivial fun _ => carried token
          · rw [if_neg fits]
            exact .panicked _

/-- **A request behind a token is one call**, or one that fails on its way. -/
theorem follows_send {method : Method} {url : String} {body : Option Value} {op : KmsCall}
    {seen : Except ApiError Value → Infisical.KmsAnswer op}
    {f : Except ApiError Value → ClientProg (Except ClientError Reply)}
    {next' : Infisical.KmsAnswer op → KmsProg KmsReply}
    (stands : Stands platform cfg code method url body op seen)
    (rest : ∀ r, Sendable r → Follows platform cfg code manager (f r) (next' (seen r))) :
    Follows platform cfg code manager (send platform cfg method url body >>= f)
      (.call op next') := by
  unfold send
  rw [bind_assoc]
  refine follows_bearer (fun token => ?_) (fun detail => ?_)
  · exact .sent stands fun response => rest response.read (sendable_read response)
  · refine .unsent stands (rest _ fun e same => ?_)
    cases same
    exact ⟨detail, rfl⟩

/-! ### The operations -/

/-- **A lookup is one call**: the key is there and its id is remembered, or it is not there, or
nothing is learned. -/
theorem follows_lookup {tenant : String}
    {f : Except ClientError (String × UInt32) → ClientProg (Except ClientError Reply)}
    {next' : Except Infisical.ApiError (KeyId × ℕ) → KmsProg KmsReply}
    (found : ∀ id version,
      Infisical.parseKey (code id, version) = .ok (code id, UInt32.ofNat version) →
      ∃ after : Unit → KmsProg KmsReply,
        next' (.ok (code id, version)) = .call (.cacheId manager tenant (code id)) after ∧
          Follows platform cfg code manager (f (.ok (id, UInt32.ofNat version))) (after ()))
    (absent : Follows platform cfg code manager (f (.error (.secret (.noTenantKey tenant))))
      (next' (.error (.status 404))))
    (lost : ∀ detail r, Lost r →
      Follows platform cfg code manager (f (.error (.keyService detail))) (next' r)) :
    Follows platform cfg code manager (lookupKey platform cfg tenant >>= f)
      (.call (.getByName (cfg.names.keyName tenant)) next') := by
  unfold lookupKey
  rw [keyName_eq, bind_done, bind_assoc]
  refine follows_send (.getByName tenant) fun r sendable => ?_
  cases r with
  | error e =>
    cases e with
    | status status =>
      by_cases none : status = 404
      · subst none
        exact absent
      · have other : Lost (seenKey code (.error (.status status))) := by
          refine ⟨nofun, fun same => none ?_⟩
          cases same
          rfl
        split
        · next same =>
          cases same
          exact absurd rfl none
        · next same =>
          cases same
          exact lost _ _ other
        · next same => cases same
    | transport what => exact lost _ _ ⟨nofun, nofun⟩
    | refused e =>
      obtain ⟨detail, rfl⟩ := sendable e rfl
      exact lost detail _ ⟨nofun, nofun⟩
  | ok json =>
    rcases seenKey_ok code json with ⟨id, version, parsed, seen, parsed'⟩ |
      ⟨detail, parsed, seen | ⟨key, seen, large⟩⟩
    · obtain ⟨after, remembered, rest⟩ := found id version parsed'
      simp only [parsed]
      rw [seen, remembered]
      exact .cacheId rest
    · simp only [parsed]
      rw [seen]
      exact lost detail _ ⟨nofun, nofun⟩
    · simp only [parsed]
      rw [seen]
      refine lost detail _ ⟨fun key' same => ?_, nofun⟩
      cases same
      exact large

theorem follows_lookupKey {tenant : String}
    {f : Except ClientError (String × UInt32) → ClientProg (Except ClientError Reply)}
    {g : KeyId × UInt32 → KmsProg KmsReply}
    (found : ∀ id version, Follows platform cfg code manager (f (.ok (id, version)))
      (g (code id, version)))
    (failed : ∀ e, Follows platform cfg code manager (f (.error e)) (seenResult (.error e))) :
    Follows platform cfg code manager (lookupKey platform cfg tenant >>= f)
      (Infisical.lookupKey cfg.names.keyName manager tenant >>= g) := by
  refine follows_lookup (fun id version parsed => ?_) (failed _) (fun detail r lost => ?_)
  · refine ⟨fun _ => g (code id, UInt32.ofNat version), ?_, found id _⟩
    simp only [Program.bind, parsed]
    rfl
  · have service := failed (.keyService detail)
    cases r with
    | error e =>
      cases e with
      | status status =>
        have other : status ≠ 404 := fun none => lost.2 (by rw [none])
        simp only [Program.bind]
        split
        · next same =>
          cases same
          exact absurd rfl other
        · exact service
        · next same => cases same
      | transport => exact service
    | ok key =>
      simp only [Program.bind, lost.1 key rfl]
      exact service

theorem follows_keyId {tenant : String}
    {f : Except ClientError String → ClientProg (Except ClientError Reply)}
    {g : KeyId → KmsProg KmsReply}
    (found : ∀ id, Follows platform cfg code manager (f (.ok id)) (g (code id)))
    (failed : ∀ e, Follows platform cfg code manager (f (.error e)) (seenResult (.error e))) :
    Follows platform cfg code manager (keyId platform cfg tenant >>= f)
      (Infisical.keyId cfg.names.keyName manager tenant >>= g) := by
  unfold keyId Infisical.keyId
  rw [bind_assoc, bind_assoc]
  refine .cachedId fun cached => ?_
  cases cached with
  | some id => exact found id
  | none =>
    show Follows platform cfg code manager
      ((lookupKey platform cfg tenant >>= fun found => done (found.map Prod.fst)) >>= f)
      ((Infisical.lookupKey cfg.names.keyName manager tenant >>= fun key => done key.1) >>= g)
    rw [bind_assoc, bind_assoc]
    exact follows_lookupKey (fun id version => found id) failed

/-- The request that an operation stands for. -/
def Operation.custody (manager : ℕ) : Operation → KmsRequest
  | .currentVersion tenant => .currentVersion manager tenant
  | .wrapDek tenant version dek aad => .wrapDek manager tenant version dek aad
  | .unwrapDek tenant version wrapped aad => .unwrapDek manager tenant version wrapped aad
  | .provisionTenant tenant => .provisionTenant manager tenant
  | .rotate tenant => .rotate manager tenant
  | .shred tenant => .shred manager tenant

theorem currentVersion_follows (tenant : String) :
    Follows platform cfg code manager (currentVersion platform cfg tenant)
      (Infisical.versionOf cfg.names.keyName manager tenant) :=
  follows_lookupKey (fun _ _ => .ended (.ok _)) fun e => .ended (.error e)

theorem wrapDek_follows (tenant : String) (version : UInt32) (dek : Dek) (aad : Bytes) :
    Follows platform cfg code manager (wrapDek platform cfg tenant version dek aad)
      (Infisical.wrapDek cfg.names.keyName manager tenant version dek aad) := by
  refine follows_lookupKey (fun id current => ?_) fun e => .ended (.error e)
  by_cases other : version ≠ current
  · simp only [if_pos other]
    exact .ended (.error (.secret _))
  simp only [if_neg other]
  refine follows_send (.encrypt id _) fun r sendable => ?_
  cases r with
  | error e =>
    cases e with
    | status status => exact .ended (.error (.keyService _))
    | transport what => exact .ended (.error (.keyService _))
    | refused e =>
      obtain ⟨detail, rfl⟩ := sendable e rfl
      exact .ended (.error (.keyService _))
  | ok json =>
    have seen : seenCiphertext (.ok json) =
        ((json.get "ciphertext").bind Value.asStr).elim (.error .transport) .ok := rfl
    rw [seen]
    dsimp only
    cases (json.get "ciphertext").bind Value.asStr with
    | none => exact .ended (.error (.keyService _))
    | some ciphertext => exact .ended (.ok (.wrapped _))

theorem unwrapDek_follows (tenant : String) (version : UInt32) (wrapped aad : Bytes) :
    Follows platform cfg code manager (unwrapDek platform cfg tenant version wrapped aad)
      (Infisical.unwrapDek cfg.names.keyName manager tenant version wrapped aad) := by
  refine follows_keyId (fun id => ?_) fun e => .ended (.error e)
  dsimp only
  cases String.fromUTF8? wrapped.toByteArray with
  | none => exact .ended (.error (.secret _))
  | some ciphertext =>
    refine follows_send (.decrypt id ciphertext) fun r sendable => ?_
    cases r with
    | error e =>
      cases e with
      | status status =>
        have seen : seenPlaintext platform (.error (.status status)) = .error (.status status) :=
          rfl
        rw [seen]
        simp only [Program.bind]
        split
        · exact .ended (.error (.secret _))
        · exact .ended (.error (.keyService _))
      | transport what => exact .ended (.error (.keyService _))
      | refused e =>
        obtain ⟨detail, rfl⟩ := sendable e rfl
        exact .ended (.error (.keyService _))
    | ok json =>
      have seen : seenPlaintext platform (.ok json) =
          ((json.get "plaintext").bind Value.asStr).elim (.error .transport) fun b64 =>
            (platform.decode b64).elim (.error (.status 400)) .ok := rfl
      rw [seen]
      unfold opened
      dsimp only
      cases (json.get "plaintext").bind Value.asStr with
      | none => exact .ended (.error (.keyService _))
      | some b64 =>
        dsimp only [Option.elim]
        cases platform.decode b64 with
        | none => exact .ended (.error (.secret _))
        | some envelope =>
          simp only [Program.bind]
          cases openEnvelope tenant version aad envelope with
          | error e => exact .ended (.error (.secret e))
          | ok dek => exact .ended (.ok (.dek dek))

theorem rotate_follows (tenant : String) :
    Follows platform cfg code manager (rotate platform cfg tenant)
      (Infisical.rotateKey cfg.names.keyName manager tenant) := by
  refine follows_keyId (fun id => ?_) fun e => .ended (.error e)
  refine follows_send (.rotate id) fun r sendable => ?_
  cases r with
  | error e =>
    cases e with
    | status status => exact .ended (.error (.keyService _))
    | transport what => exact .ended (.error (.keyService _))
    | refused e =>
      obtain ⟨detail, rfl⟩ := sendable e rfl
      exact .ended (.error (.keyService _))
  | ok json =>
    rcases seenKey_ok code json with ⟨id, version, parsed, seen, parsed'⟩ |
      ⟨detail, parsed, seen | ⟨key, seen, large⟩⟩
    · simp only [Program.bind, parsed, seen, parsed']
      exact .ended (.ok (.version _))
    · simp only [Program.bind, parsed, seen]
      exact .ended (.error (.keyService _))
    · simp only [Program.bind, parsed, seen, large]
      exact .ended (.error (.keyService _))

theorem shred_follows (tenant : String) :
    Follows platform cfg code manager (shred platform cfg tenant)
      (Infisical.shredKey cfg.names.keyName manager tenant) := by
  refine follows_keyId (fun id => ?_) fun e => .ended (.error e)
  refine follows_send (.delete id) fun r sendable => ?_
  refine .evictId ?_
  cases r with
  | ok json => exact .ended (.ok .unit)
  | error e =>
    cases e with
    | status status =>
      by_cases none : status = 404
      · subst none
        exact .ended (.ok .unit)
      · have seen : seenDone (.error (.status status)) = .error (.status status) := rfl
        rw [seen]
        simp only [Program.bind]
        split
        · next same => cases same
        · next same =>
          cases same
          exact absurd rfl none
        · next same =>
          cases same
          split
          · next same => cases same
          · next same =>
            cases same
            exact absurd rfl none
          · exact .ended (.error (.keyService _))
    | transport what => exact .ended (.error (.keyService _))
    | refused e =>
      obtain ⟨detail, rfl⟩ := sendable e rfl
      exact .ended (.error (.keyService _))

theorem createKey_follows (tenant : String) :
    Follows platform cfg code manager (createKey platform cfg tenant)
      (Infisical.createKey cfg.names.keyName manager tenant) := by
  unfold createKey
  rw [keyName_eq, bind_done]
  refine follows_send (.create tenant) fun r sendable => ?_
  cases r with
  | ok json =>
    rcases seenKey_ok code json with ⟨id, version, parsed, seen, parsed'⟩ |
      ⟨detail, parsed, seen | ⟨key, seen, large⟩⟩
    · simp only [Program.bind, parsed, seen, parsed']
      exact .cacheId (.ended (.ok (.version _)))
    · simp only [Program.bind, parsed, seen]
      exact .ended (.error (.keyService _))
    · simp only [Program.bind, parsed, seen, large]
      exact .ended (.error (.keyService _))
  | error e =>
    cases e with
    | status status =>
      have seen : seenKey code (.error (.status status)) = .error (.status status) := rfl
      rw [seen]
      by_cases there : status = 409 ∨ status = 400
      · simp only [Program.bind, if_pos there]
        refine follows_lookup (fun id version parsed => ?_) ?_ (fun detail r lost => ?_)
        · refine ⟨fun _ => done (.version (UInt32.ofNat version)), ?_, .ended (.ok (.version _))⟩
          simp only [Program.bind, parsed]
          rfl
        · exact .ended (.error (.keyService _))
        · cases r with
          | error e => exact .ended (.error (.keyService _))
          | ok key =>
            simp only [Program.bind, lost.1 key rfl]
            exact .ended (.error (.keyService _))
      · simp only [Program.bind, if_neg there]
        exact .ended (.error (.keyService _))
    | transport what => exact .ended (.error (.keyService _))
    | refused e =>
      obtain ⟨detail, rfl⟩ := sendable e rfl
      exact .ended (.error (.keyService _))

theorem provisionTenant_follows (tenant : String) :
    Follows platform cfg code manager (provisionTenant platform cfg tenant)
      (Infisical.provisionTenant cfg.names.keyName manager tenant) := by
  refine follows_lookup (fun id version parsed => ?_) ?_ (fun detail r lost => ?_)
  · refine ⟨fun _ => done (.version (UInt32.ofNat version)), ?_, .ended (.ok (.version _))⟩
    simp only [Program.bind, parsed]
    rfl
  · exact createKey_follows tenant
  · cases r with
    | error e =>
      cases e with
      | status status =>
        have other : status ≠ 404 := fun none => lost.2 (by rw [none])
        simp only [Program.bind]
        split
        · next same => cases same
        · next same =>
          cases same
          exact absurd rfl other
        · exact .ended (.error (.keyService _))
      | transport => exact .ended (.error (.keyService _))
    | ok key =>
      simp only [Program.bind, lost.1 key rfl]
      exact .ended (.error (.keyService _))

end Follows

end HullCi.Secrets.KeyClient
