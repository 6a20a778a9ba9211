/-
**Key custody in a service without associated data.**

The KEKs are held by an Infisical service. Its encryption takes a plaintext and nothing else, so the
context is carried inside the plaintext and compared on the way back; it encrypts under the newest
material of a key only, so the version is what the key's record said a request earlier; and each
control plane keeps its own cache of key ids.

* `openEnvelope_iff` — an envelope opens in the context it was sealed in, to the key in it, and in
  no other.
* `KmsRequest.body` — the calls of the key manager, request by request.
* `serve` — the service, an ideal cipher for each key id, and the caches of the control planes.

The machine identity's token, the JSON and the base64 around the bytes are left to `KeyClient`,
whose programs follow these; a request that fails on the way to the service is a `fault`.
-/

import HullCi.Base.Trace
import HullCi.Secrets.Keys

namespace HullCi.Secrets.Infisical

open HullCi.Base HullCi.Base.Program

/-! ### The envelope -/

def envelopeDomain : String := "hull-ci/infisical-dek-envelope/v1"

/-- Build the plaintext handed to the service: framed context, then the key. -/
def sealEnvelope (tenant : String) (version : UInt32) (aad : Bytes) (dek : Dek) : Bytes :=
  framed [asBytes envelopeDomain, asBytes tenant, asBytes (toString version.toNat), aad] ++
    dek.toList

/-- One field behind its length, and what follows it. -/
def takeField : Bytes → Option (Bytes × Bytes)
  | a :: b :: c :: d :: tail =>
    let len := a.toNat * 2 ^ 24 + b.toNat * 2 ^ 16 + c.toNat * 2 ^ 8 + d.toNat
    if tail.length < len then none else some (tail.take len, tail.drop len)
  | _ => none

/-- As many fields, and what follows them. -/
def takeFields : ℕ → Bytes → Option (List Bytes × Bytes)
  | 0, rest => some ([], rest)
  | n + 1, rest =>
    match takeField rest with
    | none => none
    | some (field, tail) => (takeFields n tail).map fun taken => (field :: taken.1, taken.2)

/-- Recover the key only if every field of the carried context equals what the caller expects. -/
def openEnvelope (tenant : String) (version : UInt32) (aad envelope : Bytes) :
    Except SecretError Dek :=
  match takeFields 4 envelope with
  | none => .error .decrypt
  | some (context, rest) =>
    if context = [asBytes envelopeDomain, asBytes tenant, asBytes (toString version.toNat), aad] then
      Dek.fromBytes rest
    else .error .decrypt

theorem takeField_frame {field : Bytes} (short : field.length < 2 ^ 32) (rest : Bytes) :
    takeField (beBytes field.length ++ (field ++ rest)) = some (field, rest) := by
  have whole : field.length / 2 ^ 24 % 256 * 2 ^ 24 + field.length / 2 ^ 16 % 256 * 2 ^ 16 +
      field.length / 2 ^ 8 % 256 * 2 ^ 8 + field.length % 256 = field.length := by
    omega
  simp only [beBytes, List.cons_append, List.nil_append, takeField, UInt8.toNat_ofNat',
    show (2 : ℕ) ^ 8 = 256 from rfl] at whole ⊢
  rw [whole, if_neg (by rw [List.length_append]; omega), List.take_left, List.drop_left]

theorem takeFields_framed {fields : List Bytes} (short : ∀ f ∈ fields, f.length < 2 ^ 32)
    (rest : Bytes) : takeFields fields.length (framed fields ++ rest) = some (fields, rest) := by
  induction fields with
  | nil => rfl
  | cons field fields ih =>
    have next := ih fun f member => short f (List.mem_cons_of_mem _ member)
    rw [framed, List.append_assoc, List.append_assoc, List.length_cons, takeFields,
      takeField_frame (short field List.mem_cons_self)]
    dsimp only
    rw [next]
    rfl

theorem short_envelopeDomain : Short envelopeDomain := by decide +kernel

theorem openEnvelope_taken {tenant : String} {version : UInt32} {aad envelope rest : Bytes}
    {context : List Bytes} (taken : takeFields 4 envelope = some (context, rest)) :
    openEnvelope tenant version aad envelope =
      if context = [asBytes envelopeDomain, asBytes tenant, asBytes (toString version.toNat), aad]
      then Dek.fromBytes rest else .error .decrypt := by
  unfold openEnvelope
  rw [taken]

/-- **An envelope opens in its own context only, to the key in it.** -/
theorem openEnvelope_iff {tenant tenant' : String} {version version' : UInt32} {aad aad' : Bytes}
    {dek dek' : Dek} (tenantShort : Short tenant') (aadShort : aad'.length < 2 ^ 32) :
    openEnvelope tenant version aad (sealEnvelope tenant' version' aad' dek') = .ok dek ↔
      tenant = tenant' ∧ version = version' ∧ aad = aad' ∧ dek = dek' := by
  have short : ∀ f ∈ [asBytes envelopeDomain, asBytes tenant', asBytes (toString version'.toNat),
      aad'], f.length < 2 ^ 32 := by
    intro f member
    simp only [List.mem_cons, List.not_mem_nil, or_false] at member
    rcases member with rfl | rfl | rfl | rfl
    · exact short_envelopeDomain
    · exact tenantShort
    · exact short_toString version'
    · exact aadShort
  unfold sealEnvelope
  rw [openEnvelope_taken (takeFields_framed short dek'.toList)]
  constructor
  · intro opened
    split at opened
    · next same =>
      simp only [List.cons.injEq, true_and, and_true] at same
      obtain ⟨tenants, versions, aads⟩ := same
      rw [Dek.fromBytes_toList] at opened
      refine ⟨(asBytes_inj tenants).symm, ?_, aads.symm, (Except.ok.inj opened).symm⟩
      exact (UInt32.toNat_inj.mp (toString_inj (asBytes_inj versions))).symm
    · cases opened
  · rintro ⟨rfl, rfl, rfl, rfl⟩
    rw [if_pos rfl, Dek.fromBytes_toList]

/-! ### The names of keys -/

def maxKeyNameLen : ℕ := 32

def digestChars : ℕ := 8

/-- What the name of a key is made of; the digest is the hash crate's, in hex. -/
structure InfisicalConfig where
  keyNamePrefix : String
  blake3Hex : Bytes → String

/-- The letters and digits of a tenant id in lower case, one dash for what is between them. -/
def slugChars (budget : ℕ) (tenant : String) : List Char :=
  (tenant.toList.foldl (fun (acc : List Char × Bool) c =>
    if acc.1.length = budget then acc
    else if c.isAlphanum then (acc.1 ++ [c.toLower], false)
    else if acc.2 = false ∧ acc.1 ≠ [] then (acc.1 ++ ['-'], true)
    else acc) ([], false)).1

/-- `trim_matches('-')`. -/
def trimDashes (slug : List Char) : List Char :=
  ((slug.dropWhile (· == '-')).reverse.dropWhile (· == '-')).reverse

/-- The key name for a tenant: prefix, slug and digest. -/
def InfisicalConfig.keyName (cfg : InfisicalConfig) (tenant : String) : String :=
  let digest := String.ofList ((cfg.blake3Hex (asBytes tenant)).toList.take digestChars)
  let budget := maxKeyNameLen - cfg.keyNamePrefix.utf8ByteSize - 1 - 1 - digestChars
  let slug := trimDashes (slugChars budget tenant)
  if slug = [] then cfg.keyNamePrefix ++ "-t-" ++ digest
  else cfg.keyNamePrefix ++ "-" ++ String.ofList slug ++ "-" ++ digest

/-! ### The calls -/

/-- The id the service gives a key. -/
abbrev KeyId := ℕ

/-- What a request to the service comes to when it is not answered. -/
inductive ApiError where
  | status (code : ℕ)
  | transport
  deriving DecidableEq

/-- What a call of the key manager ends in when it does not return. -/
inductive KmsError where
  | secret (error : SecretError)
  | keyService
  deriving DecidableEq

/-- One atomic call: of the service, or of the cache of one control plane. -/
inductive KmsCall where
  | cachedId (manager : ℕ) (tenant : String)
  | cacheId (manager : ℕ) (tenant : String) (id : KeyId)
  | evictId (manager : ℕ) (tenant : String)
  | getByName (name : String)
  | create (name : String)
  | encrypt (id : KeyId) (plaintext : Bytes)
  | decrypt (id : KeyId) (ciphertext : String)
  | rotate (id : KeyId)
  | delete (id : KeyId)
  deriving DecidableEq

@[reducible] def KmsAnswer : KmsCall → Type
  | .cachedId .. => Option KeyId
  | .cacheId .. => Unit
  | .evictId .. => Unit
  | .getByName _ => Except ApiError (KeyId × ℕ)
  | .create _ => Except ApiError (KeyId × ℕ)
  | .encrypt .. => Except ApiError String
  | .decrypt .. => Except ApiError Bytes
  | .rotate _ => Except ApiError (KeyId × ℕ)
  | .delete _ => Except ApiError Unit

abbrev KmsProg (A : Type) := Program KmsAnswer KmsError A

/-- The version of an answer, if it fits in 32 bits. -/
def parseKey (key : KeyId × ℕ) : Except KmsError (KeyId × UInt32) :=
  if key.2 < 2 ^ 32 then .ok (key.1, UInt32.ofNat key.2) else .error .keyService

section Manager

variable (keyName : String → String)

/-- Look the tenant's key up by its name, and remember its id. -/
def lookupKey (manager : ℕ) (tenant : String) : KmsProg (KeyId × UInt32) := do
  match ← request (KmsCall.getByName (keyName tenant)) with
  | .error (.status 404) => fail (.secret (.noTenantKey tenant))
  | .error _ => fail .keyService
  | .ok key =>
    let (id, version) ← lift (parseKey key)
    let _ ← request (KmsCall.cacheId manager tenant id)
    return (id, version)

/-- The tenant's key id, from the cache when it is there. -/
def keyId (manager : ℕ) (tenant : String) : KmsProg KeyId := do
  match ← request (KmsCall.cachedId manager tenant) with
  | some id => return id
  | none =>
    let (id, _) ← lookupKey keyName manager tenant
    return id

/-- A request to a control plane's key manager. -/
inductive KmsRequest where
  | currentVersion (manager : ℕ) (tenant : String)
  | wrapDek (manager : ℕ) (tenant : String) (version : UInt32) (dek : Dek) (aad : Bytes)
  | unwrapDek (manager : ℕ) (tenant : String) (version : UInt32) (wrapped aad : Bytes)
  | provisionTenant (manager : ℕ) (tenant : String)
  | rotate (manager : ℕ) (tenant : String)
  | shred (manager : ℕ) (tenant : String)
  deriving DecidableEq

/-- What it returns. -/
inductive KmsReply where
  | version (version : UInt32)
  | wrapped (blob : Bytes)
  | dek (dek : Dek)
  | unit
  deriving DecidableEq

def wrapDek (manager : ℕ) (tenant : String) (version : UInt32) (dek : Dek) (aad : Bytes) :
    KmsProg KmsReply := do
  let (id, current) ← lookupKey keyName manager tenant
  if version ≠ current then
    fail (.secret (.noKekVersion tenant version))
  else
    match ← request (KmsCall.encrypt id (sealEnvelope tenant version aad dek)) with
    | .ok ciphertext => return .wrapped (asBytes ciphertext)
    | .error _ => fail .keyService

def unwrapDek (manager : ℕ) (tenant : String) (version : UInt32) (wrapped aad : Bytes) :
    KmsProg KmsReply := do
  let id ← keyId keyName manager tenant
  match String.fromUTF8? wrapped.toByteArray with
  | none => fail (.secret .decrypt)
  | some ciphertext =>
    match ← request (KmsCall.decrypt id ciphertext) with
    | .ok envelope =>
      match openEnvelope tenant version aad envelope with
      | .ok dek => return .dek dek
      | .error error => fail (.secret error)
    | .error (.status code) =>
      -- a ciphertext that the key cannot open is a failed authentication, not an outage
      if 400 ≤ code ∧ code < 500 then fail (.secret .decrypt) else fail .keyService
    | .error .transport => fail .keyService

/-- The version of a key that is there. -/
def versionOf (manager : ℕ) (tenant : String) : KmsProg KmsReply := do
  let (_, version) ← lookupKey keyName manager tenant
  return .version version

/-- Create the tenant's key; where the name is taken, return the version of the one there is. -/
def createKey (manager : ℕ) (tenant : String) : KmsProg KmsReply := do
  match ← request (KmsCall.create (keyName tenant)) with
  | .ok key =>
    let (id, version) ← lift (parseKey key)
    let _ ← request (KmsCall.cacheId manager tenant id)
    return .version version
  | .error (.status code) =>
    if code = 409 ∨ code = 400 then
      match ← request (KmsCall.getByName (keyName tenant)) with
      | .ok key =>
        let (id, version) ← lift (parseKey key)
        let _ ← request (KmsCall.cacheId manager tenant id)
        return .version version
      | .error _ => fail .keyService
    else fail .keyService
  | .error .transport => fail .keyService

def provisionTenant (manager : ℕ) (tenant : String) : KmsProg KmsReply := do
  match ← request (KmsCall.getByName (keyName tenant)) with
  | .ok key =>
    let (id, version) ← lift (parseKey key)
    let _ ← request (KmsCall.cacheId manager tenant id)
    return .version version
  | .error (.status 404) => createKey keyName manager tenant
  | .error _ => fail .keyService

def rotateKey (manager : ℕ) (tenant : String) : KmsProg KmsReply := do
  let id ← keyId keyName manager tenant
  match ← request (KmsCall.rotate id) with
  | .ok key =>
    let (_, version) ← lift (parseKey key)
    return .version version
  | .error _ => fail .keyService

/-- Delete the tenant's key, and forget its id on this control plane. -/
def shredKey (manager : ℕ) (tenant : String) : KmsProg KmsReply := do
  let id ← keyId keyName manager tenant
  let result ← request (KmsCall.delete id)
  let _ ← request (KmsCall.evictId manager tenant)
  match result with
  | .ok _ => return .unit
  | .error (.status 404) => return .unit
  | .error _ => fail .keyService

def KmsRequest.body : KmsRequest → KmsProg KmsReply
  | .currentVersion manager tenant => versionOf keyName manager tenant
  | .wrapDek manager tenant version dek aad => Infisical.wrapDek keyName manager tenant version dek aad
  | .unwrapDek manager tenant version wrapped aad =>
    Infisical.unwrapDek keyName manager tenant version wrapped aad
  | .provisionTenant manager tenant => Infisical.provisionTenant keyName manager tenant
  | .rotate manager tenant => rotateKey keyName manager tenant
  | .shred manager tenant => shredKey keyName manager tenant

end Manager

/-! ### The service -/

structure KmsKey where
  name : String
  version : ℕ
  deriving DecidableEq

/-- A ciphertext the service has made: the key, and the plaintext only that key gives back. -/
structure Issue where
  key : KeyId
  ciphertext : String
  plaintext : Bytes
  deriving DecidableEq

/-- The service's keys, every id it ever gave and every ciphertext it ever made; and the caches. -/
structure Cloud where
  keys : Table KeyId KmsKey
  born : List KeyId
  issued : List Issue
  cache : Table (ℕ × String) KeyId

/-- What a request draws from outside. -/
structure KmsInput where
  /-- the request fails on its way -/
  fault : Option ApiError
  /-- the id of a new key -/
  id : KeyId
  /-- a new ciphertext -/
  ciphertext : String

/-- The key of a name. -/
def Cloud.named (s : Cloud) (name : String) : Option (Sigma fun _ : KeyId => KmsKey) :=
  s.keys.entries.find? fun e => e.2.name = name

/-- What a key decrypts. -/
def Cloud.opens (s : Cloud) (id : KeyId) (ciphertext : String) : Option Issue :=
  s.issued.find? fun e => e.key = id ∧ e.ciphertext = ciphertext

/-- A request reaches the service, or does not. -/
def KmsInput.reach {A : Type} (input : KmsInput) (s : Cloud) (served : Cloud × Except ApiError A) :
    Cloud × Except ApiError A :=
  match input.fault with
  | some error => (s, .error error)
  | none => served

/-- One call, made. Ids and ciphertexts are new: the service has none to give that it gave before. -/
def serve (s : Cloud) (input : KmsInput) : (call : KmsCall) → Cloud × KmsAnswer call
  | .cachedId manager tenant => (s, s.cache.lookup (manager, tenant))
  | .cacheId manager tenant id => ({ s with cache := s.cache.insert (manager, tenant) id }, ())
  | .evictId manager tenant => ({ s with cache := s.cache.erase (manager, tenant) }, ())
  | .getByName name => input.reach s <| match s.named name with
    | some e => (s, .ok (e.1, e.2.version))
    | none => (s, .error (.status 404))
  | .create name => input.reach s <|
    if (s.named name).isSome then (s, .error (.status 409))
    else if input.id ∈ s.born then (s, .error (.status 500))
    else
      ({ s with
         keys := s.keys.insert input.id { name := name, version := 1 }
         born := input.id :: s.born },
        .ok (input.id, 1))
  | .encrypt id plaintext => input.reach s <| match s.keys.lookup id with
    | none => (s, .error (.status 404))
    | some _ =>
      if (s.opens id input.ciphertext).isSome then (s, .error (.status 500))
      else
        ({ s with
           issued := { key := id, ciphertext := input.ciphertext, plaintext := plaintext } ::
             s.issued },
          .ok input.ciphertext)
  | .decrypt id ciphertext => input.reach s <| match s.keys.lookup id with
    | none => (s, .error (.status 404))
    | some _ => match s.opens id ciphertext with
      | none => (s, .error (.status 400))
      | some e => (s, .ok e.plaintext)
  | .rotate id => input.reach s <| match s.keys.lookup id with
    | none => (s, .error (.status 404))
    | some key =>
      ({ s with keys := s.keys.insert id { key with version := key.version + 1 } },
        .ok (id, key.version + 1))
  | .delete id => input.reach s <| match s.keys.lookup id with
    | none => (s, .error (.status 404))
    | some _ => ({ s with keys := s.keys.erase id }, .ok ())

def Cloud.new : Cloud where
  keys := ∅
  born := []
  issued := []
  cache := ∅

end HullCi.Secrets.Infisical
