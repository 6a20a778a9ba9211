/-
**Capabilities, the registry that holds them, and the enrolment table.**

A capability is minted for one job and one principal (a node, or a package proxy), and burnt by the
first redemption that passes every check. Each function of `CapRegistry` and of `NodeRegistry` is
one lock-protected section.

* `Marked` — what every section but `enter` does to the records: none is new, none changes its
  grant, and no mark is taken back.
* `claim_ok`, `reassert_ok` — what a section that answers with the grant has checked.
-/

import HullCi.Base.Table
import HullCi.Proto.Contract
import HullCi.Secrets.Keys

namespace HullCi.Secrets

open HullCi.Base
open HullCi.Proto (AuthorClass)

/-- Whether a job of this class may receive tenant secrets. -/
def mayReceiveSecrets : AuthorClass → Bool
  | .member => true
  | .outsider => false

/-! ### Tokens -/

/-- The public half of a capability: how an operator refers to it. -/
abbrev CapId := Vector UInt8 16

/-- The digest of a token's secret half. -/
abbrev Digest := Vector UInt8 32

def tokenMark : List Char := "hcap_".toList

/-- A hexadecimal digit, lower case. -/
def hexChar (n : ℕ) : Char :=
  if n < 10 then Char.ofNat (n + 48) else Char.ofNat (n + 87)

/-- Bytes in hexadecimal. -/
def hexEncode (bytes : Bytes) : List Char :=
  bytes.flatMap fun b => [hexChar (b.toNat / 16), hexChar (b.toNat % 16)]

/-- The value of a hexadecimal digit, of either case. -/
def hexValue (c : Char) : Option ℕ :=
  if c.isDigit then some (c.toNat - 48)
  else if 'a' ≤ c ∧ c ≤ 'f' then some (c.toNat - 87)
  else if 'A' ≤ c ∧ c ≤ 'F' then some (c.toNat - 55)
  else none

/-- The bytes of a text in hexadecimal, if it is one. -/
def hexDecode : List Char → Option Bytes
  | [] => some []
  | [_] => none
  | high :: low :: rest => do
    let high ← hexValue high
    let low ← hexValue low
    let bytes ← hexDecode rest
    return UInt8.ofNat (high * 16 + low) :: bytes

/-- A text cut at its first dot. -/
def splitAtDot : List Char → Option (List Char × List Char)
  | [] => none
  | c :: rest =>
    if c = '.' then some ([], rest)
    else (splitAtDot rest).map fun (front, back) => (c :: front, back)

/-- The token of an id and a secret half, as it goes over the wire. -/
def mintToken (id : CapId) (secret : Bytes) : String :=
  String.ofList (tokenMark ++ hexEncode id.toList ++ '.' :: hexEncode secret)

/-- Split a token into its id and the digest of its secret half. Every malformed token fails the
same way. -/
def parseToken (digestSecret : Bytes → Digest) (token : String) :
    Except SecretError (CapId × Digest) :=
  if tokenMark.isPrefixOf token.toList then
    match splitAtDot (token.toList.drop tokenMark.length) with
    | none => .error .badCapability
    | some (idHex, secretHex) =>
      match hexDecode idHex, hexDecode secretHex with
      | some id, some secret =>
        if length : id.toArray.size = 16 then
          if secret.length = 32 then .ok (⟨id.toArray, length⟩, digestSecret secret)
          else .error .badCapability
        else .error .badCapability
      | _, _ => .error .badCapability
  else .error .badCapability

/-! ### Grants and records -/

/-- What a capability authorises. The principal is the node of a job's capability, and the proxy of
a package proxy's. -/
structure Grant where
  capId : CapId
  tenant : String
  jobId : String
  principal : String
  /-- the names declared at the mint, in order -/
  names : List String
  authorClass : AuthorClass
  expiresAt : ℕ
  deriving DecidableEq

/-- A minted capability. -/
structure CapRecord where
  grant : Grant
  digest : Digest
  consumed : Bool
  revoked : Bool
  deriving DecidableEq

/-- A name into an ordered set of names. -/
def insertName (names : List String) (name : String) : List String :=
  if name ∈ names then names else names.orderedInsert (· ≤ ·) name

/-- The outstanding capabilities of one family. -/
abbrev CapRegistry := Table CapId CapRecord

namespace CapRegistry

/-- Sweep what has expired, and enter a new record. -/
def enter (caps : CapRegistry) (now : ℕ) (record : CapRecord) : CapRegistry :=
  (caps.keep fun _ r => now < r.grant.expiresAt).insert record.grant.capId record

/-- Authenticate a capability, check that it may be redeemed here and now, and burn it. `wrong` is
the refusal of another principal, which burns nothing. -/
def claim (caps : CapRegistry) (wrong : SecretError) (id : CapId) (digest : Digest)
    (principal : String) (now : ℕ) : CapRegistry × Except SecretError Grant :=
  match caps.lookup id with
  | none => (caps, .error .badCapability)
  | some record =>
    if record.digest ≠ digest then (caps, .error .badCapability)
    else if record.revoked then (caps, .error .capabilityRevoked)
    else if record.consumed then (caps, .error .capabilityConsumed)
    else if record.grant.expiresAt ≤ now then (caps, .error .capabilityExpired)
    else if record.grant.principal ≠ principal then (caps, .error wrong)
    else (caps.insert id { record with consumed := true }, .ok record.grant)

/-- May a capability still be used? Nothing is burnt, and what is burnt already may. -/
def reassert (caps : CapRegistry) (wrong : SecretError) (id : CapId) (digest : Digest)
    (principal : String) (now : ℕ) : Except SecretError Grant :=
  match caps.lookup id with
  | none => .error .badCapability
  | some record =>
    if record.digest ≠ digest then .error .badCapability
    else if record.revoked then .error .capabilityRevoked
    else if record.grant.expiresAt ≤ now then .error .capabilityExpired
    else if record.grant.principal ≠ principal then .error wrong
    else if mayReceiveSecrets record.grant.authorClass = false then .error .outsiderRefused
    else .ok record.grant

/-- Revoke one capability: whether it was there. -/
def revoke (caps : CapRegistry) (id : CapId) : CapRegistry × Bool :=
  (caps.modify id fun r => { r with revoked := true }, (caps.lookup id).isSome)

/-- Revoke every capability whose grant is meant: how many were not revoked before. -/
def revokeAll (caps : CapRegistry) (meant : Grant → Bool) : CapRegistry × ℕ :=
  (caps.mapValues fun r => if meant r.grant then { r with revoked := true } else r,
    caps.values.countP fun r => meant r.grant && !r.revoked)

/-! ### What the sections do -/

/-- The records are the older ones, some of them marked as consumed or revoked. -/
def Marked (caps caps' : CapRegistry) : Prop :=
  ∀ id record', caps'.lookup id = some record' → ∃ record, caps.lookup id = some record ∧
    (record'.grant = record.grant ∧ record'.digest = record.digest) ∧
    (record.consumed = true → record'.consumed = true) ∧
    (record.revoked = true → record'.revoked = true)

theorem marked_refl (caps : CapRegistry) : caps.Marked caps :=
  fun _ record found => ⟨record, found, ⟨rfl, rfl⟩, id, id⟩

/-- What a claim that succeeds has checked, and what it leaves. -/
theorem claim_ok {caps caps' : CapRegistry} {wrong : SecretError} {id : CapId} {digest : Digest}
    {principal : String} {now : ℕ} {grant : Grant}
    (ok : caps.claim wrong id digest principal now = (caps', .ok grant)) :
    ∃ record, caps.lookup id = some record ∧ record.grant = grant ∧ record.digest = digest ∧
      record.revoked = false ∧ record.consumed = false ∧ now < grant.expiresAt ∧
      grant.principal = principal ∧ caps' = caps.insert id { record with consumed := true } := by
  unfold claim at ok
  split at ok
  · cases ok
  · rename_i record found
    split at ok
    · cases ok
    rename_i authentic
    split at ok
    · cases ok
    rename_i unrevoked
    split at ok
    · cases ok
    rename_i unconsumed
    split at ok
    · cases ok
    rename_i unexpired
    split at ok
    · cases ok
    rename_i here
    cases ok
    exact ⟨record, found, rfl, not_not.mp authentic, by simpa using unrevoked,
      by simpa using unconsumed, by omega, not_not.mp here, rfl⟩

theorem claim_error {caps caps' : CapRegistry} {wrong error : SecretError} {id : CapId}
    {digest : Digest} {principal : String} {now : ℕ}
    (failed : caps.claim wrong id digest principal now = (caps', .error error)) : caps' = caps := by
  unfold claim at failed
  split at failed
  · cases failed
    rfl
  · split at failed
    · cases failed
      rfl
    split at failed
    · cases failed
      rfl
    split at failed
    · cases failed
      rfl
    split at failed
    · cases failed
      rfl
    split at failed
    · cases failed
      rfl
    cases failed

theorem marked_claim (caps : CapRegistry) (wrong : SecretError) (id : CapId) (digest : Digest)
    (principal : String) (now : ℕ) :
    caps.Marked (caps.claim wrong id digest principal now).1 := by
  cases made : caps.claim wrong id digest principal now with
  | mk caps' answer =>
    cases answer with
    | error e => exact claim_error made ▸ marked_refl caps
    | ok grant =>
      obtain ⟨record, found, _, _, _, _, _, _, rfl⟩ := claim_ok made
      intro id' record' found'
      rw [Table.lookup_insert] at found'
      split at found'
      · rename_i same
        cases found'
        exact ⟨record, same ▸ found, ⟨rfl, rfl⟩, fun _ => rfl, fun h => h⟩
      · exact ⟨record', found', ⟨rfl, rfl⟩, fun h => h, fun h => h⟩

theorem reassert_ok {caps : CapRegistry} {wrong : SecretError} {id : CapId} {digest : Digest}
    {principal : String} {now : ℕ} {grant : Grant}
    (ok : caps.reassert wrong id digest principal now = .ok grant) :
    ∃ record, caps.lookup id = some record ∧ record.grant = grant ∧ record.digest = digest ∧
      record.revoked = false ∧ now < grant.expiresAt ∧ grant.principal = principal ∧
      mayReceiveSecrets grant.authorClass = true := by
  unfold reassert at ok
  split at ok
  · cases ok
  · rename_i record found
    split at ok
    · cases ok
    rename_i authentic
    split at ok
    · cases ok
    rename_i unrevoked
    split at ok
    · cases ok
    rename_i unexpired
    split at ok
    · cases ok
    rename_i here
    split at ok
    · cases ok
    rename_i member
    cases ok
    exact ⟨record, found, rfl, not_not.mp authentic, by simpa using unrevoked, by omega,
      not_not.mp here, by simpa using member⟩

/-- What is there after a record was entered: the record, and what has not expired. -/
theorem lookup_enter {caps : CapRegistry} {now : ℕ} {record record' : CapRecord} {id : CapId}
    (found : (caps.enter now record).lookup id = some record') :
    (id = record.grant.capId ∧ record' = record) ∨
      (id ≠ record.grant.capId ∧ caps.lookup id = some record') := by
  unfold enter at found
  rw [Table.lookup_insert] at found
  split at found
  · rename_i same
    cases found
    exact .inl ⟨same, rfl⟩
  · rename_i other
    exact .inr ⟨other, (Table.lookup_of_keep found).1⟩

theorem lookup_revoke (caps : CapRegistry) (id id' : CapId) :
    (caps.revoke id).1.lookup id' =
      if id' = id then (caps.lookup id).map fun r => { r with revoked := true }
      else caps.lookup id' :=
  Table.lookup_modify _ _ _ _

theorem marked_revoke (caps : CapRegistry) (id : CapId) : caps.Marked (caps.revoke id).1 := by
  intro id' record' found
  rw [lookup_revoke] at found
  split at found
  · rename_i same
    obtain ⟨record, before, rfl⟩ := Option.map_eq_some_iff.mp found
    exact ⟨record, same ▸ before, ⟨rfl, rfl⟩, fun h => h, fun _ => rfl⟩
  · exact ⟨record', found, ⟨rfl, rfl⟩, fun h => h, fun h => h⟩

theorem lookup_revokeAll (caps : CapRegistry) (meant : Grant → Bool) (id : CapId) :
    (caps.revokeAll meant).1.lookup id = (caps.lookup id).map fun r =>
      if meant r.grant then { r with revoked := true } else r :=
  Table.lookup_mapValues _ _ _

theorem marked_revokeAll (caps : CapRegistry) (meant : Grant → Bool) :
    caps.Marked (caps.revokeAll meant).1 := by
  intro id record' found
  rw [lookup_revokeAll] at found
  obtain ⟨record, before, rfl⟩ := Option.map_eq_some_iff.mp found
  refine ⟨record, before, ?_⟩
  split
  · exact ⟨⟨rfl, rfl⟩, fun h => h, fun _ => rfl⟩
  · exact ⟨⟨rfl, rfl⟩, fun h => h, fun h => h⟩

end CapRegistry

/-! ### Enrolment -/

/-- An enrolled principal's public half. -/
abbrev NodePublicKey := Vector UInt8 32

/-- Which public keys belong to which principals. -/
abbrev NodeRegistry := Table NodePublicKey String

namespace NodeRegistry

/-- Enrol a key as a principal's, in the place of whatever key it had. -/
def enrol (keys : NodeRegistry) (name : String) (key : NodePublicKey) :
    NodeRegistry × Except SecretError Unit :=
  match keys.lookup key with
  | some existing =>
    if existing ≠ name then (keys, .error (.keyAlreadyEnrolled existing name)) else (keys, .ok ())
  | none => ((keys.keep fun _ n => n ≠ name).insert key name, .ok ())

/-- Withdraw a principal's enrolment: whether anything was removed. -/
def revoke (keys : NodeRegistry) (name : String) : NodeRegistry × Bool :=
  let kept := keys.keep fun _ n => n ≠ name
  (kept, kept.size != keys.size)

/-- The principal a key is enrolled under, if any. -/
def resolve (keys : NodeRegistry) (key : NodePublicKey) : Option String :=
  keys.lookup key

end NodeRegistry

end HullCi.Secrets
