/-
**Per-job grants and their rate limit.**

A job holds one bearer token; the registry keeps its digest, the grant, and a token bucket that every
authorised request is charged to.

* `parseGrantToken_grantToken` — a minted token is read back as its id and its digest.
* `entry_mint`, `entry_authorise`, `entry_revokeJob`, `entry_sweep` — what each operation does to the
  record of an id.
* `authenticates_iff` — a token is authenticated exactly while its record is there and current.
-/

import HullCi.Base.Table
import HullCi.Secrets.Capability

namespace HullCi.Proxy

open HullCi.Base
open HullCi.Secrets (Bytes Digest hexChar hexEncode hexValue hexDecode splitAtDot)

/-! ### The rate limit -/

/-- Requests per second, and the burst a job may take at once. -/
structure RateLimit where
  perSecond : ℕ
  burst : ℕ
  deriving DecidableEq, Repr

/-- A token bucket, driven by epoch seconds. -/
structure TokenBucket where
  limit : RateLimit
  tokens : ℕ
  lastRefill : Option ℕ
  deriving DecidableEq, Repr

namespace TokenBucket

/-- A bucket starts full. -/
def new (limit : RateLimit) : TokenBucket where
  limit := limit
  tokens := limit.burst
  lastRefill := none

/-- Refill for the time that has passed. Sums and products stop at the greatest number. -/
def refill (bucket : TokenBucket) (now : ℕ) : TokenBucket :=
  match bucket.lastRefill with
  | none => { bucket with lastRefill := some now }
  | some last =>
    if now - last = 0 then bucket
    else
      let gained := min ((now - last) * bucket.limit.perSecond) (2 ^ 64 - 1)
      { bucket with
        lastRefill := some now
        tokens := min (min (bucket.tokens + min gained (2 ^ 32 - 1)) (2 ^ 32 - 1))
          bucket.limit.burst }

/-- Take one token, refilling first: whether there was one. -/
def take (bucket : TokenBucket) (now : ℕ) : TokenBucket × Bool :=
  let bucket := bucket.refill now
  if bucket.tokens = 0 then (bucket, false)
  else ({ bucket with tokens := bucket.tokens - 1 }, true)

end TokenBucket

/-! ### Grants -/

/-- The public half of a grant token. -/
abbrev GrantId := Vector UInt8 16

/-- What a grant authorises. -/
structure Grant where
  grantId : GrantId
  tenant : String
  jobId : String
  /-- the labels this job may reach, fixed at the mint -/
  upstreams : List String
  expiresAt : ℕ
  rate : RateLimit
  deriving DecidableEq

/-- Why a presented grant was refused. -/
inductive GrantError where
  | invalid
  | expired
  | revoked
  | rateLimited (limit burst : ℕ)
  deriving DecidableEq, Repr

def GrantError.text : GrantError → String
  | .invalid => "package grant is not valid"
  | .expired => "package grant expired"
  | .revoked => "package grant was revoked"
  | .rateLimited limit burst =>
    "package grant is over its rate limit (" ++ toString limit ++ " requests/s, burst " ++
      toString burst ++ ")"

/-- A grant, and what its token is checked against. -/
structure GrantRecord where
  grant : Grant
  digest : Digest
  revoked : Bool
  bucket : TokenBucket
  deriving DecidableEq

/-- The live grants, one for each running job. -/
abbrev GrantRegistry := Table GrantId GrantRecord

def tokenMark : List Char := "hpkg_".toList

/-- The token of an id and a secret half, as it goes over the wire. -/
def grantToken (id : GrantId) (secret : Bytes) : String :=
  String.ofList (tokenMark ++ hexEncode id.toList ++ '.' :: hexEncode secret)

/-- Split a token into its id and the digest of its secret half. -/
def parseGrantToken (digestSecret : Bytes → Digest) (token : String) : Option (GrantId × Digest) :=
  if tokenMark.isPrefixOf token.toList then do
    let (idHex, secretHex) ← splitAtDot (token.toList.drop tokenMark.length)
    let id ← hexDecode idHex
    let secret ← hexDecode secretHex
    if length : id.toArray.size = 16 then
      if secret.length = 32 then some (⟨id.toArray, length⟩, digestSecret secret) else none
    else none
  else none

/-! ### Tokens read back -/

theorem hexValue_hexChar : ∀ n < 16, hexValue (hexChar n) = some n := by decide

theorem hexDecode_hexEncode (bytes : Bytes) : hexDecode (hexEncode bytes) = some bytes := by
  induction bytes with
  | nil => rfl
  | cons b rest ih =>
    have small := b.toNat_lt
    have high := hexValue_hexChar (b.toNat / 16) (by omega)
    have low := hexValue_hexChar (b.toNat % 16) (by omega)
    have whole : b.toNat / 16 * 16 + b.toNat % 16 = b.toNat := by omega
    show hexDecode (hexChar (b.toNat / 16) :: hexChar (b.toNat % 16) :: hexEncode rest) = _
    rw [hexDecode, high, low, ih]
    show some (UInt8.ofNat (b.toNat / 16 * 16 + b.toNat % 16) :: rest) = _
    rw [whole, UInt8.ofNat_toNat]

theorem hexChar_ne_dot : ∀ n < 16, hexChar n ≠ '.' := by decide

theorem dot_notMem_hexEncode (bytes : Bytes) : '.' ∉ hexEncode bytes := by
  intro member
  obtain ⟨b, -, digit⟩ := List.mem_flatMap.mp member
  have small := b.toNat_lt
  rcases List.mem_pair.mp digit with high | low
  · exact hexChar_ne_dot _ (by omega) high.symm
  · exact hexChar_ne_dot _ (by omega) low.symm

theorem splitAtDot_append {front back : List Char} (none : '.' ∉ front) :
    splitAtDot (front ++ '.' :: back) = some (front, back) := by
  induction front with
  | nil => rfl
  | cons c front ih =>
    rw [List.mem_cons, not_or] at none
    rw [List.cons_append, splitAtDot, if_neg (Ne.symm none.1), ih none.2]
    rfl

/-- **A minted token is read back as its id and its digest.** -/
theorem parseGrantToken_grantToken (digestSecret : Bytes → Digest) (id : GrantId) {secret : Bytes}
    (whole : secret.length = 32) :
    parseGrantToken digestSecret (grantToken id secret) = some (id, digestSecret secret) := by
  unfold parseGrantToken grantToken
  rw [String.toList_ofList, List.append_assoc]
  have marked : tokenMark.isPrefixOf (tokenMark ++ (hexEncode id.toList ++ '.' :: hexEncode secret))
      = true := List.isPrefixOf_iff_prefix.mpr (List.prefix_append _ _)
  have sized : id.toList.toArray.size = 16 := by simp
  rw [if_pos marked, List.drop_left, splitAtDot_append (dot_notMem_hexEncode _)]
  show (do
    let id' ← hexDecode (hexEncode id.toList)
    let secret' ← hexDecode (hexEncode secret)
    if length : id'.toArray.size = 16 then
      if secret'.length = 32 then
        some ((⟨id'.toArray, length⟩ : GrantId), digestSecret secret') else none
    else none) = _
  rw [hexDecode_hexEncode, hexDecode_hexEncode]
  show (if length : id.toList.toArray.size = 16 then
      if secret.length = 32 then
        some ((⟨id.toList.toArray, length⟩ : GrantId), digestSecret secret) else none
    else none) = _
  rw [dif_pos sized, if_pos whole]
  simp [Vector.toList]

namespace GrantRegistry

/-- Mint a grant for one job: the token is returned once, and only its digest is kept. -/
def mint (grants : GrantRegistry) (digestSecret : Bytes → Digest) (id : GrantId) (secret : Bytes)
    (tenant jobId : String) (upstreams : List String) (expiresAt : ℕ) (rate : RateLimit) :
    GrantRegistry × String × Grant :=
  let grant : Grant := { grantId := id, tenant, jobId, upstreams, expiresAt, rate }
  let record : GrantRecord :=
    { grant, digest := digestSecret secret, revoked := false, bucket := .new rate }
  (grants.insert id record, grantToken id secret, grant)

/-- Authenticate a presented token and charge it one request. -/
def authorise (grants : GrantRegistry) (digestSecret : Bytes → Digest) (token : String) (now : ℕ) :
    GrantRegistry × Except GrantError Grant :=
  match parseGrantToken digestSecret token with
  | none => (grants, .error .invalid)
  | some (id, digest) =>
    match grants.lookup id with
    | none => (grants, .error .invalid)
    | some record =>
      if record.digest ≠ digest then (grants, .error .invalid)
      else if record.revoked then (grants, .error .revoked)
      else if record.grant.expiresAt ≤ now then (grants, .error .expired)
      else
        let taken := record.bucket.take now
        let grants := grants.insert id { record with bucket := taken.1 }
        if taken.2 then (grants, .ok record.grant)
        else (grants, .error (.rateLimited record.grant.rate.perSecond record.grant.rate.burst))

/-- Revoke one grant: the break-glass path. -/
def revoke (grants : GrantRegistry) (id : GrantId) : GrantRegistry :=
  Table.modify grants id fun record => { record with revoked := true }

/-- Drop every grant for a job. A record is kept under its own grant's id. -/
def revokeJob (grants : GrantRegistry) (jobId : String) : GrantRegistry :=
  grants.keep fun _ record => record.grant.jobId ≠ jobId

/-- Forget expired records. -/
def sweep (grants : GrantRegistry) (now : ℕ) : GrantRegistry :=
  grants.keep fun _ record => now < record.grant.expiresAt

/-! ### What the registry says of an id -/

/-- A record without its bucket: the grant, the digest, and whether it was revoked. -/
def entry (grants : GrantRegistry) (id : GrantId) : Option (Grant × Digest × Bool) :=
  (grants.lookup id).map fun record => (record.grant, record.digest, record.revoked)

theorem entry_mint (grants : GrantRegistry) (digestSecret : Bytes → Digest) (id : GrantId)
    (secret : Bytes) (tenant jobId : String) (upstreams : List String) (expiresAt : ℕ)
    (rate : RateLimit) (id' : GrantId) :
    (grants.mint digestSecret id secret tenant jobId upstreams expiresAt rate).1.entry id' =
      if id' = id then some (⟨id, tenant, jobId, upstreams, expiresAt, rate⟩, digestSecret secret,
        false) else grants.entry id' := by
  unfold mint entry
  dsimp only
  rw [Table.lookup_insert]
  split <;> rfl

/-- **Charging a grant changes nothing else.** -/
theorem entry_authorise (grants : GrantRegistry) (digestSecret : Bytes → Digest) (token : String)
    (now : ℕ) (id : GrantId) :
    (grants.authorise digestSecret token now).1.entry id = grants.entry id := by
  unfold authorise
  cases parseGrantToken digestSecret token with
  | none => rfl
  | some halves =>
    obtain ⟨id', digest⟩ := halves
    dsimp only
    cases found : grants.lookup id' with
    | none => rfl
    | some record =>
      have charged : ∀ bucket,
          entry (grants.insert id' { record with bucket := bucket }) id = grants.entry id := by
        intro bucket
        unfold entry
        rw [Table.lookup_insert]
        by_cases same : id = id'
        · rw [if_pos same, same, found]
          rfl
        · rw [if_neg same]
      dsimp only
      split_ifs
      · rfl
      · rfl
      · rfl
      · exact charged _
      · exact charged _

theorem entry_revokeJob (grants : GrantRegistry) (jobId : String) (id : GrantId) :
    (grants.revokeJob jobId).entry id = (grants.entry id).filter fun e => e.1.jobId ≠ jobId := by
  unfold revokeJob entry
  rw [Table.lookup_keep]
  cases grants.lookup id with
  | none => rfl
  | some record =>
    rw [Option.map_some, Option.filter_some, Option.filter_some]
    split <;> rfl

theorem entry_sweep (grants : GrantRegistry) (now : ℕ) (id : GrantId) :
    (grants.sweep now).entry id = (grants.entry id).filter fun e => now < e.1.expiresAt := by
  unfold sweep entry
  rw [Table.lookup_keep]
  cases grants.lookup id with
  | none => rfl
  | some record =>
    rw [Option.map_some, Option.filter_some, Option.filter_some]
    split <;> rfl

/-- The registry authenticates a token: it answers with the grant, or that it is over its limit. -/
def Authenticates (grants : GrantRegistry) (digestSecret : Bytes → Digest) (token : String)
    (now : ℕ) : Prop :=
  match (grants.authorise digestSecret token now).2 with
  | .ok _ => True
  | .error (.rateLimited _ _) => True
  | .error _ => False

theorem authenticates_iff {grants : GrantRegistry} {digestSecret : Bytes → Digest} {token : String}
    {now : ℕ} : grants.Authenticates digestSecret token now ↔ ∃ id grant digest,
      parseGrantToken digestSecret token = some (id, digest) ∧
        grants.entry id = some (grant, digest, false) ∧ now < grant.expiresAt := by
  unfold Authenticates authorise entry
  cases parsed : parseGrantToken digestSecret token with
  | none => simp
  | some halves =>
    obtain ⟨id, digest⟩ := halves
    dsimp only
    cases found : grants.lookup id with
    | none =>
      refine ⟨False.elim, ?_⟩
      rintro ⟨id', grant, digest', same, held, -⟩
      obtain ⟨rfl, -⟩ := Prod.mk.inj (Option.some.inj same)
      rw [found] at held
      cases held
    | some record =>
      dsimp only
      constructor
      · intro passes
        by_cases forged : record.digest ≠ digest
        · rw [if_pos forged] at passes
          exact passes.elim
        by_cases revoked : record.revoked
        · rw [if_neg forged, if_pos revoked] at passes
          exact passes.elim
        by_cases late : record.grant.expiresAt ≤ now
        · rw [if_neg forged, if_neg revoked, if_pos late] at passes
          exact passes.elim
        refine ⟨id, record.grant, digest, rfl, ?_, not_le.mp late⟩
        rw [found, Option.map_some, not_not.mp forged, Bool.eq_false_iff.mpr revoked]
      · rintro ⟨id', grant, digest', same, held, early⟩
        obtain ⟨rfl, rfl⟩ := Prod.mk.inj (Option.some.inj same)
        rw [found, Option.map_some, Option.some.injEq, Prod.mk.injEq, Prod.mk.injEq] at held
        obtain ⟨rfl, digest, live⟩ := held
        rw [if_neg (not_not.mpr digest), if_neg (by rw [live]; exact Bool.false_ne_true),
          if_neg (not_le.mpr early)]
        cases (record.bucket.take now).2 <;> trivial

end GrantRegistry

end HullCi.Proxy
