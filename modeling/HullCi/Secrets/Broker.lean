/-
**The secret broker and the services before it.**

`Broker` is everything behind the locks: the vaults, the two families of capabilities, and the two
enrolment tables. `performBroker` is one lock-protected section, or one reading of the clock or of
the random source; the programs over these calls are the broker's and the services' own.
-/

import HullCi.Secrets.Capability
import HullCi.Secrets.Vault

namespace HullCi.Secrets

open HullCi.Base HullCi.Base.Program
open HullCi.Proto (AuthorClass)

/-! ### The broker -/

/-- The two families of capabilities: a node's for a job, and a package proxy's. -/
inductive Family where
  | node
  | proxy
  deriving DecidableEq

/-- The refusal of a capability that is bound to another principal. -/
def Family.wrong : Family → SecretError
  | .node => .wrongNode
  | .proxy => .wrongProxy

/-- Everything behind the locks. -/
structure Broker where
  vaults : Vaults
  caps : Family → CapRegistry
  enrolled : Family → NodeRegistry

def Broker.new : Broker where
  vaults := Vaults.new
  caps _ := ∅
  enrolled _ := ∅

/-- One lock-protected section, or one reading from outside. -/
inductive BrokerCall where
  | vault (op : Call)
  | now
  | drawToken
  | enter (family : Family) (now : ℕ) (record : CapRecord)
  | claim (family : Family) (id : CapId) (digest : Digest) (principal : String) (now : ℕ)
  | reassert (family : Family) (id : CapId) (digest : Digest) (principal : String) (now : ℕ)
  | revoke (family : Family) (id : CapId)
  | revokeTenant (family : Family) (tenant : String)
  | revokeJob (family : Family) (jobId : String)
  | enrol (family : Family) (name : String) (key : NodePublicKey)
  | withdraw (family : Family) (name : String)
  | resolve (family : Family) (key : NodePublicKey)

/-- What a section answers. -/
@[reducible] def BrokerAnswer : BrokerCall → Type
  | .vault op => Answer op
  | .now => ℕ
  | .drawToken => CapId × Dek
  | .enter .. => Unit
  | .claim .. => Except SecretError Grant
  | .reassert .. => Except SecretError Grant
  | .revoke .. => Bool
  | .revokeTenant .. => ℕ
  | .revokeJob .. => ℕ
  | .enrol .. => Except SecretError Unit
  | .withdraw .. => Bool
  | .resolve .. => Option String

/-- What a section draws from outside. -/
structure BrokerInput where
  vault : Input
  now : ℕ
  capId : CapId
  secret : Dek

/-- The code from outside, and the deployment's capability lifetime. -/
structure Setting where
  cipher : Cipher
  /-- the digest of a token's secret half -/
  digestSecret : Bytes → Digest
  /-- whether the signature over the payload verifies under the key -/
  verifies : NodePublicKey → Bytes → Bytes → Bool
  ttlSecs : ℕ

/-- One section, entered. -/
def performBroker (cipher : Cipher) (s : Broker) (input : BrokerInput) :
    (op : BrokerCall) → Broker × BrokerAnswer op
  | .vault op =>
    ({ s with vaults := (perform cipher s.vaults input.vault op).1 },
      (perform cipher s.vaults input.vault op).2)
  | .now => (s, input.now)
  | .drawToken => (s, (input.capId, input.secret))
  | .enter family now record =>
    ({ s with caps := Function.update s.caps family ((s.caps family).enter now record) }, ())
  | .claim family id digest principal now =>
    let claimed := (s.caps family).claim family.wrong id digest principal now
    ({ s with caps := Function.update s.caps family claimed.1 }, claimed.2)
  | .reassert family id digest principal now =>
    (s, (s.caps family).reassert family.wrong id digest principal now)
  | .revoke family id =>
    let revoked := (s.caps family).revoke id
    ({ s with caps := Function.update s.caps family revoked.1 }, revoked.2)
  | .revokeTenant family tenant =>
    let revoked := (s.caps family).revokeAll fun g => g.tenant = tenant
    ({ s with caps := Function.update s.caps family revoked.1 }, revoked.2)
  | .revokeJob family jobId =>
    let revoked := (s.caps family).revokeAll fun g => g.jobId = jobId
    ({ s with caps := Function.update s.caps family revoked.1 }, revoked.2)
  | .enrol family name key =>
    let enrolled := (s.enrolled family).enrol name key
    ({ s with enrolled := Function.update s.enrolled family enrolled.1 }, enrolled.2)
  | .withdraw family name =>
    let withdrawn := (s.enrolled family).revoke name
    ({ s with enrolled := Function.update s.enrolled family withdrawn.1 }, withdrawn.2)
  | .resolve family key => (s, (s.enrolled family).resolve key)

/-- A program of the broker. -/
abbrev BrokerProg (A : Type) := Program BrokerAnswer SecretError A

/-- A program of the vault, in the broker. -/
def inVault {A : Type} (program : Prog A) : BrokerProg A :=
  program.embed BrokerCall.vault fun _ answer => answer

/-! ### Storage -/

def SecretBroker.putSecret (set : Setting) (tenant name : String) (value : Bytes) :
    BrokerProg Unit := do
  lift (validateName name)
  let sealed ← inVault (Vault.sealAs set.cipher tenant name value)
  request (BrokerCall.vault (Call.put sealed))

def SecretBroker.deleteSecret (tenant name : String) : BrokerProg Bool :=
  request (BrokerCall.vault (Call.delete tenant name))

/-! ### Minting -/

/-- Validate the declared names, and require each to exist. -/
def declaredNames (tenant : String) : List String → List String → BrokerProg (List String)
  | [], names => return names
  | name :: declared, names => do
    lift (validateName name)
    match ← request (BrokerCall.vault (Call.get tenant name)) with
    | none => fail (.unknownSecret tenant name)
    | some _ => declaredNames tenant declared (insertName names name)

/-- What the control plane asks for at placement. -/
structure CapabilityRequest where
  tenant : String
  jobId : String
  nodeId : String
  declared : List String
  authorClass : AuthorClass

/-- An addition of 64-bit numbers that stops at the greatest. -/
def saturatingAdd (a b : ℕ) : ℕ :=
  min (a + b) (2 ^ 64 - 1)

/-- Mint a capability for one job on one node. The outsider is refused first. -/
def SecretBroker.mint (set : Setting) (req : CapabilityRequest) : BrokerProg (String × Grant) :=
  if mayReceiveSecrets req.authorClass = false then fail .outsiderRefused
  else do
    let _ ← lift (← request (BrokerCall.vault (Call.currentVersion req.tenant)))
    let names ← declaredNames req.tenant req.declared []
    let now ← request BrokerCall.now
    let (id, secret) ← request BrokerCall.drawToken
    let grant : Grant :=
      { capId := id, tenant := req.tenant, jobId := req.jobId, principal := req.nodeId, names,
        authorClass := req.authorClass, expiresAt := saturatingAdd now set.ttlSecs }
    let digest := set.digestSecret secret.toList
    let _ ← request (BrokerCall.enter .node now { grant, digest, consumed := false, revoked := false })
    return (mintToken id secret.toList, grant)

/-- What control asks for when it mints a package grant. -/
structure ProxyCapabilityRequest where
  tenant : String
  jobId : String
  proxyId : String
  declared : List String
  authorClass : AuthorClass
  expiresAt : ℕ

/-- Mint a capability that lets the package proxy spend one job's upstream credentials. -/
def SecretBroker.mintProxyCapability (set : Setting) (req : ProxyCapabilityRequest) :
    BrokerProg (String × Grant) :=
  if mayReceiveSecrets req.authorClass = false then fail .outsiderRefused
  else do
    let _ ← lift (← request (BrokerCall.vault (Call.currentVersion req.tenant)))
    let names ← declaredNames req.tenant req.declared []
    let now ← request BrokerCall.now
    if req.expiresAt ≤ now then
      fail .capabilityExpired
    else
      let (id, secret) ← request BrokerCall.drawToken
      let grant : Grant :=
        { capId := id, tenant := req.tenant, jobId := req.jobId, principal := req.proxyId, names,
          authorClass := req.authorClass, expiresAt := req.expiresAt }
      let digest := set.digestSecret secret.toList
      let _ ← request
        (BrokerCall.enter .proxy now { grant, digest, consumed := false, revoked := false })
      return (mintToken id secret.toList, grant)

/-! ### Redeeming -/

/-- The values handed back on a successful redemption. -/
structure DeliveredSecrets where
  tenant : String
  jobId : String
  values : List (String × Bytes)

/-- Fetch and open each wanted secret, in order. -/
def openAll (set : Setting) (tenant : String) : List String → BrokerProg (List (String × Bytes))
  | [] => return []
  | name :: wanted => do
    match ← request (BrokerCall.vault (Call.get tenant name)) with
    | none => fail (.unknownSecret tenant name)
    | some sealed => do
      let plaintext ← inVault (Vault.openAs set.cipher tenant name sealed)
      let values ← openAll set tenant wanted
      return (name, plaintext) :: values

/-- What is handed over: everything declared when nothing is asked for by name, and otherwise what
is asked for, if all of it was declared. -/
def wantedNames (names requested : List String) : Except SecretError (List String) :=
  if requested = [] then .ok names
  else
    match requested.find? fun name => name ∉ names with
    | some name => .error (.undeclared name)
    | none => .ok requested

/-- Redeem a capability: authenticate it, burn it, and return the requested values. -/
def SecretBroker.redeem (set : Setting) (token nodeId : String) (requested : List String) :
    BrokerProg DeliveredSecrets := do
  let (id, digest) ← lift (parseToken set.digestSecret token)
  let now ← request BrokerCall.now
  let grant ← lift (← request (BrokerCall.claim .node id digest nodeId now))
  if mayReceiveSecrets grant.authorClass = false then
    fail .outsiderRefused
  else
    let wanted ← lift (wantedNames grant.names requested)
    let values ← openAll set grant.tenant wanted
    return { tenant := grant.tenant, jobId := grant.jobId, values }

/-- Redeem a package-proxy capability: the whole covered set, or nothing. -/
def SecretBroker.redeemProxyCapability (set : Setting) (token proxyId : String) :
    BrokerProg DeliveredSecrets := do
  let (id, digest) ← lift (parseToken set.digestSecret token)
  let now ← request BrokerCall.now
  let grant ← lift (← request (BrokerCall.claim .proxy id digest proxyId now))
  if mayReceiveSecrets grant.authorClass = false then
    fail .outsiderRefused
  else
    let values ← openAll set grant.tenant grant.names
    return { tenant := grant.tenant, jobId := grant.jobId, values }

/-- Re-assert a package-proxy capability without spending it. -/
def SecretBroker.reassertProxyCapability (set : Setting) (token proxyId : String) :
    BrokerProg Grant := do
  let (id, digest) ← lift (parseToken set.digestSecret token)
  let now ← request BrokerCall.now
  lift (← request (BrokerCall.reassert .proxy id digest proxyId now))

/-! ### Break glass -/

/-- Revoke one outstanding capability: whether it was there. -/
def SecretBroker.revoke (capId : CapId) : BrokerProg Bool :=
  request (BrokerCall.revoke .node capId)

/-- Revoke one outstanding package-proxy capability. -/
def SecretBroker.revokeProxyCapability (capId : CapId) : BrokerProg Bool :=
  request (BrokerCall.revoke .proxy capId)

/-- Revoke every outstanding package-proxy capability of a job. -/
def SecretBroker.revokeJobProxyCapabilities (jobId : String) : BrokerProg ℕ :=
  request (BrokerCall.revokeJob .proxy jobId)

/-- Revoke every outstanding capability of a tenant, of both families. -/
def SecretBroker.revokeTenant (tenant : String) : BrokerProg ℕ := do
  let nodes ← request (BrokerCall.revokeTenant .node tenant)
  let proxies ← request (BrokerCall.revokeTenant .proxy tenant)
  return nodes + proxies

/-- Crypto-shred a tenant: revoke first, then destroy its KEK. -/
def SecretBroker.shredTenant (tenant : String) : BrokerProg Unit := do
  let _ ← SecretBroker.revokeTenant tenant
  lift (← request (BrokerCall.vault (Call.shred tenant)))

/-! ### The seam -/

/-- How far a redemption's `issuedAt` may sit from the verifier's clock. -/
def maxSkewSecs : ℕ := 60

/-- The difference of two times. -/
def absDiff (a b : ℕ) : ℕ :=
  max a b - min a b

/-- A redemption request as it goes over the wire. -/
structure SignedRedemption where
  token : String
  jobId : String
  requested : List String
  nonce : Bytes
  issuedAt : ℕ
  publicKey : NodePublicKey
  signature : Bytes

/-- The exact bytes a redemption's signature covers. -/
def SignedRedemption.payload (req : SignedRedemption) : Bytes :=
  associatedData "hull-ci/node-redemption/v1"
    ([req.token, req.jobId, String.ofList (hexEncode req.nonce), toString req.issuedAt,
      String.ofList (hexEncode req.publicKey.toList)] ++ req.requested)

/-- Verify a redemption and return the node derived from the verified key: the signature first,
then freshness, then the enrolment. -/
def SignedRedemption.verify (set : Setting) (req : SignedRedemption) (now : ℕ) :
    BrokerProg String :=
  if set.verifies req.publicKey req.payload req.signature = false then fail .badNodeSignature
  else if maxSkewSecs < absDiff now req.issuedAt then
    fail (.staleRedemption (absDiff now req.issuedAt))
  else do
    match ← request (BrokerCall.resolve .node req.publicKey) with
    | none => fail (.unenrolledNode req.publicKey.toList)
    | some node => return node

/-- Redeem on behalf of whichever node actually signed the request. -/
def SecretService.redeem (set : Setting) (req : SignedRedemption) : BrokerProg DeliveredSecrets := do
  let now ← request BrokerCall.now
  let nodeId ← req.verify set now
  let delivered ← SecretBroker.redeem set req.token nodeId req.requested
  if delivered.jobId ≠ req.jobId then
    fail (.wrongJob delivered.jobId req.jobId)
  else
    return delivered

end HullCi.Secrets
