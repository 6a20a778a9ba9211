/-
**The credentials a job's upstreams are spent with, out of the broker.**

A package proxy holds, for each job, the capability control registered it with, or what it was
redeemed for. A lookup redeems the capability when it has not been spent, and asserts it again
whether or not it was.

* `ProxyCredentialService` — the broker behind the proxies' enrolments.
* `BrokeredCredentials` — the slots of the jobs, each behind a lock of its own.
-/

import HullCi.Base.Trace
import HullCi.Proxy.Credentials
import HullCi.Secrets.Authority

namespace HullCi.Proxy

open HullCi.Base HullCi.Base.Program
open HullCi.Secrets

/-- The text of a refusal of the broker. -/
def secretErrorText : SecretError → String
  | .invalidName name =>
    "`" ++ name ++ "` is not a valid secret name (expected `[A-Z_][A-Z0-9_]*`)"
  | .reservedName name =>
    "`" ++ name ++ "` is reserved by the job environment and may not be used as a secret name"
  | .emptyValue => "secret value is empty"
  | .noTenantKey tenant =>
    "no key material for tenant `" ++ tenant ++ "` (never provisioned, or crypto-shredded)"
  | .noKekVersion tenant version =>
    "tenant `" ++ tenant ++ "` has no KEK version " ++ toString version.toNat
  | .decrypt => "authenticated decryption failed"
  | .contextMismatch expected found =>
    "record is labelled `" ++ found ++ "` but was opened as `" ++ expected ++ "`"
  | .unknownSecret tenant name => "tenant `" ++ tenant ++ "` has no secret named `" ++ name ++ "`"
  | .outsiderRefused => "author class `outsider` may not receive tenant secrets"
  | .badCapability => "capability is not valid"
  | .capabilityExpired => "capability expired"
  | .capabilityConsumed => "capability has already been redeemed"
  | .capabilityRevoked => "capability was revoked"
  | .wrongNode => "capability is bound to another node"
  | .wrongProxy => "capability is bound to another package proxy"
  | .wrongJob bound presented =>
    "capability is bound to job `" ++ bound ++ "` but was presented for `" ++ presented ++ "`"
  | .wrongTenant bound presented =>
    "capability is bound to tenant `" ++ bound ++ "` but was presented for `" ++ presented ++ "`"
  | .badNodeSignature => "node signature is not valid"
  | .unenrolledNode key =>
    "node public key `" ++ String.ofList (hexEncode key) ++ "` is not enrolled"
  | .unenrolledProxy key =>
    "package-proxy public key `" ++ String.ofList (hexEncode key) ++ "` is not enrolled"
  | .staleRedemption skewSecs =>
    "redemption is " ++ toString skewSecs ++ "s away from this clock"
  | .keyAlreadyEnrolled enrolledTo requested =>
    "public key is already enrolled to node `" ++ enrolledTo ++ "` and may not also be `"
      ++ requested ++ "`"
  | .undeclared name => "`" ++ name ++ "` is not in this job's declared secret set"

/-! ### The service -/

/-- A redemption request from a proxy, as it goes over the wire. -/
structure SignedProxyRedemption where
  token : String
  tenant : String
  jobId : String
  nonce : Bytes
  issuedAt : ℕ
  publicKey : NodePublicKey
  signature : Bytes

/-- The exact bytes its signature covers. -/
def proxySigningPayload (token tenant jobId : String) (nonce : Bytes) (issuedAt : ℕ)
    (publicKey : NodePublicKey) : Bytes :=
  associatedData "hull-ci/proxy-credential-redemption/v1"
    [token, tenant, jobId, String.ofList (hexEncode nonce), toString issuedAt,
      String.ofList (hexEncode publicKey.toList)]

/-- A proxy's enrolled identity: its key, and what it signs with. -/
structure ProxyIdentity where
  publicKey : NodePublicKey
  signRaw : Bytes → Bytes

def ProxyIdentity.sign (identity : ProxyIdentity) (token tenant jobId : String) (nonce : Bytes)
    (now : ℕ) : SignedProxyRedemption where
  token
  tenant
  jobId
  nonce
  issuedAt := now
  publicKey := identity.publicKey
  signature := identity.signRaw
    (proxySigningPayload token tenant jobId nonce now identity.publicKey)

/-- Is a credential that is already held still authorised? -/
structure ProxyCredentialReassertion where
  token : String
  tenant : String
  jobId : String
  publicKey : NodePublicKey

/-- Verify a redemption and return the proxy derived from the verified key: the signature first,
then freshness, then the enrolment. -/
def ProxyRegistry.verify (set : Setting) (req : SignedProxyRedemption) (now : ℕ) :
    BrokerProg String :=
  if set.verifies req.publicKey
      (proxySigningPayload req.token req.tenant req.jobId req.nonce req.issuedAt req.publicKey)
      req.signature = false then fail .badNodeSignature
  else if maxSkewSecs < absDiff now req.issuedAt then
    fail (.staleRedemption (absDiff now req.issuedAt))
  else do
    match ← request (BrokerCall.resolve .proxy req.publicKey) with
    | none => fail (.unenrolledProxy req.publicKey.toList)
    | some proxy => return proxy

/-- Redeem on behalf of whichever proxy actually signed the request. -/
def ProxyCredentialService.redeem (set : Setting) (req : SignedProxyRedemption) :
    BrokerProg DeliveredSecrets := do
  let now ← request BrokerCall.now
  let proxyId ← ProxyRegistry.verify set req now
  let delivered ← SecretBroker.redeemProxyCapability set req.token proxyId
  if delivered.tenant ≠ req.tenant then
    fail (.wrongTenant delivered.tenant req.tenant)
  else if delivered.jobId ≠ req.jobId then
    fail (.wrongJob delivered.jobId req.jobId)
  else
    return delivered

/-- Assert again a capability that the proxy has already spent. -/
def ProxyCredentialService.reassert (set : Setting) (req : ProxyCredentialReassertion) :
    BrokerProg Unit := do
  match ← request (BrokerCall.resolve .proxy req.publicKey) with
  | none => fail (.unenrolledProxy req.publicKey.toList)
  | some proxyId =>
    let grant ← SecretBroker.reassertProxyCapability set req.token proxyId
    if grant.tenant ≠ req.tenant then
      fail (.wrongTenant grant.tenant req.tenant)
    else if grant.jobId ≠ req.jobId then
      fail (.wrongJob grant.jobId req.jobId)
    else
      return ()

/-! ### The slots -/

/-- What the proxy knows about one live job's credential authority. -/
inductive JobState where
  /-- a capability the proxy has not spent yet -/
  | pending (token : String)
  /-- spent: the capability, and the values -/
  | held (token : String) (values : List (String × Bytes))
  | noAuthority (reason : String)
  | failed (detail : String)
  | invalidated (detail : String)
  deriving DecidableEq

/-- The redemption was refused, or what was held is gone. -/
def JobState.Over : JobState → Prop
  | failed _ | invalidated _ => True
  | _ => False

instance (state : JobState) : Decidable state.Over := by
  cases state
  all_goals unfold JobState.Over; infer_instance

/-- One job's slot, and whether its lock is held. -/
structure JobSlot where
  tenant : String
  state : JobState
  locked : Bool := false

/-- The broker, and the registry of a proxy before it: the slots that were made, and which of them
is each job's. -/
structure Desk where
  broker : Broker
  jobs : Table String ℕ
  slots : List JobSlot

/-- One lock-protected section of either, or one reading from outside. -/
inductive DeskCall where
  | broker (op : BrokerCall)
  | drawNonce
  | put (tenant jobId : String) (state : JobState)
  | remove (jobId : String)
  | slot (jobId : String)
  | lock (id : ℕ)
  | unlock (id : ℕ) (state : JobState)

/-- What a section answers. -/
@[reducible] def DeskAnswer : DeskCall → Type
  | .broker op => BrokerAnswer op
  | .drawNonce => Bytes
  | .put .. => Unit
  | .remove _ => Bool
  | .slot _ => Option (ℕ × String)
  | .lock _ => JobState
  | .unlock .. => Unit

/-- What a section draws from outside. -/
structure DeskInput where
  broker : BrokerInput
  nonce : Bytes

/-- A slot, written over. -/
def Desk.write (s : Desk) (id : ℕ) (f : JobSlot → JobSlot) : Desk :=
  { s with slots := s.slots.modify id f }

/-- One section, entered. -/
def performDesk (cipher : Cipher) (s : Desk) (input : DeskInput) :
    (op : DeskCall) → Desk × DeskAnswer op
  | .broker op =>
    ({ s with broker := (performBroker cipher s.broker input.broker op).1 },
      (performBroker cipher s.broker input.broker op).2)
  | .drawNonce => (s, input.nonce)
  | .put tenant jobId state =>
    ({ s with
        jobs := s.jobs.insert jobId s.slots.length
        slots := s.slots ++ [{ tenant, state }] }, ())
  | .remove jobId => ({ s with jobs := s.jobs.erase jobId }, (s.jobs.lookup jobId).isSome)
  | .slot jobId =>
    (s, do
      let id ← s.jobs.lookup jobId
      let slot ← s.slots[id]?
      return (id, slot.tenant))
  | .lock id =>
    (s.write id fun slot => { slot with locked := true },
      ((s.slots[id]?).map JobSlot.state).getD (.failed ""))
  | .unlock id state => (s.write id fun slot => { slot with state, locked := false }, ())

/-- A program of the proxy. -/
abbrev DeskProg (A : Type) := Program DeskAnswer SecretError A

/-- A program of the broker, called by the proxy. -/
def inBroker {A : Type} (program : BrokerProg A) : DeskProg A :=
  program.embed DeskCall.broker fun _ answer => answer

namespace BrokeredCredentials

/-- Spend the job's capability, once, and record the outcome. -/
def redeem (set : Setting) (identity : ProxyIdentity) (tenant jobId : String) :
    JobState → DeskProg JobState
  | .pending token => do
    let now ← request (DeskCall.broker .now)
    let nonce ← request DeskCall.drawNonce
    let signed := identity.sign token tenant jobId nonce now
    match ← (inBroker (ProxyCredentialService.redeem set signed)).attempt with
    | .ok delivered =>
      if delivered.tenant ≠ tenant ∨ delivered.jobId ≠ jobId then
        return .failed "the broker answered for a different job or tenant"
      else
        return .held token delivered.values
    | .error e => return .failed (secretErrorText e)
  | state => return state

/-- Assert again the authority behind what is held, and drop it if the answer is anything other than
yes. -/
def reassert (set : Setting) (identity : ProxyIdentity) (tenant jobId : String) :
    JobState → DeskProg JobState
  | .held token values => do
    let req : ProxyCredentialReassertion :=
      { token, tenant, jobId, publicKey := identity.publicKey }
    match ← (inBroker (ProxyCredentialService.reassert set req)).attempt with
    | .ok () => return .held token values
    | .error e => return .invalidated (secretErrorText e)
  | state => return state

/-- What a lookup is answered, by the state it leaves. -/
def answer (req : CredentialRequest) : JobState → Except CredentialError Bytes
  | .pending _ => .error (.unavailable req.upstream "capability was not redeemed")
  | .noAuthority reason => .error (.noAuthority req.jobId req.upstream reason)
  | .failed detail => .error (.unavailable req.upstream detail)
  | .invalidated detail => .error (.invalidated req.jobId req.upstream detail)
  | .held _ values =>
    match values.lookup req.secret with
    | some value => .ok value
    | none => .error (.missing req.upstream req.secret)

/-- Resolve one attributed lookup. The lock of the slot is held from its state's reading to its
writing. -/
def credential (set : Setting) (identity : ProxyIdentity) (req : CredentialRequest) :
    DeskProg (Except CredentialError Bytes) := do
  match ← request (DeskCall.slot req.jobId) with
  | none => return .error (.unregistered req.jobId)
  | some (id, tenant) =>
    if tenant ≠ req.tenant then
      return .error (.tenantMismatch req.jobId tenant req.tenant)
    else
      let state ← request (DeskCall.lock id)
      let spent ← redeem set identity tenant req.jobId state
      let left ← reassert set identity tenant req.jobId spent
      let _ ← request (DeskCall.unlock id left)
      return answer req left

/-- Register a job's credential capability. -/
def authoriseJob (tenant jobId capability : String) : DeskProg Unit :=
  request (DeskCall.put tenant jobId (.pending capability))

/-- Register a job that may spend no tenant credential, with the reason. -/
def denyJob (tenant jobId reason : String) : DeskProg Unit :=
  request (DeskCall.put tenant jobId (.noAuthority reason))

/-- Drop everything held for a finished job. -/
def releaseJob (jobId : String) : DeskProg Bool :=
  request (DeskCall.remove jobId)

end BrokeredCredentials

end HullCi.Proxy
