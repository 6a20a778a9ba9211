/-
**Upstream credentials: spent outbound, on the authenticated grant's behalf.**

* `inject_owed` — a request is authenticated exactly when its upstream is configured with a
  credential, and then with what the source answered for the grant's tenant and job.
-/

import HullCi.Proxy.Allowlist
import HullCi.Proxy.Grant

namespace HullCi.Proxy

open HullCi.Secrets (Bytes asBytes)

/-- One credential lookup, attributed. -/
structure CredentialRequest where
  tenant : String
  jobId : String
  /-- the label of the upstream -/
  upstream : String
  /-- the name of the tenant secret -/
  secret : String
  deriving DecidableEq, Repr

/-- Why a credential could not be spent. -/
inductive CredentialError where
  | missing (upstream name : String)
  | noSource (upstream name : String)
  | noAuthority (jobId upstream reason : String)
  | unregistered (jobId : String)
  | invalidated (jobId upstream detail : String)
  | tenantMismatch (jobId registered presented : String)
  | unavailable (upstream detail : String)
  | notUtf8
  | notHeaderSafe (upstream : String)
  deriving DecidableEq, Repr

namespace CredentialError

/-- The text of a refusal. -/
def text : CredentialError → String
  | missing upstream name =>
    "upstream `" ++ upstream ++ "` needs secret `" ++ name ++ "`, which this tenant does not have"
  | noSource upstream name =>
    "upstream `" ++ upstream ++ "` needs secret `" ++ name ++ "` but this proxy has no credential "
      ++ "source configured; it will not make an unauthenticated request in its place"
  | noAuthority jobId upstream reason =>
    "job `" ++ jobId ++ "` may not spend a tenant credential for upstream `" ++ upstream ++ "`: "
      ++ reason
  | unregistered jobId =>
    "job `" ++ jobId ++ "` has no upstream-credential capability registered with this proxy; "
      ++ "control minted a package grant without one"
  | invalidated jobId upstream detail =>
    "job `" ++ jobId ++ "` may no longer spend a tenant credential for upstream `" ++ upstream
      ++ "`; the one it was holding has been dropped: " ++ detail
  | tenantMismatch jobId registered presented =>
    "job `" ++ jobId ++ "` is registered under tenant `" ++ registered ++ "` but its grant says `"
      ++ presented ++ "`"
  | unavailable upstream detail =>
    "upstream credential for `" ++ upstream ++ "` could not be obtained: " ++ detail
  | notUtf8 => "credential is not valid UTF-8 and cannot be put in a header"
  | notHeaderSafe upstream =>
    "credential for upstream `" ++ upstream ++ "` contains bytes that are not header-safe"

/-- The job asked for something it is not entitled to. -/
def isPolicyRefusal : CredentialError → Bool
  | noAuthority .. | tenantMismatch .. | invalidated .. => true
  | _ => false

end CredentialError

/-- Where the proxy gets an upstream's credential. -/
abbrev UpstreamCredentials := CredentialRequest → Except CredentialError Bytes

/-- No source at all: refuse, never downgrade. -/
def noCredentials : UpstreamCredentials := fun req =>
  .error (.noSource req.upstream req.secret)

/-- The header one authenticated request carries. -/
structure Injected where
  header : String
  value : Bytes
  deriving DecidableEq, Repr

/-- One character of base64. -/
def sextet (n : ℕ) : Char :=
  ("ABCDEFGHIJKLMNOPQRSTUVWXYZabcdefghijklmnopqrstuvwxyz0123456789+/".toList[n % 64]?).getD '='

/-- The four characters of one chunk; `len` of its three bytes are there. -/
def quartet (len : ℕ) (b0 b1 b2 : UInt8) : List Char :=
  let n := b0.toNat * 65536 + b1.toNat * 256 + b2.toNat
  [sextet (n / 262144), sextet (n / 4096), if len > 1 then sextet (n / 64) else '=',
    if len > 2 then sextet n else '=']

/-- Standard base64, padded. -/
def base64Chars : Bytes → List Char
  | [] => []
  | [b0] => quartet 1 b0 0 0
  | [b0, b1] => quartet 2 b0 b1 0
  | b0 :: b1 :: b2 :: rest => quartet 3 b0 b1 b2 ++ base64Chars rest

def base64 (input : Bytes) : String :=
  String.ofList (base64Chars input)

/-- What a credential looks like on the wire, by the upstream's scheme. -/
def credentialValue (auth : AuthScheme) (secret : Bytes) : Except CredentialError Bytes :=
  match auth with
  | .header _ => .ok secret
  | .bearer =>
    match String.fromUTF8? secret.toByteArray with
    | none => .error .notUtf8
    | some token => .ok (asBytes ("Bearer " ++ token))
  | .basic user =>
    match String.fromUTF8? secret.toByteArray with
    | none => .error .notUtf8
    | some pass => .ok (asBytes ("Basic " ++ base64 (asBytes (user ++ ":" ++ pass))))

/-- The header that carries it. -/
def credentialHeader : AuthScheme → String
  | .bearer | .basic _ => "authorization"
  | .header name => toAsciiLowercase name

/-- The line for one upstream and one secret: nothing that would split the request. -/
def credentialLine (upstream : Upstream) (secret : Bytes) : Except CredentialError Injected := do
  let value ← credentialValue upstream.auth secret
  if value.any fun b => decide (b.toNat < 32 ∨ b.toNat = 127) then
    .error (.notHeaderSafe upstream.name)
  else return { header := credentialHeader upstream.auth, value }

/-- The lookup an upstream's credential takes, for the job of an authenticated grant. -/
def Grant.lookup (grant : Grant) (upstream : Upstream) (secret : String) : CredentialRequest where
  tenant := grant.tenant
  jobId := grant.jobId
  upstream := upstream.name
  secret := secret

/-- Build the outbound authentication header for one upstream, on behalf of one job. -/
def inject (upstream : Upstream) (grant : Grant) (creds : UpstreamCredentials) :
    Except CredentialError (Option Injected) :=
  match upstream.credential with
  | none => .ok none
  | some name => do
    let secret ← creds (grant.lookup upstream name)
    let line ← credentialLine upstream secret
    return some line

/-- What an upstream's request carries besides the job's headers: nothing for a public upstream, and
else the credential of the grant's tenant under the configured name. -/
def Owed (upstream : Upstream) (grant : Grant) (creds : UpstreamCredentials)
    (injected : Option Injected) : Prop :=
  match upstream.credential with
  | none => injected = none
  | some name => ∃ secret line, creds (grant.lookup upstream name) = .ok secret ∧
      credentialLine upstream secret = .ok line ∧ injected = some line

/-- **A request is authenticated exactly when its upstream asks for it**, with that upstream's own
credential. -/
theorem inject_owed {upstream : Upstream} {grant : Grant} {creds : UpstreamCredentials}
    {injected : Option Injected} :
    inject upstream grant creds = .ok injected ↔ Owed upstream grant creds injected := by
  unfold inject Owed
  cases upstream.credential with
  | none => exact ⟨fun same => (Except.ok.inj same).symm, fun same => congrArg _ same.symm⟩
  | some name =>
    cases answered : creds (grant.lookup upstream name) with
    | error e => simp [answered, bind, Except.bind]
    | ok secret =>
      cases made : credentialLine upstream secret with
      | error e => simp [answered, made, bind, Except.bind]
      | ok line => simp [answered, made, bind, Except.bind, pure, Except.pure, eq_comm]

end HullCi.Proxy
