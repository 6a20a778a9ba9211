/-
**What is signed or sealed for one context is for no other.**

The associated data of a value and of a wrapped DEK, and the payloads that a node and a package
proxy sign, are four layouts of one encoding, each behind a domain of its own. A node's payload ends
in as many names as were requested.

* `Context.bytes_inj` — the bytes name the layout and every field of it.
* `contexts_apart` — so a blob opens, and a signature verifies, in the context it was made for.
-/

import HullCi.Proxy.Brokered

namespace HullCi.Proxy

open HullCi.Secrets

/-- The exact bytes a node redemption's signature covers. -/
def signingPayload (token jobId : String) (requested : List String) (nonce : Bytes) (issuedAt : ℕ)
    (publicKey : NodePublicKey) : Bytes :=
  associatedData "hull-ci/node-redemption/v1"
    ([token, jobId, String.ofList (hexEncode nonce), toString issuedAt,
      String.ofList (hexEncode publicKey.toList)] ++ requested)

/-- What something is signed or sealed for. -/
inductive Context where
  | value (tenant name : String)
  | wrap (tenant name : String) (version : UInt32)
  | redemption (token jobId : String) (requested : List String) (nonce : Bytes) (issuedAt : ℕ)
    (publicKey : NodePublicKey)
  | proxyRedemption (token tenant jobId : String) (nonce : Bytes) (issuedAt : ℕ)
    (publicKey : NodePublicKey)
  deriving DecidableEq

namespace Context

def bytes : Context → Bytes
  | .value tenant name => valueAad tenant name
  | .wrap tenant name version => wrapAad tenant name version
  | .redemption token jobId requested nonce issuedAt publicKey =>
    signingPayload token jobId requested nonce issuedAt publicKey
  | .proxyRedemption token tenant jobId nonce issuedAt publicKey =>
    proxySigningPayload token tenant jobId nonce issuedAt publicKey

def domain : Context → String
  | .value .. => domainValue
  | .wrap .. => domainWrap
  | .redemption .. => "hull-ci/node-redemption/v1"
  | .proxyRedemption .. => "hull-ci/proxy-credential-redemption/v1"

/-- The texts behind the domain. -/
def fields : Context → List String
  | .value tenant name => [tenant, name]
  | .wrap tenant name version => [tenant, name, toString version.toNat]
  | .redemption token jobId requested nonce issuedAt publicKey =>
    [token, jobId, String.ofList (hexEncode nonce), toString issuedAt,
      String.ofList (hexEncode publicKey.toList)] ++ requested
  | .proxyRedemption token tenant jobId nonce issuedAt publicKey =>
    [token, tenant, jobId, String.ofList (hexEncode nonce), toString issuedAt,
      String.ofList (hexEncode publicKey.toList)]

/-- Every field is shorter than 2^32 bytes. -/
def Short (c : Context) : Prop :=
  ∀ f ∈ c.fields, Secrets.Short f

theorem bytes_eq (c : Context) : c.bytes = associatedData c.domain c.fields := by
  cases c <;> rfl

theorem short_domain (c : Context) : Secrets.Short c.domain := by
  cases c with
  | value tenant name => exact short_domainValue
  | wrap tenant name version => exact short_domainWrap
  | redemption token jobId requested nonce issuedAt publicKey =>
    show Secrets.Short "hull-ci/node-redemption/v1"
    decide
  | proxyRedemption token tenant jobId nonce issuedAt publicKey =>
    show Secrets.Short "hull-ci/proxy-credential-redemption/v1"
    decide

theorem hexText_inj {bytes bytes' : Bytes}
    (same : String.ofList (hexEncode bytes) = String.ofList (hexEncode bytes')) :
    bytes = bytes' := by
  have read := congrArg hexDecode (String.ofList_injective same)
  rw [hexDecode_hexEncode, hexDecode_hexEncode] at read
  exact Option.some.inj read

/-- The domain tells the layouts apart, and a layout is determined by its fields. -/
theorem eq_of_fields {c c' : Context} (domains : c.domain = c'.domain)
    (same : c.fields = c'.fields) : c = c' := by
  cases c with
  | value tenant name =>
    cases c' with
    | value tenant' name' =>
      simp only [fields, List.cons.injEq, and_true] at same
      obtain ⟨rfl, rfl⟩ := same
      rfl
    | _ => simp [domain, domainValue, domainWrap] at domains
  | wrap tenant name version =>
    cases c' with
    | wrap tenant' name' version' =>
      simp only [fields, List.cons.injEq, and_true] at same
      obtain ⟨rfl, rfl, versions⟩ := same
      rw [UInt32.toNat_inj.mp (toString_inj versions)]
    | _ => simp [domain, domainValue, domainWrap] at domains
  | redemption token jobId requested nonce issuedAt publicKey =>
    cases c' with
    | redemption token' jobId' requested' nonce' issuedAt' publicKey' =>
      simp only [fields, List.cons_append, List.nil_append, List.cons.injEq] at same
      obtain ⟨rfl, rfl, nonces, times, keys, rfl⟩ := same
      rw [hexText_inj nonces, toString_inj times, Vector.toList_inj.mp (hexText_inj keys)]
    | _ => simp [domain, domainValue, domainWrap] at domains
  | proxyRedemption token tenant jobId nonce issuedAt publicKey =>
    cases c' with
    | proxyRedemption token' tenant' jobId' nonce' issuedAt' publicKey' =>
      simp only [fields, List.cons.injEq, and_true] at same
      obtain ⟨rfl, rfl, rfl, nonces, times, keys⟩ := same
      rw [hexText_inj nonces, toString_inj times, Vector.toList_inj.mp (hexText_inj keys)]
    | _ => simp [domain, domainValue, domainWrap] at domains

/-- **The bytes name the layout and every field of it.** -/
theorem bytes_inj {c c' : Context} (short : c.Short) (short' : c'.Short)
    (same : c.bytes = c'.bytes) : c = c' := by
  rw [bytes_eq, bytes_eq] at same
  have all : ∀ {c : Context}, c.Short → ∀ f ∈ c.domain :: c.fields, Secrets.Short f :=
    fun {c} short => List.forall_mem_cons.mpr ⟨c.short_domain, short⟩
  obtain ⟨domains, fields⟩ := associatedData_inj (all short) (all short') same
  exact eq_of_fields domains fields

end Context

/-- A signature scheme: a signature verifies for the bytes it was made for, and no others. -/
structure SignatureScheme where
  sign : NodePublicKey → Bytes → Bytes
  verifies : NodePublicKey → Bytes → Bytes → Bool
  binds : ∀ {key message message'}, verifies key message' (sign key message) = true ↔
    message' = message

/-- The signature that is the message. -/
instance : Inhabited SignatureScheme where
  default := ⟨fun _ message => message, fun _ message signature => message == signature, beq_iff_eq⟩

/-- **Contexts never collide**: equal bytes are those of one function and the same arguments. So a
blob that was sealed for a context opens for no other, and a signature that was made for one verifies
for no other. -/
theorem contexts_apart {c c' : Context} (short : c.Short) (short' : c'.Short) :
    (c.bytes = c'.bytes ↔ c = c') ∧
      (∀ (cipher : Cipher) (key key' : Dek) (nonce : Nonce) (plaintext plaintext' blob : Bytes),
        cipher.Ideal → aeadSeal cipher key nonce plaintext c.bytes = .ok blob →
          aeadOpen cipher key' blob c'.bytes = .ok plaintext' → c = c') ∧
      ∀ (scheme : SignatureScheme) (key : NodePublicKey),
        scheme.verifies key c'.bytes (scheme.sign key c.bytes) = true → c = c' := by
  have apart := Context.bytes_inj short short'
  refine ⟨⟨apart, fun same => by rw [same]⟩, ?_, fun scheme key valid => ?_⟩
  · intro cipher key key' nonce plaintext plaintext' blob ideal sealed opened
    obtain ⟨nonce', sealed'⟩ := (aeadOpen_iff ideal).mp opened
    exact apart (aeadSeal_inj ideal sealed sealed').2.2
  · exact apart (scheme.binds.mp valid).symm

/-- A wrapped DEK's context and a value's, for one tenant and one name. -/
theorem contexts_apart_once :
    (Context.wrap "acme" "NPM_TOKEN" 3).bytes ≠ (Context.value "acme" "NPM_TOKEN").bytes := by
  intro same
  have short : (Context.wrap "acme" "NPM_TOKEN" 3).Short := by
    unfold Context.Short
    decide
  have short' : (Context.value "acme" "NPM_TOKEN").Short := by
    unfold Context.Short
    decide
  exact nomatch (contexts_apart short short').1.mp same

end HullCi.Proxy
