/-
**What the threads of the proxy and the broker bring back.**

* `Brings` — a mint's grant is in the books, a value was attested, and break glass leaves shut what
  it covers.
* `safe_errand` — so it is of every request's program.
-/

import HullCi.Proxy.Desk

namespace HullCi.Proxy

open HullCi.Base HullCi.Base.Program
open HullCi.Secrets

/-- The threads of the requests, and the ledger they share. -/
abbrev Visitors := Pool Ledger Errand DeskAnswer SecretError Outcome

/-- One turn of the visitors. -/
abbrev Visitors.step (set : Setting) (identity : ProxyIdentity) (p : Visitors)
    (t : Turn Errand DeskInput) : Visitors :=
  Pool.step (traced (performDesk set.cipher)) (Errand.body set identity) p t

/-- The proxies that were enrolled; no tenant, no capability, no slot. -/
def Desk.opening (enrolled : Family → NodeRegistry) : Desk where
  broker := { Broker.new with enrolled }
  jobs := ∅
  slots := []

/-- No thread. -/
def Visitors.start (enrolled : Family → NodeRegistry) : Visitors :=
  Pool.idle ⟨Desk.opening enrolled, []⟩

/-- The state after a list of turns. -/
abbrev Visitors.after (set : Setting) (identity : ProxyIdentity) (enrolled : Family → NodeRegistry)
    (turns : List (Turn Errand DeskInput)) : Visitors :=
  run (Visitors.step set identity) (Visitors.start enrolled) turns

/-- What is assumed of a turn: an id that is drawn for a capability is a new one, and a lock is
taken when it is free. -/
abbrev Visitors.Admits (set : Setting) : Visitors → Turn Errand DeskInput → Prop :=
  (desk set).Admits fun _ _ => True

/-- The break-glass request covers the grant. -/
def Errand.covers : Errand → Secrets.Grant → Prop
  | .revoke capId, grant => grant.capId = capId
  | .revokeJob jobId, grant => grant.jobId = jobId
  | .revokeTenant tenant, grant => grant.tenant = tenant
  | .shredTenant tenant, grant => grant.tenant = tenant
  | .withdraw proxyId, grant => grant.principal = proxyId
  | _, _ => False

/-- The grant can be asserted no more: its capability is dead, or its proxy is not enrolled. -/
def Shut (s : Ledger) (grant : Secrets.Grant) : Prop :=
  Dead (s.state.broker.caps .proxy) grant.capId ∨ Absent s grant.principal

section Posts

variable (set : Setting) (identity : ProxyIdentity) (s₀ : Ledger) (first : ℕ)

/-- What a thread returns. -/
structure Brings (caller : Caller Errand) (s : Ledger) (r : Except SecretError Outcome) : Prop where
  minted : ∀ token grant, r = .ok (.minted token grant) →
    ∃ digest, Minted s.books.log .proxy grant digest
  attested : ∀ value, r = .ok (.credential (.ok value)) → ∃ req grant,
    caller.request = .credential req ∧ Attested set identity s caller req value grant
  shut : first ≤ caller.thread → ∀ grant digest, Minted s₀.books.log .proxy grant digest →
    caller.request.covers grant → Shut s grant

variable {set identity s₀ first}

theorem Shut.later {s s' : Ledger} {grant : Secrets.Grant} {digest : Digest} (shut : Shut s grant)
    (later : Later s s') (minted : Minted s.books.log .proxy grant digest) : Shut s' grant := by
  obtain dead | absent := shut
  · exact .inl (later.books.dead .proxy _ minted.entered dead)
  · exact .inr (later.absent _ absent)

theorem Attested.later {s s' : Ledger} {caller : Caller Errand} {req : CredentialRequest}
    {value : Bytes} {grant : Secrets.Grant}
    (attested : Attested set identity s caller req value grant) (later : Later s s') :
    Attested set identity s' caller req value grant where
  registered := by
    obtain ⟨id, state, looked, locked⟩ := attested.registered
    exact ⟨id, state, later.log _ looked, later.log _ locked⟩
  confirmed := by
    obtain ⟨token, confirmed⟩ := attested.confirmed
    exact ⟨token, confirmed.later later⟩
  named := attested.named
  deposited := attested.deposited.mono later.books.log

theorem safe_returning {B : Type} {caller : Caller Errand} {p : DeskProg B} {f : B → Outcome}
    {Q : Ledger → Except SecretError B → Prop} {s : Ledger}
    (safe : (deskSince set s₀).Safe caller Q p s) (fine : (deskSince set s₀).inv s)
    (returns : ∀ s₁ s₂ r, Later s s₁ → Q s₁ r → Later s₁ s₂ →
      Brings set identity s₀ first caller s₂ (r.map f)) :
    (deskSince set s₀).Safe caller (Brings set identity s₀ first caller) (p >>= fun b => done (f b))
      s := by
  refine safe.bind fine fun s₁ r later _ post => ?_
  cases r with
  | ok b => exact fun s₂ later₂ _ => returns s₁ s₂ (.ok b) later post later₂
  | error e => exact fun s₂ later₂ _ => returns s₁ s₂ (.error e) later post later₂

/-- A request that neither mints, nor looks up, nor breaks glass. -/
theorem brings_plain {B : Type} {caller : Caller Errand} {f : B → Outcome} {s : Ledger}
    {r : Except SecretError B} (minted : ∀ b token grant, f b ≠ .minted token grant)
    (credential : ∀ b answer, f b ≠ .credential answer)
    (shut : first ≤ caller.thread → ∀ grant digest, Minted s₀.books.log .proxy grant digest →
      caller.request.covers grant → Shut s grant) :
    Brings set identity s₀ first caller s (r.map f) where
  minted token grant same := by
    cases r with
    | ok b => exact absurd (Except.ok.inj same) (minted b token grant)
    | error e => cases same
  attested value same := by
    cases r with
    | ok b => exact absurd (Except.ok.inj same) (credential b _)
    | error e => cases same
  shut := shut

theorem withdrawn (set : Setting) (s : Ledger) (caller : Caller Errand) (input : DeskInput)
    (proxyId : String) :
    Absent (filed set s caller input (.broker (.withdraw .proxy proxyId))) proxyId := by
  intro key found
  have kept : (Function.update s.state.broker.enrolled .proxy
      ((s.state.broker.enrolled .proxy).revoke proxyId).1 .proxy).lookup key = some proxyId := found
  rw [Function.update_self] at kept
  have other := (Table.lookup_of_keep kept).2
  simp at other

/-- **Every request's program is safe.** -/
theorem safe_errand (ideal : set.cipher.Ideal) (caller : Caller Errand) {s : Ledger}
    (inv : (deskSince set s₀).inv s) :
    (deskSince set s₀).Safe caller (Brings set identity s₀ first caller)
      (caller.request.body set identity) s := by
  obtain ⟨thread, errand⟩ := caller
  have kept : GateKept (brokerSince set s₀) set Errand.errands Ledger.books DeskInput.broker :=
    deskSince_kept
  have since : ∀ {s' grant digest}, Later s s' → Minted s₀.books.log .proxy grant digest →
      Minted s'.books.log .proxy grant digest := fun later minted =>
    (minted.mono inv.2.books.log).mono later.books.log
  cases errand with
  | provisionTenant tenant =>
    refine Contract.safe_kept (fun s' input fine due => ?_) fun s₁ input _ _ _ _ _ => ?_
    · exact since_step fine (broker_kept trivial fine.1 due)
    refine Contract.safe_lift (fun version _ s₂ _ _ => ?_) (fun e _ s₂ _ _ => ?_)
    · exact brings_plain (r := .ok version) (f := Outcome.version) nofun nofun nofun
    · exact brings_plain (r := .error e) (f := Outcome.version) nofun nofun nofun
  | putSecret tenant name value =>
    have asked : Errand.errands.puts (.putSecret tenant name value) tenant name value := rfl
    have storing : (brokerSince set s₀).Safe ⟨thread, .putSecret tenant name value⟩ _ _ s :=
      kept.putSecret asked inv
    exact safe_returning (Contract.Safe.embed storing) inv
      fun _ _ _ _ _ _ => brings_plain nofun nofun nofun
  | deleteSecret tenant name =>
    have deleting : (brokerSince set s₀).Safe ⟨thread, .deleteSecret tenant name⟩
        (fun _ _ => True) (SecretBroker.deleteSecret tenant name) s :=
      kept.safe_call trivial fun _ _ _ _ _ _ _ _ _ _ _ => trivial
    exact safe_returning (Contract.Safe.embed deleting) inv
      fun _ _ _ _ _ _ => brings_plain nofun nofun nofun
  | mint req =>
    have minting : (brokerSince set s₀).Safe ⟨thread, .mint req⟩ _ _ s :=
      kept.mintProxy fun grant fits => ⟨req, ⟨rfl, rfl⟩, fits⟩
    refine safe_returning (f := fun minted => .minted minted.1 minted.2)
      (Contract.Safe.embed minting) inv fun s₁ s₂ r _ minted later => ?_
    refine ⟨fun token grant same => ?_, fun value same => ?_, nofun⟩
    · cases r with
      | ok made =>
        cases same
        obtain ⟨digest, held⟩ := minted made rfl
        exact ⟨digest, held.mono later.books.log⟩
      | error e => cases same
    · cases r with
      | ok made => cases same
      | error e => cases same
  | redeem req =>
    exact safe_returning (Contract.Safe.embed (safe_serviceRedeem ideal)) inv
      fun _ _ _ _ _ _ => brings_plain nofun nofun nofun
  | redeemAs token proxyId =>
    exact safe_returning (Contract.Safe.embed (kept.redeemProxy ideal token proxyId s)) inv
      fun _ _ _ _ _ _ => brings_plain nofun nofun nofun
  | reassert req =>
    exact safe_returning (f := fun _ => .unit) (Contract.Safe.embed safe_serviceReassert) inv
      fun _ _ _ _ _ _ => brings_plain nofun nofun nofun
  | reassertAs token proxyId =>
    exact safe_returning (Contract.Safe.embed (kept.reassertProxy token proxyId s)) inv
      fun _ _ _ _ _ _ => brings_plain nofun nofun nofun
  | revoke capId =>
    refine safe_returning (Contract.Safe.embed (kept.revoke .proxy capId s)) inv
      fun s₁ s₂ r later dead later₂ => brings_plain nofun nofun ?_
    rintro _ grant digest minted rfl
    exact Shut.later (.inl (dead (minted.mono inv.2.books.log).entered)) later₂ (since later minted)
  | revokeJob jobId =>
    refine safe_returning (Contract.Safe.embed (kept.revokeJob jobId s)) inv
      fun s₁ s₂ r later dead later₂ => brings_plain nofun nofun ?_
    rintro _ grant digest minted covered
    exact Shut.later (.inl (dead grant digest (minted.mono inv.2.books.log) covered)) later₂
      (since later minted)
  | revokeTenant tenant =>
    refine safe_returning (Contract.Safe.embed (kept.revokeTenant tenant s)) inv
      fun s₁ s₂ r later dead later₂ => brings_plain nofun nofun ?_
    rintro _ grant digest minted covered
    exact Shut.later (.inl (dead .proxy grant digest (minted.mono inv.2.books.log) covered)) later₂
      (since later minted)
  | shredTenant tenant =>
    refine safe_returning (f := fun _ => .unit) (Contract.Safe.embed (kept.shredTenant tenant inv))
      inv fun s₁ s₂ r later dead later₂ => brings_plain nofun nofun ?_
    rintro _ grant digest minted covered
    exact Shut.later (.inl (dead .proxy grant digest (minted.mono inv.2.books.log) covered)) later₂
      (since later minted)
  | withdraw proxyId =>
    refine Contract.safe_kept (fun s' input fine due => ?_) fun s₁ input _ _ _ _ _ s₂ later₂ _ => ?_
    · exact since_step fine (broker_kept trivial fine.1 due)
    refine brings_plain (r := .ok _) (f := Outcome.flag) nofun nofun ?_
    rintro _ grant digest minted rfl
    refine .inr (later₂.absent _ (withdrawn set s₁ ⟨thread, .withdraw grant.principal⟩ input _))
  | credential req =>
    refine safe_returning (f := Outcome.credential) (safe_credential ideal identity) inv
      fun s₁ s₂ r _ attested later => ⟨fun token grant same => ?_, fun value same => ?_, nofun⟩
    · cases r with
      | ok answer => cases same
      | error e => cases same
    · cases r with
      | ok answer =>
        cases same
        obtain ⟨grant, attested⟩ := attested value rfl
        exact ⟨req, grant, rfl, attested.later later⟩
      | error e => cases same
  | authoriseJob tenant jobId capability =>
    refine Contract.safe_kept (fun s' input fine _ => ?_) fun _ _ _ _ _ _ _ _ _ _ => ?_
    · exact since_step fine (put_kept nofun fine.1)
    · exact brings_plain (r := .ok ()) (f := fun _ => Outcome.unit) nofun nofun nofun
  | denyJob tenant jobId reason =>
    refine Contract.safe_kept (fun s' input fine _ => ?_) fun _ _ _ _ _ _ _ _ _ _ => ?_
    · exact since_step fine (put_kept nofun fine.1)
    · exact brings_plain (r := .ok ()) (f := fun _ => Outcome.unit) nofun nofun nofun
  | releaseJob jobId =>
    refine Contract.safe_kept (fun s' input fine _ => ?_) fun s₁ input _ _ _ _ _ _ _ _ => ?_
    · exact since_step fine (remove_kept jobId fine.1)
    · exact brings_plain (r := .ok (s₁.state.jobs.lookup jobId).isSome) (f := Outcome.flag)
        nofun nofun nofun

end Posts

end HullCi.Proxy
