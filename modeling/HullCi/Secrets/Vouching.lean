/-
**The proxy's capabilities, at the gate.**

What `Gate` says of a node's capabilities, of those that a package proxy spends: they are minted as
they were asked for, deliver what they were minted for, and are asserted again while they are alive.

* `redeemProxy`, `reassertProxy` — what is behind a redemption, and behind a reassertion.
* `revokeJob` — break glass, for all of a job's.
-/

import HullCi.Secrets.Gate

namespace HullCi.Secrets

open HullCi.Base HullCi.Base.Program
open HullCi.Proto (AuthorClass)

/-- What a reassertion that is answered has behind it. -/
structure Vouched {R : Type} (set : Setting) (log : Log R) (caller : Caller R)
    (token proxyId : String) (grant : Grant) : Prop where
  token : ∃ digest now, parseToken set.digestSecret token = .ok (grant.capId, digest) ∧
    Minted log .proxy grant digest ∧
    ⟨caller, .reassert .proxy grant.capId digest proxyId now, .ok grant⟩ ∈ log ∧
    ⟨caller, .now, now⟩ ∈ log ∧ now < grant.expiresAt
  principal : grant.principal = proxyId

section Gate

variable {S R I : Type} {K : Contract S R I BrokerAnswer} {set : Setting} {errands : Errands R}
  {books : S → Books R} {draws : I → BrokerInput} {caller : Caller R} {A : Type}
  {Q : S → Except SecretError A → Prop}

theorem Vouched.mono {log log' : Log R} {token proxyId : String} {grant : Grant}
    (vouched : Vouched set log caller token proxyId grant) (grows : ∀ e ∈ log, e ∈ log') :
    Vouched set log' caller token proxyId grant where
  token := by
    obtain ⟨digest, now, parsed, minted, asserted, read, unexpired⟩ := vouched.token
    exact ⟨digest, now, parsed, minted.mono grows, grows _ asserted, grows _ read, unexpired⟩
  principal := vouched.principal

namespace GateKept

theorem mintProxy (kept : GateKept K set errands books draws) {req : ProxyCapabilityRequest}
    (asked : ∀ grant, Fits req.tenant req.jobId req.proxyId req.declared req.authorClass grant →
      errands.mints caller.request .proxy grant) {s : S} :
    K.Safe caller (fun s' r => ∀ minted, r = .ok minted →
        ∃ digest, Minted (books s').log .proxy minted.2 digest)
      (SecretBroker.mintProxyCapability set req) s := by
  unfold SecretBroker.mintProxyCapability
  by_cases outsider : mayReceiveSecrets req.authorClass = false
  · rw [if_pos outsider]
    exact fun _ _ _ _ no => by cases no
  rw [if_neg outsider]
  have member : mayReceiveSecrets req.authorClass = true := by simpa using outsider
  refine kept.safe_call trivial fun _ s₁ _ _ _ _ inv _ => ?_
  refine Contract.safe_lift (fun _ _ => ?_) (fun _ _ _ _ _ _ no => by cases no)
  refine (kept.declaredNames req.tenant req.declared [] s₁).bind inv fun s₂ r _ _ names => ?_
  refine Contract.safe_lift (fun names' ok => ?_) (fun _ _ _ _ _ _ no => by cases no)
  refine kept.safe_call trivial fun _ s₃ input _ _ _ _ _ => ?_
  show K.Safe caller _ (if req.expiresAt ≤ input.now then _ else _) _
  by_cases expired : req.expiresAt ≤ input.now
  · rw [if_pos expired]
    exact fun _ _ _ _ no => by cases no
  rw [if_neg expired]
  refine kept.safe_call trivial fun _ s₄ drawn _ _ _ _ _ => ?_
  refine kept.safe_call ⟨⟨rfl, rfl⟩, asked _ ⟨rfl, rfl, rfl, ?_, rfl, member⟩⟩
    fun _ s₅ _ _ _ _ _ after s₆ later _ minted same => ?_
  · intro name
    rw [names names' ok name]
    simp only [List.not_mem_nil, or_false]
  · cases same
    exact ⟨_, caller, _, (kept.onward later).log _ (logged after)⟩

/-- **A redemption of the proxy's delivers what its capability was minted for.** -/
theorem redeemProxy (kept : GateKept K set errands books draws) (ideal : set.cipher.Ideal)
    (token proxyId : String) (s : S) :
    K.Safe caller (fun s' r => ∀ delivered, r = .ok delivered → ∃ grant,
        Delivery set errands (books s').log caller .proxy token proxyId grant delivered)
      (SecretBroker.redeemProxyCapability set token proxyId) s := by
  unfold SecretBroker.redeemProxyCapability
  refine Contract.safe_lift (fun parsed parses => ?_) (fun _ _ _ _ _ _ no => by cases no)
  obtain ⟨id, digest⟩ := parsed
  refine kept.safe_call trivial fun _ s₁ clock _ _ _ _ read => ?_
  refine kept.safe_call trivial fun s₂ s₃ _ later inv _ inv₃ after => ?_
  refine Contract.safe_lift (fun grant ok => ?_) (fun _ _ _ _ _ _ no => by cases no)
  obtain ⟨rfl, principals, unexpired, minted, claim, _⟩ := kept.claimed inv inv₃ after ok
  split
  · exact fun _ _ _ _ no => by cases no
  refine (kept.openAll ideal grant.tenant grant.names s₃).bind inv₃ fun s₄ r later₄ _ opened => ?_
  refine Contract.safe_lift (fun values valued => ?_) (fun _ _ _ _ _ _ no => by cases no)
  intro s₅ later₅ _ delivered same
  cases same
  have grows : ∀ e ∈ (books s₃).log, e ∈ (books s₅).log := fun e member =>
    (kept.onward later₅).log _ ((kept.onward later₄).log _ member)
  have readLogged : ⟨caller, .now, clock.now⟩ ∈ (books s₃).log := by
    rw [after]
    exact mem_booked.mpr (.inr ((kept.onward later).log _ (logged read)))
  refine ⟨grant, ?_⟩
  exact {
    token := ⟨digest, clock.now, parses, minted.mono grows, grows _ claim, grows _ readLogged,
      unexpired⟩
    principal := principals
    tenant := rfl
    jobId := rfl
    values := fun nv member => by
      obtain ⟨asked, stored⟩ := opened values valued nv member
      exact ⟨asked, stored.mono (kept.onward later₅).log⟩ }

/-- A reassertion that is answered with a grant: what is behind it. -/
theorem asserted (kept : GateKept K set errands books draws) {family : Family} {id : CapId}
    {digest : Digest} {principal : String} {now : ℕ} {grant : Grant} {s₁ s₂ : S}
    {input : BrokerInput} (inv : K.inv s₁)
    (after : books s₂ = booked set.cipher (books s₁) caller input
      (.reassert family id digest principal now))
    (ok : (performBroker set.cipher (books s₁).state input
      (.reassert family id digest principal now)).2 = .ok grant) :
    grant.capId = id ∧ grant.principal = principal ∧ now < grant.expiresAt ∧
      Minted (books s₁).log family grant digest ∧
      ⟨caller, .reassert family id digest principal now, .ok grant⟩ ∈ (books s₂).log := by
  have entry := logged after
  rw [ok] at entry
  obtain ⟨record, found, rfl, rfl, _, unexpired, principals, _⟩ :=
    CapRegistry.reassert_ok
      (show ((books s₁).state.caps family).reassert family.wrong id digest principal now =
        .ok grant from ok)
  obtain ⟨rfl, minted⟩ := (kept.sound inv).held family id record found
  exact ⟨rfl, principals, unexpired, minted, entry⟩

/-- **A reassertion that is answered vouches for the grant.** -/
theorem reassertProxy (kept : GateKept K set errands books draws) (token proxyId : String) (s : S) :
    K.Safe caller (fun s' r => ∀ grant, r = .ok grant →
        Vouched set (books s').log caller token proxyId grant)
      (SecretBroker.reassertProxyCapability set token proxyId) s := by
  unfold SecretBroker.reassertProxyCapability
  refine Contract.safe_lift (fun parsed parses => ?_) (fun _ _ _ _ _ _ no => by cases no)
  obtain ⟨id, digest⟩ := parsed
  refine kept.safe_call trivial fun _ s₁ clock _ _ _ _ read => ?_
  refine kept.safe_call trivial fun s₂ s₃ _ later inv later₃ _ after => ?_
  refine Contract.safe_result fun s₄ later₄ _ grant ok => ?_
  obtain ⟨rfl, principals, unexpired, minted, entry⟩ := kept.asserted inv after ok
  have grows : ∀ e ∈ (books s₂).log, e ∈ (books s₄).log := fun e member =>
    (kept.onward later₄).log _ ((kept.onward later₃).log _ member)
  have read' := grows _ ((kept.onward later).log _ (logged read))
  exact ⟨⟨digest, clock.now, parses, minted.mono grows, (kept.onward later₄).log _ entry, read',
    unexpired⟩, principals⟩

/-- A revocation of all of a job's capabilities leaves them dead. -/
theorem revokeJob (kept : GateKept K set errands books draws) (jobId : String) (s : S) :
    K.Safe caller (fun s' _ => ∀ grant digest, Minted (books s).log .proxy grant digest →
        grant.jobId = jobId → Dead ((books s').state.caps .proxy) grant.capId)
      (SecretBroker.revokeJobProxyCapabilities jobId) s := by
  unfold SecretBroker.revokeJobProxyCapabilities
  refine kept.safe_call trivial fun s₁ s₂ _ later inv _ _ after s₃ later₃ _ grant digest minted
    covered => ?_
  have minted₁ := minted.mono (kept.onward later).log
  refine (kept.onward later₃).dead .proxy _ ?_ ?_
  · rw [after]
    exact (minted₁.mono fun _ member => mem_booked.mpr (.inr member)).entered
  · rw [after]
    show Dead (Function.update (books s₁).state.caps .proxy _ .proxy) _
    rw [Function.update_self]
    exact dead_revokeAll (kept.sound inv) (fun g => g.jobId = jobId) minted₁
      (decide_eq_true covered)

end GateKept

end Gate

end HullCi.Secrets
