/-
**What the broker's programs return, under any contract that serves the broker.**

* `GateKept.sealing` — the vault's programs, in the broker.
* `GateKept.putSecret`, `GateKept.mint`, `GateKept.redeem` — each puts, enters and claims what its
  request asked for; what a redemption delivers has a `Delivery` behind it.
* `GateKept.revoke`, `GateKept.revokeTenant`, `GateKept.shredTenant` — every capability they cover
  that was minted before they began is dead when they return.
-/

import HullCi.Secrets.Authority

namespace HullCi.Secrets

open HullCi.Base HullCi.Base.Program
open HullCi.Proto (AuthorClass)

/-- The contract's calls are the broker's sections, its invariant keeps the books in order, and a
section that was asked for keeps it. -/
structure GateKept {S R I : Type} (K : Contract S R I BrokerAnswer) (set : Setting)
    (errands : Errands R) (books : S → Books R) (draws : I → BrokerInput) : Prop where
  sound : ∀ {s}, K.inv s → Sound set.cipher errands (books s)
  onward : ∀ {s s'}, K.rely s s' → Onward (books s) (books s')
  writes : ∀ s caller input op, books (K.handle s caller input op).1 =
    booked set.cipher (books s) caller (draws input) op
  answers : ∀ s caller input op, (K.handle s caller input op).2 =
    (performBroker set.cipher (books s).state (draws input) op).2
  keeps : ∀ {s caller input op}, Permitted set.cipher errands caller op → K.inv s →
    K.may s caller input op →
    K.inv (K.handle s caller input op).1 ∧ K.rely s (K.handle s caller input op).1

/-- The value was put in the store for the tenant, under the name. -/
def Deposited {R : Type} (errands : Errands R) (log : Log R) (tenant name : String) (value : Bytes) :
    Prop :=
  ∃ caller sealed, ⟨caller, .vault (.put sealed), ()⟩ ∈ log ∧
    errands.puts caller.request tenant name value

/-- What a redemption that delivers has behind it: the capability that its token names was minted
with this grant and this token, and the caller claimed it, as its principal, before it expired. -/
structure Delivery {R : Type} (set : Setting) (errands : Errands R) (log : Log R)
    (caller : Caller R) (family : Family) (token principal : String) (grant : Grant)
    (delivered : DeliveredSecrets) : Prop where
  token : ∃ digest now, parseToken set.digestSecret token = .ok (grant.capId, digest) ∧
    Minted log family grant digest ∧
    ⟨caller, .claim family grant.capId digest principal now, .ok grant⟩ ∈ log ∧
    ⟨caller, .now, now⟩ ∈ log ∧ now < grant.expiresAt
  principal : grant.principal = principal
  tenant : delivered.tenant = grant.tenant
  jobId : delivered.jobId = grant.jobId
  values : ∀ nv ∈ delivered.values,
    nv.1 ∈ grant.names ∧ Deposited errands log grant.tenant nv.1 nv.2

/-- The grant is the one asked for, and of a member. -/
structure Fits (tenant jobId principal : String) (declared : List String)
    (asked : AuthorClass) (grant : Grant) : Prop where
  tenant : grant.tenant = tenant
  jobId : grant.jobId = jobId
  principal : grant.principal = principal
  names : ∀ name, name ∈ grant.names ↔ name ∈ declared
  authorClass : grant.authorClass = asked
  member : mayReceiveSecrets asked = true

section Gate

variable {S R I : Type} {K : Contract S R I BrokerAnswer} {set : Setting} {errands : Errands R}
  {books : S → Books R} {draws : I → BrokerInput} {caller : Caller R} {A : Type}
  {Q : S → Except SecretError A → Prop}

theorem Deposited.mono {log log' : Log R} {tenant name : String} {value : Bytes}
    (stored : Deposited errands log tenant name value) (grows : ∀ e ∈ log, e ∈ log') :
    Deposited errands log' tenant name value := by
  obtain ⟨caller, sealed, logged, puts⟩ := stored
  exact ⟨caller, sealed, grows _ logged, puts⟩

theorem Delivery.mono {log log' : Log R} {family : Family} {token principal : String}
    {grant : Grant} {delivered : DeliveredSecrets}
    (delivery : Delivery set errands log caller family token principal grant delivered)
    (grows : ∀ e ∈ log, e ∈ log') :
    Delivery set errands log' caller family token principal grant delivered where
  token := by
    obtain ⟨digest, now, parsed, minted, claimed, read, unexpired⟩ := delivery.token
    exact ⟨digest, now, parsed, minted.mono grows, grows _ claimed, grows _ read, unexpired⟩
  principal := delivery.principal
  tenant := delivery.tenant
  jobId := delivery.jobId
  values nv member :=
    ⟨(delivery.values nv member).1, (delivery.values nv member).2.mono grows⟩

namespace GateKept

/-- A section that was asked for: what the program goes on with is safe, at the broker's answer. -/
theorem safe_call (kept : GateKept K set errands books draws) {op : BrokerCall}
    {next : BrokerAnswer op → BrokerProg A} {s : S}
    (permitted : Permitted set.cipher errands caller op)
    (rest : ∀ s₁ s₂ input, K.rely s s₁ → K.inv s₁ → K.rely s₁ s₂ → K.inv s₂ →
      books s₂ = booked set.cipher (books s₁) caller input op →
      K.Safe caller Q (next (performBroker set.cipher (books s₁).state input op).2) s₂) :
    K.Safe caller Q (.call op next) s :=
  Contract.safe_kept (fun _ _ fine may => kept.keeps permitted fine may)
    fun s₁ input later fine _ after fine' => by
      rw [kept.answers]
      exact rest s₁ _ (draws input) later fine after fine' (kept.writes _ _ _ _)

theorem logged {s₁ s₂ : Books R} {input : BrokerInput} {op : BrokerCall}
    (after : s₂ = booked set.cipher s₁ caller input op) :
    ⟨caller, op, (performBroker set.cipher s₁.state input op).2⟩ ∈ s₂.log := by
  rw [after]
  exact mem_booked.mpr (.inl rfl)

theorem serves (kept : GateKept K set errands books draws) :
    Serves (K.pull BrokerCall.vault fun _ answer => answer) set.cipher
      (fun s => (books s).state.vaults) fun input => (draws input).vault where
  keeps {s caller input op} reads inv may := by
    have permitted : Permitted set.cipher errands caller (.vault op) := by
      cases op with
      | put sealed => cases reads
      | _ => trivial
    exact kept.keeps permitted inv may
  answers s caller input op := kept.answers s caller input (.vault op)

theorem ideal_inj {cipher : Cipher} (ideal : cipher.Ideal) {dek dek' : Dek}
    {value plaintext aad blob : Bytes} (sealed : SealedUnder cipher dek value aad blob)
    (opened : aeadOpen cipher dek' blob aad = .ok plaintext) : plaintext = value := by
  obtain ⟨_, sealed⟩ := sealed
  obtain ⟨_, sealed'⟩ := (aeadOpen_iff ideal).mp opened
  exact (aeadSeal_inj ideal sealed' sealed).2.1

/-! ### Storage and minting -/

theorem putSecret (kept : GateKept K set errands books draws) {tenant name : String}
    {value : Bytes} (asked : errands.puts caller.request tenant name value) {s : S}
    (fine : K.inv s) :
    K.Safe caller (fun _ _ => True) (SecretBroker.putSecret set tenant name value) s := by
  unfold SecretBroker.putSecret
  refine Contract.safe_lift (fun _ _ => ?_) (fun _ _ _ _ _ => trivial)
  have sealing : (K.pull BrokerCall.vault _).Safe caller _ _ s :=
    kept.serves.sealAs tenant name value s
  refine (Contract.Safe.embed sealing).bind fine fun s' r _ _ spec => ?_
  refine Contract.safe_lift (fun sealed ok => ?_) (fun _ _ _ _ _ => trivial)
  obtain ⟨⟨rfl, rfl⟩, dek, _, _, _, text, _⟩ := spec sealed ok
  have permitted : Permitted set.cipher errands caller (.vault (.put sealed)) :=
    ⟨value, asked, dek, text⟩
  exact kept.safe_call permitted fun _ _ _ _ _ _ _ _ _ _ _ => trivial

theorem mem_insertName {names : List String} {name n : String} :
    n ∈ insertName names name ↔ n = name ∨ n ∈ names := by
  unfold insertName
  split
  · rename_i member
    constructor
    · exact .inr
    · rintro (rfl | there)
      · exact member
      · exact there
  · exact List.mem_orderedInsert _

theorem declaredNames (kept : GateKept K set errands books draws) (tenant : String)
    (declared names : List String) (s : S) :
    K.Safe caller (fun _ r => ∀ names', r = .ok names' → ∀ n, n ∈ names' ↔ n ∈ declared ∨ n ∈ names)
      (declaredNames tenant declared names) s := by
  induction declared generalizing names s with
  | nil =>
    intro _ _ _ names' same n
    cases same
    simp only [List.not_mem_nil, false_or]
  | cons name declared ih =>
    unfold Secrets.declaredNames
    refine Contract.safe_lift (fun _ _ => ?_) (fun _ _ _ _ _ _ no => by cases no)
    refine kept.safe_call trivial fun s₁ s₂ _ _ _ _ _ _ => ?_
    cases found : (books s₁).state.vaults.rows.get tenant name with
    | none =>
      simp only [performBroker, perform, found]
      exact fun _ _ _ _ no => by cases no
    | some sealed =>
      simp only [performBroker, perform, found]
      refine (ih (insertName names name) s₂).weaken fun _ _ _ post names' same n => ?_
      rw [post names' same n, mem_insertName, List.mem_cons]
      tauto

theorem mint (kept : GateKept K set errands books draws) {req : CapabilityRequest}
    (asked : ∀ grant, Fits req.tenant req.jobId req.nodeId req.declared req.authorClass grant →
      errands.mints caller.request .node grant) {s : S} :
    K.Safe caller (fun s' r => ∀ minted, r = .ok minted →
        ∃ digest, Minted (books s').log .node minted.2 digest)
      (SecretBroker.mint set req) s := by
  unfold SecretBroker.mint
  by_cases outsider : mayReceiveSecrets req.authorClass = false
  · rw [if_pos outsider]
    exact fun _ _ _ _ no => by cases no
  rw [if_neg outsider]
  have member : mayReceiveSecrets req.authorClass = true := by simpa using outsider
  refine kept.safe_call trivial fun _ s₁ _ _ _ _ inv _ => ?_
  refine Contract.safe_lift (fun _ _ => ?_) (fun _ _ _ _ _ _ no => by cases no)
  refine (kept.declaredNames req.tenant req.declared [] s₁).bind inv fun s₂ r _ _ names => ?_
  refine Contract.safe_lift (fun names' ok => ?_) (fun _ _ _ _ _ _ no => by cases no)
  refine kept.safe_call trivial fun _ s₃ input _ _ _ _ _ => ?_
  refine kept.safe_call trivial fun _ s₄ drawn _ _ _ _ _ => ?_
  refine kept.safe_call ⟨⟨rfl, rfl⟩, asked _ ⟨rfl, rfl, rfl, ?_, rfl, member⟩⟩
    fun _ s₅ _ _ _ _ _ after s₆ later _ minted same => ?_
  · intro name
    rw [names names' ok name]
    simp only [List.not_mem_nil, or_false]
  · cases same
    exact ⟨_, caller, _, (kept.onward later).log _ (logged after)⟩

/-! ### Redeeming -/

theorem openAll (kept : GateKept K set errands books draws) (ideal : set.cipher.Ideal)
    (tenant : String) (wanted : List String) (s : S) :
    K.Safe caller (fun s' r => ∀ values, r = .ok values → ∀ nv ∈ values,
        nv.1 ∈ wanted ∧ Deposited errands (books s').log tenant nv.1 nv.2)
      (openAll set tenant wanted) s := by
  induction wanted generalizing s with
  | nil =>
    intro _ _ _ values same nv member
    cases same
    cases member
  | cons name wanted ih =>
    unfold Secrets.openAll
    refine kept.safe_call trivial fun s₁ s₂ _ _ inv after inv₂ _ => ?_
    cases found : (books s₁).state.vaults.rows.get tenant name with
    | none =>
      simp only [performBroker, perform, found]
      exact fun _ _ _ _ no => by cases no
    | some sealed =>
      simp only [performBroker, perform, found]
      -- the row was put for the tenant and the name, so what it opens to is what was put
      obtain ⟨value, ⟨putter, put, asked⟩, dek, text⟩ := (kept.sound inv).rows _ _ _ found
      have stored : Deposited errands (books s₂).log tenant name value :=
        ⟨putter, sealed, (kept.onward after).log _ put, asked⟩
      have opening : (K.pull BrokerCall.vault _).Safe caller _ _ s₂ :=
        kept.serves.openAs tenant name sealed s₂
      refine (Contract.Safe.embed opening).bind inv₂ fun s₃ r later inv₃ opened => ?_
      refine Contract.safe_lift (fun plaintext ok => ?_) (fun _ _ _ _ _ _ no => by cases no)
      obtain ⟨_, dek', text'⟩ := opened plaintext ok
      obtain rfl : plaintext = value := ideal_inj ideal text text'
      refine (ih s₃).bind inv₃ fun s₄ r' later' _ rest => ?_
      refine Contract.safe_lift (fun values ok' => ?_) (fun _ _ _ _ _ _ no => by cases no)
      intro s₅ later'' _ all same nv member
      cases same
      have grows := (kept.onward later'').log
      obtain rfl | member := List.mem_cons.mp member
      · refine ⟨List.mem_cons_self, stored.mono fun e logged => ?_⟩
        exact grows _ ((kept.onward later').log _ ((kept.onward later).log _ logged))
      · obtain ⟨asked', stored'⟩ := rest values ok' nv member
        exact ⟨List.mem_cons_of_mem _ asked', stored'.mono grows⟩

theorem mem_wantedNames {names requested wanted : List String}
    (ok : wantedNames names requested = .ok wanted) : ∀ name ∈ wanted, name ∈ names := by
  unfold wantedNames at ok
  split at ok
  · cases ok
    exact fun _ member => member
  · split at ok
    · cases ok
    · rename_i none
      cases ok
      intro name member
      have := List.find?_eq_none.mp none name member
      simpa using this

/-- A claim that is answered with a grant: what is behind it, and the capability was alive. -/
theorem claimed (kept : GateKept K set errands books draws) {family : Family} {id : CapId}
    {digest : Digest} {principal : String} {now : ℕ} {grant : Grant} {s₁ s₂ : S}
    {input : BrokerInput} (inv : K.inv s₁) (inv₂ : K.inv s₂)
    (after : books s₂ = booked set.cipher (books s₁) caller input
      (.claim family id digest principal now))
    (ok : (performBroker set.cipher (books s₁).state input
      (.claim family id digest principal now)).2 = .ok grant) :
    grant.capId = id ∧ grant.principal = principal ∧ now < grant.expiresAt ∧
      Minted (books s₂).log family grant digest ∧
      ⟨caller, .claim family id digest principal now, .ok grant⟩ ∈ (books s₂).log ∧
      ∃ s, K.inv s ∧ ¬ Dead ((books s).state.caps family) grant.capId := by
  have entry := logged after
  rw [ok] at entry
  obtain ⟨⟨minted, ids⟩, ⟨principals, unexpired⟩, _⟩ :=
    (kept.sound inv₂).claims _ _ _ _ _ _ _ entry
  refine ⟨ids, principals, unexpired, minted, entry, s₁, inv, fun dead => ?_⟩
  have claim : ((books s₁).state.caps family).claim family.wrong id digest principal now =
      (_, .ok grant) := Prod.ext rfl ok
  obtain ⟨record, found, _, _, unrevoked, _⟩ := CapRegistry.claim_ok claim
  have revoked := dead record (ids ▸ found)
  rw [unrevoked] at revoked
  cases revoked

/-- **A redemption delivers what its capability was minted for.** -/
theorem redeem (kept : GateKept K set errands books draws) (ideal : set.cipher.Ideal)
    (token nodeId : String) (requested : List String) (s : S) :
    K.Safe caller (fun s' r => ∀ delivered, r = .ok delivered → ∃ grant,
        Delivery set errands (books s').log caller .node token nodeId grant delivered ∧
        ∃ s₁, K.inv s₁ ∧ ¬ Dead ((books s₁).state.caps .node) grant.capId)
      (SecretBroker.redeem set token nodeId requested) s := by
  unfold SecretBroker.redeem
  refine Contract.safe_lift (fun parsed parses => ?_) (fun _ _ _ _ _ _ no => by cases no)
  obtain ⟨id, digest⟩ := parsed
  refine kept.safe_call trivial fun _ s₁ clock _ _ _ _ read => ?_
  refine kept.safe_call trivial fun s₂ s₃ _ later inv _ inv₃ after => ?_
  refine Contract.safe_lift (fun grant ok => ?_) (fun _ _ _ _ _ _ no => by cases no)
  obtain ⟨rfl, principals, unexpired, minted, claim, alive⟩ := kept.claimed inv inv₃ after ok
  split
  · exact fun _ _ _ _ no => by cases no
  refine Contract.safe_lift (fun wanted wants => ?_) (fun _ _ _ _ _ _ no => by cases no)
  refine (kept.openAll ideal grant.tenant wanted s₃).bind inv₃ fun s₄ r later₄ _ opened => ?_
  refine Contract.safe_lift (fun values valued => ?_) (fun _ _ _ _ _ _ no => by cases no)
  intro s₅ later₅ _ delivered same
  cases same
  have grows : ∀ e ∈ (books s₃).log, e ∈ (books s₅).log := fun e member =>
    (kept.onward later₅).log _ ((kept.onward later₄).log _ member)
  have readLogged : ⟨caller, .now, clock.now⟩ ∈ (books s₃).log := by
    rw [after]
    exact mem_booked.mpr (.inr ((kept.onward later).log _ (logged read)))
  refine ⟨grant, ?_, alive⟩
  exact {
    token := ⟨digest, clock.now, parses, minted.mono grows, grows _ claim, grows _ readLogged,
      unexpired⟩
    principal := principals
    tenant := rfl
    jobId := rfl
    values := fun nv member => by
      obtain ⟨asked, stored⟩ := opened values valued nv member
      exact ⟨mem_wantedNames wants _ asked, stored.mono (kept.onward later₅).log⟩ }

/-! ### Break glass -/

/-- A section that revokes all that is meant leaves what was minted and is meant dead. -/
theorem dead_revokeAll {s : Books R} (sound : Sound set.cipher errands s) {family : Family}
    (meant : Grant → Bool) {grant : Grant} {digest : Digest}
    (minted : Minted s.log family grant digest) (covered : meant grant = true) :
    Dead ((s.state.caps family).revokeAll meant).1 grant.capId := by
  intro record found
  rw [CapRegistry.lookup_revokeAll] at found
  obtain ⟨old, before, rfl⟩ := Option.map_eq_some_iff.mp found
  obtain ⟨ids, minted'⟩ := sound.held family _ old before
  obtain ⟨same, _⟩ := sound.unique family _ _ _ _ minted' minted ids
  rw [same, covered]
  rfl

theorem revoke (kept : GateKept K set errands books draws) (family : Family) (capId : CapId)
    (s : S) :
    K.Safe caller (fun s' _ => capId ∈ entered (books s).log family →
        Dead ((books s').state.caps family) capId)
      (request (BrokerCall.revoke family capId) : BrokerProg Bool) s := by
  refine kept.safe_call trivial fun s₁ s₂ _ later _ _ _ after s₃ later₃ _ minted => ?_
  refine (kept.onward later₃).dead family capId ?_ ?_
  · rw [after]
    refine entered_mono (fun e member => mem_booked.mpr (.inr ?_)) minted
    exact (kept.onward later).log _ member
  · rw [after]
    intro record found
    have revoked : ((s₁ |> books).state.caps family |>.revoke capId).1.lookup capId = some record := by
      rw [← found]
      show _ = (Function.update (books s₁).state.caps family _ family).lookup capId
      rw [Function.update_self]
    rw [CapRegistry.lookup_revoke, if_pos rfl] at revoked
    obtain ⟨old, _, rfl⟩ := Option.map_eq_some_iff.mp revoked
    rfl

theorem revokeTenant (kept : GateKept K set errands books draws) (tenant : String) (s : S) :
    K.Safe caller (fun s' _ => ∀ family grant digest, Minted (books s).log family grant digest →
        grant.tenant = tenant → Dead ((books s').state.caps family) grant.capId)
      (SecretBroker.revokeTenant tenant) s := by
  unfold SecretBroker.revokeTenant
  refine kept.safe_call trivial fun s₁ s₂ _ later inv _ _ after => ?_
  refine kept.safe_call trivial fun s₃ s₄ _ later₃ inv₃ _ _ after₄ => ?_
  intro s₅ later₅ _ family grant digest minted covered
  have onward := kept.onward later
  have covered' : decide (grant.tenant = tenant) = true := decide_eq_true covered
  have minted₁ := minted.mono onward.log
  have minted₂ : Minted (books s₂).log family grant digest := by
    rw [after]
    exact minted₁.mono fun _ member => mem_booked.mpr (.inr member)
  have minted₃ := minted₂.mono (kept.onward later₃).log
  have minted₄ : Minted (books s₄).log family grant digest := by
    rw [after₄]
    exact minted₃.mono fun _ member => mem_booked.mpr (.inr member)
  refine (kept.onward later₅).dead family _ minted₄.entered ?_
  cases family with
  | node =>
    have dead₂ : Dead ((books s₂).state.caps .node) grant.capId := by
      rw [after]
      show Dead (Function.update (books s₁).state.caps .node _ .node) _
      rw [Function.update_self]
      exact dead_revokeAll (kept.sound inv) (fun g => g.tenant = tenant) minted₁ covered'
    have dead₃ := (kept.onward later₃).dead .node _ minted₂.entered dead₂
    have last : Onward (books s₃) (books s₄) := by
      rw [after₄]
      exact onward_call trivial
    exact last.dead .node _ minted₃.entered dead₃
  | proxy =>
    rw [after₄]
    show Dead (Function.update (books s₃).state.caps .proxy _ .proxy) _
    rw [Function.update_self]
    exact dead_revokeAll (kept.sound inv₃) (fun g => g.tenant = tenant) minted₃ covered'

theorem shredTenant (kept : GateKept K set errands books draws) (tenant : String) {s : S}
    (fine : K.inv s) :
    K.Safe caller (fun s' _ => ∀ family grant digest, Minted (books s).log family grant digest →
        grant.tenant = tenant → Dead ((books s').state.caps family) grant.capId)
      (SecretBroker.shredTenant tenant) s := by
  unfold SecretBroker.shredTenant
  refine (kept.revokeTenant tenant s).bind fine fun s₁ r later _ dead => ?_
  have stays : ∀ s', K.rely s₁ s' → ∀ family grant digest,
      Minted (books s).log family grant digest → grant.tenant = tenant →
      Dead ((books s').state.caps family) grant.capId := by
    intro s' later' family grant digest minted covered
    refine (kept.onward later').dead family _ ?_ (dead family grant digest minted covered)
    exact (minted.mono (kept.onward later).log).entered
  refine Contract.safe_lift (fun _ _ => ?_) (fun _ _ s' later' _ => stays s' later')
  refine kept.safe_call trivial fun s₂ s₃ _ later₂ _ later₃ _ _ => ?_
  have onto : K.rely s₁ s₃ := K.rely_trans later₂ later₃
  exact Contract.safe_result fun s' later' _ => stays s' (K.rely_trans onto later')

end GateKept

end Gate

end HullCi.Secrets
