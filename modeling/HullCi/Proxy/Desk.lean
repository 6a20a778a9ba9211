/-
**Lookups, registrations and the broker.**

The requests are the proxy's, the service's and the broker's, by any number of threads whose
sections interleave. The `Ledger` is what they share, and every section it has served.

* `InOrder`, `Later` — the broker's books are in order and back what the slots hold; what was minted
  stays minted, and what was revoked stays revoked.
* `safe_credential` — what a lookup returns was asserted again in it, for its tenant and its job.
-/

import HullCi.Proxy.Brokered
import HullCi.Secrets.Vouching

namespace HullCi.Proxy

open HullCi.Base HullCi.Base.Program
open HullCi.Secrets

/-! ### The requests -/

/-- A request to the proxy, to the broker, or to the service between them. -/
inductive Errand where
  | provisionTenant (tenant : String)
  | putSecret (tenant name : String) (value : Bytes)
  | deleteSecret (tenant name : String)
  | mint (req : ProxyCapabilityRequest)
  /-- `ProxyCredentialService::redeem` -/
  | redeem (req : SignedProxyRedemption)
  /-- `SecretBroker::redeem_proxy_capability`, with the proxy it is handed -/
  | redeemAs (token proxyId : String)
  /-- `ProxyCredentialService::reassert` -/
  | reassert (req : ProxyCredentialReassertion)
  /-- `SecretBroker::reassert_proxy_capability` -/
  | reassertAs (token proxyId : String)
  | revoke (capId : CapId)
  | revokeJob (jobId : String)
  | revokeTenant (tenant : String)
  | shredTenant (tenant : String)
  /-- `ProxyRegistry::revoke` -/
  | withdraw (proxyId : String)
  | credential (req : CredentialRequest)
  | authoriseJob (tenant jobId capability : String)
  | denyJob (tenant jobId reason : String)
  | releaseJob (jobId : String)

/-- What such a request returns. -/
inductive Outcome where
  | unit
  | flag (found : Bool)
  | count (n : ℕ)
  | version (version : UInt32)
  | minted (token : String) (grant : Secrets.Grant)
  | granted (grant : Secrets.Grant)
  | delivered (secrets : DeliveredSecrets)
  | credential (answer : Except CredentialError Bytes)

/-- The program of a request. -/
def Errand.body (set : Setting) (identity : ProxyIdentity) : Errand → DeskProg Outcome
  | .provisionTenant tenant => do
    let version ← lift (← request (DeskCall.broker (.vault (.provisionTenant tenant))))
    return .version version
  | .putSecret tenant name value => do
    inBroker (SecretBroker.putSecret set tenant name value)
    return .unit
  | .deleteSecret tenant name => do
    let found ← inBroker (SecretBroker.deleteSecret tenant name)
    return .flag found
  | .mint req => do
    let (token, grant) ← inBroker (SecretBroker.mintProxyCapability set req)
    return .minted token grant
  | .redeem req => do
    let delivered ← inBroker (ProxyCredentialService.redeem set req)
    return .delivered delivered
  | .redeemAs token proxyId => do
    let delivered ← inBroker (SecretBroker.redeemProxyCapability set token proxyId)
    return .delivered delivered
  | .reassert req => do
    inBroker (ProxyCredentialService.reassert set req)
    return .unit
  | .reassertAs token proxyId => do
    let grant ← inBroker (SecretBroker.reassertProxyCapability set token proxyId)
    return .granted grant
  | .revoke capId => do
    let found ← inBroker (SecretBroker.revokeProxyCapability capId)
    return .flag found
  | .revokeJob jobId => do
    let n ← inBroker (SecretBroker.revokeJobProxyCapabilities jobId)
    return .count n
  | .revokeTenant tenant => do
    let n ← inBroker (SecretBroker.revokeTenant tenant)
    return .count n
  | .shredTenant tenant => do
    inBroker (SecretBroker.shredTenant tenant)
    return .unit
  | .withdraw proxyId => do
    let removed ← request (DeskCall.broker (.withdraw .proxy proxyId))
    return .flag removed
  | .credential req => do
    let answer ← BrokeredCredentials.credential set identity req
    return .credential answer
  | .authoriseJob tenant jobId capability => do
    BrokeredCredentials.authoriseJob tenant jobId capability
    return .unit
  | .denyJob tenant jobId reason => do
    BrokeredCredentials.denyJob tenant jobId reason
    return .unit
  | .releaseJob jobId => do
    let removed ← BrokeredCredentials.releaseJob jobId
    return .flag removed

/-! ### The ledger -/

/-- The broker and the slots, and every section they have served. -/
abbrev Ledger := Traced Desk Errand DeskAnswer

/-- A section of the broker's. -/
def brokerEntry : Entry Errand DeskAnswer → Option (Entry Errand BrokerAnswer)
  | ⟨caller, .broker op, answer⟩ => some ⟨caller, op, answer⟩
  | _ => none

/-- The broker's part of the ledger. -/
def Ledger.books (s : Ledger) : Books Errand where
  state := s.state.broker
  log := s.log.filterMap brokerEntry

/-- What the requests ask for. -/
def Errand.errands : Errands Errand where
  puts ask tenant name value := ask = .putSecret tenant name value
  mints ask family grant := ∃ req, (ask = .mint req ∧ family = .proxy) ∧
    Fits req.tenant req.jobId req.proxyId req.declared req.authorClass grant

/-- No key is enrolled as the proxy's. -/
def Absent (s : Ledger) (proxyId : String) : Prop :=
  ∀ key, (s.state.broker.enrolled .proxy).resolve key ≠ some proxyId

/-- What is held was opened from the tenant's rows, on the capability it is held with. -/
def Backed (set : Setting) (log : Log Errand) (tenant token : String)
    (values : List (String × Bytes)) : Prop :=
  ∃ grant digest, parseToken set.digestSecret token = .ok (grant.capId, digest) ∧
    Minted log .proxy grant digest ∧ grant.tenant = tenant ∧
    ∀ nv ∈ values, nv.1 ∈ grant.names ∧ Deposited Errand.errands log tenant nv.1 nv.2

/-- The books are in order, and what the slots hold is backed by them. -/
structure InOrder (set : Setting) (s : Ledger) : Prop where
  books : Sound set.cipher Errand.errands s.books
  held : ∀ (id : ℕ) slot token values, s.state.slots[id]? = some slot →
    slot.state = .held token values → Backed set s.books.log slot.tenant token values

/-- How a later ledger stands to an earlier one. -/
structure Later (s s' : Ledger) : Prop where
  books : Onward s.books s'.books
  log : ∀ e ∈ s.log, e ∈ s'.log
  slots : ∀ (id : ℕ) slot, s.state.slots[id]? = some slot →
    ∃ slot', s'.state.slots[id]? = some slot' ∧ slot'.tenant = slot.tenant
  absent : ∀ proxyId, Absent s proxyId → Absent s' proxyId

/-- What is assumed of a section: an id that is drawn for a capability is a new one, no proxy is
enrolled, and a lock is taken when it is free. -/
def Due (s : Ledger) : DeskCall → Prop
  | .broker (.enrol ..) => False
  | .broker op => Secrets.Fresh s.books.log op
  | .lock id => ∃ slot ∈ s.state.slots[id]?, slot.locked = false
  | _ => True

instance (s : Ledger) : ∀ op, Decidable (Due s op)
  | .broker (.enrol ..) => .isFalse id
  | .broker (.vault _) | .broker .now | .broker .drawToken | .broker (.claim ..)
  | .broker (.reassert ..) | .broker (.revoke ..) | .broker (.revokeTenant ..)
  | .broker (.revokeJob ..) | .broker (.withdraw ..) | .broker (.resolve ..) => .isTrue trivial
  | .broker (.enter family now record) =>
    inferInstanceAs (Decidable (Secrets.Fresh s.books.log (.enter family now record)))
  | .lock id => inferInstanceAs (Decidable (∃ slot ∈ s.state.slots[id]?, slot.locked = false))
  | .drawNonce | .put .. | .remove _ | .slot _ | .unlock .. => .isTrue trivial

/-- The contract of the requests. -/
def desk (set : Setting) : Contract Ledger Errand DeskInput DeskAnswer where
  handle := traced (performDesk set.cipher)
  inv := InOrder set
  rely := Later
  may s _ _ op := Due s op
  rely_refl s := ⟨onward_refl _, fun _ member => member, fun _ slot here => ⟨slot, here, rfl⟩,
    fun _ absent => absent⟩
  rely_trans first second := by
    refine ⟨onward_trans first.books second.books,
      fun e member => second.log _ (first.log e member), fun id slot here => ?_, fun proxyId absent => second.absent _ (first.absent _ absent)⟩
    obtain ⟨slot', here', same⟩ := first.slots id slot here
    obtain ⟨slot'', here'', same'⟩ := second.slots id slot' here'
    exact ⟨slot'', here'', same'.trans same⟩

instance (set : Setting) (s : Ledger) (caller : Caller Errand) (input : DeskInput)
    (op : DeskCall) : Decidable ((desk set).may s caller input op) :=
  inferInstanceAs (Decidable (Due s op))

section Calls

variable {set : Setting} {s : Ledger} {caller : Caller Errand} {input : DeskInput}

/-- The ledger after a section. -/
abbrev filed (set : Setting) (s : Ledger) (caller : Caller Errand) (input : DeskInput)
    (op : DeskCall) : Ledger :=
  (traced (performDesk set.cipher) s caller input op).1

theorem Backed.mono {log log' : Log Errand} {tenant token : String}
    {values : List (String × Bytes)} (backed : Backed set log tenant token values)
    (grows : ∀ e ∈ log, e ∈ log') : Backed set log' tenant token values := by
  obtain ⟨grant, digest, parsed, minted, same, stored⟩ := backed
  exact ⟨grant, digest, parsed, minted.mono grows, same,
    fun nv member => ⟨(stored nv member).1, (stored nv member).2.mono grows⟩⟩

/-- **The step lemma, of the broker's sections.** -/
theorem broker_kept {op : BrokerCall} (permitted : Permitted set.cipher Errand.errands caller op)
    (fine : InOrder set s) (due : Due s (.broker op)) :
    InOrder set (filed set s caller input (.broker op)) ∧
      Later s (filed set s caller input (.broker op)) := by
  have fresh : Secrets.Fresh s.books.log op := by
    cases op with
    | enrol => exact due.elim
    | _ => exact due
  have onward : Onward s.books (booked set.cipher s.books caller input.broker op) :=
    onward_call fresh
  refine ⟨⟨sound_call fine.books permitted fresh, fun id slot token values here held =>
    (fine.held id slot token values here held).mono onward.log⟩, onward,
    fun e member => List.mem_cons_of_mem _ member, fun id slot here => ⟨slot, here, rfl⟩,
    fun proxyId absent key => ?_⟩
  cases op with
  | enrol => exact due.elim
  | withdraw family name =>
    show (Function.update s.state.broker.enrolled family _ .proxy).lookup key ≠ _
    by_cases same : family = .proxy
    · subst same
      rw [Function.update_self]
      intro found
      exact absent key (Table.lookup_of_keep found).1
    · rw [Function.update_of_ne (Ne.symm same)]
      exact absent key
  | _ => exact absent key

/-- The sections of the registry that leave the slots' states alone. -/
theorem quiet_kept {op : DeskCall} (fine : InOrder set s)
    (quiet : brokerEntry ⟨caller, op, (performDesk set.cipher s.state input op).2⟩ = none)
    (broker : (performDesk set.cipher s.state input op).1.broker = s.state.broker)
    (slots : ∀ (id : ℕ) slot, s.state.slots[id]? = some slot →
      ∃ slot', (performDesk set.cipher s.state input op).1.slots[id]? = some slot' ∧
        slot'.tenant = slot.tenant)
    (held : ∀ (id : ℕ) slot token values,
      (performDesk set.cipher s.state input op).1.slots[id]? = some slot →
      slot.state = .held token values → Backed set s.books.log slot.tenant token values) :
    InOrder set (filed set s caller input op) ∧ Later s (filed set s caller input op) := by
  have same : (filed set s caller input op).books = s.books := by
    show Traced.mk _ _ = Traced.mk _ _
    refine congrArg₂ Traced.mk broker ?_
    show List.filterMap brokerEntry (_ :: s.log) = _
    rw [List.filterMap_cons, quiet]
  refine ⟨⟨same ▸ fine.books, fun id slot token values here there => ?_⟩, ?_,
    fun e member => List.mem_cons_of_mem _ member, slots, fun proxyId absent key => ?_⟩
  · rw [same]
    exact held id slot token values here there
  · rw [same]
    exact onward_refl _
  · show ((performDesk set.cipher s.state input op).1.broker.enrolled .proxy).resolve key ≠ _
    rw [broker]
    exact absent key

theorem nonce_kept (fine : InOrder set s) :
    InOrder set (filed set s caller input .drawNonce) ∧
      Later s (filed set s caller input .drawNonce) :=
  quiet_kept fine rfl rfl (fun _ slot here => ⟨slot, here, rfl⟩) fine.held

theorem slot_kept (jobId : String) (fine : InOrder set s) :
    InOrder set (filed set s caller input (.slot jobId)) ∧
      Later s (filed set s caller input (.slot jobId)) :=
  quiet_kept fine rfl rfl (fun _ slot here => ⟨slot, here, rfl⟩) fine.held

theorem remove_kept (jobId : String) (fine : InOrder set s) :
    InOrder set (filed set s caller input (.remove jobId)) ∧
      Later s (filed set s caller input (.remove jobId)) :=
  quiet_kept fine rfl rfl (fun _ slot here => ⟨slot, here, rfl⟩) fine.held

theorem put_kept {tenant jobId : String} {state : JobState}
    (empty : ∀ token values, state ≠ .held token values) (fine : InOrder set s) :
    InOrder set (filed set s caller input (.put tenant jobId state)) ∧
      Later s (filed set s caller input (.put tenant jobId state)) := by
  refine quiet_kept fine rfl rfl (fun id slot here => ⟨slot, ?_, rfl⟩)
    fun id slot token values here held => ?_
  · have bound : id < s.state.slots.length := (List.getElem?_eq_some_iff.mp here).1
    show (s.state.slots ++ _)[id]? = _
    rw [List.getElem?_append_left bound]
    exact here
  · have here : (s.state.slots ++ [({ tenant, state } : JobSlot)])[id]? = some slot := here
    rcases List.mem_append.mp (List.mem_of_getElem? here) with old | new
    · obtain ⟨id', old⟩ := List.getElem?_of_mem old
      exact fine.held id' slot token values old held
    · cases List.mem_singleton.mp new
      exact absurd held (empty token values)

theorem slots_write (s : Desk) (id : ℕ) (f : JobSlot → JobSlot) (id' : ℕ) :
    (s.write id f).slots[id']? =
      if id = id' then (s.slots[id']?).map f else s.slots[id']? := by
  show (s.slots.modify id f)[id']? = _
  rw [List.getElem?_modify]
  split
  · rfl
  · exact Option.map_id'

theorem write_kept {op : DeskCall} (fine : InOrder set s) {id : ℕ} {f : JobSlot → JobSlot}
    (quiet : brokerEntry ⟨caller, op, (performDesk set.cipher s.state input op).2⟩ = none)
    (writes : (performDesk set.cipher s.state input op).1 = s.state.write id f)
    (tenant : ∀ slot, (f slot).tenant = slot.tenant)
    (held : ∀ slot token values, s.state.slots[id]? = some slot →
      (f slot).state = .held token values → Backed set s.books.log slot.tenant token values) :
    InOrder set (filed set s caller input op) ∧ Later s (filed set s caller input op) := by
  refine quiet_kept fine quiet (by rw [writes]; rfl) (fun id' slot here => ?_)
    fun id' slot token values here there => ?_
  · rw [writes, slots_write]
    split
    · exact ⟨f slot, by rw [here]; rfl, tenant slot⟩
    · exact ⟨slot, here, rfl⟩
  · rw [writes, slots_write] at here
    split at here
    · rename_i same
      subst same
      obtain ⟨old, before, rfl⟩ := Option.map_eq_some_iff.mp here
      rw [tenant]
      exact held old token values before there
    · exact fine.held id' slot token values here there

theorem lock_kept (id : ℕ) (fine : InOrder set s) :
    InOrder set (filed set s caller input (.lock id)) ∧
      Later s (filed set s caller input (.lock id)) :=
  write_kept fine rfl rfl (fun _ => rfl) fun slot token values here held =>
    fine.held id slot token values here held

theorem unlock_kept {id : ℕ} {state : JobState} (fine : InOrder set s)
    (backed : ∀ slot token values, s.state.slots[id]? = some slot →
      state = .held token values → Backed set s.books.log slot.tenant token values) :
    InOrder set (filed set s caller input (.unlock id state)) ∧
      Later s (filed set s caller input (.unlock id state)) :=
  write_kept fine rfl rfl (fun _ => rfl) fun slot token values here held =>
    backed slot token values here held

end Calls

/-! ### The broker's programs, at the desk -/

section Broker

variable {set : Setting} {s₀ : Ledger} {first : ℕ}

/-- The contract since `s₀`. -/
abbrev deskSince (set : Setting) (s₀ : Ledger) : Contract Ledger Errand DeskInput DeskAnswer :=
  (desk set).since s₀

/-- Its broker's part. -/
abbrev brokerSince (set : Setting) (s₀ : Ledger) : Contract Ledger Errand DeskInput BrokerAnswer :=
  (deskSince set s₀).pull DeskCall.broker fun _ answer => answer

theorem deskSince_kept :
    GateKept (brokerSince set s₀) set Errand.errands Ledger.books DeskInput.broker where
  sound inv := inv.1.books
  onward later := later.books
  writes _ _ _ _ := rfl
  answers _ _ _ _ := rfl
  keeps {s caller input op} permitted inv due := by
    obtain ⟨fine, later⟩ := broker_kept permitted inv.1 due
    exact ⟨⟨fine, (desk set).rely_trans inv.2 later⟩, later⟩

/-- A section that keeps the ledger in order keeps it so since `s₀`. -/
theorem since_step {s s' : Ledger} (fine : (deskSince set s₀).inv s)
    (kept : InOrder set s' ∧ Later s s') : (deskSince set s₀).inv s' ∧ Later s s' :=
  ⟨⟨kept.1, (desk set).rely_trans fine.2 kept.2⟩, kept.2⟩

end Broker

/-! ### The service and the lookups -/

section Lookups

variable {set : Setting} {s₀ : Ledger} {caller : Caller Errand}

/-- A redemption of the service delivers what its capability was minted for, to the tenant and the
job it was signed for. -/
theorem safe_serviceRedeem (ideal : set.cipher.Ideal) {req : SignedProxyRedemption} {s : Ledger} :
    (brokerSince set s₀).Safe caller (fun s' r => ∀ delivered, r = .ok delivered →
        ∃ grant proxyId, Delivery set Errand.errands s'.books.log caller .proxy req.token proxyId
          grant delivered)
      (ProxyCredentialService.redeem set req) s := by
  unfold ProxyCredentialService.redeem
  refine deskSince_kept.safe_call trivial fun s₁ s₂ clock _ _ _ inv₂ _ => ?_
  have verifying : (brokerSince set s₀).Safe caller (fun _ _ => True)
      (ProxyRegistry.verify set req clock.now) s₂ := by
    unfold ProxyRegistry.verify
    split
    · exact fun _ _ _ => trivial
    split
    · exact fun _ _ _ => trivial
    refine deskSince_kept.safe_call trivial fun s₃ _ input _ _ _ _ _ => ?_
    generalize (performBroker set.cipher s₃.books.state input
      (.resolve .proxy req.publicKey)).2 = found
    cases found with
    | none => exact fun _ _ _ => trivial
    | some proxyId => exact fun _ _ _ => trivial
  refine verifying.bind inv₂ fun s₃ r later₃ inv₃ _ => ?_
  refine Contract.safe_lift (fun proxyId _ => ?_) (fun _ _ _ _ _ _ no => by cases no)
  refine (deskSince_kept.redeemProxy ideal req.token proxyId s₃).bind inv₃
    fun s₄ r' later₄ _ redeemed => ?_
  refine Contract.safe_lift (fun delivered ok' => ?_) (fun _ _ _ _ _ _ no => by cases no)
  obtain ⟨grant, delivery⟩ := redeemed delivered ok'
  split
  · exact fun _ _ _ _ no => by cases no
  split
  · exact fun _ _ _ _ no => by cases no
  intro s₅ later₅ _ delivered' same
  cases same
  exact ⟨grant, proxyId, delivery.mono later₅.books.log⟩

/-- What a reassertion of the service found: the capability alive, bound to the proxy its key was
enrolled as, and to the tenant and the job it was asked for. -/
structure Confirmed (set : Setting) (s : Ledger) (caller : Caller Errand)
    (req : ProxyCredentialReassertion) (grant : Secrets.Grant) : Prop
    extends Vouched set s.books.log caller req.token grant.principal grant where
  resolved : ⟨caller, .resolve .proxy req.publicKey, some grant.principal⟩ ∈ s.books.log
  tenant : grant.tenant = req.tenant
  job : grant.jobId = req.jobId

theorem Confirmed.later {s s' : Ledger} {req : ProxyCredentialReassertion} {grant : Secrets.Grant}
    (confirmed : Confirmed set s caller req grant) (later : Later s s') :
    Confirmed set s' caller req grant where
  toVouched := confirmed.toVouched.mono later.books.log
  resolved := later.books.log _ confirmed.resolved
  tenant := confirmed.tenant
  job := confirmed.job

theorem safe_serviceReassert {req : ProxyCredentialReassertion} {s : Ledger} :
    (brokerSince set s₀).Safe caller (fun s' r => r = .ok () →
        ∃ grant, Confirmed set s' caller req grant)
      (ProxyCredentialService.reassert set req) s := by
  unfold ProxyCredentialService.reassert
  refine deskSince_kept.safe_call trivial fun s₁ s₂ input _ _ _ inv₂ after => ?_
  have entry := GateKept.logged after
  cases found : (s₁.state.broker.enrolled .proxy).resolve req.publicKey with
  | none =>
    have none : (performBroker set.cipher s₁.books.state input
        (.resolve .proxy req.publicKey)).2 = none := found
    rw [none]
    exact fun _ _ _ no => by cases no
  | some proxyId =>
    have some' : (performBroker set.cipher s₁.books.state input
        (.resolve .proxy req.publicKey)).2 = some proxyId := found
    rw [some'] at entry ⊢
    refine (deskSince_kept.reassertProxy req.token proxyId s₂).bind inv₂
      fun s₃ r later₃ _ vouched => ?_
    refine Contract.safe_lift (fun grant ok => ?_) (fun _ _ _ _ _ no => by cases no)
    have vouched := vouched grant ok
    by_cases tenant : grant.tenant ≠ req.tenant
    · rw [if_pos tenant]
      exact fun _ _ _ no => by cases no
    rw [if_neg tenant]
    by_cases job : grant.jobId ≠ req.jobId
    · rw [if_pos job]
      exact fun _ _ _ no => by cases no
    rw [if_neg job]
    intro s₄ later₄ _ _
    obtain rfl : grant.principal = proxyId := vouched.principal
    refine ⟨grant, ?_⟩
    exact {
      vouched.mono later₄.books.log with
      resolved := later₄.books.log _ (later₃.books.log _ entry)
      tenant := not_not.mp tenant
      job := not_not.mp job }

/-- **What is behind a credential**: the slot it came from was registered under the request's
tenant, its capability was asserted again in this same call, for the tenant and the job, and the value was
put in the store for that tenant, under a name of the grant. -/
structure Attested (set : Setting) (identity : ProxyIdentity) (s : Ledger) (caller : Caller Errand)
    (req : CredentialRequest) (value : Bytes) (grant : Secrets.Grant) : Prop where
  registered : ∃ id state, ⟨caller, .slot req.jobId, some (id, req.tenant)⟩ ∈ s.log ∧
    ⟨caller, .lock id, state⟩ ∈ s.log
  confirmed : ∃ token, Confirmed set s caller
    { token, tenant := req.tenant, jobId := req.jobId, publicKey := identity.publicKey } grant
  named : req.secret ∈ grant.names
  deposited : Deposited Errand.errands s.books.log req.tenant req.secret value

/-- What the lookup's first half leaves can be written back. -/
theorem safe_redeemSlot (ideal : set.cipher.Ideal) (identity : ProxyIdentity) {tenant jobId : String}
    {state : JobState} {s : Ledger}
    (backed : ∀ token values, state = .held token values →
      Backed set s.books.log tenant token values) :
    (deskSince set s₀).Safe caller (fun s' r => ∃ state', r = .ok state' ∧
        ∀ token values, state' = .held token values → Backed set s'.books.log tenant token values)
      (BrokeredCredentials.redeem set identity tenant jobId state) s := by
  have stays : ∀ s', Later s s' → ∀ token values, state = .held token values →
      Backed set s'.books.log tenant token values := fun s' later token values held =>
    (backed token values held).mono later.books.log
  cases state with
  | pending token =>
    unfold BrokeredCredentials.redeem
    refine Contract.safe_kept (fun s' input fine due => ?_) fun s₁ input _ _ _ _ _ => ?_
    · exact since_step fine (broker_kept trivial fine.1 due)
    refine Contract.safe_kept (fun s' input fine _ => ?_) fun s₂ input _ _ _ _ fine₂ => ?_
    · exact since_step fine (nonce_kept fine.1)
    refine (Contract.safe_attempt (Contract.Safe.embed (safe_serviceRedeem ideal))).bind fine₂
      fun s₃ r _ _ outcome => ?_
    obtain ⟨result, rfl, delivers⟩ := outcome
    cases result with
    | error e => exact fun _ _ _ => ⟨_, rfl, fun _ _ no => by cases no⟩
    | ok delivered =>
      show (deskSince set s₀).Safe caller _ (if _ then _ else _) s₃
      by_cases other : delivered.tenant ≠ tenant ∨ delivered.jobId ≠ jobId
      · rw [if_pos other]
        exact fun _ _ _ => ⟨_, rfl, fun _ _ no => by cases no⟩
      rw [if_neg other]
      intro s₄ later₄ _
      refine ⟨_, rfl, fun token' values same => ?_⟩
      cases same
      obtain ⟨grant, proxyId, delivery⟩ := delivers delivered rfl
      obtain ⟨digest, _, parsed, minted, _⟩ := delivery.token
      have tenants : grant.tenant = tenant :=
        delivery.tenant.symm.trans (not_not.mp (not_or.mp other).1)
      have ready : Backed set s₃.books.log tenant token delivered.values := by
        refine ⟨grant, digest, parsed, minted, tenants, fun nv member => ?_⟩
        rw [← tenants]
        exact delivery.values nv member
      exact ready.mono later₄.books.log
  | held token values => exact fun s' later _ => ⟨_, rfl, stays s' later⟩
  | noAuthority reason => exact fun s' later _ => ⟨_, rfl, stays s' later⟩
  | failed detail => exact fun s' later _ => ⟨_, rfl, stays s' later⟩
  | invalidated detail => exact fun s' later _ => ⟨_, rfl, stays s' later⟩

/-- What the second half leaves was asserted in it, if it is held. -/
theorem safe_reassertSlot (identity : ProxyIdentity) {tenant jobId : String} {state : JobState}
    {s : Ledger} (fine : (deskSince set s₀).inv s)
    (backed : ∀ token values, state = .held token values →
      Backed set s.books.log tenant token values) :
    (deskSince set s₀).Safe caller (fun s' r => ∃ state', r = .ok state' ∧
        ∀ token values, state' = .held token values →
          Backed set s'.books.log tenant token values ∧
          ∃ grant, Confirmed set s' caller
            { token, tenant, jobId, publicKey := identity.publicKey } grant)
      (BrokeredCredentials.reassert set identity tenant jobId state) s := by
  cases state with
  | held token values =>
    unfold BrokeredCredentials.reassert
    refine (Contract.safe_attempt (Contract.Safe.embed safe_serviceReassert)).bind fine
      fun s₁ r later₁ _ outcome => ?_
    obtain ⟨result, rfl, confirms⟩ := outcome
    cases result with
    | error e => exact fun _ _ _ => ⟨_, rfl, fun _ _ no => by cases no⟩
    | ok _ =>
      intro s₂ later₂ _
      refine ⟨_, rfl, fun token' values' same => ?_⟩
      cases same
      obtain ⟨grant, confirmed⟩ := confirms rfl
      refine ⟨(backed token values rfl).mono fun e member =>
        later₂.books.log _ (later₁.books.log _ member), grant, confirmed.later later₂⟩
  | _ => exact fun _ _ _ => ⟨_, rfl, fun _ _ no => by cases no⟩

theorem answer_ok {req : CredentialRequest} {state : JobState} {value : Bytes}
    (ok : BrokeredCredentials.answer req state = .ok value) :
    ∃ token values, state = .held token values ∧ (req.secret, value) ∈ values := by
  cases state with
  | held token values =>
    refine ⟨token, values, rfl, ?_⟩
    simp only [BrokeredCredentials.answer] at ok
    split at ok
    · next found =>
      cases ok
      obtain ⟨front, back, rfl, _⟩ := List.lookup_eq_some_iff.mp found
      simp
    · cases ok
  | _ => cases ok

theorem slot_found {cipher : Cipher} {s : Desk} {input : DeskInput} {jobId tenant : String} {id : ℕ}
    (found : (performDesk cipher s input (.slot jobId)).2 = some (id, tenant)) :
    ∃ slot, s.slots[id]? = some slot ∧ slot.tenant = tenant := by
  obtain ⟨id', _, rest⟩ := Option.bind_eq_some_iff.mp found
  obtain ⟨slot, here, same⟩ := Option.bind_eq_some_iff.mp rest
  cases same
  exact ⟨slot, here, rfl⟩

/-- **What a lookup returns has been attested.** -/
theorem safe_credential (ideal : set.cipher.Ideal) (identity : ProxyIdentity)
    {req : CredentialRequest} {s : Ledger} :
    (deskSince set s₀).Safe caller (fun s' r => ∀ value, r = .ok (.ok value) →
        ∃ grant, Attested set identity s' caller req value grant)
      (BrokeredCredentials.credential set identity req) s := by
  unfold BrokeredCredentials.credential
  refine Contract.safe_kept (fun s' input fine _ => ?_) fun s₁ input _ fine₁ _ after fine₂ => ?_
  · exact since_step fine (slot_kept req.jobId fine.1)
  have entry : ⟨caller, .slot req.jobId, (performDesk set.cipher s₁.state input
      (.slot req.jobId)).2⟩ ∈ (filed set s₁ caller input (.slot req.jobId)).log :=
    List.mem_cons_self
  cases found : (performDesk set.cipher s₁.state input (.slot req.jobId)).2 with
  | none =>
    have none' : ((deskSince set s₀).handle s₁ caller input (.slot req.jobId)).2 = none := found
    rw [none']
    exact fun _ _ _ _ no => by cases no
  | some pair =>
    obtain ⟨id, tenant⟩ := pair
    have some' : ((deskSince set s₀).handle s₁ caller input (.slot req.jobId)).2 =
      some (id, tenant) := found
    rw [found] at entry
    rw [some']
    obtain ⟨slot, here, rfl⟩ : ∃ slot, s₁.state.slots[id]? = some slot ∧ slot.tenant = tenant :=
      slot_found found
    by_cases other : slot.tenant ≠ req.tenant
    · show (deskSince set s₀).Safe caller _ (if _ then _ else _) _
      rw [if_pos other]
      exact fun _ _ _ _ no => by cases no
    show (deskSince set s₀).Safe caller _ (if _ then _ else _) _
    rw [if_neg other]
    refine Contract.safe_kept (fun s' input fine _ => ?_)
      fun s₃ input₃ later₃ fine₃ _ after₃ fine₄ => ?_
    · exact since_step fine (lock_kept id fine.1)
    obtain ⟨slot₃, here₃, tenants₃⟩ := ((desk set).rely_trans after later₃).slots id slot here
    have backed : ∀ token values,
        ((deskSince set s₀).handle s₃ caller input₃ (.lock id)).2 = .held token values →
        Backed set (filed set s₃ caller input₃ (.lock id)).books.log slot.tenant token values := by
      intro token values held
      have state : slot₃.state = .held token values := by
        have read : ((s₃.state.slots[id]?).map JobSlot.state).getD (.failed "") =
          .held token values := held
        rw [here₃] at read
        exact read
      have before := fine₃.1.held id slot₃ token values here₃ state
      rw [tenants₃] at before
      exact before.mono after₃.books.log
    refine (safe_redeemSlot ideal identity backed).bind fine₄ fun s₅ r later₅ fine₅ spent => ?_
    obtain ⟨spent, rfl, backed₅⟩ := spent
    refine (safe_reassertSlot identity fine₅ backed₅).bind fine₅ fun s₆ r later₆ fine₆ left => ?_
    obtain ⟨left, rfl, held₆⟩ := left
    intro s₇ later₇ fine₇ input₇ _
    have lasts : ∀ token values, left = .held token values →
        Backed set s₇.books.log slot.tenant token values := fun token values same =>
      (held₆ token values same).1.mono later₇.books.log
    have upTo : Later (filed set s₁ caller input (.slot req.jobId)) s₇ :=
      (desk set).rely_trans later₃ ((desk set).rely_trans after₃
        ((desk set).rely_trans later₅ ((desk set).rely_trans later₆ later₇)))
    have written : InOrder set (filed set s₇ caller input₇ (.unlock id left)) ∧
        Later s₇ (filed set s₇ caller input₇ (.unlock id left)) := by
      refine unlock_kept fine₇.1 fun slot₇ token values here₇ same => ?_
      obtain ⟨slot', here', tenants'⟩ := upTo.slots id slot here
      rw [here₇] at here'
      cases here'
      rw [tenants']
      exact lasts token values same
    refine ⟨⟨written.1, (desk set).rely_trans fine₇.2 written.2⟩, written.2, ?_⟩
    intro s₈ later₈ _ value same
    have onto : Later s₇ s₈ := (desk set).rely_trans written.2 later₈
    have tenants : slot.tenant = req.tenant := not_not.mp other
    have answered : BrokeredCredentials.answer req left = .ok value := Except.ok.inj same
    obtain ⟨token, values, rfl, listed⟩ := answer_ok answered
    obtain ⟨backing, grant, confirmed⟩ := held₆ token values rfl
    -- what was held and what was asserted are of one token, so of one grant
    have confirmed' := confirmed.later ((desk set).rely_trans later₇ onto)
    obtain ⟨grant', digest', parsed', minted', _, stored⟩ := backing
    obtain ⟨digest, _, parsed, minted, _⟩ := confirmed.token
    rw [parsed] at parsed'
    have ids : grant.capId = grant'.capId := congrArg Prod.fst (Except.ok.inj parsed')
    obtain ⟨rfl, _⟩ := fine₆.1.books.unique .proxy _ _ _ _ minted minted' ids
    obtain ⟨named, deposited⟩ := stored _ listed
    refine ⟨grant, ?_⟩
    rw [tenants] at deposited confirmed' entry
    exact {
      registered := ⟨id, _, onto.log _ (upTo.log _ entry), onto.log _ (later₇.log _ (later₆.log _
        (later₅.log _ List.mem_cons_self)))⟩
      confirmed := ⟨token, confirmed'⟩
      named
      deposited := deposited.mono fun e member => onto.books.log _ (later₇.books.log _ member) }

end Lookups

end HullCi.Proxy
