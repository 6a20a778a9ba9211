/-
**What a capability can still do, whatever the order of the calls.**

The requests are the broker's and the service's: secrets are stored and deleted, capabilities minted,
redeemed and revoked, nodes enrolled and withdrawn, tenants shredded, by any number of threads whose
sections interleave.

* `Authorised` — what is behind a delivery: the capability, the node, the job, the time, the names,
  and where the values came from.
* `Unspent` — a redemption that is refused before its capability is claimed changed nothing.
* `capability_safety` — all of it, of every run.
-/

import HullCi.Secrets.Gate

namespace HullCi.Secrets

open HullCi.Base HullCi.Base.Program

/-! ### The requests -/

/-- A request to the broker, to the service before it, or to the enrolment table. -/
inductive Ask where
  | provisionTenant (tenant : String)
  | putSecret (tenant name : String) (value : Bytes)
  | deleteSecret (tenant name : String)
  | mint (req : CapabilityRequest)
  /-- `SecretService::redeem` -/
  | redeem (req : SignedRedemption)
  /-- `SecretBroker::redeem`, with the node it is handed -/
  | redeemAs (token nodeId : String) (requested : List String)
  | revoke (capId : CapId)
  | revokeTenant (tenant : String)
  | shredTenant (tenant : String)
  | enrol (nodeId : String) (key : NodePublicKey)
  | withdraw (nodeId : String)

/-- What such a request returns. -/
inductive Told where
  | unit
  | flag (found : Bool)
  | count (n : ℕ)
  | version (version : UInt32)
  | minted (token : String) (grant : Grant)
  | delivered (secrets : DeliveredSecrets)

/-- The program of a request. -/
def Ask.body (set : Setting) : Ask → BrokerProg Told
  | .provisionTenant tenant => do
    let version ← lift (← request (BrokerCall.vault (Call.provisionTenant tenant)))
    return .version version
  | .putSecret tenant name value => do
    SecretBroker.putSecret set tenant name value
    return .unit
  | .deleteSecret tenant name => do
    let found ← SecretBroker.deleteSecret tenant name
    return .flag found
  | .mint req => do
    let (token, grant) ← SecretBroker.mint set req
    return .minted token grant
  | .redeem req => do
    let delivered ← SecretService.redeem set req
    return .delivered delivered
  | .redeemAs token nodeId requested => do
    let delivered ← SecretBroker.redeem set token nodeId requested
    return .delivered delivered
  | .revoke capId => do
    let found ← SecretBroker.revoke capId
    return .flag found
  | .revokeTenant tenant => do
    let n ← SecretBroker.revokeTenant tenant
    return .count n
  | .shredTenant tenant => do
    SecretBroker.shredTenant tenant
    return .unit
  | .enrol nodeId key => do
    lift (← request (BrokerCall.enrol .node nodeId key))
    return .unit
  | .withdraw nodeId => do
    let removed ← request (BrokerCall.withdraw .node nodeId)
    return .flag removed

/-- The threads of the requests, and the books they share. -/
abbrev Callers := Pool (Books Ask) Ask BrokerAnswer SecretError Told

/-- One turn of the callers. -/
abbrev Callers.step (set : Setting) (p : Callers) (t : Turn Ask BrokerInput) : Callers :=
  Pool.step (traced (performBroker set.cipher)) (Ask.body set) p t

/-- No tenant, no capability, no node, no thread. -/
def Callers.start : Callers :=
  Pool.idle Books.new

/-- The state after a list of turns. -/
abbrev Callers.after (set : Setting) (turns : List (Turn Ask BrokerInput)) : Callers :=
  run (Callers.step set) Callers.start turns

/-- What the requests ask for. -/
def Ask.errands : Errands Ask where
  puts ask tenant name value := ask = .putSecret tenant name value
  mints ask family grant := ∃ req, (ask = .mint req ∧ family = .node) ∧
    Fits req.tenant req.jobId req.nodeId req.declared req.authorClass grant

/-- The contract of the callers: an id that is drawn for a capability is a new one. -/
def gate (set : Setting) : Contract (Books Ask) Ask BrokerInput BrokerAnswer where
  handle := traced (performBroker set.cipher)
  inv := Sound set.cipher Ask.errands
  rely := Onward
  may s _ _ op := Fresh s.log op
  rely_refl := onward_refl
  rely_trans := onward_trans

instance (set : Setting) (s : Books Ask) (caller : Caller Ask) (input : BrokerInput)
    (op : BrokerCall) : Decidable ((gate set).may s caller input op) :=
  inferInstanceAs (Decidable (Fresh s.log op))

/-- What is assumed of a turn: an id that is drawn for a capability is a new one. -/
abbrev Callers.Admits (set : Setting) : Callers → Turn Ask BrokerInput → Prop :=
  (gate set).Admits fun _ _ => True

/-! ### What the threads return -/

/-- **What is behind a delivery of the service**: that of the broker, to the node whose key signed
the request, as it was enrolled then, and for the job it named. -/
structure Authorised (set : Setting) (log : Log Ask) (caller : Caller Ask)
    (req : SignedRedemption) (grant : Grant) (delivered : DeliveredSecrets) : Prop
    extends Delivery set Ask.errands log caller .node req.token grant.principal grant delivered
    where
  signed : set.verifies req.publicKey req.payload req.signature = true
  fresh : ∃ now, ⟨caller, .now, now⟩ ∈ log ∧ absDiff now req.issuedAt ≤ maxSkewSecs
  enrolled : ⟨caller, .resolve .node req.publicKey, some grant.principal⟩ ∈ log
  job : grant.jobId = req.jobId

section Posts

variable (set : Setting) (s₀ : Books Ask) (first : ℕ)

/-- The capability could be redeemed at some moment since `s₀`, if the caller came after it. -/
def AliveSince (caller : Caller Ask) (capId : CapId) : Prop :=
  first ≤ caller.thread → ∃ s, Onward s₀ s ∧ ¬ Dead (s.state.caps .node) capId

/-- Every capability of the tenant that was minted by `s₀` is dead, if the caller came after it. -/
def TenantDead (caller : Caller Ask) (tenant : String) (s : Books Ask) : Prop :=
  first ≤ caller.thread → ∀ family grant digest, Minted s₀.log family grant digest →
    grant.tenant = tenant → Dead (s.state.caps family) grant.capId

/-- What a thread returns, by its request. -/
def Returns (caller : Caller Ask) (s : Books Ask) (r : Except SecretError Told) : Prop :=
  match caller.request with
  | .mint _ => ∀ token grant, r = .ok (.minted token grant) →
      ∃ digest, Minted s.log .node grant digest
  | .redeem req => ∀ delivered, r = .ok (.delivered delivered) → ∃ grant,
      Authorised set s.log caller req grant delivered ∧ AliveSince s₀ first caller grant.capId
  | .redeemAs token nodeId _ => ∀ delivered, r = .ok (.delivered delivered) → ∃ grant,
      Delivery set Ask.errands s.log caller .node token nodeId grant delivered ∧
        AliveSince s₀ first caller grant.capId
  | .revoke capId => first ≤ caller.thread → capId ∈ entered s₀.log .node →
      Dead (s.state.caps .node) capId
  | .revokeTenant tenant => TenantDead s₀ first caller tenant s
  | .shredTenant tenant => TenantDead s₀ first caller tenant s
  | _ => True

/-- The contract since `s₀`. -/
abbrev gateSince : Contract (Books Ask) Ask BrokerInput BrokerAnswer :=
  (gate set).since s₀

variable {set s₀ first}

theorem Authorised.mono {log log' : Log Ask} {caller : Caller Ask} {req : SignedRedemption}
    {grant : Grant} {delivered : DeliveredSecrets}
    (behind : Authorised set log caller req grant delivered) (grows : ∀ e ∈ log, e ∈ log') :
    Authorised set log' caller req grant delivered where
  toDelivery := behind.toDelivery.mono grows
  signed := behind.signed
  fresh := by
    obtain ⟨now, read, near⟩ := behind.fresh
    exact ⟨now, grows _ read, near⟩
  enrolled := grows _ behind.enrolled
  job := behind.job

theorem gateSince_kept : GateKept (gateSince set s₀) set Ask.errands (fun s => s) fun i => i where
  sound inv := inv.1
  onward later := later
  writes _ _ _ _ := rfl
  answers _ _ _ _ := rfl
  keeps {s caller input op} permitted inv fresh := by
    have later : Onward s (booked set.cipher s caller input op) := onward_call fresh
    exact ⟨⟨sound_call inv.1 permitted fresh, onward_trans inv.2 later⟩, later⟩

/-- Verifying a signed request: the principal is the one its key is enrolled as. -/
theorem safe_verify {caller : Caller Ask} {req : SignedRedemption} {now : ℕ} {s : Books Ask} :
    (gateSince set s₀).Safe caller (fun s' r => ∀ nodeId, r = .ok nodeId →
        set.verifies req.publicKey req.payload req.signature = true ∧
        absDiff now req.issuedAt ≤ maxSkewSecs ∧
        ⟨caller, .resolve .node req.publicKey, some nodeId⟩ ∈ s'.log)
      (req.verify set now) s := by
  unfold SignedRedemption.verify
  by_cases signed : set.verifies req.publicKey req.payload req.signature = false
  · rw [if_pos signed]
    exact fun _ _ _ _ no => by cases no
  rw [if_neg signed]
  by_cases stale : maxSkewSecs < absDiff now req.issuedAt
  · rw [if_pos stale]
    exact fun _ _ _ _ no => by cases no
  rw [if_neg stale]
  refine gateSince_kept.safe_call trivial fun s₁ s₂ input _ _ _ _ after => ?_
  have entry := GateKept.logged after
  cases found : (s₁.state.enrolled .node).resolve req.publicKey with
  | none =>
    simp only [performBroker, found]
    exact fun _ _ _ _ no => by cases no
  | some node =>
    simp only [performBroker, found] at entry ⊢
    intro s₃ later _ nodeId same
    cases same
    exact ⟨by simpa using signed, by omega, later.log _ entry⟩

variable (first) in
theorem safe_redeem (ideal : set.cipher.Ideal) {caller : Caller Ask} {req : SignedRedemption}
    {s : Books Ask} :
    (gateSince set s₀).Safe caller (fun s' r => ∀ delivered, r = .ok delivered → ∃ grant,
        Authorised set s'.log caller req grant delivered ∧ AliveSince s₀ first caller grant.capId)
      (SecretService.redeem set req) s := by
  unfold SecretService.redeem
  refine gateSince_kept.safe_call trivial fun s₁ s₂ clock _ _ _ inv₂ after => ?_
  have read : ⟨caller, .now, clock.now⟩ ∈ s₂.log := GateKept.logged after
  refine safe_verify.bind inv₂ fun s₃ r later₃ inv₃ verified => ?_
  refine Contract.safe_lift (fun nodeId ok => ?_) (fun _ _ _ _ _ _ no => by cases no)
  obtain ⟨signed, fresh, resolved⟩ := verified nodeId ok
  refine (gateSince_kept.redeem ideal req.token nodeId req.requested s₃).bind inv₃
    fun s₄ r' later₄ _ redeemed => ?_
  refine Contract.safe_lift (fun delivered ok' => ?_) (fun _ _ _ _ _ _ no => by cases no)
  obtain ⟨grant, delivery, s', inv', alive⟩ := redeemed delivered ok'
  by_cases job : delivered.jobId ≠ req.jobId
  · rw [if_pos job]
    exact fun _ _ _ _ no => by cases no
  rw [if_neg job]
  intro s₅ later₅ _ delivered' same
  cases same
  obtain rfl : grant.principal = nodeId := delivery.principal
  refine ⟨grant, ?_, fun _ => ⟨s', inv'.2, alive⟩⟩
  exact {
    delivery.mono later₅.log with
    signed := signed
    fresh := ⟨clock.now, later₅.log _ (later₄.log _ (later₃.log _ read)), fresh⟩
    enrolled := later₅.log _ (later₄.log _ resolved)
    job := delivery.jobId ▸ not_not.mp job }

/-- **Every request's program is safe.** -/
theorem safe_ask (ideal : set.cipher.Ideal) (caller : Caller Ask) {s : Books Ask}
    (inv : (gateSince set s₀).inv s) :
    (gateSince set s₀).Safe caller (Returns set s₀ first caller) (caller.request.body set) s := by
  obtain ⟨thread, ask⟩ := caller
  cases ask with
  | provisionTenant tenant =>
    refine gateSince_kept.safe_call trivial fun _ _ _ _ _ _ _ _ => ?_
    exact Contract.safe_lift (fun _ _ _ _ _ => trivial) (fun _ _ _ _ _ => trivial)
  | putSecret tenant name value =>
    have asked : Ask.errands.puts (.putSecret tenant name value) tenant name value := rfl
    have storing : (gateSince set s₀).Safe ⟨thread, .putSecret tenant name value⟩ _ _ s :=
      gateSince_kept.putSecret asked inv
    refine storing.bind inv fun _ _ _ _ _ => ?_
    exact Contract.safe_lift (fun _ _ _ _ _ => trivial) (fun _ _ _ _ _ => trivial)
  | deleteSecret tenant name =>
    exact gateSince_kept.safe_call trivial fun _ _ _ _ _ _ _ _ _ _ _ => trivial
  | mint req =>
    refine (gateSince_kept.mint fun grant fits => ⟨req, ⟨rfl, rfl⟩, fits⟩).bind inv
      fun s₁ r _ _ minted => ?_
    refine Contract.safe_lift (fun made ok s₂ later _ token grant same => ?_)
      (fun _ _ _ _ _ _ _ no => by cases no)
    cases same
    obtain ⟨digest, held⟩ := minted made ok
    exact ⟨digest, held.mono later.log⟩
  | redeem req =>
    refine (safe_redeem first ideal).bind inv fun s₁ r _ _ authorised => ?_
    refine Contract.safe_lift (fun made ok s₂ later _ delivered same => ?_)
      (fun _ _ _ _ _ _ no => by cases no)
    cases same
    obtain ⟨grant, behind, alive⟩ := authorised made ok
    exact ⟨grant, behind.mono later.log, alive⟩
  | redeemAs token nodeId requested =>
    refine (gateSince_kept.redeem ideal token nodeId requested s).bind inv
      fun s₁ r _ _ redeemed => ?_
    refine Contract.safe_lift (fun made ok s₂ later _ delivered same => ?_)
      (fun _ _ _ _ _ _ no => by cases no)
    cases same
    obtain ⟨grant, delivery, s', inv', alive⟩ := redeemed made ok
    exact ⟨grant, delivery.mono later.log, fun _ => ⟨s', inv'.2, alive⟩⟩
  | revoke capId =>
    refine (gateSince_kept.revoke .node capId s).bind inv fun s₁ r later _ dead => ?_
    have stays : ∀ s₂, Onward s₁ s₂ → first ≤ thread → capId ∈ entered s₀.log .node →
        Dead (s₂.state.caps .node) capId := fun s₂ later₂ _ minted => by
      have minted' := entered_mono inv.2.log minted
      exact later₂.dead .node capId (entered_mono later.log minted') (dead minted')
    exact Contract.safe_lift (fun _ _ s₂ later₂ _ => stays s₂ later₂)
      (fun _ _ s₂ later₂ _ => stays s₂ later₂)
  | revokeTenant tenant =>
    refine (gateSince_kept.revokeTenant tenant s).bind inv fun s₁ r later _ dead => ?_
    have stays : ∀ s₂, Onward s₁ s₂ → TenantDead s₀ first ⟨thread, .revokeTenant tenant⟩ tenant s₂ :=
      fun s₂ later₂ _ family grant digest minted covered => by
        have minted' := minted.mono inv.2.log
        exact later₂.dead family _ (minted'.mono later.log).entered
          (dead family grant digest minted' covered)
    exact Contract.safe_lift (fun _ _ s₂ later₂ _ => stays s₂ later₂)
      (fun _ _ s₂ later₂ _ => stays s₂ later₂)
  | shredTenant tenant =>
    refine (gateSince_kept.shredTenant tenant inv).bind inv fun s₁ r later _ dead => ?_
    have stays : ∀ s₂, Onward s₁ s₂ → TenantDead s₀ first ⟨thread, .shredTenant tenant⟩ tenant s₂ :=
      fun s₂ later₂ _ family grant digest minted covered => by
        have minted' := minted.mono inv.2.log
        exact later₂.dead family _ (minted'.mono later.log).entered
          (dead family grant digest minted' covered)
    exact Contract.safe_lift (fun _ _ s₂ later₂ _ => stays s₂ later₂)
      (fun _ _ s₂ later₂ _ => stays s₂ later₂)
  | enrol nodeId key =>
    refine gateSince_kept.safe_call trivial fun _ _ _ _ _ _ _ _ => ?_
    exact Contract.safe_lift (fun _ _ _ _ _ => trivial) (fun _ _ _ _ _ => trivial)
  | withdraw nodeId =>
    exact gateSince_kept.safe_call trivial fun _ _ _ _ _ _ _ _ _ _ _ => trivial

theorem Returns.rebase {caller : Caller Ask} {s₁ s : Books Ask} {first' : ℕ}
    (old : caller.thread < first') {r : Except SecretError Told}
    (returns : Returns set s₀ first caller s r) : Returns set s₁ first' caller s r := by
  obtain ⟨thread, ask⟩ := caller
  have past : ∀ {P : Prop}, first' ≤ thread → P := fun young => absurd old (by simpa using young)
  cases ask with
  | mint req => exact returns
  | redeem req =>
    intro delivered same
    obtain ⟨grant, behind, _⟩ := returns delivered same
    exact ⟨grant, behind, past⟩
  | redeemAs token nodeId requested =>
    intro delivered same
    obtain ⟨grant, delivery, _⟩ := returns delivered same
    exact ⟨grant, delivery, past⟩
  | revoke capId => exact past
  | revokeTenant tenant => exact past
  | shredTenant tenant => exact past
  | _ => trivial

end Posts

/-! ### Redemptions that are refused before the claim -/

/-- The refusals that come before a capability is claimed. -/
def SecretError.early : SecretError → Prop
  | .badNodeSignature | .staleRedemption _ | .unenrolledNode _ | .badCapability
  | .capabilityExpired | .wrongNode => True
  | _ => False

/-- The request redeems a capability. -/
def Ask.redeems : Ask → Prop
  | .redeem _ | .redeemAs .. => True
  | _ => False

section Spares

variable {set : Setting}

theorem withKek_late {keys : DevKeyManager} {tenant : String} {version : UInt32}
    {e : SecretError} (failed : keys.withKek tenant version = .error e) : ¬ e.early := by
  unfold DevKeyManager.withKek at failed
  split at failed
  · cases failed
    exact id
  · split at failed
    · cases failed
      exact id
    · cases failed

theorem aeadOpen_late {cipher : Cipher} {key : Dek} {blob aad : Bytes} {e : SecretError}
    (failed : aeadOpen cipher key blob aad = .error e) : ¬ e.early := by
  unfold aeadOpen at failed
  split at failed
  · split at failed
    · cases failed
      exact id
    · cases failed
  · cases failed
    exact id

theorem unwrapDek_late {keys : DevKeyManager} {cipher : Cipher} {tenant : String}
    {version : UInt32} {wrapped aad : Bytes} {e : SecretError}
    (failed : keys.unwrapDek cipher tenant version wrapped aad = .error e) : ¬ e.early := by
  unfold DevKeyManager.unwrapDek at failed
  cases found : keys.withKek tenant version with
  | error e' =>
    rw [found] at failed
    cases failed
    exact withKek_late found
  | ok kek =>
    rw [found] at failed
    cases opened : aeadOpen cipher kek wrapped aad with
    | error e' =>
      have same : (aeadOpen cipher kek wrapped aad >>= Dek.fromBytes) = .error e := failed
      rw [opened] at same
      cases same
      exact aeadOpen_late opened
    | ok plain =>
      have same : (aeadOpen cipher kek wrapped aad >>= Dek.fromBytes) = .error e := failed
      rw [opened] at same
      have cut : Dek.fromBytes plain = .error e := same
      unfold Dek.fromBytes at cut
      split at cut
      · cases cut
      · cases cut
        exact id

/-- Opening what a capability covers never ends in an early refusal. -/
theorem openAll_avoids (tenant : String) (wanted : List String) :
    Avoids (performBroker set.cipher) SecretError.early (openAll set tenant wanted) := by
  induction wanted with
  | nil => trivial
  | cons name wanted ih =>
    unfold openAll
    simp only [bind_request]
    intro b input
    cases found : b.vaults.rows.get tenant name with
    | none =>
      simp only [performBroker, perform, found]
      exact id
    | some sealed =>
      simp only [performBroker, perform, found]
      refine Avoids.bind ?_ fun plaintext => ?_
      swap
      · refine Avoids.bind ih ?_
        exact fun _ => trivial
      unfold inVault Vault.openAs
      split
      · exact id
      · intro b' input'
        cases unwrapped : b'.vaults.keys.unwrapDek set.cipher tenant sealed.kekVersion
            sealed.wrappedDek (wrapAad tenant name sealed.kekVersion) with
        | error e =>
          simp only [performBroker, perform, unwrapped]
          exact unwrapDek_late unwrapped
        | ok dek =>
          simp only [performBroker, perform, unwrapped]
          show Avoids _ _ (inVault (lift (aeadOpen set.cipher dek sealed.ciphertext
            (valueAad tenant name))))
          cases opened : aeadOpen set.cipher dek sealed.ciphertext (valueAad tenant name) with
          | error e =>
            exact aeadOpen_late opened
          | ok plaintext =>
            trivial

theorem redeem_spares (token nodeId : String) (requested : List String) :
    Spares (performBroker set.cipher) SecretError.early
      (SecretBroker.redeem set token nodeId requested) := by
  unfold SecretBroker.redeem
  refine spares_lift fun parsed _ => ?_
  obtain ⟨id, digest⟩ := parsed
  refine fun b₀ clock => ⟨.inl rfl, ?_⟩
  obtain ⟨now, read⟩ : ∃ now : ℕ, (performBroker set.cipher b₀ clock .now).2 = now := ⟨_, rfl⟩
  rw [read]
  intro b input
  have claimed : (performBroker set.cipher b input (.claim .node id digest nodeId now)).2 =
      ((b.caps .node).claim .wrongNode id digest nodeId now).2 := rfl
  cases made : (b.caps .node).claim .wrongNode id digest nodeId now with
  | mk caps' answer =>
    rw [made] at claimed
    cases answer with
    | error e =>
      obtain rfl := CapRegistry.claim_error made
      refine ⟨.inl ?_, ?_⟩
      · show { b with caps := Function.update b.caps .node ((b.caps .node).claim _ _ _ _ _).1 } = b
        rw [show Family.wrong .node = .wrongNode from rfl, made, Function.update_eq_self]
      · rw [claimed]
        trivial
    | ok grant =>
      -- once the claim is answered, no early refusal is left
      have avoids : Avoids (performBroker set.cipher) SecretError.early
          (if mayReceiveSecrets grant.authorClass = false then fail .outsiderRefused
          else do
            let wanted ← lift (wantedNames grant.names requested)
            let values ← openAll set grant.tenant wanted
            return ({ tenant := grant.tenant, jobId := grant.jobId, values } :
              DeliveredSecrets)) := by
        split
        · exact fun early => early
        · refine avoids_lift (fun e failed => ?_) fun wanted _ => ?_
          swap
          · refine Avoids.bind (openAll_avoids _ _) ?_
            exact fun _ => trivial
          unfold wantedNames at failed
          split at failed
          · cases failed
          · split at failed
            · cases failed
              exact fun early => early
            · cases failed
      rw [claimed]
      exact ⟨.inr avoids, avoids.spares⟩

theorem ask_spares (ask : Ask) :
    Spares (performBroker set.cipher) (fun e => ask.redeems ∧ e.early) (ask.body set) := by
  have others : ¬ ask.redeems → Spares (performBroker set.cipher)
      (fun e => ask.redeems ∧ e.early) (ask.body set) := fun not =>
    (avoids_none (fun _ kind => not kind.1) _).spares
  cases ask with
  | redeem req =>
    refine Spares.mono (?_ : Spares _ SecretError.early _) fun _ kind => kind.2
    refine Spares.bind ?_ ?_
    swap
    · exact fun _ => trivial
    unfold SecretService.redeem SignedRedemption.verify
    simp only [bind_request]
    intro b₀ clock
    refine ⟨.inl rfl, ?_⟩
    beta_reduce
    split
    · trivial
    split
    · trivial
    intro b input
    refine ⟨.inl rfl, ?_⟩
    cases found : (b.enrolled .node).resolve req.publicKey with
    | none =>
      simp only [performBroker, found]
      trivial
    | some node =>
      simp only [performBroker, found]
      show Spares _ _ (SecretBroker.redeem set req.token node req.requested >>= _)
      refine Spares.bind (redeem_spares req.token node req.requested) ?_
      intro delivered
      split
      · exact fun early => early
      · trivial
  | redeemAs token nodeId requested =>
    refine Spares.mono (?_ : Spares _ SecretError.early _) fun _ kind => kind.2
    refine Spares.bind (redeem_spares token nodeId requested) ?_
    exact fun _ => trivial
  | _ => exact others fun no => no

end Spares

/-! ### The parts -/

section Runs

variable {set : Setting}

/-- The token a redemption presents. -/
def Ask.token : Ask → Option String
  | .redeem req => some req.token
  | .redeemAs token .. => some token
  | _ => none

/-- The break-glass request covers the grant. -/
def Ask.covers : Ask → Grant → Prop
  | .revoke capId, grant => grant.capId = capId
  | .revokeTenant tenant, grant => grant.tenant = tenant
  | .shredTenant tenant, grant => grant.tenant = tenant
  | _, _ => False

/-- The thread serves the request, and has come to its end. -/
def Callers.Ended (p : Callers) (i : ℕ) (ask : Ask) : Prop :=
  (∃ told, p.threads[i]? = some (ask, .done told)) ∨ ∃ e, p.threads[i]? = some (ask, .fail e)

/-- The thread has delivered secrets on the capability. -/
def Callers.Delivered (set : Setting) (p : Callers) (i : ℕ) (capId : CapId) : Prop :=
  ∃ ask token digest delivered, p.threads[i]? = some (ask, .done (.delivered delivered)) ∧
    ask.token = some token ∧ parseToken set.digestSecret token = .ok (capId, digest)

/-- What the service delivers it delivers with authority: on a grant that was asked for at a mint,
to the node and the job of the grant, and every value was stored for the grant's tenant under a
name that was declared. -/
def OnlyAuthorised (set : Setting) (p : Callers) : Prop :=
  ∀ i req delivered, p.threads[i]? = some (.redeem req, .done (.delivered delivered)) → ∃ grant,
    Authorised set p.shared.log ⟨i, .redeem req⟩ req grant delivered ∧
    (∃ j mint, p.Serving ⟨j, .mint mint⟩ ∧
      Fits mint.tenant mint.jobId mint.nodeId mint.declared mint.authorClass grant) ∧
    ∀ nv ∈ delivered.values, ∃ j, p.Serving ⟨j, .putSecret grant.tenant nv.1 nv.2⟩

/-- A capability delivers at most once. -/
def AtMostOnce (set : Setting) (p : Callers) : Prop :=
  ∀ i j capId, p.Delivered set i capId → p.Delivered set j capId → i = j

/-- A redemption that starts after break glass has returned delivers on no capability it covers
whose mint had returned before. -/
def BreakGlass (set : Setting) (turns : List (Turn Ask BrokerInput)) : Prop :=
  ∀ front mid back (glass ask : Ask), turns = (front ++ .start glass :: mid) ++ .start ask :: back →
    ∀ (m : ℕ) mint token grant, glass.covers grant →
      (Callers.after set front).threads[m]? = some (.mint mint, .done (.minted token grant)) →
      (Callers.after set (front ++ .start glass :: mid)).Ended
        (Callers.after set front).threads.length glass →
      ¬ (Callers.after set turns).Delivered set
        (Callers.after set (front ++ .start glass :: mid)).threads.length grant.capId

/-- No capability is minted for an outsider. -/
def NoOutsider (p : Callers) : Prop :=
  ∀ family grant digest, Minted p.shared.log family grant digest →
    mayReceiveSecrets grant.authorClass = true

/-- A redemption that is refused before its capability is claimed has changed nothing at any of its
turns, so what was redeemable before each of them is redeemable after it. -/
def Unspent (set : Setting) (turns : List (Turn Ask BrokerInput)) : Prop :=
  ∀ front i input back ask e, turns = front ++ .turn i input :: back → ask.redeems → e.early →
    (Callers.after set turns).threads[i]? = some (ask, .fail e) →
    (Callers.after set (front ++ [.turn i input])).shared.state =
      (Callers.after set front).shared.state

/-! ### Runs -/

/-- The contract and what the threads return, since some books. -/
abbrev Callers.GoodSince (set : Setting) (s₀ : Books Ask) (first : ℕ) (p : Callers) : Prop :=
  (gateSince set s₀).Good (Returns set s₀ first) p

theorem callers_run (ideal : set.cipher.Ideal) {s₀ : Books Ask} {first : ℕ} {p : Callers}
    (good : p.GoodSince set s₀ first) {turns : List (Turn Ask BrokerInput)}
    (along : Along (Callers.step set) (Callers.Admits set) p turns) :
    (run (Callers.step set) p turns).GoodSince set s₀ first :=
  Contract.good_run (K := gateSince set s₀)
    (fun _ i request good _ => safe_ask ideal ⟨i, request⟩ good.inv) good along

theorem callers_after (ideal : set.cipher.Ideal) {turns : List (Turn Ask BrokerInput)}
    (along : Along (Callers.step set) (Callers.Admits set) .start turns) :
    (Callers.after set turns).GoodSince set Books.new 0 :=
  callers_run ideal (Contract.good_idle ⟨sound_new, onward_refl _⟩) along

/-- From the end of a front on, older threads return as before, and younger ones what they return
of the time since. -/
theorem callers_later (ideal : set.cipher.Ideal) {front back : List (Turn Ask BrokerInput)}
    (along : Along (Callers.step set) (Callers.Admits set) .start (front ++ back)) :
    (Callers.after set (front ++ back)).GoodSince set (Callers.after set front).shared
      (Callers.after set front).threads.length := by
  obtain ⟨before, rest⟩ := along_append.mp along
  have good := callers_after ideal before
  have since : (Callers.after set front).GoodSince set (Callers.after set front).shared
      (Callers.after set front).threads.length := by
    refine ⟨⟨good.inv.1, onward_refl _⟩, fun i request program here => ?_⟩
    have older : i < (Callers.after set front).threads.length := by
      by_contra beyond
      rw [List.getElem?_eq_none (by omega)] at here
      cases here
    exact ((good.safe i request program here).rebase good.inv.2).weaken
      fun _ _ _ returns => returns.rebase older
  have later := callers_run ideal since rest
  rwa [← run_append] at later

theorem serving_of_entry {turns : List (Turn Ask BrokerInput)} {e : Entry Ask BrokerAnswer}
    (logged : e ∈ (Callers.after set turns).shared.log) :
    (Callers.after set turns).Serving e.caller :=
  caller_of_entry (performBroker set.cipher) (Ask.body set) Broker.new turns e logged

/-- A thread that has delivered on a capability has claimed it, and it was alive. -/
theorem Callers.Delivered.claimed {s₀ : Books Ask} {first : ℕ} {p : Callers}
    (good : p.GoodSince set s₀ first) {i : ℕ} {capId : CapId} (delivered : p.Delivered set i capId) :
    ∃ ask, (∃ digest principal now grant,
      ⟨⟨i, ask⟩, .claim .node capId digest principal now, .ok grant⟩ ∈ p.shared.log) ∧
      AliveSince s₀ first ⟨i, ask⟩ capId := by
  obtain ⟨ask, token, digest, secrets, here, presents, parsed⟩ := delivered
  have returns := good.returned here
  suffices behind : ∃ grant principal,
      Delivery set Ask.errands p.shared.log ⟨i, ask⟩ .node token principal grant secrets ∧
      AliveSince s₀ first ⟨i, ask⟩ grant.capId by
    obtain ⟨grant, principal, delivery, alive⟩ := behind
    obtain ⟨digest', now, parsed', _, claim, _⟩ := delivery.token
    rw [parsed] at parsed'
    cases parsed'
    exact ⟨ask, ⟨digest, principal, now, grant, claim⟩, alive⟩
  cases ask with
  | redeem req =>
    cases presents
    obtain ⟨grant, authorised, alive⟩ := returns secrets rfl
    exact ⟨grant, _, authorised.toDelivery, alive⟩
  | redeemAs token' nodeId requested =>
    cases presents
    obtain ⟨grant, delivery, alive⟩ := returns secrets rfl
    exact ⟨grant, _, delivery, alive⟩
  | _ => cases presents

theorem onlyAuthorised_after (ideal : set.cipher.Ideal) {turns : List (Turn Ask BrokerInput)}
    (along : Along (Callers.step set) (Callers.Admits set) .start turns) :
    OnlyAuthorised set (Callers.after set turns) := by
  intro i req delivered here
  have good := callers_after ideal along
  obtain ⟨grant, authorised, _⟩ := good.returned here delivered rfl
  refine ⟨grant, authorised, ?_, fun nv member => ?_⟩
  · obtain ⟨digest, now, _, ⟨caller, now', logged⟩, _⟩ := authorised.token
    obtain ⟨mint, ⟨asked, _⟩, fits⟩ := good.inv.1.mints _ _ _ _ logged
    obtain ⟨thread, request⟩ := caller
    obtain rfl : request = .mint mint := asked
    exact ⟨thread, mint, serving_of_entry logged, fits⟩
  · obtain ⟨_, ⟨thread, request⟩, sealed, logged, asked⟩ := authorised.values nv member
    obtain rfl : request = .putSecret grant.tenant nv.1 nv.2 := asked
    exact ⟨thread, serving_of_entry logged⟩

theorem atMostOnce_after (ideal : set.cipher.Ideal) {turns : List (Turn Ask BrokerInput)}
    (along : Along (Callers.step set) (Callers.Admits set) .start turns) :
    AtMostOnce set (Callers.after set turns) := by
  intro i j capId first second
  have good := callers_after ideal along
  obtain ⟨_, ⟨_, _, _, _, claim⟩, _⟩ := first.claimed good
  obtain ⟨_, ⟨_, _, _, _, claim'⟩, _⟩ := second.claimed good
  exact congrArg Caller.thread (good.inv.1.once _ _ _ _ _ _ _ _ _ _ _ _ claim claim')

theorem dead_of_ended {s₀ : Books Ask} {first : ℕ} {p : Callers}
    (good : p.GoodSince set s₀ first) {i : ℕ} (younger : first ≤ i) {glass : Ask}
    (ended : p.Ended i glass) {grant : Grant} {digest : Digest}
    (minted : Minted s₀.log .node grant digest) (covered : glass.covers grant) :
    Dead (p.shared.state.caps .node) grant.capId := by
  have returns : ∃ r, Returns set s₀ first ⟨i, glass⟩ p.shared r := by
    obtain ⟨told, here⟩ | ⟨e, here⟩ := ended
    · exact ⟨_, good.returned here⟩
    · exact ⟨_, good.failed here⟩
  obtain ⟨r, returns⟩ := returns
  cases glass with
  | revoke capId =>
    obtain rfl : grant.capId = capId := covered
    exact returns younger minted.entered
  | revokeTenant tenant => exact returns younger .node grant digest minted covered
  | shredTenant tenant => exact returns younger .node grant digest minted covered
  | _ => cases covered

theorem breakGlass_after (ideal : set.cipher.Ideal) {turns : List (Turn Ask BrokerInput)}
    (along : Along (Callers.step set) (Callers.Admits set) .start turns) :
    BreakGlass set turns := by
  rintro front mid back glass ask rfl m mint token grant covered minted ended delivered
  obtain ⟨before, _⟩ := along_append.mp along
  obtain ⟨start, _⟩ := along_append.mp before
  -- the mint had returned, so the grant was in the log when the glass was broken
  obtain ⟨digest, held⟩ := (callers_after ideal start).returned minted token grant rfl
  have good := callers_later ideal before
  have dead := dead_of_ended good le_rfl ended held covered
  -- and the redemption, which started later, found it alive
  obtain ⟨_, _, alive⟩ := delivered.claimed (callers_later ideal along)
  obtain ⟨s, onward, lives⟩ := alive le_rfl
  exact lives (onward.dead .node _ (held.mono good.inv.2.log).entered dead)

theorem noOutsider_after (ideal : set.cipher.Ideal) {turns : List (Turn Ask BrokerInput)}
    (along : Along (Callers.step set) (Callers.Admits set) .start turns) :
    NoOutsider (Callers.after set turns) := by
  rintro family grant digest ⟨caller, now, logged⟩
  obtain ⟨mint, _, fits⟩ := (callers_after ideal along).inv.1.mints _ _ _ _ logged
  rw [fits.authorClass]
  exact fits.member

theorem unspent_after (turns : List (Turn Ask BrokerInput)) : Unspent set turns := by
  rintro front i input back ask e rfl redeems early failed
  exact spared_run (fun ask e => ask.redeems ∧ e.early) ask_spares failed ⟨redeems, early⟩

/-- A setting in the clear: a signature is the key and the payload. -/
def clearSetting : Setting where
  cipher := clearCipher
  digestSecret bytes := Vector.ofFn fun i => bytes.getD i 0
  verifies key payload signature := signature == key.toList ++ payload
  ttlSecs := 900

/-- A node's request, signed in the clear. -/
def clearRequest (token jobId : String) (key : NodePublicKey) (issuedAt : ℕ) : SignedRedemption :=
  let unsigned : SignedRedemption :=
    { token, jobId, requested := [], nonce := [], issuedAt, publicKey := key, signature := [] }
  { unsigned with signature := key.toList ++ unsigned.payload }

/-- A tenant, a secret, a node, a capability, its redemption, and break glass. -/
def aRedemption : List (Turn Ask BrokerInput) :=
  let input (n : UInt8) : BrokerInput :=
    { vault := { key := Vector.replicate 32 n, nonce := Vector.replicate 24 n }, now := 100
      capId := Vector.replicate 16 n, secret := Vector.replicate 32 n }
  let key : NodePublicKey := Vector.replicate 32 9
  let token := mintToken (Vector.replicate 16 3) (List.replicate 32 3)
  [.start (.provisionTenant "acme"), .turn 0 (input 1), .start (.putSecret "acme" "NPM_TOKEN" [7])] ++
    List.replicate 5 (.turn 1 (input 2)) ++ [.start (.enrol "node-1" key), .turn 2 (input 2)] ++
    [.start (.mint { tenant := "acme", jobId := "job-1", nodeId := "node-1",
                     declared := ["NPM_TOKEN"], authorClass := .member })] ++
    List.replicate 5 (.turn 3 (input 3)) ++ [.start (.redeem (clearRequest token "job-1" key 90))] ++
    List.replicate 6 (.turn 4 (input 4)) ++ [.start (.revokeTenant "acme")] ++
    List.replicate 2 (.turn 5 (input 5))

end Runs

end HullCi.Secrets
