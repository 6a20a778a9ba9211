/-
**Sealing and opening one value.**

A value is sealed under a fresh DEK, and the DEK is wrapped under the tenant's KEK; both carry the
tenant and the name as associated data, the wrap the KEK version too. `Vault.openAs` takes the
context from its caller, not from the record.

* `valueAad_inj`, `wrapAad_inj` — a context is one tenant's, one name's, one version's.
* `opened_ok` — what an uninterrupted `openAs` returns.
* `Serves.sealAs`, `Serves.openAs`, `Serves.rewrap` — what each returns, whatever happens between
  its calls.
-/

import HullCi.Secrets.Calls

namespace HullCi.Secrets

open HullCi.Base HullCi.Base.Program

/-- Domain separator of the value ciphertext. -/
def domainValue : String := "hull-ci/secret-value/v1"

/-- Domain separator of the wrapped DEK. -/
def domainWrap : String := "hull-ci/dek-wrap/v1"

/-- Context bound into the value ciphertext. -/
def valueAad (tenant name : String) : Bytes :=
  associatedData domainValue [tenant, name]

/-- Context bound into the wrapped DEK. -/
def wrapAad (tenant name : String) (version : UInt32) : Bytes :=
  associatedData domainWrap [tenant, name, toString version.toNat]

namespace Vault

/-- Seal one value for a tenant and a name, under the tenant's current KEK version. -/
def sealAs (cipher : Cipher) (tenant name : String) (plaintext : Bytes) : Prog SealedSecret :=
  if plaintext = [] then fail .emptyValue
  else do
    let version ← lift (← request (.currentVersion tenant))
    let dek ← request .generate
    let nonce ← request .generateNonce
    let ciphertext ← lift (aeadSeal cipher dek nonce plaintext (valueAad tenant name))
    let wrappedDek ← lift (← request (.wrapDek tenant version dek (wrapAad tenant name version)))
    return { tenant, name, kekVersion := version, wrappedDek, ciphertext }

/-- Open a sealed record **as** a tenant's secret of a name. -/
def openAs (cipher : Cipher) (tenant name : String) (sealed : SealedSecret) : Prog Bytes :=
  if sealed.tenant ≠ tenant ∨ sealed.name ≠ name then
    fail (.contextMismatch (tenant ++ "/" ++ name) (sealed.tenant ++ "/" ++ sealed.name))
  else do
    let dek ← lift (← request (.unwrapDek tenant sealed.kekVersion sealed.wrappedDek
      (wrapAad tenant name sealed.kekVersion)))
    lift (aeadOpen cipher dek sealed.ciphertext (valueAad tenant name))

/-- Re-wrap a record's DEK under the tenant's current KEK version; `none` when it is current. -/
def rewrap (sealed : SealedSecret) : Prog (Option SealedSecret) := do
  let current ← lift (← request (.currentVersion sealed.tenant))
  if current = sealed.kekVersion then
    return none
  else
    let dek ← lift (← request (.unwrapDek sealed.tenant sealed.kekVersion sealed.wrappedDek
      (wrapAad sealed.tenant sealed.name sealed.kekVersion)))
    let wrappedDek ← lift (← request (.wrapDek sealed.tenant current dek
      (wrapAad sealed.tenant sealed.name current)))
    return some { sealed with kekVersion := current, wrappedDek }

end Vault

/-! ### Contexts -/

theorem short_domainValue : Short domainValue := by decide +kernel

theorem short_domainWrap : Short domainWrap := by decide +kernel

theorem short_value {tenant name : String} (tenants : Short tenant) (names : Short name) :
    ∀ f ∈ domainValue :: [tenant, name], Short f := by
  simp only [List.forall_mem_cons]
  exact ⟨short_domainValue, tenants, names, List.forall_mem_nil _⟩

theorem short_wrap {tenant name : String} (tenants : Short tenant) (names : Short name)
    (version : UInt32) :
    ∀ f ∈ domainWrap :: [tenant, name, toString version.toNat], Short f := by
  simp only [List.forall_mem_cons]
  exact ⟨short_domainWrap, tenants, names, short_toString version, List.forall_mem_nil _⟩

theorem valueAad_inj {tenant name tenant' name' : String} (tenants : Short tenant)
    (names : Short name) (tenants' : Short tenant') (names' : Short name')
    (same : valueAad tenant name = valueAad tenant' name') : tenant = tenant' ∧ name = name' := by
  obtain ⟨_, fields⟩ := associatedData_inj (short_value tenants names)
    (short_value tenants' names') same
  simp only [List.cons.injEq, and_true] at fields
  exact fields

theorem wrapAad_inj {tenant name tenant' name' : String} {version version' : UInt32}
    (tenants : Short tenant) (names : Short name) (tenants' : Short tenant')
    (names' : Short name') (same : wrapAad tenant name version = wrapAad tenant' name' version') :
    tenant = tenant' ∧ name = name' ∧ version = version' := by
  obtain ⟨_, fields⟩ := associatedData_inj (short_wrap tenants names version)
    (short_wrap tenants' names' version') same
  simp only [List.cons.injEq, and_true] at fields
  exact ⟨fields.1, fields.2.1, UInt32.toNat_inj.mp (toString_inj fields.2.2)⟩

/-! ### What a record holds -/

/-- A blob is a plaintext sealed under a key, for a context. -/
def SealedUnder (cipher : Cipher) (key : Dek) (plaintext aad blob : Bytes) : Prop :=
  ∃ nonce, aeadSeal cipher key nonce plaintext aad = .ok blob

/-- The record holds the value, under a KEK of its tenant that is there. -/
def Bears (cipher : Cipher) (keys : DevKeyManager) (plaintext : Bytes) (record : SealedSecret) :
    Prop :=
  ∃ dek kek, SealedUnder cipher dek plaintext (valueAad record.tenant record.name)
      record.ciphertext ∧
    SealedUnder cipher kek dek.toList (wrapAad record.tenant record.name record.kekVersion)
      record.wrappedDek ∧
    keys.withKek record.tenant record.kekVersion = .ok kek

/-! ### Opening -/

/-- What an uninterrupted `Vault.openAs` returns. It draws nothing from outside. -/
def Vaults.opened (cipher : Cipher) (s : Vaults) (tenant name : String) (sealed : SealedSecret) :
    Except SecretError Bytes :=
  ((Vault.openAs cipher tenant name sealed).eval
    (fun s call => perform cipher s { key := default, nonce := default } call) s).1

/-- **What a record opens to**: its labels are the ones asked for, the KEK it names is there, and
the two sealed texts open under their contexts. -/
theorem opened_ok {cipher : Cipher} {s : Vaults} {tenant name : String} {sealed : SealedSecret}
    {plaintext : Bytes} :
    s.opened cipher tenant name sealed = .ok plaintext ↔
      (sealed.tenant = tenant ∧ sealed.name = name) ∧ ∃ dek kek,
        s.keys.withKek tenant sealed.kekVersion = .ok kek ∧
        aeadOpen cipher kek sealed.wrappedDek (wrapAad tenant name sealed.kekVersion) =
          .ok dek.toList ∧
        aeadOpen cipher dek sealed.ciphertext (valueAad tenant name) = .ok plaintext := by
  unfold Vaults.opened Vault.openAs
  by_cases labels : sealed.tenant ≠ tenant ∨ sealed.name ≠ name
  · rw [if_pos labels]
    constructor
    · intro h
      cases h
    · rintro ⟨⟨rfl, rfl⟩, _⟩
      simp at labels
  · rw [if_neg labels]
    have labelled : sealed.tenant = tenant ∧ sealed.name = name := by
      simpa only [not_or, not_not] using labels
    simp only [bind_request, eval, perform, labelled, true_and]
    cases unwrapped : s.keys.unwrapDek cipher tenant sealed.kekVersion sealed.wrappedDek
        (wrapAad tenant name sealed.kekVersion) with
    | error e =>
      simp only [lift_error, bind_fail, eval]
      constructor
      · intro h
        cases h
      · rintro ⟨dek, kek, found, opened, _⟩
        rw [DevKeyManager.unwrapDek_ok.mpr ⟨kek, found, opened⟩] at unwrapped
        cases unwrapped
    | ok dek =>
      obtain ⟨kek, found, opened⟩ := DevKeyManager.unwrapDek_ok.mp unwrapped
      simp only [lift_ok, bind_done]
      cases text : aeadOpen cipher dek sealed.ciphertext (valueAad tenant name) with
      | error e =>
        simp only [lift_error, eval]
        constructor
        · intro h
          cases h
        · rintro ⟨dek', kek', found', opened', text'⟩
          rw [DevKeyManager.unwrapDek_ok.mpr ⟨kek', found', opened'⟩] at unwrapped
          cases unwrapped
          rw [text] at text'
          cases text'
      | ok plain =>
        simp only [lift_ok, eval]
        constructor
        · intro h
          cases h
          exact ⟨dek, kek, found, opened, text⟩
        · rintro ⟨dek', kek', found', opened', text'⟩
          rw [DevKeyManager.unwrapDek_ok.mpr ⟨kek', found', opened'⟩] at unwrapped
          cases unwrapped
          rw [text] at text'
          cases text'
          rfl

theorem Bears.opened {cipher : Cipher} (ideal : cipher.Ideal) {s : Vaults} {plaintext : Bytes}
    {record : SealedSecret} (bears : Bears cipher s.keys plaintext record) :
    s.opened cipher record.tenant record.name record = .ok plaintext := by
  obtain ⟨dek, kek, text, wrap, found⟩ := bears
  exact opened_ok.mpr ⟨⟨rfl, rfl⟩, dek, kek, found, (aeadOpen_iff ideal).mpr wrap,
    (aeadOpen_iff ideal).mpr text⟩

/-! ### The vault's programs, under any contract that serves them -/

/-- The calls that leave the vaults alone. -/
def Call.reads : Call → Bool
  | .currentVersion _ | .wrapDek .. | .unwrapDek .. | .generate | .generateNonce | .get ..
  | .list _ => true
  | _ => false

/-- The contract's calls answer as the vaults do, and those that only read keep it. -/
structure Serves {S R I : Type} (K : Contract S R I Answer) (cipher : Cipher)
    (vaults : S → Vaults) (draws : I → Input) : Prop where
  keeps : ∀ {s caller input call}, call.reads = true → K.inv s → K.may s caller input call →
    K.inv (K.handle s caller input call).1 ∧ K.rely s (K.handle s caller input call).1
  answers : ∀ s caller input call,
    (K.handle s caller input call).2 = (perform cipher (vaults s) (draws input) call).2

section Serves

variable {S R I : Type} {K : Contract S R I Answer} {cipher : Cipher} {vaults : S → Vaults}
  {draws : I → Input} {A : Type} {caller : Caller R} {Q : S → Except SecretError A → Prop}

/-- A reading call: what the program goes on with is safe, at the answer of the vaults. -/
theorem Serves.safe_call (serves : Serves K cipher vaults draws) {call : Call}
    {next : Answer call → Prog A} {s : S} (reads : call.reads = true)
    (rest : ∀ s₁ s₂ input, K.inv s₁ → K.rely s₁ s₂ → K.inv s₂ →
      K.Safe caller Q (next (perform cipher (vaults s₁) input call).2) s₂) :
    K.Safe caller Q (.call call next) s :=
  Contract.safe_kept (fun _ _ fine may => serves.keeps reads fine may)
    fun s₁ input _ fine _ later fine' => by
      rw [serves.answers]
      exact rest s₁ _ (draws input) fine later fine'

/-- What `Vault.sealAs` returns: the value under a DEK, and the DEK wrapped at some earlier state. -/
def SealSpec (K : Contract S R I Answer) (cipher : Cipher) (vaults : S → Vaults)
    (tenant name : String) (plaintext : Bytes) (s : S) (record : SealedSecret) : Prop :=
  (record.tenant = tenant ∧ record.name = name) ∧ ∃ dek s₁ nonce, (K.inv s₁ ∧ K.rely s₁ s) ∧
    SealedUnder cipher dek plaintext (valueAad record.tenant record.name) record.ciphertext ∧
    (vaults s₁).keys.wrapDek cipher nonce record.tenant record.kekVersion dek
      (wrapAad record.tenant record.name record.kekVersion) = .ok record.wrappedDek

/-- What `Vault.rewrap` returns: the record with the DEK it held wrapped again. -/
def RewrapSpec (K : Contract S R I Answer) (cipher : Cipher) (vaults : S → Vaults)
    (sealed : SealedSecret) (s : S) (record : SealedSecret) : Prop :=
  record = { sealed with kekVersion := record.kekVersion, wrappedDek := record.wrappedDek } ∧
    ∃ dek s₁ nonce, (K.inv s₁ ∧ K.rely s₁ s) ∧
      (∃ kek, aeadOpen cipher kek sealed.wrappedDek
        (wrapAad sealed.tenant sealed.name sealed.kekVersion) = .ok dek.toList) ∧
      (vaults s₁).keys.wrapDek cipher nonce record.tenant record.kekVersion dek
        (wrapAad record.tenant record.name record.kekVersion) = .ok record.wrappedDek

/-- **Sealing.** -/
theorem Serves.sealAs (serves : Serves K cipher vaults draws) (tenant name : String) (plaintext : Bytes)
    (s : S) :
    K.Safe caller (fun s r => ∀ record, r = .ok record →
        SealSpec K cipher vaults tenant name plaintext s record)
      (Vault.sealAs cipher tenant name plaintext) s := by
  unfold Vault.sealAs
  by_cases empty : plaintext = []
  · rw [if_pos empty]
    exact fun s' _ _ record no => by cases no
  rw [if_neg empty]
  simp only [bind_request]
  refine serves.safe_call rfl fun _ _ _ _ _ _ => Contract.safe_lift ?_ ?_
  · intro version _
    refine serves.safe_call rfl fun _ _ _ _ _ _ => ?_
    refine serves.safe_call rfl fun _ _ _ _ _ _ => Contract.safe_lift ?_ ?_
    · intro ciphertext sealed
      refine serves.safe_call rfl fun s₁ s₂ input inv later _ => Contract.safe_lift ?_ ?_
      · intro wrappedDek wrap s₃ later' _ record same
        cases same
        exact ⟨⟨rfl, rfl⟩, _, s₁, input.nonce, ⟨inv, K.rely_trans later later'⟩, ⟨_, sealed⟩, wrap⟩
      · exact fun _ _ _ _ _ _ no => by cases no
    · exact fun _ _ _ _ _ _ no => by cases no
  · exact fun _ _ _ _ _ _ no => by cases no

/-- **Rewrapping.** -/
theorem Serves.rewrap (serves : Serves K cipher vaults draws) (sealed : SealedSecret) (s : S) :
    K.Safe caller (fun s r => ∀ record, r = .ok (some record) →
        RewrapSpec K cipher vaults sealed s record)
      (Vault.rewrap sealed) s := by
  unfold Vault.rewrap
  simp only [bind_request]
  refine serves.safe_call rfl fun _ _ _ _ _ _ => Contract.safe_lift ?_ ?_
  · intro current _
    by_cases same : current = sealed.kekVersion
    · rw [if_pos same]
      exact fun _ _ _ _ no => by cases no
    rw [if_neg same]
    refine serves.safe_call rfl fun _ _ _ _ _ _ => Contract.safe_lift ?_ ?_
    · intro dek unwrapped
      obtain ⟨kek, _, opened⟩ := DevKeyManager.unwrapDek_ok.mp unwrapped
      refine serves.safe_call rfl fun s₁ s₂ input inv later _ => Contract.safe_lift ?_ ?_
      · intro wrappedDek wrap s₃ later' _ record same
        cases same
        exact ⟨rfl, dek, s₁, input.nonce, ⟨inv, K.rely_trans later later'⟩, ⟨kek, opened⟩, wrap⟩
      · exact fun _ _ _ _ _ _ no => by cases no
    · exact fun _ _ _ _ _ _ no => by cases no
  · exact fun _ _ _ _ _ _ no => by cases no

/-- **Opening.** -/
theorem Serves.openAs (serves : Serves K cipher vaults draws) (tenant name : String)
    (sealed : SealedSecret) (s : S) :
    K.Safe caller (fun _ r => ∀ plaintext, r = .ok plaintext →
        (sealed.tenant = tenant ∧ sealed.name = name) ∧
          ∃ dek, aeadOpen cipher dek sealed.ciphertext (valueAad tenant name) = .ok plaintext)
      (Vault.openAs cipher tenant name sealed) s := by
  unfold Vault.openAs
  by_cases labels : sealed.tenant ≠ tenant ∨ sealed.name ≠ name
  · rw [if_pos labels]
    exact fun _ _ _ _ no => by cases no
  rw [if_neg labels]
  simp only [bind_request]
  refine serves.safe_call rfl fun _ _ _ _ _ _ => Contract.safe_lift ?_ ?_
  · intro dek _
    cases opened : aeadOpen cipher dek sealed.ciphertext (valueAad tenant name) with
    | error e => exact fun _ _ _ _ no => by cases no
    | ok plaintext =>
      intro _ _ _ _ same
      cases same
      exact ⟨by simpa only [not_or, not_not] using labels, dek, opened⟩
  · exact fun _ _ _ _ _ _ no => by cases no

end Serves

end HullCi.Secrets
