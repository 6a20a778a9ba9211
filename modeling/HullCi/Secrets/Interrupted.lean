/-
**A rotation that stops in the middle.**

A rotation may stop between any two of its calls: after the new key, after the list, before or
after any write-back. What it has written by then stays, and the next attempt adds a version more.

* `Preserved` — every record is where it was, with the ciphertext it had, and opens to what it did.
* `Throughout.rewrap` — what a rewrap returns has the DEK that the record had, under the current
  version.
* `throughout_rewrapAll` — the sweep keeps every record at every moment, and has brought each to the
  current version when it returns.
* `interrupted_rotations_harmless` — so do any number of attempts that stop anywhere.
-/

import HullCi.Base.Interrupted
import HullCi.Secrets.Rotation

namespace HullCi.Secrets

open HullCi.Base HullCi.Base.Program

/-! ### The store -/

/-- Vaults whose records are filed under their own labels. -/
structure TenantStore extends Vaults where
  filed : ∀ {tenant name sealed}, rows.get tenant name = some sealed →
    sealed.tenant = tenant ∧ sealed.name = name

theorem perform_filed (cipher : Cipher) (s : TenantStore) (input : Input) (call : Call)
    {tenant name : String} {sealed : SealedSecret}
    (found : (perform cipher s.toVaults input call).1.rows.get tenant name = some sealed) :
    sealed.tenant = tenant ∧ sealed.name = name := by
  cases call with
  | put written =>
    have found : (s.rows.put written).get tenant name = some sealed := found
    rw [SealedStore.get_put] at found
    split at found
    · rename_i own
      cases found
      exact ⟨own.1.symm, own.2.symm⟩
    · exact s.filed found
  | delete gone named =>
    have found : (s.rows.delete gone named).get tenant name = some sealed := found
    rw [SealedStore.get_delete] at found
    split at found
    · cases found
    · exact s.filed found
  | _ => exact s.filed found

namespace TenantStore

/-- One call, made to the store. -/
def perform (cipher : Cipher) (s : TenantStore) (input : Input) (call : Call) :
    TenantStore × Answer call :=
  ({ toVaults := (Secrets.perform cipher s.toVaults input call).1
     filed := perform_filed cipher s input call },
    (Secrets.perform cipher s.toVaults input call).2)

/-- No tenant, no record. -/
def empty : TenantStore where
  toVaults := Vaults.new
  filed := fun found => nomatch found

end TenantStore

/-- An attempt at rotating a tenant: it stops when its inputs, one a call, are used up. -/
structure Attempt where
  tenant : String
  inputs : List Input

/-- The store an attempt leaves, and what was still to be done. -/
def Attempt.made (cipher : Cipher) (s : TenantStore) (attempt : Attempt) :
    TenantStore × Prog ℕ :=
  (rotateTenant attempt.tenant).interrupted (TenantStore.perform cipher) attempt.inputs s

/-- The store after attempts, one after the other. -/
def attempted (cipher : Cipher) (s : TenantStore) (attempts : List Attempt) : TenantStore :=
  attempts.foldl (fun s attempt => (attempt.made cipher s).1) s

/-! ### What is to hold -/

/-- Each record is where it was with the ciphertext it had, opens to what it opened to, and no
record is new. -/
structure Preserved (cipher : Cipher) (s s' : TenantStore) : Prop where
  ciphertexts : ∀ tenant name, (s'.rows.get tenant name).map SealedSecret.ciphertext =
    (s.rows.get tenant name).map SealedSecret.ciphertext
  opens : ∀ {tenant name sealed value}, s.rows.get tenant name = some sealed →
    s.opened cipher tenant name sealed = .ok value →
    ∃ sealed', s'.rows.get tenant name = some sealed' ∧
      s'.opened cipher tenant name sealed' = .ok value

/-- Every record of the tenant is wrapped under the tenant's current version. -/
def Current (tenant : String) (s : TenantStore) : Prop :=
  ∀ name sealed, s.rows.get tenant name = some sealed →
    s.keys.currentVersion tenant = .ok sealed.kekVersion

/-- Attempts that stop anywhere keep every record, and one that returns leaves none behind. -/
structure Harmless (cipher : Cipher) (s : TenantStore) (attempts : List Attempt) : Prop where
  preserved : Preserved cipher s (attempted cipher s attempts)
  current : ∀ {last : Attempt} {count}, (last.made cipher (attempted cipher s attempts)).2 =
    done count → Current last.tenant (last.made cipher (attempted cipher s attempts)).1

namespace Preserved

variable {cipher : Cipher} {s s' s'' : TenantStore}

theorem refl (cipher : Cipher) (s : TenantStore) : Preserved cipher s s where
  ciphertexts _ _ := rfl
  opens found opened := ⟨_, found, opened⟩

theorem trans (first : Preserved cipher s s') (second : Preserved cipher s' s'') :
    Preserved cipher s s'' where
  ciphertexts tenant name := (second.ciphertexts tenant name).trans (first.ciphertexts tenant name)
  opens found opened := by
    obtain ⟨_, found', opened'⟩ := first.opens found opened
    exact second.opens found' opened'

theorem of_keys (rows : s'.rows = s.rows)
    (kept : ∀ tenant version kek, s.keys.withKek tenant version = .ok kek →
      s'.keys.withKek tenant version = .ok kek) : Preserved cipher s s' where
  ciphertexts _ _ := by rw [rows]
  opens {tenant name sealed value} found opened := by
    refine ⟨sealed, by rw [rows]; exact found, ?_⟩
    obtain ⟨labels, dek, kek, key, wrap, text⟩ := opened_ok.mp opened
    exact opened_ok.mpr ⟨labels, dek, kek, kept _ _ _ key, wrap, text⟩

end Preserved

/-! ### Rewrapping -/

/-- The record has the DEK of the other, under the current version of its tenant. -/
structure Rewrapped (cipher : Cipher) (s : TenantStore) (sealed updated : SealedSecret) : Prop where
  parts : updated = { sealed with
    kekVersion := updated.kekVersion, wrappedDek := updated.wrappedDek }
  current : s.keys.currentVersion sealed.tenant = .ok updated.kekVersion
  wrapped : ∃ dek nonce, s.keys.unwrapDek cipher sealed.tenant sealed.kekVersion sealed.wrappedDek
      (wrapAad sealed.tenant sealed.name sealed.kekVersion) = .ok dek ∧
    s.keys.wrapDek cipher nonce sealed.tenant updated.kekVersion dek
      (wrapAad sealed.tenant sealed.name updated.kekVersion) = .ok updated.wrappedDek

/-- What a rewrap of the record returns: nothing where it is current. -/
def Outcome (cipher : Cipher) (s : TenantStore) (sealed : SealedSecret) :
    Option SealedSecret → TenantStore → Prop
  | none, s' => s' = s ∧ s.keys.currentVersion sealed.tenant = .ok sealed.kekVersion
  | some updated, s' => s' = s ∧ Rewrapped cipher s sealed updated

/-- **Rewrapping.** It writes nothing. -/
theorem throughout_rewrap {cipher : Cipher} {P : TenantStore → Prop} {s : TenantStore} (holds : P s)
    (sealed : SealedSecret) :
    (Vault.rewrap sealed).Throughout (TenantStore.perform cipher) P (Outcome cipher s sealed)
      s := by
  unfold Vault.rewrap
  simp only [bind_request]
  refine ⟨holds, fun _ => Throughout.lift holds fun current known => ?_⟩
  by_cases same : current = sealed.kekVersion
  · rw [if_pos same]
    subst same
    exact ⟨holds, rfl, known⟩
  · rw [if_neg same]
    refine ⟨holds, fun _ => Throughout.lift holds fun dek unwrapped => ?_⟩
    refine ⟨holds, fun input => Throughout.lift holds fun wrappedDek wrapped => ?_⟩
    exact ⟨holds, rfl, rfl, known, dek, input.nonce, unwrapped, wrapped⟩

theorem Rewrapped.opened {cipher : Cipher} (ideal : cipher.Ideal) {s : TenantStore}
    {sealed updated : SealedSecret} (rewrapped : Rewrapped cipher s sealed updated) {value : Bytes}
    (opened : s.opened cipher sealed.tenant sealed.name sealed = .ok value) :
    s.opened cipher sealed.tenant sealed.name updated = .ok value := by
  obtain ⟨_, dek', kek', key', opens', text⟩ := opened_ok.mp opened
  obtain ⟨dek, nonce, unwrapped, wrapped⟩ := rewrapped.wrapped
  obtain ⟨kek, key, opens⟩ := DevKeyManager.unwrapDek_ok.mp unwrapped
  obtain ⟨fresh, current, wrap⟩ := DevKeyManager.wrapDek_ok.mp wrapped
  rw [key] at key'
  cases key'
  -- the wrap that opened for the rewrap is the one that opens for the reader
  rw [opens] at opens'
  obtain rfl : dek = dek' := Vector.toList_inj.mp (Except.ok.inj opens')
  have parts := rewrapped.parts
  refine opened_ok.mpr ⟨by rw [parts]; exact ⟨rfl, rfl⟩, dek, fresh, current, ?_, ?_⟩
  · exact (aeadOpen_iff ideal).mpr ⟨nonce, wrap⟩
  · rw [parts]
    exact text

theorem Rewrapped.placed {cipher : Cipher} {s : TenantStore} {sealed updated : SealedSecret}
    (rewrapped : Rewrapped cipher s sealed updated) (input : Input) (tenant name : String) :
    (s.perform cipher input (.put updated)).1.rows.get tenant name =
      if tenant = sealed.tenant ∧ name = sealed.name then some updated
      else s.rows.get tenant name := by
  have parts := rewrapped.parts
  have put := SealedStore.get_put s.rows updated tenant name
  rw [show updated.tenant = sealed.tenant by rw [parts],
    show updated.name = sealed.name by rw [parts]] at put
  exact put

theorem Rewrapped.preserved {cipher : Cipher} (ideal : cipher.Ideal) {s : TenantStore}
    {sealed updated : SealedSecret} (rewrapped : Rewrapped cipher s sealed updated)
    (there : s.rows.get sealed.tenant sealed.name = some sealed) (input : Input) :
    Preserved cipher s (s.perform cipher input (.put updated)).1 := by
  constructor
  · intro tenant name
    rw [rewrapped.placed]
    split
    · rename_i own
      rw [own.1, own.2, there, Option.map_some, Option.map_some, rewrapped.parts]
    · rfl
  · intro tenant name found value here opened
    rw [rewrapped.placed]
    split
    · rename_i own
      obtain ⟨rfl, rfl⟩ := own
      rw [there] at here
      cases here
      obtain ⟨labels, rest⟩ := opened_ok.mp (rewrapped.opened ideal opened)
      exact ⟨updated, rfl, opened_ok.mpr ⟨labels, rest⟩⟩
    · obtain ⟨labels, rest⟩ := opened_ok.mp opened
      exact ⟨found, here, opened_ok.mpr ⟨labels, rest⟩⟩

/-! ### The sweep -/

/-- The records still to be rewrapped are where they were listed, and every other record of the
tenant is current. -/
structure Sweeping (tenant : String) (records : List SealedSecret) (s : TenantStore) : Prop where
  nodup : records.Nodup
  there : ∀ sealed ∈ records,
    sealed.tenant = tenant ∧ s.rows.get tenant sealed.name = some sealed
  others : ∀ {name sealed}, s.rows.get tenant name = some sealed → sealed ∉ records →
    s.keys.currentVersion tenant = .ok sealed.kekVersion

theorem nodup_list (s : TenantStore) (tenant : String) : (s.rows.list tenant).Nodup := by
  unfold SealedStore.list
  have entries : s.rows.sorted.Nodup :=
    (List.perm_insertionSort _ _).nodup_iff.mpr s.rows.nodupKeys.nodup
  refine List.Nodup.map_on ?_ (entries.filter _)
  -- a record is filed under one key only, that of its labels
  rintro ⟨key, sealed⟩ listed ⟨key', sealed'⟩ listed' (rfl : sealed = sealed')
  have found := s.filed (Table.mem_sorted.mp (List.mem_filter.mp listed).1)
  have found' := s.filed (Table.mem_sorted.mp (List.mem_filter.mp listed').1)
  have keys : ofLex key = ofLex key' := Prod.ext (found.1.symm.trans found'.1)
    (found.2.symm.trans found'.2)
  rw [ofLex.injective keys]

theorem sweeping_list (s : TenantStore) (tenant : String) :
    Sweeping tenant (s.rows.list tenant) s where
  nodup := nodup_list s tenant
  there sealed listed := by
    obtain ⟨name, found⟩ := SealedStore.mem_list.mp listed
    obtain ⟨labelled, rfl⟩ := s.filed found
    exact ⟨labelled, found⟩
  others found unlisted := absurd (SealedStore.mem_list.mpr ⟨_, found⟩) unlisted

namespace Sweeping

variable {cipher : Cipher} {s : TenantStore} {tenant : String} {sealed : SealedSecret}
  {rest : List SealedSecret}

theorem skip (sweeping : Sweeping tenant (sealed :: rest) s)
    (current : s.keys.currentVersion sealed.tenant = .ok sealed.kekVersion) :
    Sweeping tenant rest s where
  nodup := (List.nodup_cons.mp sweeping.nodup).2
  there other listed := sweeping.there other (List.mem_cons_of_mem _ listed)
  others {name other} found unlisted := by
    by_cases same : other = sealed
    · subst same
      rw [(sweeping.there other List.mem_cons_self).1] at current
      exact current
    · exact sweeping.others found (by simp [same, unlisted])

/-- A record that is behind is written back under the current version. -/
theorem write (sweeping : Sweeping tenant (sealed :: rest) s) {updated : SealedSecret}
    (rewrapped : Rewrapped cipher s sealed updated) (input : Input) :
    Sweeping tenant rest (s.perform cipher input (.put updated)).1 where
  nodup := (List.nodup_cons.mp sweeping.nodup).2
  there other listed := by
    obtain ⟨labelled, found⟩ := sweeping.there other (List.mem_cons_of_mem _ listed)
    refine ⟨labelled, ?_⟩
    rw [rewrapped.placed, if_neg, found]
    rintro ⟨-, same⟩
    have here := (sweeping.there sealed List.mem_cons_self).2
    rw [← same, found] at here
    cases here
    exact (List.nodup_cons.mp sweeping.nodup).1 listed
  others {name other} found unlisted := by
    have known : s.keys.currentVersion tenant = .ok updated.kekVersion := by
      rw [← (sweeping.there sealed List.mem_cons_self).1]
      exact rewrapped.current
    rw [rewrapped.placed] at found
    split at found
    · cases found
      exact known
    · rename_i elsewhere
      refine sweeping.others found ?_
      rintro (_ | ⟨_, listed⟩)
      · obtain ⟨rfl, rfl⟩ := s.filed found
        exact elsewhere ⟨rfl, rfl⟩
      · exact unlisted listed

end Sweeping

theorem rewrapAll_cons (sealed : SealedSecret) (rest : List SealedSecret) (count : ℕ) :
    rewrapAll (sealed :: rest) count = Vault.rewrap sealed >>= fun rewrapped =>
      match rewrapped with
      | none => rewrapAll rest count
      | some updated => call (Call.put updated) fun _ => rewrapAll rest (count + 1) :=
  rfl

/-- **The sweep.** It keeps every record at every moment, and has left none behind when it
returns. -/
theorem throughout_rewrapAll {cipher : Cipher} (ideal : cipher.Ideal) {s₀ s : TenantStore}
    {tenant : String} {records : List SealedSecret} (count : ℕ)
    (preserved : Preserved cipher s₀ s) (sweeping : Sweeping tenant records s) :
    (rewrapAll records count).Throughout (TenantStore.perform cipher) (Preserved cipher s₀)
      (fun _ => Current tenant) s := by
  induction records generalizing count s with
  | nil => exact ⟨preserved, fun _ _ found => sweeping.others found List.not_mem_nil⟩
  | cons sealed rest ih =>
    rw [rewrapAll_cons]
    refine (throughout_rewrap preserved sealed).bind fun rewrapped s₁ _ outcome => ?_
    cases rewrapped with
    | none =>
      obtain ⟨rfl, current⟩ := outcome
      exact ih count preserved (sweeping.skip current)
    | some updated =>
      obtain ⟨rfl, rewrapped⟩ := outcome
      obtain ⟨labelled, there⟩ := sweeping.there sealed List.mem_cons_self
      rw [← labelled] at there
      refine ⟨preserved, fun input => ih (count + 1) ?_ (sweeping.write rewrapped input)⟩
      exact preserved.trans (rewrapped.preserved ideal there input)

/-- **The rotation.** -/
theorem throughout_rotateTenant {cipher : Cipher} (ideal : cipher.Ideal) (s : TenantStore)
    (tenant : String) :
    (rotateTenant tenant).Throughout (TenantStore.perform cipher) (Preserved cipher s)
      (fun _ => Current tenant) s := by
  unfold rotateTenant
  simp only [bind_request]
  refine ⟨Preserved.refl cipher s, fun input => ?_⟩
  have preserved : Preserved cipher s (s.perform cipher input (.rotate tenant)).1 :=
    .of_keys rfl fun t version kek => (s.keys.grows_rotate input.key tenant t version kek).1
  refine Throughout.lift preserved fun _ _ => ⟨preserved, fun _ => ?_⟩
  exact throughout_rewrapAll ideal 0 preserved (sweeping_list _ tenant)

theorem attempted_preserved {cipher : Cipher} (ideal : cipher.Ideal) (s : TenantStore)
    (attempts : List Attempt) : Preserved cipher s (attempted cipher s attempts) := by
  induction attempts generalizing s with
  | nil => exact Preserved.refl cipher s
  | cons attempt attempts ih =>
    have first : Preserved cipher s (attempt.made cipher s).1 :=
      (throughout_rotateTenant ideal s attempt.tenant).moment attempt.inputs
    exact first.trans (ih _)

/-- **An interrupted rotation is harmless.** Any number of attempts, each stopped anywhere, keep
every record, its ciphertext and what it opens to; an attempt that returns leaves every record of
its tenant under the current version. -/
theorem interrupted_rotations_harmless (cipher : Cipher) (ideal : cipher.Ideal) (s : TenantStore)
    (attempts : List Attempt) : Harmless cipher s attempts where
  preserved := attempted_preserved ideal s attempts
  current {last _} returned := (throughout_rotateTenant ideal _ last.tenant).result returned

/-- An input with key material and a nonce of its own. -/
def drawn (n : UInt8) : Input where
  key := Vector.replicate 32 n
  nonce := Vector.replicate 24 n

/-- A tenant with one secret. -/
def oneSecret : TenantStore :=
  let provisioned := (TenantStore.empty.perform clearCipher (drawn 1) (.provisionTenant "acme")).1
  ((putSecret clearCipher "acme" "NPM_TOKEN" [1]).interrupted (TenantStore.perform clearCipher)
    [drawn 2, drawn 3, drawn 4, drawn 5, drawn 6] provisioned).1

/-- Two attempts at that tenant: the one stops before the list, the other before the write-back. -/
theorem two_attempts_harmless : Harmless clearCipher oneSecret
    [⟨"acme", [drawn 7]⟩, ⟨"acme", [drawn 8, drawn 9, drawn 10, drawn 11, drawn 12]⟩] :=
  interrupted_rotations_harmless clearCipher clearCipher_ideal oneSecret _

end HullCi.Secrets
