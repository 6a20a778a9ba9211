/-
**Storing, deleting and rotating, all at once.**

`rotateTenant` rewraps from a list of the tenant's records and writes each back, whatever the store
holds by then.

* `Faithful` — the store holds, under each name, what the `putSecret` or `deleteSecret` that landed
  last on it left there: the ledger.
* `rotation_faithful` — it does in every run in which each write-back of a rotation finds the record
  it was made from: one with the same ciphertext.
* `rotation_loses_a_put` — a put that lands between the list and the write-back is undone.
-/

import HullCi.Secrets.Vault

namespace HullCi.Secrets

open HullCi.Base HullCi.Base.Program

/-! ### The broker's storage -/

/-- Seal a value and store the ciphertext. -/
def putSecret (cipher : Cipher) (tenant name : String) (value : Bytes) : Prog Unit := do
  lift (validateName name)
  let sealed ← Vault.sealAs cipher tenant name value
  request (Call.put sealed)

def deleteSecret (tenant name : String) : Prog Bool :=
  request (Call.delete tenant name)

/-- Rewrap each record and write it back; `rewrapped` counts those that were behind. -/
def rewrapAll : List SealedSecret → ℕ → Prog ℕ
  | [], rewrapped => return rewrapped
  | sealed :: rest, rewrapped => do
    match ← Vault.rewrap sealed with
    | none => rewrapAll rest rewrapped
    | some updated =>
      let _ ← request (Call.put updated)
      rewrapAll rest (rewrapped + 1)

/-- Rotate a tenant's KEK and rewrap every record's DEK under the new version. -/
def rotateTenant (tenant : String) : Prog ℕ := do
  let _ ← lift (← request (.rotate tenant))
  let listed ← request (.list tenant)
  rewrapAll listed 0

/-! ### The requests, and what they mean -/

/-- A request to the broker's storage. -/
inductive Storing where
  | provisionTenant (tenant : String)
  | putSecret (tenant name : String) (value : Bytes)
  | deleteSecret (tenant name : String)
  | rotateTenant (tenant : String)

/-- What such a request returns. -/
inductive Stored where
  | unit
  | existed (existed : Bool)
  | rewrapped (count : ℕ)

/-- The program of a request. -/
def Storing.body (cipher : Cipher) : Storing → Prog Stored
  | .provisionTenant tenant => do
    let _ ← lift (← request (.provisionTenant tenant))
    return .unit
  | .putSecret tenant name value => do
    Secrets.putSecret cipher tenant name value
    return .unit
  | .deleteSecret tenant name => do
    let existed ← Secrets.deleteSecret tenant name
    return .existed existed
  | .rotateTenant tenant => do
    let count ← Secrets.rotateTenant tenant
    return .rewrapped count

/-- The abstract store: the value under each name. -/
abbrev Ledger := Table (String ×ₗ String) Bytes

/-- What the landing of a call means: a put of a value, a deletion, or — as a rotation rewraps —
nothing. -/
def Ledger.note (ledger : Ledger) : Storing → Call → Ledger
  | .putSecret tenant name value, .put _ => ledger.insert (toLex (tenant, name)) value
  | .deleteSecret tenant name, .delete .. => ledger.erase (toLex (tenant, name))
  | _, _ => ledger

/-- The vaults, with what the landed requests mean. -/
structure Ledgered where
  vaults : Vaults
  ledger : Ledger

/-- What is to be read under a name: the value it is said to have, or nothing. -/
def Vaults.Shows (cipher : Cipher) (s : Vaults) (tenant name : String) : Option Bytes → Prop
  | none => s.rows.get tenant name = none
  | some value => ∃ sealed, s.rows.get tenant name = some sealed ∧
      s.opened cipher tenant name sealed = .ok value

/-- The store holds under each name what the ledger says. -/
structure Faithful (cipher : Cipher) (s : Ledgered) : Prop where
  reads : ∀ tenant name, s.vaults.Shows cipher tenant name (s.ledger.lookup (toLex (tenant, name)))

theorem Faithful.opens {cipher : Cipher} {s : Ledgered} (faithful : Faithful cipher s)
    {tenant name : String} {value : Bytes}
    (entry : s.ledger.lookup (toLex (tenant, name)) = some value) :
    (s.vaults.rows.get tenant name).map (s.vaults.opened cipher tenant name) =
      some (.ok value) := by
  have shows := faithful.reads tenant name
  rw [entry] at shows
  obtain ⟨sealed, found, opened⟩ := shows
  rw [found, Option.map_some, opened]

/-- The record under the name bears the value. -/
def Holds (cipher : Cipher) (s : Ledgered) (tenant name : String) : Option Bytes → Prop
  | none => s.vaults.rows.get tenant name = none
  | some value => ∃ sealed, s.vaults.rows.get tenant name = some sealed ∧
      (sealed.tenant = tenant ∧ sealed.name = name) ∧ Bears cipher s.vaults.keys value sealed

/-- A write-back finds the record it was made from: a rewrap keeps the ciphertext. -/
def Undisturbed (s : Ledgered) : Storing → Call → Prop
  | .rotateTenant _, .put updated =>
    (s.vaults.rows.get updated.tenant updated.name).map SealedSecret.ciphertext =
      some updated.ciphertext
  | _, _ => True

instance (s : Ledgered) (request : Storing) (call : Call) : Decidable (Undisturbed s request call) := by
  unfold Undisturbed
  split
  · infer_instance
  · infer_instance

/-- The storage contract: each name holds what the ledger says, and no key goes. -/
def storage (cipher : Cipher) : Contract Ledgered Storing Input Answer where
  handle s caller input call :=
    ({ vaults := (perform cipher s.vaults input call).1
       ledger := s.ledger.note caller.request call },
      (perform cipher s.vaults input call).2)
  inv s := ∀ tenant name, Holds cipher s tenant name (s.ledger.lookup (toLex (tenant, name)))
  rely s s' := ∀ tenant version kek, s.vaults.keys.withKek tenant version = .ok kek →
    s'.vaults.keys.withKek tenant version = .ok kek
  may s caller _ call := Undisturbed s caller.request call
  rely_refl _ _ _ _ found := found
  rely_trans first second tenant version kek found :=
    second tenant version kek (first tenant version kek found)

instance (cipher : Cipher) (s : Ledgered) (caller : Caller Storing) (input : Input) (call : Call) :
    Decidable ((storage cipher).may s caller input call) :=
  inferInstanceAs (Decidable (Undisturbed s caller.request call))

section Storage

variable {cipher : Cipher}

theorem Bears.later {keys keys' : DevKeyManager} {value : Bytes} {sealed : SealedSecret}
    (bears : Bears cipher keys value sealed)
    (kept : ∀ tenant version kek, keys.withKek tenant version = .ok kek →
      keys'.withKek tenant version = .ok kek) : Bears cipher keys' value sealed := by
  obtain ⟨dek, kek, text, wrap, found⟩ := bears
  exact ⟨dek, kek, text, wrap, kept _ _ _ found⟩

/-- A call that moves no row and no ledger entry, and loses no key. -/
theorem storage_kept {s : Ledgered} {caller : Caller Storing} {input : Input} {call : Call}
    (inv : (storage cipher).inv s) (rows : (perform cipher s.vaults input call).1.rows = s.vaults.rows)
    (ledger : s.ledger.note caller.request call = s.ledger)
    (kept : ∀ tenant version kek, s.vaults.keys.withKek tenant version = .ok kek →
      (perform cipher s.vaults input call).1.keys.withKek tenant version = .ok kek) :
    (storage cipher).inv ((storage cipher).handle s caller input call).1 ∧
      (storage cipher).rely s ((storage cipher).handle s caller input call).1 := by
  refine ⟨fun tenant name => ?_, kept⟩
  show Holds cipher _ tenant name ((s.ledger.note caller.request call).lookup _)
  rw [ledger]
  have held := inv tenant name
  unfold Holds at held ⊢
  split
  · rename_i none
    rw [none] at held
    show (perform cipher s.vaults input call).1.rows.get tenant name = _
    rw [rows]
    exact held
  · rename_i value some
    rw [some] at held
    obtain ⟨sealed, found, labels, bears⟩ := held
    refine ⟨sealed, ?_, labels, bears.later kept⟩
    show (perform cipher s.vaults input call).1.rows.get tenant name = _
    rw [rows]
    exact found

theorem note_reads (ledger : Ledger) (request : Storing) {call : Call} (reads : call.reads = true) :
    ledger.note request call = ledger := by
  cases call with
  | put => cases reads
  | delete => cases reads
  | _ => cases request <;> rfl

variable (cipher) in
theorem perform_reads (s : Vaults) (input : Input) {call : Call} (reads : call.reads = true) :
    (perform cipher s input call).1 = s := by
  cases call with
  | provisionTenant => cases reads
  | rotate => cases reads
  | shred => cases reads
  | put => cases reads
  | delete => cases reads
  | _ => rfl

theorem storage_serves : Serves (storage cipher) cipher Ledgered.vaults id where
  keeps {s caller input call} reads inv _ := by
    have same := perform_reads cipher s.vaults input reads
    refine storage_kept inv (by rw [same]) (note_reads _ _ reads) fun _ _ _ found => ?_
    rw [same]
    exact found
  answers _ _ _ _ := rfl

/-- A record written under its labels, and the value it bears in the ledger. -/
theorem storage_put {s s' : Ledgered} {value : Bytes} {sealed : SealedSecret}
    (inv : (storage cipher).inv s) (keys : s'.vaults.keys = s.vaults.keys)
    (rows : s'.vaults.rows = s.vaults.rows.put sealed)
    (ledger : ∀ tenant name, s'.ledger.lookup (toLex (tenant, name)) =
      if tenant = sealed.tenant ∧ name = sealed.name then some value
      else s.ledger.lookup (toLex (tenant, name)))
    (bears : Bears cipher s.vaults.keys value sealed) : (storage cipher).inv s' := by
  intro tenant name
  rw [ledger]
  have held := inv tenant name
  by_cases own : tenant = sealed.tenant ∧ name = sealed.name
  · rw [if_pos own]
    refine ⟨sealed, ?_, ⟨own.1.symm, own.2.symm⟩, ?_⟩
    · rw [rows, SealedStore.get_put, if_pos own]
    · rw [keys]
      exact bears
  · rw [if_neg own]
    unfold Holds at held ⊢
    split
    · rename_i none
      rw [none] at held
      rw [rows, SealedStore.get_put, if_neg own]
      exact held
    · rename_i value' some
      rw [some] at held
      obtain ⟨sealed', found, labels, bears'⟩ := held
      refine ⟨sealed', ?_, labels, ?_⟩
      · rw [rows, SealedStore.get_put, if_neg own]
        exact found
      · rw [keys]
        exact bears'

/-- Any value is under the name it was put under; none is, once it was deleted. -/
theorem storage_delete {s s' : Ledgered} {tenant name : String} (inv : (storage cipher).inv s)
    (keys : s'.vaults.keys = s.vaults.keys)
    (rows : s'.vaults.rows = s.vaults.rows.delete tenant name)
    (ledger : s'.ledger = s.ledger.erase (toLex (tenant, name))) : (storage cipher).inv s' := by
  intro tenant' name'
  have held := inv tenant' name'
  rw [ledger, Table.lookup_erase]
  simp only [EmbeddingLike.apply_eq_iff_eq, Prod.mk.injEq]
  by_cases own : tenant' = tenant ∧ name' = name
  · rw [if_pos own]
    show s'.vaults.rows.get tenant' name' = none
    rw [rows, SealedStore.get_delete, if_pos own]
  · rw [if_neg own]
    have same : s'.vaults.rows.get tenant' name' = s.vaults.rows.get tenant' name' := by
      rw [rows, SealedStore.get_delete, if_neg own]
    unfold Holds at held ⊢
    rw [same, keys]
    exact held

/-! ### The programs -/

theorem bears_wrapped {s₁ s : Ledgered} {dek : Dek} {value : Bytes} {nonce : Nonce}
    {record : SealedSecret} (later : (storage cipher).rely s₁ s)
    (text : SealedUnder cipher dek value (valueAad record.tenant record.name) record.ciphertext)
    (wrap : s₁.vaults.keys.wrapDek cipher nonce record.tenant record.kekVersion dek
      (wrapAad record.tenant record.name record.kekVersion) = .ok record.wrappedDek) :
    Bears cipher s.vaults.keys value record := by
  obtain ⟨kek, found, wrap⟩ := DevKeyManager.wrapDek_ok.mp wrap
  exact ⟨dek, kek, text, ⟨nonce, wrap⟩, later _ _ _ found⟩

theorem bears_rewrapped (ideal : cipher.Ideal) {s : Ledgered} {keys : DevKeyManager} {value : Bytes}
    {sealed record : SealedSecret} (bears : Bears cipher keys value sealed)
    (spec : RewrapSpec (storage cipher) cipher Ledgered.vaults sealed s record) :
    Bears cipher s.vaults.keys value record := by
  obtain ⟨dek, kek, ⟨_, text⟩, ⟨_, wrap⟩, _⟩ := bears
  obtain ⟨parts, dek', s₁, nonce, ⟨_, later⟩, ⟨kek', opened⟩, wrap'⟩ := spec
  obtain ⟨_, opened⟩ := (aeadOpen_iff ideal).mp opened
  obtain ⟨_, deks, _⟩ := aeadSeal_inj ideal opened wrap
  obtain rfl : dek' = dek := Vector.toList_inj.mp deks
  refine bears_wrapped later ?_ wrap'
  rw [parts]
  exact ⟨_, text⟩

theorem bears_unique (ideal : cipher.Ideal) {keys keys' : DevKeyManager} {value value' : Bytes}
    {sealed sealed' : SealedSecret} (bears : Bears cipher keys value sealed)
    (bears' : Bears cipher keys' value' sealed') (same : sealed.ciphertext = sealed'.ciphertext) :
    value = value' := by
  obtain ⟨_, _, ⟨_, text⟩, _⟩ := bears
  obtain ⟨_, _, ⟨_, text'⟩, _⟩ := bears'
  rw [same] at text
  exact (aeadSeal_inj ideal text text').2.1

/-- The rest of the run is all that is asked of a storage request. -/
def anything : Ledgered → Except SecretError Stored → Prop := fun _ _ => True

theorem safe_putSecret (thread : ℕ) (tenant name : String) (value : Bytes) {s : Ledgered}
    (inv : (storage cipher).inv s) :
    (storage cipher).Safe ⟨thread, .putSecret tenant name value⟩ anything
      ((Storing.putSecret tenant name value).body cipher) s := by
  show (storage cipher).Safe _ _ (putSecret cipher tenant name value >>= fun _ => done Stored.unit) s
  unfold putSecret
  cases validateName name with
  | error e => exact fun _ _ _ => trivial
  | ok valid =>
    rw [lift_ok, bind_done, bind_assoc]
    refine (storage_serves.sealAs tenant name value s).bind inv fun s₁ r _ _ spec => ?_
    refine Contract.safe_lift (fun record ok => ?_) (fun _ _ _ _ _ => trivial)
    obtain ⟨⟨rfl, rfl⟩, dek, s₂, nonce, ⟨_, later⟩, text, wrap⟩ := spec record ok
    intro s₃ later₃ inv₃ input _
    refine ⟨?_, fun _ _ _ found => found, fun _ _ _ => trivial⟩
    refine storage_put inv₃ rfl rfl (fun tenant name => ?_)
      (bears_wrapped ((storage cipher).rely_trans later later₃) text wrap)
    show (s₃.ledger.insert (toLex (record.tenant, record.name)) value).lookup _ = _
    rw [Table.lookup_insert]
    simp only [EmbeddingLike.apply_eq_iff_eq, Prod.mk.injEq]

theorem safe_deleteSecret (thread : ℕ) (tenant name : String) {s : Ledgered} :
    (storage cipher).Safe ⟨thread, .deleteSecret tenant name⟩ anything
      ((Storing.deleteSecret tenant name).body cipher) s := by
  intro s₁ _ inv input _
  exact ⟨storage_delete inv rfl rfl rfl, fun _ _ _ found => found, fun _ _ _ => trivial⟩

/-- A record that a rotation has listed, and is still to rewrap. -/
def Listed (cipher : Cipher) (s : Ledgered) (records : List SealedSecret) : Prop :=
  ∀ record ∈ records, ∃ value, Bears cipher s.vaults.keys value record

theorem Listed.later {s s' : Ledgered} {records : List SealedSecret}
    (listed : Listed cipher s records) (later : (storage cipher).rely s s') :
    Listed cipher s' records := by
  intro record member
  obtain ⟨value, bears⟩ := listed record member
  exact ⟨value, bears.later later⟩

/-- **The sweep.** It writes a rewrapped record only over the record it was made from. -/
theorem safe_rewrapAll (ideal : cipher.Ideal) (thread : ℕ) (tenant : String)
    (records : List SealedSecret) (rewrapped : ℕ) {s : Ledgered} (inv : (storage cipher).inv s)
    (listed : Listed cipher s records) :
    (storage cipher).Safe ⟨thread, .rotateTenant tenant⟩ anything
      (rewrapAll records rewrapped >>= fun count => done (.rewrapped count)) s := by
  induction records generalizing rewrapped s with
  | nil => exact fun _ _ _ => trivial
  | cons sealed rest ih =>
    unfold rewrapAll
    rw [bind_assoc]
    refine (storage_serves.rewrap sealed s).bind inv fun s₁ r later₁ inv₁ spec => ?_
    refine Contract.safe_lift (fun updated ok => ?_) (fun _ _ _ _ _ => trivial)
    have remaining : Listed cipher s rest := fun record member =>
      listed record (List.mem_cons_of_mem _ member)
    cases updated with
    | none => exact ih rewrapped inv₁ (remaining.later later₁)
    | some updated =>
      obtain ⟨value, bears⟩ := listed sealed List.mem_cons_self
      have bears := bears_rewrapped ideal bears (spec updated ok)
      intro s₂ later₂ inv₂ input undisturbed
      obtain ⟨current, found, same⟩ := Option.map_eq_some_iff.mp undisturbed
      have grown : (storage cipher).rely s₂ ((storage cipher).handle s₂
          ⟨thread, .rotateTenant tenant⟩ input (.put updated)).1 := fun _ _ _ found => found
      have kept : (storage cipher).inv ((storage cipher).handle s₂
          ⟨thread, .rotateTenant tenant⟩ input (.put updated)).1 := by
        refine storage_put inv₂ rfl rfl (fun tenant' name' => ?_) (bears.later later₂)
        show s₂.ledger.lookup _ = _
        -- the ledger's value is the one the record on the spot holds, and so does the rewrap
        by_cases own : tenant' = updated.tenant ∧ name' = updated.name
        · obtain ⟨rfl, rfl⟩ := own
          rw [if_pos ⟨rfl, rfl⟩]
          have held := inv₂ updated.tenant updated.name
          cases entry : s₂.ledger.lookup (toLex (updated.tenant, updated.name)) with
          | none =>
            rw [entry] at held
            rw [show s₂.vaults.rows.get updated.tenant updated.name = none from held] at found
            cases found
          | some value' =>
            rw [entry] at held
            obtain ⟨current', found', _, bears'⟩ := held
            rw [found] at found'
            cases found'
            rw [bears_unique ideal bears' bears same]
        · rw [if_neg own]
      refine ⟨kept, grown, ih _ kept ((remaining.later later₁).later ?_)⟩
      exact (storage cipher).rely_trans later₂ grown

theorem safe_rotateTenant (ideal : cipher.Ideal) (thread : ℕ) (tenant : String) {s : Ledgered} :
    (storage cipher).Safe ⟨thread, .rotateTenant tenant⟩ anything
      ((Storing.rotateTenant tenant).body cipher) s := by
  show (storage cipher).Safe _ _
    (rotateTenant tenant >>= fun count => done (Stored.rewrapped count)) s
  unfold rotateTenant
  simp only [bind_request, bind_call, bind_assoc]
  refine Contract.safe_kept (fun s₁ input inv _ => storage_kept inv rfl rfl fun t v k =>
    (s₁.vaults.keys.grows_rotate input.key tenant t v k).1) fun s₁ input _ _ _ _ _ => ?_
  refine Contract.safe_lift (fun version _ => ?_) (fun _ _ _ _ _ => trivial)
  refine storage_serves.safe_call rfl fun s₂ s₃ _ inv₂ later inv₃ => ?_
  refine safe_rewrapAll ideal thread tenant _ 0 inv₃ fun record member => ?_
  obtain ⟨name, found⟩ := SealedStore.mem_list.mp member
  have held := inv₂ tenant name
  cases entry : s₂.ledger.lookup (toLex (tenant, name)) with
  | none =>
    rw [entry] at held
    rw [show s₂.vaults.rows.get tenant name = none from held] at found
    cases found
  | some value =>
    rw [entry] at held
    obtain ⟨record', found', _, bears⟩ := held
    rw [found] at found'
    cases found'
    exact ⟨value, bears.later later⟩

/-! ### Runs -/

/-- The threads of the storage requests, over the vaults and the ledger. -/
abbrev Brokers := Pool Ledgered Storing Answer SecretError Stored

/-- One turn of the broker's threads. -/
abbrev Brokers.step (cipher : Cipher) (p : Brokers) (t : Turn Storing Input) : Brokers :=
  Pool.step (storage cipher).handle (Storing.body cipher) p t

/-- No tenant, no record, no thread. -/
def Brokers.start : Brokers :=
  Pool.idle { vaults := Vaults.new, ledger := ∅ }

/-- The state after a list of turns. -/
abbrev Brokers.after (cipher : Cipher) (turns : List (Turn Storing Input)) : Brokers :=
  run (Brokers.step cipher) Brokers.start turns

/-- The turn does not write back, over another record, what a rotation has rewrapped. -/
abbrev Brokers.Admits (cipher : Cipher) : Brokers → Turn Storing Input → Prop :=
  (storage cipher).Admits fun _ _ => True

theorem safe_storing (ideal : cipher.Ideal) (thread : ℕ) (request : Storing) {s : Ledgered}
    (inv : (storage cipher).inv s) :
    (storage cipher).Safe ⟨thread, request⟩ anything (request.body cipher) s := by
  cases request with
  | provisionTenant tenant =>
    refine Contract.safe_kept (fun s₁ input inv _ => storage_kept inv rfl rfl fun t v k =>
      (s₁.vaults.keys.grows_provisionTenant input.key tenant t v k).1) fun s₁ input _ _ _ _ _ => ?_
    exact Contract.safe_lift (fun _ _ _ _ _ => trivial) (fun _ _ _ _ _ => trivial)
  | putSecret tenant name value => exact safe_putSecret thread tenant name value inv
  | deleteSecret tenant name => exact safe_deleteSecret thread tenant name
  | rotateTenant tenant => exact safe_rotateTenant ideal thread tenant

theorem storage_after (ideal : cipher.Ideal) {turns : List (Turn Storing Input)}
    (along : Along (Brokers.step cipher) (Brokers.Admits cipher) .start turns) :
    (storage cipher).inv (Brokers.after cipher turns).shared := by
  have start : (storage cipher).Good (fun _ => anything) Brokers.start :=
    Contract.good_idle fun tenant name => rfl
  exact (Contract.good_run (fun _ i request good _ => safe_storing ideal i request good.inv) start
    along).inv

/-- **A rotation loses no update that does not cross it.** In every run in which each write-back of
a rotation finds the record it was made from, the store holds under each name, at any moment, what
the put or the delete that landed last left there. -/
theorem rotation_faithful (cipher : Cipher) (ideal : cipher.Ideal)
    (turns : List (Turn Storing Input))
    (along : Along (Brokers.step cipher) (Brokers.Admits cipher) .start turns) :
    Faithful cipher (Brokers.after cipher turns).shared := by
  refine ⟨fun tenant name => ?_⟩
  have held := storage_after ideal along tenant name
  cases entry : (Brokers.after cipher turns).shared.ledger.lookup (toLex (tenant, name)) with
  | none =>
    rw [entry] at held
    exact held
  | some value =>
    rw [entry] at held
    obtain ⟨sealed, found, ⟨rfl, rfl⟩, bears⟩ := held
    exact ⟨sealed, found, bears.opened ideal⟩

end Storage

/-- One turn of a thread, with key material and a nonce of its own. -/
def drawing (thread : ℕ) (n : UInt8) : Turn Storing Input :=
  .turn thread { key := Vector.replicate 32 n, nonce := Vector.replicate 24 n }

/-- A tenant, a value, and a rotation that has listed the tenant's records. -/
def listedRotation : List (Turn Storing Input) :=
  [.start (.provisionTenant "acme"), drawing 0 1, .start (.putSecret "acme" "NPM_TOKEN" [1]),
    drawing 1 2, drawing 1 3, drawing 1 4, drawing 1 5, drawing 1 6,
    .start (.rotateTenant "acme"), drawing 2 7, drawing 2 8]

/-- The rest of that rotation: the record is rewrapped, and written back. -/
def writeBack : List (Turn Storing Input) :=
  [drawing 2 9, drawing 2 10, drawing 2 11, drawing 2 12]

/-- A new value, put. -/
def putMeanwhile : List (Turn Storing Input) :=
  [.start (.putSecret "acme" "NPM_TOKEN" [2]), drawing 3 13, drawing 3 14, drawing 3 15,
    drawing 3 16, drawing 3 17]

/-- The rotation with nothing else running. -/
def aRotationAlone : List (Turn Storing Input) :=
  listedRotation ++ writeBack

/-- The put, between the list and the write-back. -/
def aLostPut : List (Turn Storing Input) :=
  listedRotation ++ putMeanwhile ++ writeBack

theorem rotation_faithful_alone :
    Faithful clearCipher (Brokers.after clearCipher aRotationAlone).shared :=
  rotation_faithful clearCipher clearCipher_ideal aRotationAlone (by decide +kernel)

/-- **A put that lands while a rotation is at it is undone.** Every call has returned, the newer
value was put last, and the store holds the older one. -/
theorem rotation_loses_a_put : ¬ ∀ turns, (Brokers.after clearCipher turns).Quiet →
    Faithful clearCipher (Brokers.after clearCipher turns).shared := by
  intro faithful
  have older : ((Brokers.after clearCipher aLostPut).shared.vaults.rows.get "acme" "NPM_TOKEN").map
      ((Brokers.after clearCipher aLostPut).shared.vaults.opened clearCipher "acme" "NPM_TOKEN") =
        some (.ok [1]) := by decide +kernel
  have put : (Brokers.after clearCipher aLostPut).shared.ledger.lookup
      (toLex ("acme", "NPM_TOKEN")) = some [2] := by decide +kernel
  have newer := (faithful aLostPut (by decide +kernel)).opens put
  rw [older] at newer
  cases newer

end HullCi.Secrets
