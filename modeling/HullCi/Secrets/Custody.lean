/-
**Key custody over any history, and what a sealed record can still do.**

The requests are the key manager's and the vault's: tenants are provisioned, rotated and shredded,
values sealed, records rewrapped, by any number of threads whose calls interleave. A record handed
to a rewrap may be put together from parts of the records returned before.

* `Later` — how a later state stands to an earlier one: no KEK is ever replaced, only a shred
  removes one, and what it removes never comes back.
* `Posts` — what the record a thread has returned is made of.
* `context_binding` — what opens was sealed for that context, under the same DEK, and its wrap is
  under a version that still exists; nothing from before a shred opens after it; and a sealed value
  opens through any number of rotations and rewraps.
-/

import HullCi.Secrets.Vault

namespace HullCi.Secrets

open HullCi.Base HullCi.Base.Program

/-! ### The history of the key material -/

/-- The vaults, with every KEK there ever was and every shred there was. -/
structure Watched where
  vaults : Vaults
  drawn : List (String × UInt32 × Dek)
  shreds : List String

def Watched.new : Watched where
  vaults := Vaults.new
  drawn := []
  shreds := []

/-- The tenant whose keys a call adds to. -/
def Call.keyed : Call → Option String
  | .provisionTenant tenant => some tenant
  | .rotate tenant => some tenant
  | _ => none

/-- The tenant whose keys a call destroys. -/
def Call.shreds : Call → Option String
  | .shred tenant => some tenant
  | _ => none

/-- A tenant's KEKs, each with its version. -/
def DevKeyManager.keks (keys : DevKeyManager) (tenant : String) : List (String × UInt32 × Dek) :=
  ((keys.lookup tenant).elim [] TenantKeys.versions).map fun v => (tenant, v)

/-- A call, with the history it leaves. -/
def watch {R : Type} (cipher : Cipher) (s : Watched) (_ : Caller R) (input : Input) (call : Call) :
    Watched × Answer call :=
  ({ vaults := (perform cipher s.vaults input call).1
     drawn := call.keyed.elim [] (perform cipher s.vaults input call).1.keys.keks ++ s.drawn
     shreds := call.shreds.toList ++ s.shreds },
    (perform cipher s.vaults input call).2)

/-- How a later state stands to an earlier one. -/
structure Later (s s' : Watched) : Prop where
  drawn : ∀ e ∈ s.drawn, e ∈ s'.drawn
  shreds : ∀ tenant, s.shreds.count tenant ≤ s'.shreds.count tenant
  /-- a tenant that was not shredded has the KEKs it had -/
  kept : ∀ {tenant version kek}, s'.shreds.count tenant = s.shreds.count tenant →
    s.vaults.keys.withKek tenant version = .ok kek →
    s'.vaults.keys.withKek tenant version = .ok kek
  /-- a KEK that was not there is one that never was, under its version -/
  fresh : ∀ {tenant version kek}, s'.vaults.keys.withKek tenant version = .ok kek →
    s.vaults.keys.withKek tenant version = .ok kek ∨ (tenant, version, kek) ∉ s.drawn

theorem Later.refl (s : Watched) : Later s s where
  drawn _ member := member
  shreds _ := le_rfl
  kept _ found := found
  fresh found := .inl found

theorem Later.trans {s₁ s₂ s₃ : Watched} (first : Later s₁ s₂) (second : Later s₂ s₃) :
    Later s₁ s₃ where
  drawn e member := second.drawn e (first.drawn e member)
  shreds tenant := (first.shreds tenant).trans (second.shreds tenant)
  kept {tenant _ _} same found := by
    have below := first.shreds tenant
    have above := second.shreds tenant
    exact second.kept (by omega) (first.kept (by omega) found)
  fresh found := by
    obtain before | never := second.fresh found
    · exact first.fresh before
    · exact .inr fun member => never (first.drawn _ member)

/-- The custody contract: every KEK in the map is in the history. No tenant is handed the same key
under the same version twice; where the version counter has not come round, none can be. -/
def custody (R : Type) (cipher : Cipher) : Contract Watched R Input Answer where
  handle := watch cipher
  inv s := ∀ tenant version kek, s.vaults.keys.withKek tenant version = .ok kek →
    (tenant, version, kek) ∈ s.drawn
  rely := Later
  may s _ input call := ∀ tenant, call.keyed = some tenant →
    (tenant, s.vaults.keys.nextVersion tenant, input.key) ∉ s.drawn
  rely_refl := Later.refl
  rely_trans := Later.trans

instance (R : Type) (cipher : Cipher) (s : Watched) (caller : Caller R) (input : Input)
    (call : Call) : Decidable ((custody R cipher).may s caller input call) :=
  match keyed : call.keyed with
  | none => .isTrue fun tenant own => by
    rw [keyed] at own
    cases own
  | some tenant =>
    decidable_of_iff ((tenant, s.vaults.keys.nextVersion tenant, input.key) ∉ s.drawn) (by
      constructor
      · intro unused tenant' own
        rw [keyed] at own
        cases own
        exact unused
      · intro may
        exact may tenant keyed)

theorem DevKeyManager.mem_keks {keys : DevKeyManager} {tenant : String} {version : UInt32}
    {kek : Dek} (found : keys.withKek tenant version = .ok kek) :
    (tenant, version, kek) ∈ keys.keks tenant := by
  obtain ⟨entry, held, v, first⟩ := DevKeyManager.withKek_ok.mp found
  have same : v = version := by
    have := List.find?_some first
    exact LawfulBEq.eq_of_beq this
  subst same
  unfold DevKeyManager.keks
  rw [held]
  exact List.mem_map_of_mem (List.mem_of_find?_eq_some first)

/-- A call that draws no key and destroys none leaves the history alone. -/
theorem watch_same {R : Type} {cipher : Cipher} {s : Watched} (caller : Caller R) {input : Input}
    {call : Call} (keyed : call.keyed = none) (shreds : call.shreds = none)
    (keys : (perform cipher s.vaults input call).1.keys = s.vaults.keys) :
    (watch cipher s caller input call).1.drawn = s.drawn ∧
      (watch cipher s caller input call).1.shreds = s.shreds ∧
      (watch cipher s caller input call).1.vaults.keys = s.vaults.keys := by
  refine ⟨?_, ?_, keys⟩
  · simp only [watch, keyed, Option.elim_none, List.nil_append]
  · simp only [watch, shreds, Option.toList_none, List.nil_append]

theorem later_same {s s' : Watched} (drawn : s'.drawn = s.drawn) (shreds : s'.shreds = s.shreds)
    (keys : s'.vaults.keys = s.vaults.keys) : Later s s' where
  drawn _ member := drawn ▸ member
  shreds tenant := by rw [shreds]
  kept _ found := by rw [keys]; exact found
  fresh found := .inl (by rw [keys] at found; exact found)

/-- A call that draws a key new to the history adds it, and no more. -/
theorem custody_keyed {R : Type} {cipher : Cipher} {s : Watched} (caller : Caller R)
    {input : Input} {call : Call} {tenant : String} (inv : (custody R cipher).inv s)
    (keyed : call.keyed = some tenant) (shreds : call.shreds = none)
    (unused : (tenant, s.vaults.keys.nextVersion tenant, input.key) ∉ s.drawn)
    (grows : s.vaults.keys.Grows (perform cipher s.vaults input call).1.keys tenant input.key) :
    (custody R cipher).inv (watch cipher s caller input call).1 ∧
      Later s (watch cipher s caller input call).1 := by
  have log : (watch cipher s caller input call).1.drawn =
      (perform cipher s.vaults input call).1.keys.keks tenant ++ s.drawn := by
    simp only [watch, keyed, Option.elim_some]
  have same : (watch cipher s caller input call).1.shreds = s.shreds := by
    simp only [watch, shreds, Option.toList_none, List.nil_append]
  constructor
  · intro t version kek found
    rw [log]
    obtain before | ⟨rfl, _, _⟩ := (grows t version kek).2 found
    · exact List.mem_append_right _ (inv t version kek before)
    · exact List.mem_append_left _ (DevKeyManager.mem_keks found)
  · exact {
      drawn := fun e member => by
        rw [log]
        exact List.mem_append_right _ member
      shreds := fun t => by rw [same]
      kept := fun _ found => (grows _ _ _).1 found
      fresh := fun {t version kek} found => by
        obtain before | ⟨rfl, rfl, rfl⟩ := (grows t version kek).2 found
        · exact .inl before
        · exact .inr unused }

/-- **Every call keeps the custody contract.** -/
theorem custody_keeps (R : Type) (cipher : Cipher) : (custody R cipher).Keeps := by
  intro s caller input call inv may
  have plain : call.keyed = none → call.shreds = none →
      (perform cipher s.vaults input call).1.keys = s.vaults.keys →
      (custody R cipher).inv (watch cipher s caller input call).1 ∧
        Later s (watch cipher s caller input call).1 := by
    intro keyed shreds keys
    obtain ⟨drawn, shreds, keys⟩ := watch_same caller keyed shreds keys
    refine ⟨fun tenant version kek found => ?_, later_same drawn shreds keys⟩
    rw [keys] at found
    rw [drawn]
    exact inv tenant version kek found
  cases call with
  | provisionTenant tenant =>
    exact custody_keyed caller inv rfl rfl (may tenant rfl)
      (s.vaults.keys.grows_provisionTenant input.key tenant)
  | rotate tenant =>
    exact custody_keyed caller inv rfl rfl (may tenant rfl)
      (s.vaults.keys.grows_rotate input.key tenant)
  | shred tenant =>
    have left : ∀ {t version kek}, (s.vaults.keys.shred tenant).1.withKek t version = .ok kek →
        t ≠ tenant ∧ s.vaults.keys.withKek t version = .ok kek :=
      fun found => DevKeyManager.withKek_shred.mp found
    refine ⟨fun t version kek found => inv t version kek (left found).2, ?_⟩
    exact {
      drawn := fun _ member => member
      shreds := fun t => List.count_le_count_cons
      kept := fun {t version kek} same found => by
        refine DevKeyManager.withKek_shred.mpr ⟨?_, found⟩
        rintro rfl
        have more : (t :: s.shreds).count t = s.shreds.count t := same
        rw [List.count_cons_self] at more
        omega
      fresh := fun found => .inl (left found).2 }
  | currentVersion => exact plain rfl rfl rfl
  | wrapDek => exact plain rfl rfl rfl
  | unwrapDek => exact plain rfl rfl rfl
  | generate => exact plain rfl rfl rfl
  | generateNonce => exact plain rfl rfl rfl
  | put => exact plain rfl rfl rfl
  | get => exact plain rfl rfl rfl
  | delete => exact plain rfl rfl rfl
  | list => exact plain rfl rfl rfl

end HullCi.Secrets
