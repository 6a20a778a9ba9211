/-
**What the broker's books say of its capabilities.**

`Books` are the broker and the log of every section it has served. Who asks for what is left to the
`Errands` of whoever runs it.

* `Sound` — every record was entered, each id once, for a request that asked for it; a claim that
  was answered had the entered grant, before its expiry, and nobody else's claim on it ever was;
  every row in the store was put there, sealed, for a request that asked for it.
* `Onward` — the log only grows, and a capability that is dead stays dead.
* `sound_call` — the sections keep both, where the ids entered are new and what is put and entered
  was asked for.
-/

import HullCi.Base.Trace
import HullCi.Secrets.Broker

namespace HullCi.Secrets

open HullCi.Base HullCi.Base.Program

/-- The sections that were served, the latest first. -/
abbrev Log (R : Type) := List (Entry R BrokerAnswer)

/-- The broker, and every section it has served. -/
abbrev Books (R : Type) := Traced Broker R BrokerAnswer

/-- What the requests ask for. -/
structure Errands (R : Type) where
  /-- the value is to be stored for the tenant, under the name -/
  puts : R → String → String → Bytes → Prop
  /-- the grant is to be minted -/
  mints : R → Family → Grant → Prop

/-- The ids entered so far. -/
def entered {R : Type} (log : Log R) (family : Family) : List CapId :=
  log.filterMap fun e =>
    match e.op with
    | .enter family' _ record => if family' = family then some record.grant.capId else none
    | _ => none

/-- The capability was minted: this grant, with this digest of its token. -/
def Minted {R : Type} (log : Log R) (family : Family) (grant : Grant) (digest : Digest) : Prop :=
  ∃ caller now,
    ⟨caller, .enter family now { grant, digest, consumed := false, revoked := false }, ()⟩ ∈ log

/-- No record of the capability can be redeemed or reasserted again. -/
def Dead (caps : CapRegistry) (id : CapId) : Prop :=
  ∀ record, caps.lookup id = some record → record.revoked = true

/-- How later books stand to earlier ones. -/
structure Onward {R : Type} (s s' : Books R) : Prop where
  log : ∀ e ∈ s.log, e ∈ s'.log
  dead : ∀ family id, id ∈ entered s.log family → Dead (s.state.caps family) id →
    Dead (s'.state.caps family) id

/-- The books are in order. -/
structure Sound {R : Type} (cipher : Cipher) (errands : Errands R) (s : Books R) : Prop where
  held : ∀ family id record, (s.state.caps family).lookup id = some record →
    record.grant.capId = id ∧ Minted s.log family record.grant record.digest
  unique : ∀ family g d g' d', Minted s.log family g d → Minted s.log family g' d' →
    g.capId = g'.capId → g = g' ∧ d = d'
  mints : ∀ caller family now record, ⟨caller, .enter family now record, ()⟩ ∈ s.log →
    errands.mints caller.request family record.grant
  claims : ∀ caller family id digest principal now grant,
    ⟨caller, .claim family id digest principal now, .ok grant⟩ ∈ s.log →
    (Minted s.log family grant digest ∧ grant.capId = id) ∧
      (grant.principal = principal ∧ now < grant.expiresAt) ∧
      ∀ record, (s.state.caps family).lookup id = some record → record.consumed = true
  once : ∀ caller family id digest principal now grant caller' digest' principal' now' grant',
    ⟨caller, .claim family id digest principal now, .ok grant⟩ ∈ s.log →
    ⟨caller', .claim family id digest' principal' now', .ok grant'⟩ ∈ s.log → caller = caller'
  rows : ∀ tenant name sealed, s.state.vaults.rows.get tenant name = some sealed →
    ∃ value, (∃ caller, ⟨caller, .vault (.put sealed), ()⟩ ∈ s.log ∧
      errands.puts caller.request tenant name value) ∧
      ∃ dek, SealedUnder cipher dek value (valueAad tenant name) sealed.ciphertext

/-- What a request may put and enter: what it was asked to. -/
def Permitted {R : Type} (cipher : Cipher) (errands : Errands R) (caller : Caller R) :
    BrokerCall → Prop
  | .vault (.put sealed) => ∃ value, errands.puts caller.request sealed.tenant sealed.name value ∧
      ∃ dek, SealedUnder cipher dek value (valueAad sealed.tenant sealed.name) sealed.ciphertext
  | .enter family _ record => (record.consumed = false ∧ record.revoked = false) ∧
      errands.mints caller.request family record.grant
  | _ => True

/-- The id that is entered is a new one. -/
def Fresh {R : Type} (log : Log R) : BrokerCall → Prop
  | .enter family _ record => record.grant.capId ∉ entered log family
  | _ => True

instance {R : Type} (log : Log R) : ∀ op, Decidable (Fresh log op)
  | .enter family _ record => inferInstanceAs (Decidable (record.grant.capId ∉ entered log family))
  | .vault _ | .now | .drawToken | .claim .. | .reassert .. | .revoke .. | .revokeTenant ..
  | .revokeJob .. | .enrol .. | .withdraw .. | .resolve .. => .isTrue trivial

section Books

variable {R : Type} {cipher : Cipher} {errands : Errands R} {s : Books R} {caller : Caller R}
  {input : BrokerInput} {op : BrokerCall}

/-- The books after a section. -/
abbrev booked (cipher : Cipher) (s : Books R) (caller : Caller R) (input : BrokerInput)
    (op : BrokerCall) : Books R :=
  (traced (performBroker cipher) s caller input op).1

/-- No records and no log. -/
def Books.new : Books R where
  state := Broker.new
  log := []

theorem sound_new : Sound cipher errands (Books.new : Books R) where
  held _ _ _ found := by cases found
  unique _ _ _ _ _ := by
    rintro ⟨_, _, none⟩
    cases none
  mints _ _ _ _ none := by cases none
  claims _ _ _ _ _ _ _ none := by cases none
  once _ _ _ _ _ _ _ _ _ _ _ _ none := by cases none
  rows _ _ _ found := by cases found

theorem onward_refl (s : Books R) : Onward s s where
  log _ member := member
  dead _ _ _ dead := dead

theorem mem_entered {log : Log R} {family : Family} {id : CapId} :
    id ∈ entered log family ↔ ∃ caller now record,
      (⟨caller, .enter family now record, ()⟩ : Entry R BrokerAnswer) ∈ log ∧
        record.grant.capId = id := by
  unfold entered
  rw [List.mem_filterMap]
  constructor
  · rintro ⟨⟨caller, op, answer⟩, member, same⟩
    cases op with
    | enter family' now record =>
      dsimp only at same
      split at same
      · rename_i families
        cases families
        cases same
        exact ⟨caller, now, record, member, rfl⟩
      · cases same
    | _ => cases same
  · rintro ⟨caller, now, record, member, same⟩
    refine ⟨_, member, ?_⟩
    simp only [if_true, same]

theorem entered_mono {log log' : Log R} (grows : ∀ e ∈ log, e ∈ log') {family : Family} {id : CapId}
    (member : id ∈ entered log family) : id ∈ entered log' family := by
  obtain ⟨caller, now, record, logged, same⟩ := mem_entered.mp member
  exact mem_entered.mpr ⟨caller, now, record, grows _ logged, same⟩

theorem Minted.entered {log : Log R} {family : Family} {grant : Grant} {digest : Digest}
    (minted : Minted log family grant digest) : grant.capId ∈ entered log family := by
  obtain ⟨caller, now, member⟩ := minted
  exact mem_entered.mpr ⟨caller, now, _, member, rfl⟩

theorem Minted.mono {log log' : Log R} {family : Family} {grant : Grant} {digest : Digest}
    (minted : Minted log family grant digest) (grows : ∀ e ∈ log, e ∈ log') :
    Minted log' family grant digest := by
  obtain ⟨caller, now, member⟩ := minted
  exact ⟨caller, now, grows _ member⟩

theorem onward_trans {s₁ s₂ s₃ : Books R} (first : Onward s₁ s₂) (second : Onward s₂ s₃) :
    Onward s₁ s₃ where
  log e member := second.log e (first.log e member)
  dead family id member dead :=
    second.dead family id (entered_mono first.log member) (first.dead family id member dead)

/-! ### One section -/

/-- What a section does to the records of a family: it enters one, or it only marks some. -/
theorem caps_performBroker (cipher : Cipher) (b : Broker) (input : BrokerInput) (op : BrokerCall)
    (family : Family) :
    (∃ now record, op = .enter family now record ∧
      (performBroker cipher b input op).1.caps family = (b.caps family).enter now record) ∨
    (b.caps family).Marked ((performBroker cipher b input op).1.caps family) := by
  have update : ∀ (family' : Family) (caps' : CapRegistry), (b.caps family').Marked caps' →
      (b.caps family).Marked (Function.update b.caps family' caps' family) := by
    intro family' caps' marked
    rw [Function.update_apply]
    split
    · rename_i same
      exact same ▸ marked
    · exact CapRegistry.marked_refl _
  cases op with
  | enter family' now record =>
    by_cases same : family = family'
    · subst same
      refine .inl ⟨now, record, rfl, ?_⟩
      show Function.update b.caps family _ family = _
      rw [Function.update_self]
    · refine .inr ?_
      show CapRegistry.Marked _ (Function.update b.caps family' _ family)
      rw [Function.update_of_ne same]
      exact CapRegistry.marked_refl _
  | claim family' id digest principal now =>
    exact .inr (update _ _ (CapRegistry.marked_claim _ _ _ _ _ _))
  | revoke family' id => exact .inr (update _ _ (CapRegistry.marked_revoke _ _))
  | revokeTenant family' tenant => exact .inr (update _ _ (CapRegistry.marked_revokeAll _ _))
  | revokeJob family' jobId => exact .inr (update _ _ (CapRegistry.marked_revokeAll _ _))
  | vault op => exact .inr (CapRegistry.marked_refl _)
  | now => exact .inr (CapRegistry.marked_refl _)
  | drawToken => exact .inr (CapRegistry.marked_refl _)
  | reassert => exact .inr (CapRegistry.marked_refl _)
  | enrol => exact .inr (CapRegistry.marked_refl _)
  | withdraw => exact .inr (CapRegistry.marked_refl _)
  | resolve => exact .inr (CapRegistry.marked_refl _)

/-- A row after a section was there before, or the section put it there. -/
theorem rows_performBroker {cipher : Cipher} {b : Broker} {input : BrokerInput} {op : BrokerCall}
    {tenant name : String} {sealed : SealedSecret}
    (found : (performBroker cipher b input op).1.vaults.rows.get tenant name = some sealed) :
    b.vaults.rows.get tenant name = some sealed ∨
      op = .vault (.put sealed) ∧ sealed.tenant = tenant ∧ sealed.name = name := by
  cases op with
  | vault op =>
    cases op with
    | put sealed' =>
      have put : (b.vaults.rows.put sealed').get tenant name = some sealed := found
      rw [SealedStore.get_put] at put
      split at put
      · rename_i labels
        cases put
        exact .inr ⟨rfl, labels.1.symm, labels.2.symm⟩
      · exact .inl put
    | delete tenant' name' =>
      have left : (b.vaults.rows.delete tenant' name').get tenant name = some sealed := found
      rw [SealedStore.get_delete] at left
      split at left
      · cases left
      · exact .inl left
    | _ => exact .inl found
  | _ => exact .inl found

/-- The log after a section: what was there, and the section. -/
theorem mem_booked {e : Entry R BrokerAnswer} :
    e ∈ (booked cipher s caller input op).log ↔
      e = ⟨caller, op, (performBroker cipher s.state input op).2⟩ ∨ e ∈ s.log :=
  List.mem_cons

theorem onward_call (fresh : Fresh s.log op) : Onward s (booked cipher s caller input op) where
  log e member := mem_booked.mpr (.inr member)
  dead family id member dead record found := by
    obtain ⟨now, new, rfl, enters⟩ | marked := caps_performBroker cipher s.state input op family
    · have after : ((s.state.caps family).enter now new).lookup id = some record := enters ▸ found
      obtain ⟨rfl, _⟩ | ⟨_, older⟩ := CapRegistry.lookup_enter after
      · exact absurd member fresh
      · exact dead record older
    · obtain ⟨old, older, _, _, kept⟩ := marked id record found
      exact kept (dead old older)

/-- An entry of a grant, in the log after a section, was there before or is the section. -/
theorem minted_call {family : Family} {grant : Grant} {digest : Digest}
    (minted : Minted (booked cipher s caller input op).log family grant digest) :
    Minted s.log family grant digest ∨
      ∃ now, op = .enter family now { grant, digest, consumed := false, revoked := false } := by
  obtain ⟨caller', now, member⟩ := minted
  obtain new | older := mem_booked.mp member
  · injection new with _ ops _
    exact .inr ⟨now, ops.symm⟩
  · exact .inl ⟨caller', now, older⟩

/-- A claim that was answered with a grant, in the log after a section, was there before or is the
section. -/
theorem claim_call {caller' : Caller R} {family : Family} {id : CapId} {digest : Digest}
    {principal : String} {now : ℕ} {grant : Grant}
    (member : (⟨caller', .claim family id digest principal now, .ok grant⟩ :
      Entry R BrokerAnswer) ∈ (booked cipher s caller input op).log) :
    (⟨caller', .claim family id digest principal now, .ok grant⟩ : Entry R BrokerAnswer) ∈ s.log ∨
      caller' = caller ∧ op = .claim family id digest principal now ∧
        ∃ record, (s.state.caps family).lookup id = some record ∧ record.grant = grant ∧
          record.digest = digest ∧ record.consumed = false ∧ now < grant.expiresAt ∧
          grant.principal = principal ∧
          ((booked cipher s caller input op).state.caps family).lookup id =
            some { record with consumed := true } := by
  obtain new | older := mem_booked.mp member
  · right
    injection new with callers ops answers
    subst ops
    have ok : ((s.state.caps family).claim family.wrong id digest principal now).2 = .ok grant :=
      (eq_of_heq answers).symm
    obtain ⟨record, found, grants, digests, _, unconsumed, unexpired, principals, after⟩ :=
      CapRegistry.claim_ok (Prod.ext rfl ok)
    refine ⟨callers, rfl, record, found, grants, digests, unconsumed, unexpired, principals, ?_⟩
    show (Function.update s.state.caps family _ family).lookup id = _
    rw [Function.update_self]
    refine (congrArg (AList.lookup id) after).trans ?_
    rw [Table.lookup_insert, if_pos rfl]
  · exact .inl older

/-- **The step lemma.** A section that was asked for, on a new id, keeps the books in order. -/
theorem sound_call (sound : Sound cipher errands s) (permitted : Permitted cipher errands caller op)
    (fresh : Fresh s.log op) : Sound cipher errands (booked cipher s caller input op) := by
  have grows : ∀ e ∈ s.log, e ∈ (booked cipher s caller input op).log :=
    (onward_call fresh).log
  -- an id that is in the log is not the one that is entered now
  have unused : ∀ {family now record}, op = .enter family now record → ∀ {grant digest},
      Minted s.log family grant digest → grant.capId ≠ record.grant.capId := by
    rintro family now record rfl grant digest minted same
    exact fresh (same ▸ minted.entered)
  constructor
  case held =>
    intro family id record found
    obtain ⟨now, new, rfl, enters⟩ | marked := caps_performBroker cipher s.state input op family
    · have after : ((s.state.caps family).enter now new).lookup id = some record := enters ▸ found
      obtain ⟨rfl, rfl⟩ | ⟨_, older⟩ := CapRegistry.lookup_enter after
      · obtain ⟨⟨unconsumed, unrevoked⟩, _⟩ := permitted
        obtain ⟨grant, digest, consumed, revoked⟩ := record
        obtain rfl : consumed = false := unconsumed
        obtain rfl : revoked = false := unrevoked
        exact ⟨rfl, caller, now, mem_booked.mpr (.inl rfl)⟩
      · obtain ⟨ids, minted⟩ := sound.held family id record older
        exact ⟨ids, minted.mono grows⟩
    · obtain ⟨old, older, ⟨grants, digests⟩, _⟩ := marked id record found
      obtain ⟨ids, minted⟩ := sound.held family id old older
      rw [grants, digests]
      exact ⟨ids, minted.mono grows⟩
  case unique =>
    intro family g d g' d' minted minted' same
    obtain older | ⟨now, rfl⟩ := minted_call minted
    · obtain older' | ⟨now, rfl⟩ := minted_call minted'
      · exact sound.unique family g d g' d' older older' same
      · exact absurd same (unused rfl older)
    · obtain older' | ⟨now', ops⟩ := minted_call minted'
      · exact absurd same.symm (unused rfl older')
      · cases ops
        exact ⟨rfl, rfl⟩
  case mints =>
    intro caller' family now record member
    obtain new | older := mem_booked.mp member
    · injection new with callers ops _
      subst callers ops
      exact permitted.2
    · exact sound.mints caller' family now record older
  case claims =>
    intro caller' family id digest principal now grant member
    obtain older | ⟨_, _, record, found, rfl, rfl, _, unexpired, principals, after⟩ :=
      claim_call member
    · obtain ⟨⟨minted, ids⟩, checked, consumed⟩ := sound.claims _ _ _ _ _ _ _ older
      refine ⟨⟨minted.mono grows, ids⟩, checked, fun record found => ?_⟩
      obtain ⟨now', new, ops, enters⟩ | marked := caps_performBroker cipher s.state input op family
      · have after : ((s.state.caps family).enter now' new).lookup id = some record :=
          enters ▸ found
        obtain ⟨same, _⟩ | ⟨_, before⟩ := CapRegistry.lookup_enter after
        · exact absurd (ids.trans same) (unused ops minted)
        · exact consumed record before
      · obtain ⟨old, before, _, kept, _⟩ := marked id record found
        exact kept (consumed old before)
    · obtain ⟨ids, minted⟩ := sound.held family id record found
      refine ⟨⟨minted.mono grows, ids⟩, ⟨principals, unexpired⟩, fun record' found' => ?_⟩
      rw [after] at found'
      cases found'
      rfl
  case once =>
    intro caller₁ family id d₁ p₁ n₁ g₁ caller₂ d₂ p₂ n₂ g₂ member₁ member₂
    obtain older₁ | ⟨rfl, ops₁, record₁, found₁, _, _, unconsumed₁, _⟩ := claim_call member₁
    · obtain older₂ | ⟨rfl, _, record, found, _, _, unconsumed, _⟩ := claim_call member₂
      · exact sound.once _ _ _ _ _ _ _ _ _ _ _ _ older₁ older₂
      · have consumed := (sound.claims _ _ _ _ _ _ _ older₁).2.2 record found
        rw [unconsumed] at consumed
        cases consumed
    · obtain older₂ | ⟨rfl, _⟩ := claim_call member₂
      · have consumed := (sound.claims _ _ _ _ _ _ _ older₂).2.2 record₁ found₁
        rw [unconsumed₁] at consumed
        cases consumed
      · rfl
  case rows =>
    intro tenant name sealed found
    obtain before | ⟨rfl, rfl, rfl⟩ := rows_performBroker found
    · obtain ⟨value, ⟨caller', logged, puts⟩, sealing⟩ := sound.rows tenant name sealed before
      exact ⟨value, ⟨caller', grows _ logged, puts⟩, sealing⟩
    · obtain ⟨value, puts, sealing⟩ := permitted
      exact ⟨value, ⟨caller, mem_booked.mpr (.inl rfl), puts⟩, sealing⟩

end Books

end HullCi.Secrets
