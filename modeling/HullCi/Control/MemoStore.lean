/-
**The step memo, and what its tenants cost each other.**

One bounded store serves every tenant. A record for a full store first drops the oldest entry of the
tenant that holds most, the writer among equals; so a tenant within its share never pays for the
writes of another. It may pay for its own: a record that overwrites a key it holds makes room all
the same, though it needs none.

* `evictee_spec` — whose entry is dropped, and which.
* `Shelved` — what holds of the store and of what was recorded, in every state of a run.
* `record_other` — a record by another tenant drops no entry of a tenant within its share.
* `memo_fair_iff` — the store's promises over whole runs, and exactly when a tenant's own writes keep
  what it recorded.
-/

import HullCi.Base.Run
import HullCi.Base.Table
import HullCi.Control.Phases
import Mathlib.Algebra.Order.BigOperators.Group.Finset
import Mathlib.Data.List.MinMax
import Mathlib.Data.Prod.Lex

namespace HullCi.Control

open HullCi.Proto HullCi.Base

/-! ### The store -/

/-- How long each outcome survives, and how many entries all tenants share. -/
structure MemoPolicy where
  passedTtl : Duration := fromSecs (7 * 24 * 60 * 60)
  failedTtl : Duration := fromSecs (10 * 60)
  capacity : ℕ := 100000
  deriving DecidableEq, Repr

structure MemoEntry where
  outcome : MemoOutcome
  expiresAt : Instant
  seq : ℕ
  deriving DecidableEq, Repr

/-- A tenant and one of its step keys. -/
abbrev MemoKey := String × StepKey

structure InMemoryStepMemo where
  policy : MemoPolicy
  entries : Table MemoKey MemoEntry
  nextSeq : ℕ

def InMemoryStepMemo.new (policy : MemoPolicy) : InMemoryStepMemo :=
  ⟨policy, ∅, 0⟩

/-- How many entries a tenant holds. -/
def held (entries : Table MemoKey MemoEntry) (tenant : String) : ℕ :=
  entries.keys.countP (·.1 = tenant)

/-- How tenants compare for `max_by`: most entries, then the writer, then the smaller name. -/
def rank (entries : Table MemoKey MemoEntry) (recording tenant : String) :
    ℕ ×ₗ Bool ×ₗ Stringᵒᵈ :=
  toLex (held entries tenant, toLex (decide (tenant = recording), OrderDual.toDual tenant))

/-- The tenant that holds most, as `recording` breaks ties. -/
def fullest (entries : Table MemoKey MemoEntry) (recording : String) : Option String :=
  (entries.keys.map Prod.fst).argmax (rank entries recording)

/-- Which entry to drop to make room for a write by `recording`. -/
def evictee (entries : Table MemoKey MemoEntry) (recording : String) : Option MemoKey :=
  (fullest entries recording).bind fun tenant =>
    ((entries.entries.filter (·.1.1 = tenant)).argmin (·.2.seq)).map (·.1)

namespace InMemoryStepMemo

/-- `lookup`; an expired entry is dropped on the way past. -/
def lookup (memo : InMemoryStepMemo) (tenant : String) (key : StepKey) (now : Instant) :
    InMemoryStepMemo × Option MemoOutcome :=
  match memo.entries.lookup (tenant, key) with
  | none => (memo, none)
  | some entry =>
    if entry.expiresAt ≤ now then ({ memo with entries := memo.entries.erase (tenant, key) }, none)
    else (memo, some entry.outcome)

def ttl (policy : MemoPolicy) : MemoOutcome → Duration
  | .passed => policy.passedTtl
  | .failed => policy.failedTtl

/-- The entries once there is room. -/
def makeRoom (memo : InMemoryStepMemo) (tenant : String) : Table MemoKey MemoEntry :=
  if memo.policy.capacity ≤ memo.entries.size then
    match evictee memo.entries tenant with
    | some victim => memo.entries.erase victim
    | none => memo.entries
  else memo.entries

def record (memo : InMemoryStepMemo) (tenant : String) (key : StepKey) (outcome : MemoOutcome)
    (now : Instant) : InMemoryStepMemo :=
  { memo with
    entries := (memo.makeRoom tenant).insert (tenant, key)
      ⟨outcome, now + ttl memo.policy outcome, memo.nextSeq⟩
    nextSeq := memo.nextSeq + 1 }

end InMemoryStepMemo

/-! ### Counting entries -/

theorem mem_keys {entries : Table MemoKey MemoEntry} {k : MemoKey} :
    k ∈ entries.keys ↔ ∃ entry, entries.lookup k = some entry := by
  rw [← AList.mem_keys, ← AList.lookup_isSome, Option.isSome_iff_exists]

theorem nodup_keys (entries : Table MemoKey MemoEntry) : entries.keys.Nodup :=
  entries.nodupKeys

theorem length_keys (entries : Table MemoKey MemoEntry) : entries.keys.length = entries.size :=
  List.length_map _

theorem held_pos {entries : Table MemoKey MemoEntry} {tenant : String} :
    0 < held entries tenant ↔ ∃ key entry, entries.lookup (tenant, key) = some entry := by
  unfold held
  rw [List.countP_pos_iff]
  constructor
  · rintro ⟨⟨u, key⟩, member, mine⟩
    obtain rfl : u = tenant := of_decide_eq_true mine
    obtain ⟨entry, found⟩ := mem_keys.mp member
    exact ⟨key, entry, found⟩
  · rintro ⟨key, entry, found⟩
    exact ⟨(tenant, key), mem_keys.mpr ⟨entry, found⟩, decide_eq_true rfl⟩

/-- A tenant holds no more entries than there are keys it may hold. -/
theorem held_le {entries : Table MemoKey MemoEntry} {tenant : String} {keys : Finset StepKey}
    (within : ∀ key entry, entries.lookup (tenant, key) = some entry → key ∈ keys) :
    held entries tenant ≤ keys.card := by
  unfold held
  rw [List.countP_eq_length_filter]
  have nodup : ((entries.keys.filter (·.1 = tenant)).map Prod.snd).Nodup := by
    refine List.Nodup.map_on (fun a here b there same => ?_) ((nodup_keys entries).filter _)
    have first := of_decide_eq_true (List.mem_filter.mp here).2
    have second := of_decide_eq_true (List.mem_filter.mp there).2
    exact Prod.ext (first.trans second.symm) same
  rw [← List.length_map (f := Prod.snd), ← List.toFinset_card_of_nodup nodup]
  refine Finset.card_le_card fun key member => ?_
  obtain ⟨⟨u, key⟩, present, rfl⟩ := List.mem_map.mp (List.mem_toFinset.mp member)
  obtain ⟨stored, mine⟩ := List.mem_filter.mp present
  obtain rfl : u = tenant := of_decide_eq_true mine
  obtain ⟨entry, found⟩ := mem_keys.mp stored
  exact within key entry found

theorem size_eq_sum {entries : Table MemoKey MemoEntry} {tenants : Finset String}
    (all : ∀ k entry, entries.lookup k = some entry → k.1 ∈ tenants) :
    entries.size = ∑ tenant ∈ tenants, held entries tenant := by
  rw [← length_keys, ← List.toFinset_card_of_nodup (nodup_keys entries),
    Finset.card_eq_sum_card_fiberwise (f := Prod.fst) (t := tenants)]
  · refine Finset.sum_congr rfl fun tenant _ => ?_
    unfold held
    rw [List.countP_eq_length_filter,
      ← List.toFinset_card_of_nodup ((nodup_keys entries).filter _), List.toFinset_filter]
    simp
  · intro k member
    obtain ⟨entry, found⟩ := mem_keys.mp (List.mem_toFinset.mp member)
    exact all k entry found

/-! ### Who pays -/

theorem rank_le {entries : Table MemoKey MemoEntry} {recording a b : String}
    (le : rank entries recording a ≤ rank entries recording b) :
    held entries a ≤ held entries b ∧
      (held entries a = held entries b → a = recording → b = recording) := by
  rcases Prod.Lex.toLex_le_toLex.mp le with less | ⟨same, rest⟩
  · exact ⟨less.le, fun equal => absurd equal (Nat.ne_of_lt less)⟩
  · refine ⟨same.le, fun _ writer => ?_⟩
    rcases Prod.Lex.toLex_le_toLex.mp rest with less | ⟨both, -⟩
    · have last := Bool.lt_iff.mp less
      exact of_decide_eq_true last.2
    · have mine : decide (a = recording) = decide (b = recording) := both
      rw [writer] at mine
      simpa using mine.symm

/-- Whose entry is dropped, and which: the oldest of a tenant that holds most, and of the writer if
it holds as many. -/
structure Evictee (entries : Table MemoKey MemoEntry) (recording : String) (victim : MemoKey) :
    Prop where
  most : ∀ tenant, held entries tenant ≤ held entries victim.1
  writer : held entries recording = held entries victim.1 → victim.1 = recording
  oldest : ∃ entry, entries.lookup victim = some entry ∧
    ∀ key other, entries.lookup (victim.1, key) = some other → entry.seq ≤ other.seq

theorem evictee_spec {entries : Table MemoKey MemoEntry} {recording : String} {victim : MemoKey}
    (found : evictee entries recording = some victim) : Evictee entries recording victim := by
  obtain ⟨tenant, full, oldest⟩ := Option.bind_eq_some_iff.mp found
  obtain ⟨⟨k, entry⟩, least, rfl⟩ := Option.map_eq_some_iff.mp oldest
  obtain ⟨stored, mine⟩ := List.mem_filter.mp (List.argmin_mem least)
  obtain rfl : k.1 = tenant := of_decide_eq_true mine
  have holds : entries.lookup k = some entry := Table.mem_entries.mp stored
  have top : ∀ tenant, 0 < held entries tenant →
      rank entries recording tenant ≤ rank entries recording k.1 := by
    intro tenant holder
    obtain ⟨key, other, found⟩ := held_pos.mp holder
    exact List.le_of_mem_argmax
      (List.mem_map.mpr ⟨(tenant, key), mem_keys.mpr ⟨other, found⟩, rfl⟩) full
  refine ⟨fun tenant => ?_, fun same => ?_, entry, holds, fun key other found => ?_⟩
  · rcases Nat.eq_zero_or_pos (held entries tenant) with nothing | holder
    · rw [nothing]
      exact Nat.zero_le _
    · exact (rank_le (top tenant holder)).1
  · have holder : 0 < held entries recording := by
      rw [same]
      exact held_pos.mpr ⟨k.2, entry, holds⟩
    exact (rank_le (top recording holder)).2 same rfl
  · have listed : (⟨(k.1, key), other⟩ : Sigma fun _ : MemoKey => MemoEntry) ∈
        entries.entries.filter (·.1.1 = k.1) :=
      List.mem_filter.mpr ⟨Table.mem_entries.mpr found, decide_eq_true rfl⟩
    exact List.le_of_mem_argmin (f := fun e : Sigma fun _ : MemoKey => MemoEntry => e.2.seq) listed
      least

theorem evictee_isSome {entries : Table MemoKey MemoEntry} {recording : String}
    (holds : 0 < entries.size) : ∃ victim, evictee entries recording = some victim := by
  have listed : entries.keys.map Prod.fst ≠ [] := by
    intro empty
    rw [← length_keys, List.map_eq_nil_iff.mp empty] at holds
    exact absurd holds (Nat.lt_irrefl 0)
  unfold evictee fullest
  cases full : (entries.keys.map Prod.fst).argmax (rank entries recording) with
  | none => exact absurd (List.argmax_eq_none.mp full) listed
  | some tenant =>
    rw [Option.bind_some]
    obtain ⟨k, member, rfl⟩ := List.mem_map.mp (List.argmax_mem full)
    obtain ⟨entry, found⟩ := mem_keys.mp member
    cases oldest : (entries.entries.filter (·.1.1 = k.1)).argmin (·.2.seq) with
    | none =>
      have mine : (⟨k, entry⟩ : Sigma fun _ : MemoKey => MemoEntry) ∈
          entries.entries.filter (·.1.1 = k.1) :=
        List.mem_filter.mpr ⟨Table.mem_entries.mpr found, decide_eq_true rfl⟩
      rw [List.argmin_eq_none.mp oldest] at mine
      cases mine
    | some e => exact ⟨e.1, rfl⟩

/-- What making room leaves: everything while there is room, and all but the victim otherwise. -/
theorem makeRoom_cases (memo : InMemoryStepMemo) (tenant : String)
    (room : 1 ≤ memo.policy.capacity) :
    (memo.entries.size < memo.policy.capacity ∧ memo.makeRoom tenant = memo.entries) ∨
      memo.policy.capacity ≤ memo.entries.size ∧ ∃ victim,
        Evictee memo.entries tenant victim ∧ memo.makeRoom tenant = memo.entries.erase victim := by
  unfold InMemoryStepMemo.makeRoom
  by_cases full : memo.policy.capacity ≤ memo.entries.size
  · obtain ⟨victim, found⟩ : ∃ victim, evictee memo.entries tenant = some victim :=
      evictee_isSome (lt_of_lt_of_le Nat.one_pos (room.trans full))
    refine .inr ⟨full, victim, evictee_spec found, ?_⟩
    rw [if_pos full, found]
  · exact .inl ⟨Nat.lt_of_not_le full, if_neg full⟩

theorem makeRoom_size {memo : InMemoryStepMemo} {tenant : String}
    (room : 1 ≤ memo.policy.capacity) (bounded : memo.entries.size ≤ memo.policy.capacity) :
    (memo.makeRoom tenant).size + 1 ≤ memo.policy.capacity := by
  rcases makeRoom_cases memo tenant room with ⟨less, same⟩ | ⟨-, victim, chosen, same⟩
  · rw [same]
    exact less
  · obtain ⟨entry, found, -⟩ := chosen.oldest
    have one := Table.size_erase (Option.isSome_iff_exists.mpr ⟨entry, found⟩)
    rw [same]
    omega

theorem lookup_of_makeRoom {memo : InMemoryStepMemo} {tenant : String} {k : MemoKey}
    {entry : MemoEntry} (found : (memo.makeRoom tenant).lookup k = some entry) :
    memo.entries.lookup k = some entry := by
  unfold InMemoryStepMemo.makeRoom at found
  split at found
  · split at found
    · rw [Table.lookup_erase] at found
      split at found
      · cases found
      · exact found
    · exact found
  · exact found

/-! ### Runs -/

/-- A call to the store. -/
inductive MemoCall where
  | record (tenant : String) (key : StepKey) (outcome : MemoOutcome) (now : Instant)
  | lookup (tenant : String) (key : StepKey) (now : Instant)

/-- The store, and for each key the latest record that no lookup has found expired. -/
structure Books where
  memo : InMemoryStepMemo
  latest : MemoKey → Option MemoEntry

namespace Books

def new (policy : MemoPolicy) : Books :=
  ⟨.new policy, fun _ => none⟩

/-- The entry that a record makes. -/
def entry (b : Books) (outcome : MemoOutcome) (now : Instant) : MemoEntry :=
  ⟨outcome, now + InMemoryStepMemo.ttl b.memo.policy outcome, b.memo.nextSeq⟩

def call (b : Books) : MemoCall → Books
  | .record tenant key outcome now =>
    ⟨b.memo.record tenant key outcome now,
      Function.update b.latest (tenant, key) (some (b.entry outcome now))⟩
  | .lookup tenant key now =>
    ⟨(b.memo.lookup tenant key now).1,
      Function.update b.latest (tenant, key)
        ((b.latest (tenant, key)).filter fun entry => decide (now < entry.expiresAt))⟩

end Books

/-! ### What holds in every state -/

theorem lookup_entries (memo : InMemoryStepMemo) (tenant : String) (key : StepKey) (now : Instant)
    (k : MemoKey) :
    (memo.lookup tenant key now).1.entries.lookup k =
      if k = (tenant, key) then
        (memo.entries.lookup k).filter fun entry => decide (now < entry.expiresAt)
      else memo.entries.lookup k := by
  unfold InMemoryStepMemo.lookup
  by_cases same : k = (tenant, key)
  · subst same
    rw [if_pos rfl]
    cases found : memo.entries.lookup (tenant, key) with
    | none =>
      simp only [found]
      rfl
    | some entry =>
      by_cases expired : entry.expiresAt ≤ now
      · simp only [if_pos expired]
        rw [Table.lookup_erase, if_pos rfl, Option.filter_some, if_neg (by simpa using expired)]
      · simp only [if_neg expired, found]
        rw [Option.filter_some, if_pos (by simpa using expired)]
  · rw [if_neg same]
    split
    · rfl
    · split
      · rw [Table.lookup_erase, if_neg same]
      · rfl

theorem lookup_answer (memo : InMemoryStepMemo) (tenant : String) (key : StepKey) (now : Instant) :
    (memo.lookup tenant key now).2 =
      ((memo.entries.lookup (tenant, key)).filter fun entry =>
        decide (now < entry.expiresAt)).map (·.outcome) := by
  unfold InMemoryStepMemo.lookup
  cases found : memo.entries.lookup (tenant, key) with
  | none => rfl
  | some entry =>
    by_cases expired : entry.expiresAt ≤ now
    · simp only [if_pos expired]
      rw [Option.filter_some, if_neg (by simpa using expired)]
      rfl
    · simp only [if_neg expired]
      rw [Option.filter_some, if_pos (by simpa using expired)]
      rfl

@[simp] theorem lookup_policy (memo : InMemoryStepMemo) (tenant : String) (key : StepKey)
    (now : Instant) : (memo.lookup tenant key now).1.policy = memo.policy := by
  unfold InMemoryStepMemo.lookup
  split
  · rfl
  · split <;> rfl

@[simp] theorem lookup_nextSeq (memo : InMemoryStepMemo) (tenant : String) (key : StepKey)
    (now : Instant) : (memo.lookup tenant key now).1.nextSeq = memo.nextSeq := by
  unfold InMemoryStepMemo.lookup
  split
  · rfl
  · split <;> rfl

theorem lookup_size (memo : InMemoryStepMemo) (tenant : String) (key : StepKey) (now : Instant) :
    (memo.lookup tenant key now).1.entries.size ≤ memo.entries.size := by
  unfold InMemoryStepMemo.lookup
  split
  · exact Nat.le_refl _
  · split
    · exact Table.size_erase_le _ _
    · exact Nat.le_refl _

/-- The store is bounded, its entries are numbered in the order of their records, and each is the
latest record of its own tenant and key. -/
structure Shelved (policy : MemoPolicy) (b : Books) : Prop where
  kept : b.memo.policy = policy
  bounded : b.memo.entries.size ≤ policy.capacity
  fresh : ∀ k entry, b.memo.entries.lookup k = some entry → entry.seq < b.memo.nextSeq
  apart : ∀ k k' entry entry', b.memo.entries.lookup k = some entry →
    b.memo.entries.lookup k' = some entry' → entry.seq = entry'.seq → k = k'
  current : ∀ k entry, b.memo.entries.lookup k = some entry → b.latest k = some entry

theorem shelved_new (policy : MemoPolicy) : Shelved policy (Books.new policy) where
  kept := rfl
  bounded := Nat.zero_le _
  fresh k entry found := by cases found
  apart k k' entry entry' found := by cases found
  current k entry found := by cases found

/-- An entry after a record is the one just made, or one there was. -/
theorem lookup_of_record {b : Books} {tenant : String} {key : StepKey} {outcome : MemoOutcome}
    {now : Instant} {k : MemoKey} {entry : MemoEntry}
    (found : (b.memo.record tenant key outcome now).entries.lookup k = some entry) :
    (k = (tenant, key) ∧ entry = b.entry outcome now) ∨
      k ≠ (tenant, key) ∧ b.memo.entries.lookup k = some entry := by
  unfold InMemoryStepMemo.record at found
  rw [Table.lookup_insert] at found
  split at found
  · next same => exact .inl ⟨same, (Option.some.inj found).symm⟩
  · next other => exact .inr ⟨other, lookup_of_makeRoom found⟩

/-- An entry after a lookup is one there was, and no answer to it is overdue. -/
theorem lookup_of_lookup {memo : InMemoryStepMemo} {tenant : String} {key : StepKey} {now : Instant}
    {k : MemoKey} {entry : MemoEntry}
    (found : (memo.lookup tenant key now).1.entries.lookup k = some entry) :
    memo.entries.lookup k = some entry ∧ (k = (tenant, key) → now < entry.expiresAt) := by
  rw [lookup_entries] at found
  split at found
  · obtain ⟨there, alive⟩ := Option.filter_eq_some_iff.mp found
    exact ⟨there, fun _ => of_decide_eq_true alive⟩
  · next other => exact ⟨found, fun same => absurd same other⟩

theorem shelved_call {policy : MemoPolicy} (room : 1 ≤ policy.capacity) (b : Books) (c : MemoCall)
    (shelved : Shelved policy b) : Shelved policy (b.call c) := by
  obtain ⟨rfl, bounded, fresh, apart, current⟩ := shelved
  cases c with
  | record tenant key outcome now =>
    refine ⟨rfl, ?_, fun k entry found => ?_, fun k k' entry entry' found found' same => ?_,
      fun k entry found => ?_⟩
    · exact (Table.size_insert_le _ _ _).trans (makeRoom_size room bounded)
    · rcases lookup_of_record found with ⟨-, rfl⟩ | ⟨-, there⟩
      · exact Nat.lt_succ_self _
      · exact (fresh k entry there).trans (Nat.lt_succ_self _)
    · rcases lookup_of_record found with ⟨here, rfl⟩ | ⟨-, there⟩ <;>
        rcases lookup_of_record found' with ⟨here', rfl⟩ | ⟨-, there'⟩
      · rw [here, here']
      · exact absurd same.symm (Nat.ne_of_lt (fresh k' entry' there'))
      · exact absurd same (Nat.ne_of_lt (fresh k entry there))
      · exact apart k k' entry entry' there there' same
    · show Function.update b.latest (tenant, key) (some (b.entry outcome now)) k = some entry
      rcases lookup_of_record found with ⟨rfl, rfl⟩ | ⟨other, there⟩
      · exact Function.update_self _ _ _
      · rw [Function.update_of_ne other]
        exact current k entry there
  | lookup tenant key now =>
    have before : ∀ {k entry}, (b.call (.lookup tenant key now)).memo.entries.lookup k = some entry →
        b.memo.entries.lookup k = some entry := fun found => (lookup_of_lookup found).1
    refine ⟨lookup_policy _ _ _ _, (lookup_size _ _ _ _).trans bounded, fun k entry found => ?_,
      fun k k' entry entry' found found' => apart k k' entry entry' (before found) (before found'),
      fun k entry found => ?_⟩
    · rw [show (b.call (.lookup tenant key now)).memo.nextSeq = b.memo.nextSeq from
        lookup_nextSeq _ _ _ _]
      exact fresh k entry (before found)
    · obtain ⟨there, alive⟩ := lookup_of_lookup found
      unfold Books.call
      by_cases same : k = (tenant, key)
      · subst same
        simp only [Function.update_self]
        rw [current _ entry there, Option.filter_some, if_pos (decide_eq_true (alive rfl))]
      · simp only [Function.update_of_ne same]
        exact current k entry there

/-! ### A tenant within its share -/

/-- The tenants that hold entries. -/
def holders (entries : Table MemoKey MemoEntry) : Finset String :=
  (entries.keys.map Prod.fst).toFinset

theorem mem_holders {entries : Table MemoKey MemoEntry} {k : MemoKey} {entry : MemoEntry}
    (found : entries.lookup k = some entry) : k.1 ∈ holders entries :=
  List.mem_toFinset.mpr (List.mem_map.mpr ⟨k, mem_keys.mpr ⟨entry, found⟩, rfl⟩)

/-- **A full store takes no entry of a tenant within its share**, unless that tenant overwrites. -/
theorem spared {entries : Table MemoKey MemoEntry} {capacity k : ℕ} {t writer : String}
    {keys : Finset StepKey} {victim : MemoKey}
    (few : (insert writer (holders entries)).card ≤ k) (modest : keys.card ≤ capacity / k)
    (within : ∀ key entry, entries.lookup (t, key) = some entry → key ∈ keys)
    (full : capacity ≤ entries.size) (chosen : Evictee entries writer victim)
    (new : writer = t → ∃ key ∈ keys, entries.lookup (t, key) = none) : victim.1 ≠ t := by
  intro mine
  have most : ∀ tenant, held entries tenant ≤ held entries t := fun tenant =>
    mine ▸ chosen.most tenant
  have total : entries.size = ∑ tenant ∈ insert writer (holders entries), held entries tenant :=
    size_eq_sum fun k entry found => Finset.mem_insert_of_mem (mem_holders found)
  have share : k * keys.card ≤ capacity := (Nat.mul_le_mul_left k modest).trans (Nat.mul_div_le _ _)
  have some : 0 < k := lt_of_lt_of_le (Finset.card_pos.mpr ⟨writer, Finset.mem_insert_self _ _⟩) few
  have less : ∑ tenant ∈ insert writer (holders entries), held entries tenant < k * keys.card := by
    by_cases own : writer = t
    · obtain ⟨key, member, absent⟩ := new own
      have fewer : held entries t ≤ (keys.erase key).card := by
        refine held_le fun key' entry found => Finset.mem_erase.mpr ⟨?_, within key' entry found⟩
        rintro rfl
        rw [absent] at found
        cases found
      rw [Finset.card_erase_of_mem member] at fewer
      have nonempty : 0 < keys.card := Finset.card_pos.mpr ⟨key, member⟩
      calc ∑ tenant ∈ insert writer (holders entries), held entries tenant
          ≤ (insert writer (holders entries)).card * held entries t :=
            Finset.sum_le_card_nsmul _ _ _ fun tenant _ => most tenant
        _ ≤ k * held entries t := Nat.mul_le_mul_right _ few
        _ < k * keys.card := Nat.mul_lt_mul_of_pos_left (by omega) some
    · have behind : held entries writer < held entries t := by
        refine lt_of_le_of_ne (most writer) fun same => own ?_
        rw [← mine] at same
        exact (chosen.writer same).symm.trans mine
      calc ∑ tenant ∈ insert writer (holders entries), held entries tenant
          < ∑ _tenant ∈ insert writer (holders entries), held entries t :=
            Finset.sum_lt_sum (fun tenant _ => most tenant)
              ⟨writer, Finset.mem_insert_self _ _, behind⟩
        _ = (insert writer (holders entries)).card * held entries t := by
            rw [Finset.sum_const]
            rfl
        _ ≤ k * keys.card := Nat.mul_le_mul few (held_le within)
  omega

/-- The keys a tenant records. -/
def recordedKeys (t : String) (calls : List MemoCall) : Finset StepKey :=
  (calls.filterMap fun
    | .record tenant key _ _ => if tenant = t then some key else none
    | .lookup .. => none).toFinset

theorem mem_recordedKeys {t : String} {calls : List MemoCall} {key : StepKey}
    {outcome : MemoOutcome} {now : Instant} (member : .record t key outcome now ∈ calls) :
    key ∈ recordedKeys t calls :=
  List.mem_toFinset.mpr (List.mem_filterMap.mpr ⟨_, member, if_pos rfl⟩)

/-- At a record, the holders and the writer are `k` at most. -/
def Few (k : ℕ) (b : Books) : MemoCall → Prop
  | .record tenant .. => (insert tenant (holders b.memo.entries)).card ≤ k
  | .lookup .. => True

instance (k : ℕ) (b : Books) : (c : MemoCall) → Decidable (Few k b c)
  | .record .. => inferInstanceAs (Decidable (_ ≤ _))
  | .lookup .. => inferInstanceAs (Decidable True)

/-- Each lookup that `t` may make answers its latest record, until the ttl of that has passed. -/
def Recalls (t : String) (b : Books) : Prop :=
  ∀ key entry, b.latest (t, key) = some entry → ∀ now < entry.expiresAt,
    (b.memo.lookup t key now).2 = some entry.outcome

/-- An own write of `t` costs it nothing: where it overwrites an entry of a full store, some tenant
holds more, or the oldest entry of `t` is the one overwritten or never was to be looked up. -/
def Spares (t : String) (b : Books) : MemoCall → Prop
  | .record tenant key _ _ => tenant = t → b.memo.policy.capacity ≤ b.memo.entries.size →
      (b.memo.entries.lookup (t, key)).isSome →
        (∃ u, held b.memo.entries t < held b.memo.entries u) ∨
        ∃ oldest first, b.memo.entries.lookup (t, oldest) = some first ∧
          (∀ key' other, b.memo.entries.lookup (t, key') = some other → first.seq ≤ other.seq) ∧
          (oldest = key ∨ first.expiresAt = 0)
  | .lookup .. => True

section Share

variable {policy : MemoPolicy} {t : String} {k : ℕ} {keys : Finset StepKey}

/-- What a call of a run meets: few holders, and no key of `t` but the ones it records. -/
def Modest (t : String) (k : ℕ) (keys : Finset StepKey) (b : Books) (c : MemoCall) : Prop :=
  Few k b c ∧ ∀ key outcome now, c = .record t key outcome now → key ∈ keys

/-- The entries of `t` are under the keys it records. -/
def Within (t : String) (keys : Finset StepKey) (b : Books) : Prop :=
  ∀ key entry, b.memo.entries.lookup (t, key) = some entry → key ∈ keys

theorem within_call (b : Books) (c : MemoCall) (within : Within t keys b)
    (modest : Modest t k keys b c) : Within t keys (b.call c) := by
  intro key entry found
  cases c with
  | record tenant key' outcome now =>
    rcases lookup_of_record found with ⟨same, -⟩ | ⟨-, there⟩
    · obtain ⟨rfl, rfl⟩ := Prod.mk.inj same
      exact modest.2 key outcome now rfl
    · exact within key entry there
  | lookup tenant key' now => exact within key entry (lookup_of_lookup found).1

/-- **A record by another tenant drops nothing of a tenant within its share.** -/
theorem record_other {b : Books} (shelved : Shelved policy b) (within : Within t keys b)
    (room : 1 ≤ policy.capacity) (share : keys.card ≤ policy.capacity / k) {u : String}
    {key : StepKey} {outcome : MemoOutcome} {now : Instant} (other : u ≠ t)
    (few : Few k b (.record u key outcome now)) {own : StepKey} {entry : MemoEntry}
    (found : b.memo.entries.lookup (t, own) = some entry) :
    (b.call (.record u key outcome now)).memo.entries.lookup (t, own) = some entry := by
  obtain ⟨rfl, -⟩ := shelved
  have foreign : (t, own) ≠ (u, key) := fun same => other (congrArg Prod.fst same).symm
  show ((b.memo.makeRoom u).insert (u, key) _).lookup (t, own) = some entry
  rw [Table.lookup_insert, if_neg foreign]
  rcases makeRoom_cases b.memo u room with ⟨-, same⟩ | ⟨full, victim, chosen, same⟩
  · rw [same]
    exact found
  · rw [same, Table.lookup_erase, if_neg]
    · exact found
    · rintro rfl
      exact spared few share within full chosen (fun own => absurd own other) rfl

/-- Nothing of `t` that a lookup could still answer is lost. -/
def Kept (t : String) (b : Books) : Prop :=
  ∀ key entry, b.latest (t, key) = some entry → 0 < entry.expiresAt →
    b.memo.entries.lookup (t, key) = some entry

theorem answers_iff_kept {b : Books} (shelved : Shelved policy b) : Recalls t b ↔ Kept t b := by
  constructor
  · intro answers key entry latest alive
    have answer := answers key entry latest 0 alive
    rw [lookup_answer] at answer
    obtain ⟨stored, found, -⟩ := Option.map_eq_some_iff.mp answer
    have there := (Option.filter_eq_some_iff.mp found).1
    have same := (shelved.current _ stored there).symm.trans latest
    rw [there, same]
  · intro kept key entry latest now before
    have there := kept key entry latest (lt_of_le_of_lt (Nat.zero_le now) before)
    rw [lookup_answer, there, Option.filter_some, if_pos (decide_eq_true before)]
    rfl

/-- What a record leaves of `t`, when all was there. -/
theorem kept_record {b : Books} (shelved : Shelved policy b) (kept : Kept t b) (u : String)
    (key : StepKey) (outcome : MemoOutcome) (now : Instant) :
    Kept t (b.call (.record u key outcome now)) ↔ ∀ own entry, (t, own) ≠ (u, key) →
      b.memo.entries.lookup (t, own) = some entry → 0 < entry.expiresAt →
        (b.memo.makeRoom u).lookup (t, own) = some entry := by
  constructor
  · intro after own entry other found alive
    have latest : (b.call (.record u key outcome now)).latest (t, own) = some entry := by
      show Function.update b.latest (u, key) _ (t, own) = some entry
      rw [Function.update_of_ne other]
      exact shelved.current _ entry found
    have there := after own entry latest alive
    unfold Books.call InMemoryStepMemo.record at there
    rw [Table.lookup_insert, if_neg other] at there
    exact there
  · intro left own entry latest alive
    show ((b.memo.makeRoom u).insert (u, key) (b.entry outcome now)).lookup (t, own) = some entry
    unfold Books.call at latest
    rw [Table.lookup_insert]
    by_cases same : (t, own) = (u, key)
    · rw [if_pos same]
      rw [same] at latest
      simpa only [Function.update_self] using latest
    · rw [if_neg same]
      simp only [Function.update_of_ne same] at latest
      exact left own entry same (kept own entry latest alive) alive

theorem kept_lookup {b : Books} (kept : Kept t b) (u : String) (key : StepKey) (now : Instant) :
    Kept t (b.call (.lookup u key now)) := by
  intro own entry latest alive
  show (b.memo.lookup u key now).1.entries.lookup (t, own) = some entry
  unfold Books.call at latest
  rw [lookup_entries]
  by_cases same : (t, own) = (u, key)
  · rw [if_pos same]
    rw [same] at latest ⊢
    simp only [Function.update_self] at latest
    obtain ⟨before, unexpired⟩ := Option.filter_eq_some_iff.mp latest
    obtain ⟨rfl, rfl⟩ := Prod.mk.inj same
    rw [kept own entry before alive, Option.filter_some, if_pos unexpired]
  · rw [if_neg same]
    simp only [Function.update_of_ne same] at latest
    exact kept own entry latest alive

theorem kept_call (room : 1 ≤ policy.capacity) (share : keys.card ≤ policy.capacity / k) (b : Books)
    (c : MemoCall) (shelved : Shelved policy b) (within : Within t keys b) (kept : Kept t b)
    (modest : Modest t k keys b c) : Kept t (b.call c) ↔ Spares t b c := by
  cases c with
  | lookup u key now => exact ⟨fun _ => trivial, fun _ => kept_lookup kept u key now⟩
  | record u key outcome now =>
    rw [kept_record shelved kept]
    have capacity := shelved.kept
    rcases makeRoom_cases b.memo u (capacity ▸ room) with ⟨less, same⟩ | ⟨full, victim, chosen, same⟩
    · rw [same]
      exact ⟨fun _ _ full => absurd full (Nat.not_le_of_lt less), fun _ own entry _ found _ => found⟩
    · -- Only the victim goes, so the question is whether it is one of `t`'s.
      rw [same]
      have spare : victim.1 ≠ t → ∀ own entry, (t, own) ≠ (u, key) →
          b.memo.entries.lookup (t, own) = some entry → 0 < entry.expiresAt →
            (b.memo.entries.erase victim).lookup (t, own) = some entry := by
        intro foreign own entry _ found _
        rw [Table.lookup_erase, if_neg]
        · exact found
        · rintro rfl
          exact foreign rfl
      have outside := spared modest.1 share within (capacity ▸ full) chosen
      by_cases own : u = t
      · subst own
        cases stored : b.memo.entries.lookup (u, key) with
        | none =>
          refine ⟨fun _ _ _ held => ?_, fun _ => spare (outside fun _ => ?_)⟩
          · rw [stored] at held
            cases held
          · exact ⟨key, modest.2 key outcome now rfl, stored⟩
        | some entry =>
          constructor
          · intro left _ _ _
            by_cases mine : victim.1 = u
            · obtain ⟨first, found, oldest⟩ := chosen.oldest
              obtain ⟨v, key'⟩ := victim
              obtain rfl : v = u := mine
              refine .inr ⟨key', first, found, oldest, ?_⟩
              rcases Nat.eq_zero_or_pos first.expiresAt with never | alive
              · exact .inr never
              · refine .inl (by_contra fun other => ?_)
                have there := left key' first (fun same => other (congrArg Prod.snd same)) found alive
                rw [Table.lookup_erase, if_pos rfl] at there
                cases there
            · exact .inl ⟨victim.1, lt_of_le_of_ne (chosen.most u) fun same =>
                mine (chosen.writer same)⟩
          · intro spares
            by_cases mine : victim.1 = u
            · have held : (b.memo.entries.lookup (u, key)).isSome := by
                rw [stored]
                rfl
              rcases spares rfl full held with ⟨v, more⟩ | ⟨oldest, first, found, least, safe⟩
              · rw [← mine] at more
                exact absurd (chosen.most v) (Nat.not_le_of_lt more)
              · obtain ⟨dropped, gone, lowest⟩ := chosen.oldest
                obtain ⟨v, key'⟩ := victim
                obtain rfl : v = u := mine
                have seqs := Nat.le_antisymm (lowest oldest first found) (least key' dropped gone)
                have only : (v, key') = (v, oldest) := shelved.apart _ _ _ _ gone found seqs
                rw [only]
                intro own entry other there alive
                rw [Table.lookup_erase, if_neg]
                · exact there
                · intro same
                  rcases safe with rfl | never
                  · exact other same
                  · rw [same, found] at there
                    obtain rfl := Option.some.inj there
                    exact absurd never (Nat.ne_of_gt alive)
            · exact spare mine
      · exact ⟨fun _ mine => absurd mine own, fun _ => spare (outside fun mine => absurd mine own)⟩

end Share

/-! ### Whole runs -/

/-- The store after the first `n` calls. -/
def books (policy : MemoPolicy) (calls : List MemoCall) (n : ℕ) : Books :=
  run Books.call (Books.new policy) (calls.take n)

theorem books_shelved {policy : MemoPolicy} (room : 1 ≤ policy.capacity) (calls : List MemoCall)
    (n : ℕ) : Shelved policy (books policy calls n) :=
  run_invariant (shelved_call room) (shelved_new policy) _

/-- **The store is bounded, answers a tenant only what it recorded, and is fair**: where the holders
and the writer are never more than `k`, and `t` records a `k`-th of the capacity at most, no other
tenant's record drops an entry of `t`, and every lookup of `t` answers its latest record until the
ttl of that has passed exactly when no own write of `t` costs it an entry. -/
theorem memo_fair_iff (policy : MemoPolicy) (room : 1 ≤ policy.capacity) (calls : List MemoCall)
    (t : String) (k : ℕ) :
    (∀ n, (books policy calls n).memo.entries.size ≤ policy.capacity) ∧
    (∀ n u key now outcome, ((books policy calls n).memo.lookup u key now).2 = some outcome →
      ∃ entry, (books policy calls n).latest (u, key) = some entry ∧ entry.outcome = outcome ∧
        now < entry.expiresAt) ∧
    (Along Books.call (Few k) (Books.new policy) calls →
      (recordedKeys t calls).card ≤ policy.capacity / k →
        (∀ n u key outcome now, calls[n]? = some (.record u key outcome now) → u ≠ t →
          ∀ own entry, (books policy calls n).memo.entries.lookup (t, own) = some entry →
            (books policy calls (n + 1)).memo.entries.lookup (t, own) = some entry) ∧
        ((∀ n, Recalls t (books policy calls n)) ↔
          Along Books.call (Spares t) (Books.new policy) calls)) := by
  refine ⟨fun n => (books_shelved room calls n).bounded, fun n u key now outcome answer => ?_,
    fun few share => ?_⟩
  · rw [lookup_answer] at answer
    obtain ⟨entry, found, same⟩ := Option.map_eq_some_iff.mp answer
    obtain ⟨stored, alive⟩ := Option.filter_eq_some_iff.mp found
    exact ⟨entry, (books_shelved room calls n).current _ entry stored, same,
      of_decide_eq_true alive⟩
  · have modest : Along Books.call (Modest t k (recordedKeys t calls)) (Books.new policy) calls :=
      along_and few (along_of_forall (fun c member key outcome now same => by
        subst same
        exact mem_recordedKeys member) _)
    have start : Within t (recordedKeys t calls) (Books.new policy) := fun key entry found => by
      cases found
    constructor
    · intro n u key outcome now call other own entry found
      have within : Within t (recordedKeys t calls) (books policy calls n) :=
        run_invariant_along within_call start (along_take modest n)
      have few := along_iff.mp few n _ call
      have next := record_other (books_shelved room calls n) within room share other few found
      unfold books
      rw [run_take_succ call]
      exact next
    · have exactly : (∀ n, Kept t (books policy calls n)) ↔
          Along Books.call (Spares t) (Books.new policy) calls := always_iff_along
        (I := fun b => Shelved policy b ∧ Within t (recordedKeys t calls) b)
        (H := Modest t k (recordedKeys t calls))
        (fun b c hold modest => ⟨shelved_call room b c hold.1, within_call b c hold.2 modest⟩)
        (fun b c hold kept modest => kept_call room share b c hold.1 hold.2 kept modest)
        ⟨shelved_new policy, start⟩ (fun key entry latest => by cases latest) modest
      rw [← exactly]
      exact forall_congr' fun n => answers_iff_kept (books_shelved room calls n)

/-- Two keys of one tenant, the second written twice. -/
def overwriting : List MemoCall :=
  [.record "acme" "a" .passed 0, .record "acme" "b" .passed 0, .record "acme" "b" .passed 0]

theorem memo_fair_room :
    (recordedKeys "acme" overwriting).card ≤ 3 / 1 ∧
      ∀ n, Recalls "acme" (books { capacity := 3 } overwriting n) := by
  have modest : (recordedKeys "acme" overwriting).card ≤ 3 / 1 := by decide +kernel
  have fair := (memo_fair_iff { capacity := 3 } (by decide) overwriting "acme" 1).2.2
    (by decide +kernel) modest
  refine ⟨modest, fair.2.mpr ?_⟩
  have roomy : ∀ n < 3, ¬ 3 ≤ (books { capacity := 3 } overwriting n).memo.entries.size := by
    decide +kernel
  exact ⟨fun _ full => absurd full (roomy 0 (by decide)),
    fun _ full => absurd full (roomy 1 (by decide)), fun _ full => absurd full (roomy 2 (by decide)),
    trivial⟩

/-- In a store with room for just the two, the second write of `b` drops `a`, though it needs no
room. -/
theorem overwrite_drops_own :
    Along Books.call (Few 1) (Books.new { capacity := 2 }) overwriting ∧
      (recordedKeys "acme" overwriting).card ≤ 2 / 1 ∧
      ((books { capacity := 2 } overwriting 3).latest ("acme", "a")).isSome ∧
      ¬ Recalls "acme" (books { capacity := 2 } overwriting 3) := by
  refine ⟨by decide +kernel, by decide +kernel, by decide +kernel, fun answers => ?_⟩
  have answer := answers "a" ⟨.passed, fromSecs (7 * 24 * 60 * 60), 0⟩ (by decide +kernel) 0
    (by decide +kernel)
  revert answer
  decide +kernel

end HullCi.Control
