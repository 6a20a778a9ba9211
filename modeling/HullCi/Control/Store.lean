/-
**Job storage: the record of a job, held by the one replica that drives it.**

The store carries the fact that a record is filed under its own id, so every operation has to show
that it keeps ids.

* `get_insert`, `get_modify`, `get_remove` — each operation by its lookups.
* `get_evict` — eviction drops settled records only, and reports exactly the ids it drops.
-/

import HullCi.Control.Model

namespace HullCi.Control

open HullCi.Proto HullCi.Base

/-- The records, each under its own id. -/
structure JobStore where
  byId : Table JobId Job
  keyed : ∀ id job, byId.lookup id = some job → job.id = id

namespace JobStore

def new : JobStore := ⟨∅, fun _ _ found => by cases found⟩

def get (s : JobStore) (id : JobId) : Option Job :=
  s.byId.lookup id

theorem id_of_get {s : JobStore} {id : JobId} {job : Job} (found : s.get id = some job) :
    job.id = id :=
  s.keyed id job found

/-- `entry(id).or_insert_with(Job::new)`. -/
def insert (s : JobStore) (id : JobId) (dispatch : Dispatch) (authorClass : AuthorClass)
    (now : Instant) (jobTimeout : Duration) : JobStore where
  byId := s.byId.insertNew id (Job.new id dispatch authorClass now jobTimeout)
  keyed := by
    intro id' job found
    rw [Table.lookup_insertNew] at found
    by_cases same : id' = id
    · rw [if_pos same, Option.some.injEq] at found
      cases known : s.byId.lookup id with
      | none =>
        rw [known] at found
        subst found
        exact same.symm
      | some job' =>
        rw [known] at found
        subst found
        rw [same]
        exact s.keyed id _ known
    · rw [if_neg same] at found
      exact s.keyed id' job found

/-- Run a section on the record, if it is held. -/
def modify (s : JobStore) (id : JobId) (f : Job → Job)
    (keeps : ∀ job, (f job).id = job.id) : JobStore where
  byId := s.byId.modify id f
  keyed := by
    intro id' job found
    rw [Table.lookup_modify] at found
    by_cases same : id' = id
    · rw [if_pos same] at found
      obtain ⟨job', known, rfl⟩ := Option.map_eq_some_iff.mp found
      rw [keeps, same]
      exact s.keyed id job' known
    · rw [if_neg same] at found
      exact s.keyed id' job found

/-- Forget one job's record. -/
def remove (s : JobStore) (id : JobId) : JobStore where
  byId := s.byId.erase id
  keyed := by
    intro id' job found
    rw [Table.lookup_erase] at found
    by_cases same : id' = id
    · rw [if_pos same] at found
      cases found
    · rw [if_neg same] at found
      exact s.keyed id' job found

/-- The records held, in no particular order. -/
def iter (s : JobStore) : List Job :=
  s.byId.values

def len (s : JobStore) : ℕ :=
  s.byId.size

/-! ### Retention -/

/-- `usize` subtraction, which wraps. -/
def wrappingSub (a b : ℕ) : ℕ :=
  (2 ^ 64 + a - b) % 2 ^ 64

/-- Settled jobs that do, or do not, still owe Hull an answer; oldest settlement first. -/
def settledOldestFirst (s : JobStore) (owing : Bool) : List (Instant × JobId) :=
  ((s.iter.filter fun job => job.state.owesAVerdict = owing).filterMap fun job =>
    job.settledAt.map fun t => (t, job.id)).insertionSort fun a b => a.1 ≤ b.1

/-- Paid jobs go by the retention clock or by cap pressure. -/
def evictPaid (now : Instant) (retention : Duration) (maxJobs : ℕ) :
    List (Instant × JobId) → JobStore × List JobId → JobStore × List JobId
  | [], out => out
  | (settledAt, id) :: rest, (s, evicted) =>
    if retention ≤ now - settledAt ∨ maxJobs < wrappingSub s.len evicted.length then
      evictPaid now retention maxJobs rest (s.remove id, evicted ++ [id])
    else (s, evicted)

/-- Debts go under the hard cap only. -/
def evictOwed (maxJobs : ℕ) :
    List (Instant × JobId) → JobStore × List JobId → JobStore × List JobId
  | [], out => out
  | (_, id) :: rest, (s, evicted) =>
    if wrappingSub s.len evicted.length ≤ maxJobs then (s, evicted)
    else evictOwed maxJobs rest (s.remove id, evicted ++ [id])

/-- Drop settled jobs by age and cap; the ids removed come back. -/
def evict (s : JobStore) (now : Instant) (retention : Duration) (maxJobs : ℕ) :
    JobStore × List JobId :=
  let paid := s.settledOldestFirst false
  let owed := s.settledOldestFirst true
  evictOwed maxJobs owed (evictPaid now retention maxJobs paid (s, []))

/-! ### Each operation by its lookups -/

@[simp] theorem get_new (id : JobId) : new.get id = none := rfl

@[simp] theorem get_insert (s : JobStore) (id : JobId) (dispatch : Dispatch)
    (authorClass : AuthorClass) (now : Instant) (jobTimeout : Duration) (j : JobId) :
    (s.insert id dispatch authorClass now jobTimeout).get j =
      if j = id then some ((s.get id).getD (Job.new id dispatch authorClass now jobTimeout))
      else s.get j :=
  Table.lookup_insertNew _ _ _ _

@[simp] theorem get_modify (s : JobStore) (id : JobId) (f : Job → Job)
    (keeps : ∀ job, (f job).id = job.id) (j : JobId) :
    (s.modify id f keeps).get j = if j = id then (s.get id).map f else s.get j :=
  Table.lookup_modify _ _ _ _

@[simp] theorem get_remove (s : JobStore) (id j : JobId) :
    (s.remove id).get j = if j = id then none else s.get j :=
  Table.lookup_erase _ _ _

theorem settled_of_mem {s : JobStore} {owing : Bool} {t : Instant} {id : JobId}
    (member : (t, id) ∈ s.settledOldestFirst owing) :
    ∃ job, s.get id = some job ∧ job.settledAt = some t := by
  unfold settledOldestFirst at member
  rw [List.mem_insertionSort, List.mem_filterMap] at member
  obtain ⟨job, held, stamped⟩ := member
  obtain ⟨t', settled, same⟩ := Option.map_eq_some_iff.mp stamped
  obtain ⟨rfl, rfl⟩ := Prod.mk.inj same
  obtain ⟨id, found⟩ := Table.mem_values.mp (List.mem_of_mem_filter held)
  exact ⟨job, by rw [id_of_get found]; exact found, settled⟩

/-- What dropping some ids does to the record of `j`: nothing, or it is gone and reported. -/
def Dropped (j : JobId) (before : JobStore) (settled : Prop) (after : JobStore × List JobId) :
    Prop :=
  (after.1.get j = before.get j ∧ j ∉ after.2) ∨ (settled ∧ after.1.get j = none ∧ j ∈ after.2)

theorem dropped_remove {j : JobId} {before : JobStore} {settled : Prop} {s : JobStore}
    {evicted : List JobId} (dropped : Dropped j before settled (s, evicted)) {id : JobId}
    (old : j = id → settled) : Dropped j before settled (s.remove id, evicted ++ [id]) := by
  by_cases same : j = id
  · refine .inr ⟨old same, ?_, ?_⟩
    · rw [get_remove, if_pos same]
    · rw [same]
      exact List.mem_append_right _ (List.mem_singleton_self id)
  · have kept : (s.remove id).get j = s.get j := by rw [get_remove, if_neg same]
    rcases dropped with ⟨untouched, silent⟩ | ⟨settled, gone, reported⟩
    · refine .inl ⟨kept.trans untouched, fun member => ?_⟩
      rcases List.mem_append.mp member with before | last
      · exact silent before
      · exact same (List.mem_singleton.mp last)
    · exact .inr ⟨settled, kept.trans gone, List.mem_append_left _ reported⟩

theorem dropped_evictPaid {j : JobId} {before : JobStore} {settled : Prop} (now : Instant)
    (retention : Duration) (maxJobs : ℕ) (paid : List (Instant × JobId))
    (old : ∀ t, (t, j) ∈ paid → settled) {out : JobStore × List JobId}
    (dropped : Dropped j before settled out) :
    Dropped j before settled (evictPaid now retention maxJobs paid out) := by
  induction paid generalizing out with
  | nil => exact dropped
  | cons e rest ih =>
    obtain ⟨t, id⟩ := e
    unfold evictPaid
    split
    · refine ih (fun t member => old t (List.mem_cons_of_mem _ member)) ?_
      exact dropped_remove dropped fun same => old t (same ▸ List.mem_cons_self)
    · exact dropped

theorem dropped_evictOwed {j : JobId} {before : JobStore} {settled : Prop} (maxJobs : ℕ)
    (owed : List (Instant × JobId)) (old : ∀ t, (t, j) ∈ owed → settled)
    {out : JobStore × List JobId} (dropped : Dropped j before settled out) :
    Dropped j before settled (evictOwed maxJobs owed out) := by
  induction owed generalizing out with
  | nil => exact dropped
  | cons e rest ih =>
    obtain ⟨t, id⟩ := e
    unfold evictOwed
    split
    · exact dropped
    · refine ih (fun t member => old t (List.mem_cons_of_mem _ member)) ?_
      exact dropped_remove dropped fun same => old t (same ▸ List.mem_cons_self)

/-- **Eviction drops settled records only**, and reports exactly the ids it drops. -/
theorem get_evict (s : JobStore) (now : Instant) (retention : Duration) (maxJobs : ℕ)
    (j : JobId) :
    Dropped j s (∃ job t, s.get j = some job ∧ job.settledAt = some t)
      (s.evict now retention maxJobs) := by
  have old : ∀ owing t, (t, j) ∈ s.settledOldestFirst owing →
      ∃ job t, s.get j = some job ∧ job.settledAt = some t := by
    intro owing t member
    obtain ⟨job, found, settled⟩ := settled_of_mem member
    exact ⟨job, t, found, settled⟩
  unfold evict
  refine dropped_evictOwed maxJobs _ (old true) ?_
  exact dropped_evictPaid now retention maxJobs _ (old false) (.inl ⟨rfl, List.not_mem_nil⟩)

end JobStore

end HullCi.Control
