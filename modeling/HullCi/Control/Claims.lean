/-
**The process-local claim store: which job a tree belongs to, and which steps were handed out.**

* `admit_lookup` — admitting a dispatch creates one claim, attaches to one, or drops a stale one.
* `claimStep_cases` — a step is granted once, until it is given back.
* `lookup_forget`, `lookup_settle`, `lookup_releaseStep` — every other operation by its lookups.
-/

import Mathlib.Data.Finset.Basic
import HullCi.Control.Model

namespace HullCi.Control

open HullCi.Proto HullCi.Base

/-! ### Leases and answers -/

/-- The right to drive one job. -/
structure DriveLease where
  jobId : JobId
  owner : String
  fence : ℕ
  deriving DecidableEq, Repr

/-- The drive leases this replica holds, each under its own job. -/
structure Leases where
  byJob : Table JobId DriveLease
  keyed : ∀ jobId lease, byJob.lookup jobId = some lease → lease.jobId = jobId

namespace Leases

def new : Leases := ⟨∅, fun _ _ found => by cases found⟩

def get (l : Leases) (jobId : JobId) : Option DriveLease :=
  l.byJob.lookup jobId

theorem jobId_of_get {l : Leases} {jobId : JobId} {lease : DriveLease}
    (found : l.get jobId = some lease) : lease.jobId = jobId :=
  l.keyed jobId lease found

def insert (l : Leases) (lease : DriveLease) : Leases where
  byJob := l.byJob.insert lease.jobId lease
  keyed := by
    intro jobId lease' found
    rw [Table.lookup_insert] at found
    by_cases same : jobId = lease.jobId
    · rw [if_pos same, Option.some.injEq] at found
      rw [← found, same]
    · rw [if_neg same] at found
      exact l.keyed jobId lease' found

def remove (l : Leases) (jobId : JobId) : Leases where
  byJob := l.byJob.erase jobId
  keyed := by
    intro jobId' lease found
    rw [Table.lookup_erase] at found
    by_cases same : jobId' = jobId
    · rw [if_pos same] at found
      cases found
    · rw [if_neg same] at found
      exact l.keyed jobId' lease found

@[simp] theorem get_new (jobId : JobId) : new.get jobId = none := rfl

@[simp] theorem get_insert (l : Leases) (lease : DriveLease) (j : JobId) :
    (l.insert lease).get j = if j = lease.jobId then some lease else l.get j :=
  Table.lookup_insert _ _ _ _

@[simp] theorem get_remove (l : Leases) (jobId j : JobId) :
    (l.remove jobId).get j = if j = jobId then none else l.get j :=
  Table.lookup_erase _ _ _

end Leases

/-- What the index said about a dispatch. -/
inductive Admitted
  | created (lease : DriveLease)
  | attached (jobId : JobId) (owner : String) (verdict : Option Verdict)
  deriving DecidableEq, Repr

def Admitted.jobId : Admitted → JobId
  | .created lease => lease.jobId
  | .attached jobId _ _ => jobId

/-- What the store said about one step. -/
inductive StepClaim
  | granted
  | taken (owner : String)
  | fenced (heldBy : String)
  deriving DecidableEq, Repr

/-- The owner string of the process-local store. -/
def localOwner : String := "local"

/-- What `StepClaim::Fenced` names when there is no claim to be fenced by. -/
def noClaim : String := "(no claim)"

/-- `i64::saturating_sub`. -/
def saturatingSub (a b : ℤ) : ℤ :=
  max (-2 ^ 63) (min (2 ^ 63 - 1) (a - b))

/-! ### State -/

/-- One job's claim. -/
structure LocalClaim where
  key : TreeKey
  callbackUrls : List String
  verdict : Option Verdict
  settledAtMs : Option ℤ
  steps : Finset StepId
  deriving DecidableEq

/-- Record a destination on the claim, once. -/
def LocalClaim.attach (claim : LocalClaim) (url : String) : LocalClaim :=
  if url ∈ claim.callbackUrls then claim
  else { claim with callbackUrls := claim.callbackUrls ++ [url] }

/-- The claims, and the index from trees to jobs. -/
structure LocalClaims where
  byKey : Table TreeKey JobId
  claims : Table JobId LocalClaim

namespace LocalClaims

def new : LocalClaims := ⟨∅, ∅⟩

/-- A tree's claim whose verdict has outlived its retention. -/
def stale (c : LocalClaims) (key : TreeKey) (nowMs settledRetentionMs : ℤ) : Bool :=
  (((c.byKey.lookup key).bind c.claims.lookup).bind (·.settledAtMs)).any fun t =>
    settledRetentionMs ≤ saturatingSub nowMs t

/-- The retention half of `admit`: only settled claims, and only this key's. -/
def dropStale (c : LocalClaims) (key : TreeKey) (nowMs settledRetentionMs : ℤ) : LocalClaims :=
  if c.stale key nowMs settledRetentionMs then
    match c.byKey.lookup key with
    | none => c
    | some id => ⟨c.byKey.erase key, c.claims.erase id⟩
  else c

/-- A fresh claim under the proposed id. -/
def create (c : LocalClaims) (key : TreeKey) (proposed : JobId) (url : String) :
    LocalClaims × Admitted :=
  (⟨c.byKey.insert key proposed, c.claims.insert proposed ⟨key, [url], none, none, ∅⟩⟩,
    .created ⟨proposed, localOwner, 0⟩)

/-- Insert or attach, in one step. -/
def admitDispatch (c : LocalClaims) (key : TreeKey) (proposed : JobId) (url : String)
    (nowMs settledRetentionMs : ℤ) : LocalClaims × Admitted :=
  let c := c.dropStale key nowMs settledRetentionMs
  match c.byKey.lookup key with
  | none => c.create key proposed url
  | some existing =>
    match c.claims.lookup existing with
    | some claim =>
      ({ c with claims := c.claims.insert existing (claim.attach url) },
        .attached existing localOwner claim.verdict)
    -- An index entry with no claim behind it is healed by a fresh insert.
    | none => create { c with byKey := c.byKey.erase key } key proposed url

/-- Take the right to hand one step to the fleet. -/
def claimStep (c : LocalClaims) (lease : DriveLease) (stepId : StepId) :
    LocalClaims × StepClaim :=
  match c.claims.lookup lease.jobId with
  | none => (c, .fenced noClaim)
  | some claim =>
    if stepId ∈ claim.steps then (c, .taken localOwner)
    else
      let claim := { claim with steps := insert stepId claim.steps }
      ({ c with claims := c.claims.insert lease.jobId claim }, .granted)

/-- Give a step back because it was never dispatched. -/
def releaseStep (c : LocalClaims) (lease : DriveLease) (stepId : StepId) : LocalClaims :=
  { c with claims := c.claims.modify lease.jobId fun claim =>
    { claim with steps := claim.steps.erase stepId } }

/-- Publish the verdict on the claim. -/
def settle (c : LocalClaims) (lease : DriveLease) (verdict : Verdict) (nowMs : ℤ) : LocalClaims :=
  { c with claims := c.claims.modify lease.jobId fun claim =>
    { claim with verdict := some verdict, settledAtMs := some nowMs } }

/-- Every destination recorded on a job's claim. -/
def destinations (c : LocalClaims) (jobId : JobId) : List String :=
  ((c.claims.lookup jobId).map (·.callbackUrls)).getD []

/-- Drop a claim, and the index entry that still points at it. -/
def forget (c : LocalClaims) (jobId : JobId) : LocalClaims :=
  match c.claims.lookup jobId with
  | none => c
  | some claim =>
    ⟨if c.byKey.lookup claim.key = some jobId then c.byKey.erase claim.key else c.byKey,
      c.claims.erase jobId⟩

end LocalClaims

/-! ### Each operation by its lookups -/

namespace LocalClaim

@[simp] theorem attach_verdict (claim : LocalClaim) (url : String) :
    (claim.attach url).verdict = claim.verdict := by
  unfold attach
  split <;> rfl

@[simp] theorem attach_settledAtMs (claim : LocalClaim) (url : String) :
    (claim.attach url).settledAtMs = claim.settledAtMs := by
  unfold attach
  split <;> rfl

@[simp] theorem attach_steps (claim : LocalClaim) (url : String) :
    (claim.attach url).steps = claim.steps := by
  unfold attach
  split <;> rfl

end LocalClaim

namespace LocalClaims

theorem lookup_dropStale (c : LocalClaims) (key : TreeKey) (nowMs retentionMs : ℤ) (j : JobId) :
    (c.dropStale key nowMs retentionMs).claims.lookup j = c.claims.lookup j ∨
      c.stale key nowMs retentionMs = true ∧ (∃ claim t, c.claims.lookup j = some claim ∧
        claim.settledAtMs = some t) ∧
        (c.dropStale key nowMs retentionMs).claims.lookup j = none := by
  unfold dropStale
  by_cases old : c.stale key nowMs retentionMs = true
  · rw [if_pos old]
    have shown := old
    unfold stale at shown
    cases known : c.byKey.lookup key with
    | none => exact .inl rfl
    | some id =>
      rw [known, Option.bind_some] at shown
      by_cases same : j = id
      · subst same
        right
        cases found : c.claims.lookup j with
        | none =>
          rw [found] at shown
          cases shown
        | some claim =>
          rw [found, Option.bind_some] at shown
          cases settled : claim.settledAtMs with
          | none =>
            rw [settled] at shown
            cases shown
          | some t =>
            refine ⟨old, ⟨claim, t, rfl, settled⟩, ?_⟩
            show (c.claims.erase j).lookup j = none
            rw [Table.lookup_erase, if_pos rfl]
      · left
        show (c.claims.erase id).lookup j = c.claims.lookup j
        rw [Table.lookup_erase, if_neg same]
  · rw [if_neg old]
    exact .inl rfl

/-- What one admission does to the claim of the job `j`. -/
inductive Admits (c : LocalClaims) (key : TreeKey) (proposed : JobId) (url : String) (j : JobId)
    (old : Bool) : LocalClaims × Admitted → Prop
  | same {c' : LocalClaims} {answer : Admitted} (other : answer.jobId ≠ j)
      (kept : c'.claims.lookup j = c.claims.lookup j) : Admits c key proposed url j old (c', answer)
  | attached {c' : LocalClaims} {claim : LocalClaim} (found : c.claims.lookup j = some claim)
      (grown : c'.claims.lookup j = some (claim.attach url)) :
      Admits c key proposed url j old (c', .attached j localOwner claim.verdict)
  | dropped {c' : LocalClaims} {answer : Admitted} {claim : LocalClaim} {t : ℤ}
      (stale : old = true) (other : answer.jobId ≠ j) (found : c.claims.lookup j = some claim)
      (settled : claim.settledAtMs = some t) (gone : c'.claims.lookup j = none) :
      Admits c key proposed url j old (c', answer)
  | created {c' : LocalClaims} (mine : j = proposed)
      (fresh : c'.claims.lookup j = some ⟨key, [url], none, none, ∅⟩) :
      Admits c key proposed url j old (c', .created ⟨proposed, localOwner, 0⟩)

/-- **One admission creates a claim under the proposed id, attaches to one, or drops a stale one.** -/
theorem admit_lookup (c : LocalClaims) (key : TreeKey) (proposed : JobId) (url : String)
    (nowMs retentionMs : ℤ) (j : JobId) :
    Admits c key proposed url j (c.stale key nowMs retentionMs)
      (c.admitDispatch key proposed url nowMs retentionMs) := by
  have kept := lookup_dropStale c key nowMs retentionMs j
  have creates : ∀ c' : LocalClaims,
      c'.claims = (c.dropStale key nowMs retentionMs).claims →
      Admits c key proposed url j (c.stale key nowMs retentionMs)
        (c'.create key proposed url) := by
    intro c' same
    by_cases mine : j = proposed
    · refine .created mine ?_
      show (c'.claims.insert proposed _).lookup j = _
      rw [Table.lookup_insert, if_pos mine]
    · have after : (c'.create key proposed url).1.claims.lookup j =
          (c.dropStale key nowMs retentionMs).claims.lookup j := by
        show (c'.claims.insert proposed _).lookup j = _
        rw [Table.lookup_insert, if_neg mine, same]
      rcases kept with untouched | ⟨old, ⟨claim, t, found, settled⟩, gone⟩
      · exact .same (Ne.symm mine) (after.trans untouched)
      · exact .dropped old (Ne.symm mine) found settled (after.trans gone)
  unfold admitDispatch
  dsimp only
  cases known : (c.dropStale key nowMs retentionMs).byKey.lookup key with
  | none => exact creates _ rfl
  | some existing =>
    cases found : (c.dropStale key nowMs retentionMs).claims.lookup existing with
    | none =>
      simp only [found]
      exact creates _ rfl
    | some claim =>
      simp only [found]
      by_cases same : j = existing
      · subst same
        rcases kept with untouched | ⟨-, -, gone⟩
        · refine .attached (untouched ▸ found) ?_
          show ((c.dropStale key nowMs retentionMs).claims.insert j _).lookup j = _
          rw [Table.lookup_insert, if_pos rfl]
        · rw [gone] at found
          cases found
      · have after : ((c.dropStale key nowMs retentionMs).claims.insert existing
            (claim.attach url)).lookup j = (c.dropStale key nowMs retentionMs).claims.lookup j := by
          rw [Table.lookup_insert, if_neg same]
        rcases kept with untouched | ⟨old, ⟨claim', t, found', settled⟩, gone⟩
        · exact .same (Ne.symm same) (after.trans untouched)
        · exact .dropped old (Ne.symm same) found' settled (after.trans gone)

theorem admit_created {c c' : LocalClaims} {key : TreeKey} {proposed : JobId} {url : String}
    {nowMs retentionMs : ℤ} {lease : DriveLease}
    (admits : c.admitDispatch key proposed url nowMs retentionMs = (c', .created lease)) :
    lease.jobId = proposed := by
  have admission := admit_lookup c key proposed url nowMs retentionMs lease.jobId
  rw [admits] at admission
  cases admission with
  | same other => exact absurd rfl other
  | dropped _ other => exact absurd rfl other
  | created mine => exact mine

/-- A dispatch attaches to a claim that is there, and hears its verdict. -/
theorem admit_attached {c c' : LocalClaims} {key : TreeKey} {proposed : JobId} {url : String}
    {nowMs retentionMs : ℤ} {id : JobId} {owner : String} {verdict : Option Verdict}
    (admits : c.admitDispatch key proposed url nowMs retentionMs = (c', .attached id owner verdict)) :
    ∃ claim, c.claims.lookup id = some claim ∧ claim.verdict = verdict ∧
      c'.claims.lookup id = some (claim.attach url) := by
  have admission := admit_lookup c key proposed url nowMs retentionMs id
  rw [admits] at admission
  cases admission with
  | same other => exact absurd rfl other
  | attached found grown => exact ⟨_, found, rfl, grown⟩
  | dropped _ other => exact absurd rfl other

/-- What asking for a step does. -/
inductive ClaimsStep (c : LocalClaims) (lease : DriveLease) (stepId : StepId) :
    LocalClaims × StepClaim → Prop
  | fenced (gone : c.claims.lookup lease.jobId = none) :
      ClaimsStep c lease stepId (c, .fenced noClaim)
  | taken {claim : LocalClaim} (found : c.claims.lookup lease.jobId = some claim)
      (held : stepId ∈ claim.steps) : ClaimsStep c lease stepId (c, .taken localOwner)
  | granted {claim : LocalClaim} (found : c.claims.lookup lease.jobId = some claim)
      (free : stepId ∉ claim.steps) :
      ClaimsStep c lease stepId (⟨c.byKey, c.claims.insert lease.jobId
        { claim with steps := insert stepId claim.steps }⟩, .granted)

/-- **A step is granted only while nobody holds it.** -/
theorem claimStep_cases (c : LocalClaims) (lease : DriveLease) (stepId : StepId) :
    ClaimsStep c lease stepId (c.claimStep lease stepId) := by
  unfold claimStep
  cases found : c.claims.lookup lease.jobId with
  | none => exact .fenced found
  | some claim =>
    dsimp only
    by_cases held : stepId ∈ claim.steps
    · rw [if_pos held]
      exact .taken found held
    · rw [if_neg held]
      exact .granted found held

@[simp] theorem lookup_releaseStep (c : LocalClaims) (lease : DriveLease) (stepId : StepId)
    (j : JobId) : (c.releaseStep lease stepId).claims.lookup j =
      if j = lease.jobId then (c.claims.lookup lease.jobId).map fun claim =>
        { claim with steps := claim.steps.erase stepId }
      else c.claims.lookup j :=
  Table.lookup_modify _ _ _ _

@[simp] theorem lookup_settle (c : LocalClaims) (lease : DriveLease) (verdict : Verdict)
    (nowMs : ℤ) (j : JobId) : (c.settle lease verdict nowMs).claims.lookup j =
      if j = lease.jobId then (c.claims.lookup lease.jobId).map fun claim =>
        { claim with verdict := some verdict, settledAtMs := some nowMs }
      else c.claims.lookup j :=
  Table.lookup_modify _ _ _ _

@[simp] theorem lookup_forget (c : LocalClaims) (jobId j : JobId) :
    (c.forget jobId).claims.lookup j = if j = jobId then none else c.claims.lookup j := by
  unfold forget
  cases found : c.claims.lookup jobId with
  | none =>
    by_cases same : j = jobId
    · rw [if_pos same, same]
      exact found
    · rw [if_neg same]
  | some claim => exact Table.lookup_erase _ _ _

end LocalClaims

end HullCi.Control
