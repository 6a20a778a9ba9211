/-
**The shared claim store: two tables, and one SQL statement at a time.**

Every operation of the Postgres store is one statement, apart from the sweep that follows a takeover
and the two reads that word a refusal. A statement either commits as a whole or fails and leaves the
tables alone; it fails when a sum leaves `bigint` or a unique key is violated.

* `admitRow` — insert, attach or take over, decided row by row as the `CASE` expressions decide it.
* `Statement`, `exec` — every statement any replica can issue, and what it does to the tables.
* `PgClaims.admitDispatch` … `PgClaims.forget` — the operations of the trait, from these statements.
-/

import HullCi.Control.Claims

namespace HullCi.Server

open HullCi.Base HullCi.Proto HullCi.Control

/-! ### The tables -/

/-- A row of `hull_ci_claim`, without its key `(repo, tree_id)`. -/
structure ClaimRow where
  jobId : JobId
  owner : String
  fence : ℕ
  leaseExpiresMs : ℤ
  callbackUrls : List String
  verdict : Option String
  settledAtMs : Option ℤ
  deriving DecidableEq, Repr

/-- A row of `hull_ci_step_claim`, without its key `(job_id, step_id)`. -/
structure StepRow where
  owner : String
  fence : ℕ
  claimedAtMs : ℤ
  deriving DecidableEq, Repr

structure Db where
  claims : Table TreeKey ClaimRow
  steps : Table (JobId × StepId) StepRow

namespace Db

def new : Db := ⟨∅, ∅⟩

/-- The rows `WHERE` a test holds. -/
def rows (db : Db) (p : ClaimRow → Bool) : List ClaimRow :=
  db.claims.values.filter p

/-- The unique index on `job_id`, for a row written under a key. -/
def unique (db : Db) (key : TreeKey) (jobId : JobId) : Bool :=
  db.claims.entries.all fun e => e.1 = key || e.2.jobId ≠ jobId

end Db

/-- `WHERE job_id = … AND owner = … AND fence = …`. -/
def ClaimRow.held (row : ClaimRow) (lease : DriveLease) : Bool :=
  row.jobId = lease.jobId && row.owner = lease.owner && row.fence = lease.fence

/-- A sum of two `bigint`s, which fails outside of `bigint`. -/
def bigint (n : ℤ) : Option ℤ :=
  if -2 ^ 63 ≤ n ∧ n < 2 ^ 63 then some n else none

/-! ### The statements -/

/-- `settled_at_ms IS NOT NULL AND settled_at_ms + retention <= now`. -/
def ClaimRow.aged (c : ClaimRow) (nowMs retentionMs : ℤ) : Option Bool :=
  match c.settledAtMs with
  | none => some false
  | some t => (bigint (t + retentionMs)).map fun due => decide (due ≤ nowMs)

/-- An unsettled claim whose lease has lapsed. -/
def ClaimRow.lapsed (c : ClaimRow) (nowMs : ℤ) : Bool :=
  c.verdict.isNone && decide (c.leaseExpiresMs < nowMs)

/-- The columns after `ON CONFLICT DO UPDATE`. -/
def ClaimRow.update (c : ClaimRow) (takeover aged : Bool) (owner : String) (proposed : JobId)
    (url : String) (expires : ℤ) : ClaimRow where
  jobId := if takeover then proposed else c.jobId
  owner := if takeover then owner else c.owner
  fence := if takeover then c.fence + 1 else c.fence
  leaseExpiresMs := if takeover then expires else c.leaseExpiresMs
  callbackUrls :=
    if aged then [url]
    else if url ∈ c.callbackUrls then c.callbackUrls
    else c.callbackUrls ++ [url]
  verdict := if takeover then none else c.verdict
  settledAtMs := if takeover then none else c.settledAtMs

/-- `INSERT … ON CONFLICT DO UPDATE … RETURNING`, with `was_update`. -/
def Db.admitRow (db : Db) (owner : String) (key : TreeKey) (proposed : JobId) (url : String)
    (nowMs leaseMs retentionMs : ℤ) : Option (Db × ClaimRow × Bool) :=
  (bigint (nowMs + leaseMs)).bind fun expires =>
    match db.claims.lookup key with
    | none =>
      let row := ⟨proposed, owner, 1, expires, [url], none, none⟩
      if db.unique key proposed then
        some ({ db with claims := db.claims.insert key row }, row, false)
      else none
    | some c =>
      (c.aged nowMs retentionMs).bind fun aged =>
        let row := c.update (c.lapsed nowMs || aged) aged owner proposed url expires
        if db.unique key row.jobId then
          some ({ db with claims := db.claims.insert key row }, row, true)
        else none

/-- Drop the step claims of jobs that no claim names. -/
def Db.sweep (db : Db) : Db :=
  { db with steps := db.steps.keep fun k _ => db.claims.values.any fun row => row.jobId = k.1 }

/-- Push the lease out, with the number of rows; the sum is taken for a row that matches. -/
def Db.renewRows (db : Db) (lease : DriveLease) (nowMs leaseMs : ℤ) : Option (Db × ℕ) :=
  let n := (db.rows (·.held lease)).length
  if n = 0 then some (db, 0)
  else (bigint (nowMs + leaseMs)).map fun expires =>
    ({ db with claims := db.claims.mapValues fun row =>
      if row.held lease then { row with leaseExpiresMs := expires } else row }, n)

/-- Insert the step's row if the lease's row is there and the step's is not. -/
def Db.claimStepRow (db : Db) (lease : DriveLease) (stepId : StepId) (nowMs : ℤ) : Db × Bool :=
  if (db.claims.values.any fun row => row.held lease) &&
      (db.steps.lookup (lease.jobId, stepId)).isNone then
    ({ db with steps := db.steps.insert (lease.jobId, stepId) ⟨lease.owner, lease.fence, nowMs⟩ },
      true)
  else (db, false)

/-- Delete the step's row if it is the lease's own. -/
def Db.releaseRow (db : Db) (lease : DriveLease) (stepId : StepId) : Db :=
  { db with steps := db.steps.keep fun k row =>
    !(k = (lease.jobId, stepId) && row.owner = lease.owner && row.fence = lease.fence) }

def Db.settleRows (db : Db) (lease : DriveLease) (raw : String) (nowMs : ℤ) : Db :=
  { db with claims := db.claims.mapValues fun row =>
    if row.held lease then { row with verdict := some raw, settledAtMs := some nowMs } else row }

/-- A settled claim is anyone's to forget, an unsettled one only its owner's. -/
def ClaimRow.forgettable (row : ClaimRow) (owner : String) (jobId : JobId) : Bool :=
  row.jobId = jobId && (row.verdict.isSome || row.owner = owner)

/-- Delete the claim, and the step claims of what was deleted. -/
def Db.forgetRows (db : Db) (owner : String) (jobId : JobId) : Db where
  claims := db.claims.keep fun _ row => !row.forgettable owner jobId
  steps :=
    let gone := db.rows (·.forgettable owner jobId)
    db.steps.keep fun k _ => !gone.any fun row => row.jobId = k.1

/-- Every statement that writes. -/
inductive Statement
  | admitRow (owner : String) (key : TreeKey) (proposed : JobId) (url : String)
      (nowMs leaseMs retentionMs : ℤ)
  | sweep
  | renew (lease : DriveLease) (nowMs leaseMs : ℤ)
  | claimStep (lease : DriveLease) (stepId : StepId) (nowMs : ℤ)
  | releaseStep (lease : DriveLease) (stepId : StepId)
  | settle (lease : DriveLease) (raw : String) (nowMs : ℤ)
  | forget (owner : String) (jobId : JobId)
  deriving DecidableEq, Repr

/-- The tables after a statement; one that fails leaves them alone. -/
def exec (db : Db) : Statement → Db
  | .admitRow owner key proposed url nowMs leaseMs retentionMs =>
    ((db.admitRow owner key proposed url nowMs leaseMs retentionMs).map (·.1)).getD db
  | .sweep => db.sweep
  | .renew lease nowMs leaseMs => ((db.renewRows lease nowMs leaseMs).map (·.1)).getD db
  | .claimStep lease stepId nowMs => (db.claimStepRow lease stepId nowMs).1
  | .releaseStep lease stepId => db.releaseRow lease stepId
  | .settle lease raw nowMs => db.settleRows lease raw nowMs
  | .forget owner jobId => db.forgetRows owner jobId

/-! ### The operations of the trait -/

namespace PgClaims

variable (encode : Verdict → Option String) (decode : String → Option Verdict)

/-- We won exactly when the row came back with the id we proposed. -/
def admitted (owner : String) (proposed : JobId) (row : ClaimRow) : Admitted :=
  if row.jobId = proposed then .created ⟨row.jobId, owner, row.fence⟩
  else .attached row.jobId row.owner (row.verdict.bind decode)

/-- The statement, and the sweep after a takeover. -/
def admitDispatch (owner : String) (db : Db) (key : TreeKey) (proposed : JobId) (url : String)
    (nowMs leaseMs retentionMs : ℤ) : Option (Db × Admitted) :=
  (db.admitRow owner key proposed url nowMs leaseMs retentionMs).map fun (db, row, wasUpdate) =>
    (if row.jobId = proposed ∧ wasUpdate then db.sweep else db, admitted decode owner proposed row)

def renew (db : Db) (lease : DriveLease) (nowMs leaseMs : ℤ) : Option (Db × Bool) :=
  (db.renewRows lease nowMs leaseMs).map fun (db, n) => (db, n == 1)

/-- Who holds the step, else who holds the job. -/
def refusal (db : Db) (lease : DriveLease) (stepId : StepId) : StepClaim :=
  match db.steps.lookup (lease.jobId, stepId) with
  | some row => .taken row.owner
  | none =>
    match (db.rows (·.jobId = lease.jobId)).head? with
    | some row => .fenced row.owner
    | none => .fenced noClaim

/-- The insert, and the reads that only word a refusal. -/
def claimStep (db : Db) (lease : DriveLease) (stepId : StepId) (nowMs : ℤ) : Db × StepClaim :=
  match db.claimStepRow lease stepId nowMs with
  | (db, true) => (db, .granted)
  | (db, false) => (db, refusal db lease stepId)

def settle (db : Db) (lease : DriveLease) (verdict : Verdict) (nowMs : ℤ) : Option Db :=
  (encode verdict).map fun raw => db.settleRows lease raw nowMs

def destinations (db : Db) (jobId : JobId) : List String :=
  ((db.rows (·.jobId = jobId)).head?.map (·.callbackUrls)).getD []

end PgClaims

end HullCi.Server
