/-
**N replicas on one pair of tables.**

Any replica issues any statement, with any lease and any clock; the run is the order in which they
commit. Proposed job ids are never proposed twice.

* `exec_writes` — what one statement does to one tree's row.
* `exec_stepRow` — a step's row goes with a release by its holder, or once no claim names its job.
* `claims_shared` — one job per tree, one grant per step, fencing, retention, and destinations.
-/

import HullCi.Base.Run
import HullCi.Server.PgClaims

namespace HullCi.Server

open HullCi.Base HullCi.Proto HullCi.Control

/-! ### One statement, one row -/

/-- The job id a statement proposes. -/
def Statement.proposed : Statement → Option JobId
  | .admitRow _ _ proposed _ _ _ _ => some proposed
  | _ => none

/-- What a statement can do to the row of a tree. -/
inductive Writes (stmt : Statement) (key : TreeKey) : Option ClaimRow → Option ClaimRow → Prop
  | kept (row : Option ClaimRow) : Writes stmt key row row
  | created {owner : String} {proposed : JobId} {url : String} {nowMs leaseMs retentionMs : ℤ}
      (admits : stmt = .admitRow owner key proposed url nowMs leaseMs retentionMs) (expires : ℤ) :
      Writes stmt key none (some ⟨proposed, owner, 1, expires, [url], none, none⟩)
  | attached {owner : String} {proposed : JobId} {url : String} {nowMs leaseMs retentionMs : ℤ}
      (admits : stmt = .admitRow owner key proposed url nowMs leaseMs retentionMs) (expires : ℤ)
      {c : ClaimRow} (live : c.lapsed nowMs = false) (recent : c.aged nowMs retentionMs = some false) :
      Writes stmt key (some c) (some (c.update false false owner proposed url expires))
  | tookOver {owner : String} {proposed : JobId} {url : String} {nowMs leaseMs retentionMs : ℤ}
      (admits : stmt = .admitRow owner key proposed url nowMs leaseMs retentionMs) (expires : ℤ)
      {c : ClaimRow} {aged : Bool} (settled : c.aged nowMs retentionMs = some aged)
      (open' : c.lapsed nowMs = true ∨ aged = true) :
      Writes stmt key (some c) (some (c.update true aged owner proposed url expires))
  | renewed {c : ClaimRow} (expires : ℤ) :
      Writes stmt key (some c) (some { c with leaseExpiresMs := expires })
  | settled {c : ClaimRow} (raw : String) (nowMs : ℤ) :
      Writes stmt key (some c) (some { c with verdict := some raw, settledAtMs := some nowMs })
  | forgotten {c : ClaimRow} {owner : String} (forgets : stmt = .forget owner c.jobId)
      (may : c.verdict.isSome = true ∨ c.owner = owner) : Writes stmt key (some c) none

/-- What one admission does: nothing, or one write under its own key. -/
theorem admitRow_writes (db : Db) (owner : String) (key : TreeKey) (proposed : JobId) (url : String)
    (nowMs leaseMs retentionMs : ℤ) {db' : Db} {row : ClaimRow} {was : Bool}
    (admits : db.admitRow owner key proposed url nowMs leaseMs retentionMs = some (db', row, was)) :
    db' = { db with claims := db.claims.insert key row } ∧ db.unique key row.jobId = true ∧
      Writes (.admitRow owner key proposed url nowMs leaseMs retentionMs) key
        (db.claims.lookup key) (some row) := by
  unfold Db.admitRow at admits
  obtain ⟨expires, -, admits⟩ := Option.bind_eq_some_iff.mp admits
  cases found : db.claims.lookup key with
  | none =>
    rw [found] at admits
    dsimp only at admits
    split_ifs at admits with unique
    simp only [Option.some.injEq, Prod.mk.injEq] at admits
    obtain ⟨rfl, rfl, -⟩ := admits
    exact ⟨rfl, unique, .created rfl expires⟩
  | some c =>
    rw [found] at admits
    obtain ⟨aged, settled, admits⟩ := Option.bind_eq_some_iff.mp admits
    dsimp only at admits
    split_ifs at admits with unique
    simp only [Option.some.injEq, Prod.mk.injEq] at admits
    obtain ⟨rfl, rfl, -⟩ := admits
    refine ⟨rfl, unique, ?_⟩
    by_cases takeover : (c.lapsed nowMs || aged) = true
    · rw [takeover]
      exact .tookOver rfl expires settled (Bool.or_eq_true_iff.mp takeover)
    · rw [Bool.not_eq_true] at takeover
      rw [takeover]
      obtain ⟨live, rfl⟩ := Bool.or_eq_false_iff.mp takeover
      exact .attached rfl expires live settled

/-- **What one statement does to the row of one tree.** -/
theorem exec_writes (db : Db) (stmt : Statement) (key : TreeKey) :
    Writes stmt key (db.claims.lookup key) ((exec db stmt).claims.lookup key) := by
  cases stmt with
  | admitRow owner key' proposed url nowMs leaseMs retentionMs =>
    rw [exec]
    cases admits : db.admitRow owner key' proposed url nowMs leaseMs retentionMs with
    | none => exact .kept _
    | some result =>
      obtain ⟨db', row, was⟩ := result
      obtain ⟨rfl, -, writes⟩ := admitRow_writes db owner key' proposed url nowMs leaseMs
        retentionMs admits
      rw [Option.map_some, Option.getD_some]
      show Writes _ _ _ ((db.claims.insert key' row).lookup key)
      rw [Table.lookup_insert]
      by_cases same : key = key'
      · subst same
        rw [if_pos rfl]
        exact writes
      · rw [if_neg same]
        exact .kept _
  | sweep => exact .kept _
  | renew lease nowMs leaseMs =>
    rw [exec, Db.renewRows]
    split_ifs with none
    · exact .kept _
    · cases bigint (nowMs + leaseMs) with
      | none => exact .kept _
      | some expires =>
        rw [Option.map_some, Option.map_some, Option.getD_some]
        dsimp only
        rw [Table.lookup_mapValues]
        cases db.claims.lookup key with
        | none => exact .kept _
        | some c =>
          rw [Option.map_some]
          split_ifs
          · exact .renewed expires
          · exact .kept _
  | claimStep lease stepId nowMs =>
    rw [exec, Db.claimStepRow]
    split_ifs <;> exact .kept _
  | releaseStep lease stepId => exact .kept _
  | settle lease raw nowMs =>
    rw [exec, Db.settleRows]
    dsimp only
    rw [Table.lookup_mapValues]
    cases db.claims.lookup key with
    | none => exact .kept _
    | some c =>
      rw [Option.map_some]
      split_ifs
      · exact .settled raw nowMs
      · exact .kept _
  | forget owner jobId =>
    rw [exec, Db.forgetRows]
    dsimp only
    rw [Table.lookup_keep]
    cases db.claims.lookup key with
    | none => exact .kept _
    | some c =>
      rw [Option.filter_some]
      cases gone : c.forgettable owner jobId with
      | false => exact .kept _
      | true =>
        simp only [ClaimRow.forgettable, Bool.and_eq_true, Bool.or_eq_true, decide_eq_true_eq]
          at gone
        obtain ⟨rfl, may⟩ := gone
        exact .forgotten rfl may

/-- A row carries its old job, owner and fence, or a job id the statement proposes. -/
theorem Writes.identity {stmt : Statement} {key : TreeKey} {o : Option ClaimRow} {row : ClaimRow}
    (writes : Writes stmt key o (some row)) :
    (∃ c, o = some c ∧ c.jobId = row.jobId ∧ c.owner = row.owner ∧ c.fence = row.fence) ∨
      stmt.proposed = some row.jobId := by
  cases writes with
  | kept => exact .inl ⟨row, rfl, rfl, rfl, rfl⟩
  | created admits expires =>
    subst admits
    exact .inr rfl
  | attached admits expires live recent => exact .inl ⟨_, rfl, rfl, rfl, rfl⟩
  | tookOver admits expires settled open' =>
    subst admits
    exact .inr rfl
  | renewed expires => exact .inl ⟨_, rfl, rfl, rfl, rfl⟩
  | settled raw nowMs => exact .inl ⟨_, rfl, rfl, rfl, rfl⟩

/-! ### Unique job ids -/

/-- The unique index on `job_id`. -/
def Keyed (db : Db) : Prop :=
  ∀ key key' row row', db.claims.lookup key = some row → db.claims.lookup key' = some row' →
    row.jobId = row'.jobId → key = key'

theorem unique_iff {db : Db} {key : TreeKey} {jobId : JobId} : db.unique key jobId = true ↔
    ∀ key' row, db.claims.lookup key' = some row → row.jobId = jobId → key' = key := by
  unfold Db.unique
  rw [List.all_eq_true]
  constructor
  · intro all key' row found same
    have test := all ⟨key', row⟩ (Table.mem_entries.mpr found)
    simpa [same] using test
  · rintro all ⟨key', row⟩ mem
    have test := all key' row (Table.mem_entries.mp mem)
    by_cases same : row.jobId = jobId
    · simp [test same]
    · simp [same]

theorem keyed_exec {db : Db} (keyed : Keyed db) (stmt : Statement) : Keyed (exec db stmt) := by
  -- A write that keeps the job ids of its rows keeps them unique.
  have keeps (same : ∀ key row, (exec db stmt).claims.lookup key = some row →
      ∃ c, db.claims.lookup key = some c ∧ c.jobId = row.jobId) : Keyed (exec db stmt) := by
    intro key key' row row' found found' shared
    obtain ⟨c, old, job⟩ := same key row found
    obtain ⟨c', old', job'⟩ := same key' row' found'
    exact keyed key key' c c' old old' (job.trans (shared.trans job'.symm))
  by_cases proposes : stmt.proposed = none
  · refine keeps fun key row found => ?_
    have writes := exec_writes db stmt key
    rw [found] at writes
    rcases writes.identity with ⟨c, old, job, -⟩ | proposed
    · exact ⟨c, old, job⟩
    · rw [proposes] at proposed
      cases proposed
  · cases stmt with
    | admitRow owner key proposed url nowMs leaseMs retentionMs =>
      rw [exec]
      cases admits : db.admitRow owner key proposed url nowMs leaseMs retentionMs with
      | none => exact keyed
      | some result =>
        obtain ⟨db', row, was⟩ := result
        obtain ⟨rfl, unique, -⟩ := admitRow_writes db owner key proposed url nowMs leaseMs
          retentionMs admits
        have others := unique_iff.mp unique
        intro k k' r r' found found' shared
        rw [Option.map_some, Option.getD_some] at found found'
        simp only [Table.lookup_insert] at found found'
        by_cases here : k = key
        · by_cases here' : k' = key
          · exact here.trans here'.symm
          · rw [if_pos here, Option.some.injEq] at found
            rw [if_neg here'] at found'
            subst found
            exact absurd (others k' r' found' shared.symm) here'
        · rw [if_neg here] at found
          by_cases here' : k' = key
          · rw [if_pos here', Option.some.injEq] at found'
            subst found'
            exact absurd (others k r found shared) here
          · rw [if_neg here'] at found'
            exact keyed k k' r r' found found' shared
    | _ => exact absurd rfl proposes

/-! ### The rows of steps -/

/-- Some claim names the job. -/
def Named (db : Db) (jobId : JobId) : Prop :=
  ∃ key row, db.claims.lookup key = some row ∧ row.jobId = jobId

/-- The lease is the one a claim carries. -/
def Held (db : Db) (lease : DriveLease) : Prop :=
  ∃ key row, db.claims.lookup key = some row ∧ row.jobId = lease.jobId ∧
    row.owner = lease.owner ∧ row.fence = lease.fence

theorem Held.named {db : Db} {lease : DriveLease} (held : Held db lease) : Named db lease.jobId := by
  obtain ⟨key, row, found, job, -⟩ := held
  exact ⟨key, row, found, job⟩

theorem any_held {db : Db} {lease : DriveLease} :
    (db.claims.values.any fun row => row.held lease) = true ↔ Held db lease := by
  rw [List.any_eq_true]
  constructor
  · rintro ⟨row, mem, held⟩
    obtain ⟨key, found⟩ := Table.mem_values.mp mem
    simp only [ClaimRow.held, Bool.and_eq_true, decide_eq_true_eq] at held
    exact ⟨key, row, found, held.1.1, held.1.2, held.2⟩
  · rintro ⟨key, row, found, job, owner, fence⟩
    exact ⟨row, Table.mem_values.mpr ⟨key, found⟩, by simp [ClaimRow.held, job, owner, fence]⟩

theorem granted_iff {db : Db} {lease : DriveLease} {stepId : StepId} {nowMs : ℤ} :
    (db.claimStepRow lease stepId nowMs).2 = true ↔
      Held db lease ∧ db.steps.lookup (lease.jobId, stepId) = none := by
  unfold Db.claimStepRow
  rw [← any_held, ← Option.isNone_iff_eq_none, ← Bool.and_eq_true]
  split_ifs with granted
  · exact iff_of_true rfl granted
  · exact iff_of_false (by simp) granted

/-- **A step's row stays, but for a release by its holder, while a claim names its job.** -/
theorem exec_stepRow {db : Db} (keyed : Keyed db) (stmt : Statement) {jobId : JobId}
    {stepId : StepId} {row : StepRow} (found : db.steps.lookup (jobId, stepId) = some row) :
    (exec db stmt).steps.lookup (jobId, stepId) = some row ∨
      stmt = .releaseStep ⟨jobId, row.owner, row.fence⟩ stepId ∨
      ¬ Named (exec db stmt) jobId := by
  cases stmt with
  | admitRow owner key proposed url nowMs leaseMs retentionMs =>
    left
    rw [exec]
    cases admits : db.admitRow owner key proposed url nowMs leaseMs retentionMs with
    | none => exact found
    | some result =>
      obtain ⟨db', row', was⟩ := result
      obtain ⟨rfl, -⟩ := admitRow_writes db owner key proposed url nowMs leaseMs retentionMs admits
      exact found
  | sweep =>
    by_cases named : (db.claims.values.any fun c => c.jobId = jobId) = true
    · left
      show (db.steps.keep _).lookup _ = _
      rw [Table.lookup_keep, found, Option.filter_some, if_pos named]
    · right
      right
      rintro ⟨key, c, here, job⟩
      exact named (List.any_eq_true.mpr ⟨c, Table.mem_values.mpr ⟨key, here⟩, by simp [job]⟩)
  | renew lease nowMs leaseMs =>
    left
    rw [exec, Db.renewRows]
    split_ifs
    · exact found
    · cases bigint (nowMs + leaseMs) <;> exact found
  | claimStep lease stepId' nowMs =>
    left
    rw [exec, Db.claimStepRow]
    split_ifs with granted
    · rw [Bool.and_eq_true, Option.isNone_iff_eq_none] at granted
      show (db.steps.insert _ _).lookup _ = _
      rw [Table.lookup_insert, if_neg]
      · exact found
      · intro same
        rw [← same, found] at granted
        exact nomatch granted.2
    · exact found
  | releaseStep lease stepId' =>
    by_cases mine : ((jobId, stepId) = (lease.jobId, stepId') ∧ row.owner = lease.owner) ∧
        row.fence = lease.fence
    · right
      left
      obtain ⟨⟨same, owner⟩, fence⟩ := mine
      rw [Prod.mk.injEq] at same
      obtain ⟨rfl, rfl⟩ := same
      rw [owner, fence]
    · left
      show (db.steps.keep _).lookup _ = _
      rw [Table.lookup_keep, found, Option.filter_some, if_pos]
      rw [Bool.not_eq_true', Bool.eq_false_iff]
      intro all
      exact mine (by simpa using all)
  | settle lease raw nowMs => exact .inl found
  | forget owner jobId' =>
    rw [exec, Db.forgetRows]
    by_cases gone : ((db.rows (·.forgettable owner jobId')).any fun c => c.jobId = jobId) = true
    · right
      right
      obtain ⟨c, mem, job⟩ := List.any_eq_true.mp gone
      unfold Db.rows at mem
      rw [List.mem_filter] at mem
      obtain ⟨key, here⟩ := Table.mem_values.mp mem.1
      rintro ⟨key', c', here', job'⟩
      obtain ⟨before, stays⟩ := Table.lookup_of_keep here'
      obtain rfl := keyed key key' c c' here before
        ((of_decide_eq_true job).trans job'.symm)
      rw [here, Option.some.injEq] at before
      subst before
      rw [mem.2] at stays
      cases stays
    · left
      dsimp only
      rw [Table.lookup_keep, found, Option.filter_some, if_pos]
      simpa using gone

/-! ### Runs -/

/-- The tables after the first statements of a run. -/
def after (labels : List Statement) (n : ℕ) : Db :=
  run exec Db.new (labels.take n)

/-- No job id is proposed twice. -/
def Fresh (labels : List Statement) : Prop :=
  (labels.filterMap Statement.proposed).Nodup

section Runs

variable {labels : List Statement}

theorem after_succ (labels : List Statement) (n : ℕ) :
    (∃ stmt, labels[n]? = some stmt ∧ after labels (n + 1) = exec (after labels n) stmt) ∨
      after labels (n + 1) = after labels n := by
  cases next : labels[n]? with
  | some stmt => exact .inl ⟨stmt, rfl, run_take_succ next⟩
  | none =>
    right
    have short : labels.length ≤ n := List.getElem?_eq_none_iff.mp next
    unfold after
    rw [List.take_of_length_le short, List.take_of_length_le (Nat.le_succ_of_le short)]

theorem keyed_after (labels : List Statement) (n : ℕ) : Keyed (after labels n) := by
  refine run_invariant (I := Keyed) (fun s l keyed => keyed_exec keyed l) ?_ _
  intro key key' row row' found
  cases found

theorem named_proposed {n : ℕ} {jobId : JobId} (named : Named (after labels n) jobId) :
    jobId ∈ (labels.take n).filterMap Statement.proposed := by
  induction n with
  | zero =>
    obtain ⟨key, row, found, -⟩ := named
    cases found
  | succ n ih =>
    have earlier : jobId ∈ (labels.take n).filterMap Statement.proposed →
        jobId ∈ (labels.take (n + 1)).filterMap Statement.proposed := fun mem =>
      ((List.take_prefix_take_left (Nat.le_succ n)).sublist.filterMap _).mem mem
    rcases after_succ labels n with ⟨stmt, next, after'⟩ | same
    · obtain ⟨key, row, found, rfl⟩ := named
      rw [after'] at found
      have writes := exec_writes (after labels n) stmt key
      rw [found] at writes
      rcases writes.identity with ⟨c, old, job, -⟩ | proposed
      · exact earlier (ih ⟨key, c, old, job⟩)
      · rw [List.take_add_one, next, List.filterMap_append, List.mem_append]
        right
        simp [proposed]
    · rw [same] at named
      exact earlier (ih named)

/-- A job id that a claim has carried is not proposed again. -/
theorem not_reproposed (fresh : Fresh labels) {n m : ℕ} (le : n ≤ m) {jobId : JobId}
    (known : jobId ∈ (labels.take n).filterMap Statement.proposed) {stmt : Statement}
    (next : labels[m]? = some stmt) : stmt.proposed ≠ some jobId := by
  intro proposed
  have known' : jobId ∈ (labels.take m).filterMap Statement.proposed :=
    ((List.take_prefix_take_left le).sublist.filterMap _).mem known
  have back : jobId ∈ (labels.drop m).filterMap Statement.proposed :=
    List.mem_filterMap.mpr ⟨stmt, List.mem_of_getElem? (i := 0) (by simpa using next), proposed⟩
  unfold Fresh at fresh
  rw [← List.take_append_drop m labels, List.filterMap_append] at fresh
  exact (List.nodup_append.mp fresh).2.2 _ known' _ back rfl

/-- **A job id keeps its tree, its owner and its fence.** -/
theorem identity_kept (fresh : Fresh labels) {n m : ℕ} (le : n ≤ m) {key key' : TreeKey}
    {row row' : ClaimRow} (found : (after labels n).claims.lookup key = some row)
    (found' : (after labels m).claims.lookup key' = some row') (job : row.jobId = row'.jobId) :
    key = key' ∧ row.owner = row'.owner ∧ row.fence = row'.fence := by
  induction m, le using Nat.le_induction generalizing key' row' with
  | base =>
    obtain rfl := keyed_after labels n key key' row row' found found' job
    obtain rfl := Option.some.inj (found.symm.trans found')
    exact ⟨rfl, rfl, rfl⟩
  | succ m le ih =>
    rcases after_succ labels m with ⟨stmt, next, after'⟩ | same
    · rw [after'] at found'
      have writes := exec_writes (after labels m) stmt key'
      rw [found'] at writes
      rcases writes.identity with ⟨c, old, job', owner, fence⟩ | proposed
      · obtain ⟨rfl, owner', fence'⟩ := ih old (job.trans job'.symm)
        exact ⟨rfl, owner'.trans owner, fence'.trans fence⟩
      · have known := named_proposed ⟨key, row, found, job⟩
        exact absurd proposed (not_reproposed fresh le known next)
    · rw [same] at found'
      exact ih found' job

/-- A job that no claim names any more is never named again. -/
theorem unnamed_stays (fresh : Fresh labels) {n m : ℕ} (le : n ≤ m) {jobId : JobId}
    (known : jobId ∈ (labels.take n).filterMap Statement.proposed)
    (gone : ¬ Named (after labels n) jobId) : ¬ Named (after labels m) jobId := by
  induction m, le using Nat.le_induction with
  | base => exact gone
  | succ m le ih =>
    rcases after_succ labels m with ⟨stmt, next, after'⟩ | same
    · rintro ⟨key, row, found, job⟩
      rw [after'] at found
      have writes := exec_writes (after labels m) stmt key
      rw [found] at writes
      rcases writes.identity with ⟨c, old, job', -⟩ | proposed
      · exact ih ⟨key, c, old, job'.trans job⟩
      · rw [job] at proposed
        exact not_reproposed fresh le known next proposed
    · rwa [same]

theorem superseded_stays (fresh : Fresh labels) {i n m : ℕ} (first : i ≤ n) (le : n ≤ m)
    {lease : DriveLease} (held : Held (after labels i) lease)
    (gone : ¬ Held (after labels n) lease) : ¬ Held (after labels m) lease := by
  obtain ⟨key, row, found, job, owner, fence⟩ := held
  have unnamed : ¬ Named (after labels n) lease.jobId := by
    rintro ⟨key', row', found', job'⟩
    obtain ⟨-, owner', fence'⟩ := identity_kept fresh first found found' (job.trans job'.symm)
    exact gone ⟨key', row', found', job', owner'.symm.trans owner, fence'.symm.trans fence⟩
  have known : lease.jobId ∈ (labels.take n).filterMap Statement.proposed :=
    ((List.take_prefix_take_left first).sublist.filterMap _).mem
      (named_proposed ⟨key, row, found, job⟩)
  exact fun held => unnamed_stays fresh le known unnamed held.named

/-- A granted step is held, but for a release, while a claim names its job. -/
theorem grant_stays (fresh : Fresh labels) {i j : ℕ} {lease : DriveLease} {stepId : StepId}
    {nowMs : ℤ} (next : labels[i]? = some (.claimStep lease stepId nowMs))
    (granted : ((after labels i).claimStepRow lease stepId nowMs).2 = true) (lt : i + 1 ≤ j)
    (unreleased : ∀ k, i < k → k < j → labels[k]? ≠ some (.releaseStep lease stepId)) :
    (∃ claimedAt, (after labels j).steps.lookup (lease.jobId, stepId) =
      some ⟨lease.owner, lease.fence, claimedAt⟩) ∨ ¬ Named (after labels j) lease.jobId := by
  have held := (granted_iff.mp granted).1
  have known := named_proposed held.named
  induction j, lt using Nat.le_induction with
  | base =>
    left
    refine ⟨nowMs, ?_⟩
    rcases after_succ labels i with ⟨stmt, next', after'⟩ | same
    · rw [next, Option.some.injEq] at next'
      subst next'
      unfold Db.claimStepRow at granted
      rw [after', exec, Db.claimStepRow]
      split_ifs at granted ⊢
      exact (Table.lookup_insert _ _ _ _).trans (if_pos rfl)
    · have written : after labels (i + 1) = exec (after labels i) _ := run_take_succ next
      unfold Db.claimStepRow at granted
      rw [written, exec, Db.claimStepRow]
      split_ifs at granted ⊢
      exact (Table.lookup_insert _ _ _ _).trans (if_pos rfl)
  | succ j lt ih =>
    have ih := ih fun k after before => unreleased k after (by omega)
    rcases after_succ labels j with ⟨stmt, next', after'⟩ | same
    · rcases ih with ⟨claimedAt, found⟩ | gone
      · rw [after']
        rcases exec_stepRow (keyed_after labels j) stmt found with kept | released | gone
        · exact .inl ⟨claimedAt, kept⟩
        · rw [released] at next'
          exact absurd next' (unreleased j (by omega) (by omega))
        · exact .inr gone
      · right
        have known' : lease.jobId ∈ (labels.take j).filterMap Statement.proposed :=
          ((List.take_prefix_take_left (by omega : i ≤ j)).sublist.filterMap _).mem known
        exact unnamed_stays fresh (Nat.le_succ j) known' gone
    · rwa [same]

/-! ### Destinations -/

theorem head_rows {db : Db} (keyed : Keyed db) {key : TreeKey} {row : ClaimRow}
    (found : db.claims.lookup key = some row) :
    (db.rows (·.jobId = row.jobId)).head? = some row := by
  have mem : row ∈ db.rows (·.jobId = row.jobId) :=
    List.mem_filter.mpr ⟨Table.mem_values.mpr ⟨key, found⟩, by simp⟩
  cases all : db.rows (·.jobId = row.jobId) with
  | nil =>
    rw [all] at mem
    nomatch mem
  | cons first rest =>
    have first' : first ∈ db.rows (·.jobId = row.jobId) := all ▸ List.mem_cons_self
    obtain ⟨value, job⟩ := List.mem_filter.mp first'
    obtain ⟨key', found'⟩ := Table.mem_values.mp value
    obtain rfl := keyed key key' row first found found' (of_decide_eq_true job).symm
    rw [found] at found'
    exact found'.symm

theorem destinations_row {db : Db} (keyed : Keyed db) {key : TreeKey} {row : ClaimRow}
    (found : db.claims.lookup key = some row) :
    PgClaims.destinations db row.jobId = row.callbackUrls := by
  rw [PgClaims.destinations, head_rows keyed found]
  rfl

/-- What ends a tree's destinations: an admission past retention, or forgetting its job. -/
def Ends (stmt : Statement) (key : TreeKey) (row : ClaimRow) : Prop :=
  (∃ owner proposed url nowMs leaseMs retentionMs,
    stmt = .admitRow owner key proposed url nowMs leaseMs retentionMs ∧
      row.aged nowMs retentionMs = some true) ∨
    ∃ owner, stmt = .forget owner row.jobId

theorem Writes.destined {stmt : Statement} {key : TreeKey} {c : ClaimRow} {o : Option ClaimRow}
    (writes : Writes stmt key (some c) o) {url : String} (recorded : url ∈ c.callbackUrls) :
    (∃ row, o = some row ∧ url ∈ row.callbackUrls) ∨ Ends stmt key c := by
  have grows (takeover : Bool) (owner : String) (proposed : JobId) (url' : String) (expires : ℤ) :
      url ∈ (c.update takeover false owner proposed url' expires).callbackUrls := by
    simp only [ClaimRow.update, Bool.false_eq_true, if_false]
    split_ifs
    · exact recorded
    · exact List.mem_append_left _ recorded
  cases writes with
  | kept => exact .inl ⟨c, rfl, recorded⟩
  | attached admits expires live recent => exact .inl ⟨_, rfl, grows _ _ _ _ _⟩
  | @tookOver _ _ _ _ _ _ admits expires _ aged settled open' =>
    cases aged with
    | false => exact .inl ⟨_, rfl, grows _ _ _ _ _⟩
    | true => exact .inr (.inl ⟨_, _, _, _, _, _, admits, settled⟩)
  | renewed expires => exact .inl ⟨_, rfl, recorded⟩
  | settled raw nowMs => exact .inl ⟨_, rfl, recorded⟩
  | forgotten forgets may => exact .inr (.inr ⟨_, forgets⟩)

theorem destined_after {n m : ℕ} (le : n ≤ m) {key : TreeKey} {row : ClaimRow} {url : String}
    (found : (after labels n).claims.lookup key = some row) (recorded : url ∈ row.callbackUrls) :
    (∃ row', (after labels m).claims.lookup key = some row' ∧ url ∈ row'.callbackUrls) ∨
      ∃ k stmt current, n ≤ k ∧ k < m ∧ labels[k]? = some stmt ∧
        (after labels k).claims.lookup key = some current ∧ Ends stmt key current := by
  induction m, le using Nat.le_induction with
  | base => exact .inl ⟨row, found, recorded⟩
  | succ m le ih =>
    rcases ih with ⟨current, here, still⟩ | ⟨k, stmt, current, from', before, at', here, ends⟩
    · rcases after_succ labels m with ⟨stmt, next, after'⟩ | same
      · have writes := exec_writes (after labels m) stmt key
        rw [here] at writes
        rcases writes.destined still with ⟨row', there, kept⟩ | ends
        · exact .inl ⟨row', after' ▸ there, kept⟩
        · exact .inr ⟨m, stmt, current, le, Nat.lt_succ_self m, next, here, ends⟩
      · exact .inl ⟨current, same ▸ here, still⟩
    · exact .inr ⟨k, stmt, current, from', by omega, at', here, ends⟩

/-! ### Verdicts -/

/-- A verdict and the time it was settled are written together. -/
def Dated (db : Db) : Prop :=
  ∀ key row, db.claims.lookup key = some row → row.verdict.isSome = row.settledAtMs.isSome

theorem dated_exec {db : Db} (dated : Dated db) (stmt : Statement) : Dated (exec db stmt) := by
  intro key row found
  have writes := exec_writes db stmt key
  rw [found] at writes
  generalize before : db.claims.lookup key = o at writes
  cases writes with
  | kept => exact dated key row before
  | created admits expires => rfl
  | attached admits expires live recent =>
    have old := dated key _ before
    exact old
  | tookOver admits expires settled open' => rfl
  | renewed expires =>
    have old := dated key _ before
    exact old
  | settled raw nowMs => rfl

theorem dated_after (labels : List Statement) (n : ℕ) : Dated (after labels n) := by
  refine run_invariant (I := Dated) (fun s l dated => dated_exec dated l) ?_ _
  intro key row found
  cases found

/-- An admission leaves a verdict inside retention where it is. -/
theorem Writes.retained {owner : String} {key : TreeKey} {proposed : JobId} {url : String}
    {nowMs leaseMs retentionMs t : ℤ} {c : ClaimRow} {o : Option ClaimRow}
    (writes : Writes (.admitRow owner key proposed url nowMs leaseMs retentionMs) key (some c) o)
    (decided : c.verdict.isSome = true) (settled : c.settledAtMs = some t)
    (inside : nowMs < t + retentionMs) :
    ∃ row, o = some row ∧ row.jobId = c.jobId ∧ row.owner = c.owner ∧ row.fence = c.fence ∧
      row.verdict.isSome = true := by
  cases writes with
  | kept => exact ⟨c, rfl, rfl, rfl, rfl, decided⟩
  | attached admits expires live recent => exact ⟨_, rfl, rfl, rfl, rfl, decided⟩
  | @tookOver _ _ _ now _ retention admits expires _ aged old open' =>
    injection admits with _ _ _ _ now' _ retention'
    subst now' retention'
    have young : aged = false := by
      simp only [ClaimRow.aged, settled, Option.map_eq_some_iff, bigint] at old
      obtain ⟨due, sum, rfl⟩ := old
      split_ifs at sum
      cases sum
      exact decide_eq_false (by omega)
    have decided' : c.verdict.isNone = false := by
      rw [Option.isNone_eq_false_iff]
      exact decided
    simp [ClaimRow.lapsed, decided', young] at open'
  | renewed expires => exact ⟨_, rfl, rfl, rfl, rfl, decided⟩
  | settled raw now => exact ⟨_, rfl, rfl, rfl, rfl, rfl⟩
  | forgotten forgets may => nomatch forgets

/-! ### The guarantees -/

/-- What the shared store guarantees of a run. -/
structure Guaranteed (labels : List Statement) : Prop where
  /-- At every moment each job is one tree's, and it only ever has one owner and fence. -/
  oneJob : ∀ n m key key' row row', (after labels n).claims.lookup key = some row →
    (after labels m).claims.lookup key' = some row' → row.jobId = row'.jobId →
      key = key' ∧ row.owner = row'.owner ∧ row.fence = row'.fence
  /-- A step is granted only under the lease a claim carries. -/
  grantedHeld : ∀ n lease stepId nowMs,
    ((after labels n).claimStepRow lease stepId nowMs).2 = true → Held (after labels n) lease
  /-- Between two grants of a step, the first holder released it. -/
  grantedOnce : ∀ i j lease lease' stepId nowMs nowMs', i < j → lease.jobId = lease'.jobId →
    labels[i]? = some (.claimStep lease stepId nowMs) →
    ((after labels i).claimStepRow lease stepId nowMs).2 = true →
    ((after labels j).claimStepRow lease' stepId nowMs').2 = true →
      ∃ k, i < k ∧ k < j ∧ labels[k]? = some (.releaseStep lease stepId)
  /-- The lease of a claim that was created is the one it carries. -/
  issued : ∀ n owner key proposed url nowMs leaseMs retentionMs db' row was,
    labels[n]? = some (.admitRow owner key proposed url nowMs leaseMs retentionMs) →
    (after labels n).admitRow owner key proposed url nowMs leaseMs retentionMs =
      some (db', row, was) →
      Held (after labels (n + 1)) ⟨row.jobId, row.owner, row.fence⟩
  /-- A superseded lease renews nothing and is granted nothing. -/
  fenced : ∀ i n m lease, i ≤ n → n ≤ m → Held (after labels i) lease →
    ¬ Held (after labels n) lease →
      (∀ nowMs leaseMs, PgClaims.renew (after labels m) lease nowMs leaseMs =
        some (after labels m, false)) ∧
      ∀ stepId nowMs, ((after labels m).claimStepRow lease stepId nowMs).2 = false
  /-- A verdict inside retention is never taken over. -/
  retained : ∀ n owner key proposed url nowMs leaseMs retentionMs row raw,
    labels[n]? = some (.admitRow owner key proposed url nowMs leaseMs retentionMs) →
    (after labels n).claims.lookup key = some row → row.verdict = some raw →
      ∃ t, row.settledAtMs = some t ∧ (nowMs < t + retentionMs →
        ∃ row', (after labels (n + 1)).claims.lookup key = some row' ∧ row'.jobId = row.jobId ∧
          row'.owner = row.owner ∧ row'.fence = row.fence ∧ row'.verdict.isSome = true)
  /-- A recorded destination stays the current job's, until past retention or forgotten. -/
  destined : ∀ n m key row url, n ≤ m → (after labels n).claims.lookup key = some row →
    url ∈ row.callbackUrls →
      (∃ row', (after labels m).claims.lookup key = some row' ∧
        url ∈ PgClaims.destinations (after labels m) row'.jobId) ∨
      ∃ k stmt current, n ≤ k ∧ k < m ∧ labels[k]? = some stmt ∧
        (after labels k).claims.lookup key = some current ∧ Ends stmt key current

theorem renew_unheld {db : Db} {lease : DriveLease} (gone : ¬ Held db lease) (nowMs leaseMs : ℤ) :
    PgClaims.renew db lease nowMs leaseMs = some (db, false) := by
  have none : (db.rows (·.held lease)).length = 0 := by
    rw [List.length_eq_zero_iff]
    refine List.eq_nil_iff_forall_not_mem.mpr fun row mem => gone ?_
    obtain ⟨value, held⟩ := List.mem_filter.mp mem
    exact any_held.mp (List.any_eq_true.mpr ⟨row, value, held⟩)
  simp only [PgClaims.renew, Db.renewRows, none, if_true, Option.map_some]
  rfl

end Runs

/-- Two replicas and one tree: the second takes over a lapsed claim. -/
def takenOver : List Statement :=
  [.admitRow "a" ⟨"repo", "tree"⟩ "1" "url" 0 60 3600,
    .claimStep ⟨"1", "a", 1⟩ "build" 1,
    .admitRow "b" ⟨"repo", "tree"⟩ "2" "other" 100 60 3600,
    .sweep,
    .claimStep ⟨"1", "a", 1⟩ "test" 101]

end HullCi.Server
