/-
**One replica: the process-local store answers as the shared one does.**

Both stores are run by one caller, who keeps the leases it was issued and presents no other. The
answers are compared without the owner's name and the fence.

* `Sim` — the two stores, row by row: one job a tree, its destinations, verdict, dates and steps.
* `sim_write`, `sim_create`, `sim_forget` — the three ways in which both change.
* `local_refines` — the same answers along a whole run.
-/

import HullCi.Server.SharedClaims

namespace HullCi.Server

open HullCi.Base HullCi.Proto HullCi.Control

/-! ### The trait and its caller -/

/-- `JobClaims`, for one replica; `none` is `ClaimError::Unavailable`. -/
structure JobClaims (S : Type) where
  admitDispatch : S → TreeKey → JobId → String → ℤ → ℤ → ℤ → Option (S × Admitted)
  renew : S → DriveLease → ℤ → ℤ → Option (S × Bool)
  claimStep : S → DriveLease → StepId → ℤ → S × StepClaim
  releaseStep : S → DriveLease → StepId → S
  settle : S → DriveLease → Verdict → ℤ → Option S
  destinations : S → JobId → List String
  forget : S → JobId → S

def localStore : JobClaims LocalClaims where
  admitDispatch c key proposed url nowMs _ retentionMs :=
    some (c.admitDispatch key proposed url nowMs retentionMs)
  renew c lease _ _ := some (c, (c.claims.lookup lease.jobId).isSome)
  claimStep c lease stepId _ := c.claimStep lease stepId
  releaseStep := LocalClaims.releaseStep
  settle c lease verdict nowMs := some (c.settle lease verdict nowMs)
  destinations := LocalClaims.destinations
  forget := LocalClaims.forget

def pgStore (encode : Verdict → Option String) (decode : String → Option Verdict)
    (owner : String) : JobClaims Db where
  admitDispatch := PgClaims.admitDispatch decode owner
  renew := PgClaims.renew
  claimStep := PgClaims.claimStep
  releaseStep := Db.releaseRow
  settle := PgClaims.settle encode
  destinations := PgClaims.destinations
  forget db jobId := db.forgetRows owner jobId

/-- One call; a lease is named by its job. -/
inductive Op
  | admitDispatch (key : TreeKey) (proposed : JobId) (url : String) (leaseMs retentionMs : ℤ)
  | renew (jobId : JobId) (leaseMs : ℤ)
  | claimStep (jobId : JobId) (stepId : StepId)
  | releaseStep (jobId : JobId) (stepId : StepId)
  | settle (jobId : JobId) (verdict : Verdict)
  | destinations (jobId : JobId)
  | forget (jobId : JobId)
  deriving DecidableEq

/-- What a call answers, without owners and fences. -/
inductive Answer
  | created (jobId : JobId)
  | attached (jobId : JobId) (verdict : Option Verdict)
  | renewed (held : Bool)
  | granted
  | taken
  | fenced
  | done
  | urls (destinations : List String)
  | unavailable
  | unissued
  deriving DecidableEq, Repr

def Answer.ofAdmitted : Admitted → Answer
  | .created lease => .created lease.jobId
  | .attached jobId _ verdict => .attached jobId verdict

def Answer.ofStep : StepClaim → Answer
  | .granted => .granted
  | .taken _ => .taken
  | .fenced _ => .fenced

/-- The leases after an admission. -/
def keepLease (leases : Leases) : Admitted → Leases
  | .created lease => leases.insert lease
  | .attached _ _ _ => leases

/-- One call on a store, with the leases it has issued. -/
def perform {S : Type} (store : JobClaims S) (s : S × Leases) : ℤ × Op → (S × Leases) × Answer
  | (nowMs, .admitDispatch key proposed url leaseMs retentionMs) =>
    match store.admitDispatch s.1 key proposed url nowMs leaseMs retentionMs with
    | some (s', admitted) => ((s', keepLease s.2 admitted), .ofAdmitted admitted)
    | none => (s, .unavailable)
  | (nowMs, .renew jobId leaseMs) =>
    match s.2.get jobId with
    | some lease =>
      match store.renew s.1 lease nowMs leaseMs with
      | some (s', held) => ((s', s.2), .renewed held)
      | none => (s, .unavailable)
    | none => (s, .unissued)
  | (nowMs, .claimStep jobId stepId) =>
    match s.2.get jobId with
    | some lease =>
      let (s', claim) := store.claimStep s.1 lease stepId nowMs
      ((s', s.2), .ofStep claim)
    | none => (s, .unissued)
  | (_, .releaseStep jobId stepId) =>
    match s.2.get jobId with
    | some lease => ((store.releaseStep s.1 lease stepId, s.2), .done)
    | none => (s, .unissued)
  | (nowMs, .settle jobId verdict) =>
    match s.2.get jobId with
    | some lease =>
      match store.settle s.1 lease verdict nowMs with
      | some s' => ((s', s.2), .done)
      | none => (s, .unavailable)
    | none => (s, .unissued)
  | (_, .destinations jobId) => (s, .urls (store.destinations s.1 jobId))
  | (_, .forget jobId) => ((store.forget s.1 jobId, s.2), .done)

/-- The answers of a run. -/
def replies {S : Type} (store : JobClaims S) : S × Leases → List (ℤ × Op) → List Answer
  | _, [] => []
  | s, call :: rest => (perform store s call).2 :: replies store (perform store s call).1 rest

/-! ### What the caller promises -/

section Promises

variable (encode : Verdict → Option String) (decode : String → Option Verdict)

/-- Sums of the call are `bigint`s. -/
def Representable (db : Db) : ℤ × Op → Prop
  | (nowMs, .admitDispatch key _ _ leaseMs retentionMs) =>
    (bigint (nowMs + leaseMs)).isSome = true ∧ (bigint retentionMs).isSome = true ∧
      ∀ row ∈ db.claims.lookup key, ∀ t ∈ row.settledAtMs, (bigint (t + retentionMs)).isSome = true
  | (nowMs, .renew _ leaseMs) => (bigint (nowMs + leaseMs)).isSome = true
  | _ => True

/-- An unsettled lease was renewed before it lapses; a verdict re-parses. -/
def Promised (db : Db) : ℤ × Op → Prop
  | (nowMs, .admitDispatch key _ _ _ _) => ∀ row ∈ db.claims.lookup key, row.lapsed nowMs = false
  | (_, .settle _ verdict) => (encode verdict).bind decode = some verdict
  | _ => True

instance (db : Db) : DecidablePred (Representable db)
  | (nowMs, .admitDispatch key _ _ leaseMs retentionMs) =>
    inferInstanceAs (Decidable ((bigint (nowMs + leaseMs)).isSome = true ∧
      (bigint retentionMs).isSome = true ∧ ∀ row ∈ db.claims.lookup key, ∀ t ∈ row.settledAtMs,
        (bigint (t + retentionMs)).isSome = true))
  | (nowMs, .renew _ leaseMs) => inferInstanceAs (Decidable ((bigint (nowMs + leaseMs)).isSome = true))
  | (_, .claimStep _ _) => .isTrue trivial
  | (_, .releaseStep _ _) => .isTrue trivial
  | (_, .settle _ _) => .isTrue trivial
  | (_, .destinations _) => .isTrue trivial
  | (_, .forget _) => .isTrue trivial

instance (db : Db) : DecidablePred (Promised encode decode db)
  | (nowMs, .admitDispatch key _ _ _ _) =>
    inferInstanceAs (Decidable (∀ row ∈ db.claims.lookup key, row.lapsed nowMs = false))
  | (_, .settle _ verdict) => inferInstanceAs (Decidable ((encode verdict).bind decode = some verdict))
  | (_, .renew _ _) => .isTrue trivial
  | (_, .claimStep _ _) => .isTrue trivial
  | (_, .releaseStep _ _) => .isTrue trivial
  | (_, .destinations _) => .isTrue trivial
  | (_, .forget _) => .isTrue trivial

/-- The job id a call proposes. -/
def Op.proposed : Op → Option JobId
  | .admitDispatch _ proposed _ _ _ => some proposed
  | _ => none

/-- Job ids are proposed once, and time does not run backwards. -/
structure Ordered (calls : List (ℤ × Op)) : Prop where
  fresh : (calls.filterMap fun call => call.2.proposed).Nodup
  clock : calls.Pairwise fun a b => a.1 ≤ b.1

end Promises

/-! ### The two stores, row by row -/

/-- The claim is the row's. -/
structure Mirrors (decode : String → Option Verdict) (claim : LocalClaim) (row : ClaimRow) :
    Prop where
  urls : claim.callbackUrls = row.callbackUrls
  settled : claim.settledAtMs = row.settledAtMs
  verdict : claim.verdict = row.verdict.bind decode
  dated : row.verdict.isSome = row.settledAtMs.isSome

structure Sim (decode : String → Option Verdict) (owner : String) (l : LocalClaims)
    (mine : Leases) (db : Db) (theirs : Leases) (nowMs : ℤ) : Prop where
  index : ∀ key, l.byKey.lookup key = (db.claims.lookup key).map (·.jobId)
  indexed : ∀ j claim, l.claims.lookup j = some claim → l.byKey.lookup claim.key = some j
  rows : ∀ key row, db.claims.lookup key = some row →
    ∃ claim, l.claims.lookup row.jobId = some claim ∧ claim.key = key ∧ Mirrors decode claim row ∧
      ∀ s, s ∈ claim.steps ↔ (db.steps.lookup (row.jobId, s)).isSome = true
  owned : ∀ key row, db.claims.lookup key = some row →
    row.owner = owner ∧ ∀ t, row.settledAtMs = some t → t ≤ nowMs
  steps : ∀ j s step, db.steps.lookup (j, s) = some step → ∃ key row,
    db.claims.lookup key = some row ∧ row.jobId = j ∧ step.owner = row.owner ∧ step.fence = row.fence
  leases : ∀ j, (mine.get j).isSome = (theirs.get j).isSome
  issued : ∀ key row, db.claims.lookup key = some row →
    theirs.get row.jobId = some ⟨row.jobId, row.owner, row.fence⟩

theorem rows_single {db : Db} {p : ClaimRow → Bool} {key : TreeKey} {row : ClaimRow}
    (found : db.claims.lookup key = some row) (holds : p row = true)
    (only : ∀ k r, db.claims.lookup k = some r → p r = true → k = key) : db.rows p = [row] := by
  unfold Db.rows Table.values
  rw [List.filter_map]
  have one : db.claims.entries.filter (p ∘ Sigma.snd) = [⟨key, row⟩] := by
    have once : (db.claims.entries.filter (p ∘ Sigma.snd)).Nodup :=
      (List.nodupKeys_iff_pairwise.mp db.claims.nodupKeys |>.imp fun ne same =>
        ne (congrArg Sigma.fst same)).filter _
    refine List.perm_singleton.mp ((List.perm_ext_iff_of_nodup once
      (List.nodup_singleton _)).mpr fun e => ?_)
    obtain ⟨k, r⟩ := e
    rw [List.mem_filter, List.mem_singleton, Table.mem_entries]
    constructor
    · rintro ⟨there, passes⟩
      obtain rfl := only k r there passes
      rw [found, Option.some.injEq] at there
      rw [there]
    · intro same
      cases same
      exact ⟨found, holds⟩
  rw [one]
  rfl

/-- `UPDATE … WHERE` a test that one row passes. -/
theorem lookup_update {t : Table TreeKey ClaimRow} {p : ClaimRow → Bool} {f : ClaimRow → ClaimRow}
    {key : TreeKey} {row : ClaimRow} (found : t.lookup key = some row)
    (only : ∀ k r, t.lookup k = some r → (p r = true ↔ k = key)) (k : TreeKey) :
    (t.mapValues fun r => if p r then f r else r).lookup k =
      if k = key then some (f row) else t.lookup k := by
  rw [Table.lookup_mapValues]
  by_cases same : k = key
  · rw [if_pos same, same, found, Option.map_some, if_pos ((only key row found).mpr rfl)]
  · rw [if_neg same]
    cases there : t.lookup k with
    | none => rfl
    | some r => rw [Option.map_some, if_neg fun passes => same ((only k r there).mp passes)]

section Simulation

variable {decode : String → Option Verdict} {owner : String} {l l' : LocalClaims}
  {mine theirs : Leases} {db db' : Db} {nowMs : ℤ}

namespace Sim

variable (sim : Sim decode owner l mine db theirs nowMs)

include sim

theorem keyed : Keyed db := by
  intro key key' row row' found found' job
  obtain ⟨claim, claimed, rfl, -⟩ := sim.rows key row found
  obtain ⟨claim', claimed', rfl, -⟩ := sim.rows key' row' found'
  rw [← job, claimed, Option.some.injEq] at claimed'
  rw [claimed']

theorem row {j : JobId} {claim : LocalClaim} (claimed : l.claims.lookup j = some claim) :
    ∃ row, db.claims.lookup claim.key = some row ∧ row.jobId = j := by
  have known := sim.indexed j claim claimed
  rw [sim.index] at known
  exact Option.map_eq_some_iff.mp known

theorem named_iff (j : JobId) : Named db j ↔ (l.claims.lookup j).isSome = true := by
  constructor
  · rintro ⟨key, row, found, rfl⟩
    obtain ⟨claim, claimed, -⟩ := sim.rows key row found
    rw [claimed]
    rfl
  · intro claimed
    obtain ⟨claim, claimed⟩ := Option.isSome_iff_exists.mp claimed
    obtain ⟨row, found, job⟩ := sim.row claimed
    exact ⟨claim.key, row, found, job⟩

theorem later {nowMs' : ℤ} (le : nowMs ≤ nowMs') : Sim decode owner l mine db theirs nowMs' where
  index := sim.index
  indexed := sim.indexed
  rows := sim.rows
  owned key row found :=
    ⟨(sim.owned key row found).1, fun t settled => ((sim.owned key row found).2 t settled).trans le⟩
  steps := sim.steps
  leases := sim.leases
  issued := sim.issued

/-- The lease of a job that is named is the one its row carries. -/
theorem lease_held {lease : DriveLease} (presented : theirs.get lease.jobId = some lease) :
    Held db lease ↔ Named db lease.jobId := by
  constructor
  · exact Held.named
  · rintro ⟨key, row, found, job⟩
    have issued := sim.issued key row found
    rw [job, presented, Option.some.injEq] at issued
    rw [issued]
    exact ⟨key, row, found, job, rfl, rfl⟩

/-- **Both change one job, in step.** -/
theorem write {key : TreeKey} {row : ClaimRow} {claim : LocalClaim} (row' : ClaimRow)
    (claim' : LocalClaim)
    (found : db.claims.lookup key = some row) (claimed : l.claims.lookup row.jobId = some claim)
    (job : row'.jobId = row.jobId) (holder : row'.owner = row.owner) (fence : row'.fence = row.fence)
    (tree : claim'.key = claim.key) (mirrors : Mirrors decode claim' row')
    (date : ∀ t, row'.settledAtMs = some t → t ≤ nowMs)
    (byKey : ∀ k, l'.byKey.lookup k = l.byKey.lookup k)
    (claims : ∀ j, l'.claims.lookup j = if j = row.jobId then some claim' else l.claims.lookup j)
    (rows : ∀ k, db'.claims.lookup k = if k = key then some row' else db.claims.lookup k)
    (marked : ∀ s, s ∈ claim'.steps ↔ (db'.steps.lookup (row.jobId, s)).isSome = true)
    (own : ∀ s step, db'.steps.lookup (row.jobId, s) = some step →
      step.owner = row.owner ∧ step.fence = row.fence)
    (others : ∀ j s, j ≠ row.jobId → db'.steps.lookup (j, s) = db.steps.lookup (j, s)) :
    Sim decode owner l' mine db' theirs nowMs := by
  have keyed := sim.keyed
  have treeKey : claim.key = key := by
    obtain ⟨claim'', claimed'', tree, -⟩ := sim.rows key row found
    rw [claimed, Option.some.injEq] at claimed''
    rw [claimed'', tree]
  have other : ∀ k r, k ≠ key → db.claims.lookup k = some r → r.jobId ≠ row.jobId :=
    fun k r different here same => different (keyed k key r row here found same)
  refine ⟨fun k => ?_, fun j c here => ?_, fun k r here => ?_, fun k r here => ?_,
    fun j s step here => ?_, sim.leases, fun k r here => ?_⟩
  · rw [byKey, sim.index, rows]
    by_cases same : k = key
    · rw [if_pos same, same, found, Option.map_some, Option.map_some, job]
    · rw [if_neg same]
  · rw [claims] at here
    rw [byKey]
    by_cases same : j = row.jobId
    · rw [if_pos same, Option.some.injEq] at here
      rw [← here, tree, same]
      exact sim.indexed row.jobId claim claimed
    · rw [if_neg same] at here
      exact sim.indexed j c here
  · rw [rows] at here
    by_cases same : k = key
    · rw [if_pos same, Option.some.injEq] at here
      subst here
      refine ⟨claim', ?_, tree.trans (treeKey.trans same.symm), mirrors, ?_⟩
      · rw [claims, if_pos job]
      · rw [job]
        exact marked
    · rw [if_neg same] at here
      obtain ⟨c, claimed', tree', mirrors', marked'⟩ := sim.rows k r here
      refine ⟨c, ?_, tree', mirrors', fun s => ?_⟩
      · rw [claims, if_neg (other k r same here)]
        exact claimed'
      · rw [others _ _ (other k r same here)]
        exact marked' s
  · rw [rows] at here
    by_cases same : k = key
    · rw [if_pos same, Option.some.injEq] at here
      subst here
      exact ⟨holder.trans (sim.owned key row found).1, date⟩
    · rw [if_neg same] at here
      exact sim.owned k r here
  · by_cases same : j = row.jobId
    · subst same
      obtain ⟨holder', fence'⟩ := own s step here
      exact ⟨key, row', by rw [rows, if_pos rfl], job, holder'.trans holder.symm,
        fence'.trans fence.symm⟩
    · rw [others j s same] at here
      obtain ⟨k, r, there, rfl, holder', fence'⟩ := sim.steps j s step here
      have different : k ≠ key := by
        rintro rfl
        rw [found, Option.some.injEq] at there
        exact same (by rw [there])
      exact ⟨k, r, by rw [rows, if_neg different]; exact there, rfl, holder', fence'⟩
  · rw [rows] at here
    by_cases same : k = key
    · rw [if_pos same, Option.some.injEq] at here
      subst here
      rw [job, holder, fence]
      exact sim.issued key row found
    · rw [if_neg same] at here
      exact sim.issued k r here

/-- **Both create a claim, in a free tree or for an old one.** -/
theorem create {key : TreeKey} {proposed : JobId} {url : String} {fence : ℕ} {expires : ℤ}
    (unissued : theirs.get proposed = none)
    (byKey : ∀ k, l'.byKey.lookup k = if k = key then some proposed else l.byKey.lookup k)
    (claims : ∀ j, l'.claims.lookup j = if j = proposed then some ⟨key, [url], none, none, ∅⟩
      else if (db.claims.lookup key).map (·.jobId) = some j then none else l.claims.lookup j)
    (rows : ∀ k, db'.claims.lookup k =
      if k = key then some ⟨proposed, owner, fence, expires, [url], none, none⟩
      else db.claims.lookup k)
    (kept : ∀ j s, Named db' j → db'.steps.lookup (j, s) = db.steps.lookup (j, s))
    (swept : ∀ j s, ¬ Named db' j → db'.steps.lookup (j, s) = none) :
    Sim decode owner l' (mine.insert ⟨proposed, localOwner, 0⟩) db'
      (theirs.insert ⟨proposed, owner, fence⟩) nowMs := by
  have keyed := sim.keyed
  have unused : ∀ k r, db.claims.lookup k = some r → r.jobId ≠ proposed := by
    intro k r here same
    have issued := sim.issued k r here
    rw [same, unissued] at issued
    cases issued
  have unstepped : ∀ s, db.steps.lookup (proposed, s) = none := by
    intro s
    by_contra held
    obtain ⟨step, held⟩ := Option.ne_none_iff_exists'.mp held
    obtain ⟨k, r, here, job, -⟩ := sim.steps proposed s step held
    exact unused k r here job
  have here : db'.claims.lookup key = some ⟨proposed, owner, fence, expires, [url], none, none⟩ :=
    (rows key).trans (if_pos rfl)
  have names : ∀ k r, k ≠ key → db.claims.lookup k = some r → db'.claims.lookup k = some r :=
    fun k r different there => by rw [rows, if_neg different]; exact there
  have stays : ∀ k r, k ≠ key → db.claims.lookup k = some r →
      l'.claims.lookup r.jobId = l.claims.lookup r.jobId := by
    intro k r different there
    rw [claims, if_neg (unused k r there), if_neg]
    intro old
    obtain ⟨r', there', job⟩ := Option.map_eq_some_iff.mp old
    exact different (keyed k key r r' there there' job.symm)
  refine ⟨fun k => ?_, fun j c there => ?_, fun k r there => ?_, fun k r there => ?_,
    fun j s step there => ?_, fun j => ?_, fun k r there => ?_⟩
  · rw [byKey, rows, sim.index]
    split_ifs <;> rfl
  · rw [claims] at there
    rw [byKey]
    by_cases new : j = proposed
    · rw [if_pos new, Option.some.injEq] at there
      rw [← there, if_pos rfl, new]
    · rw [if_neg new] at there
      by_cases old : (db.claims.lookup key).map (·.jobId) = some j
      · rw [if_pos old] at there
        cases there
      · rw [if_neg old] at there
        have known := sim.indexed j c there
        rw [if_neg]
        · exact known
        · intro same
          rw [sim.index, same] at known
          exact old known
  · by_cases same : k = key
    · subst same
      rw [here, Option.some.injEq] at there
      subst there
      refine ⟨⟨k, [url], none, none, ∅⟩, by rw [claims, if_pos rfl], rfl, ⟨rfl, rfl, rfl, rfl⟩,
        fun s => ?_⟩
      have none : db'.steps.lookup (proposed, s) = none :=
        (kept proposed s ⟨k, _, here, rfl⟩).trans (unstepped s)
      simp [none]
    · rw [rows, if_neg same] at there
      obtain ⟨c, claimed, tree, mirrors, marked⟩ := sim.rows k r there
      refine ⟨c, (stays k r same there).trans claimed, tree, mirrors, fun s => ?_⟩
      rw [kept r.jobId s ⟨k, r, names k r same there, rfl⟩]
      exact marked s
  · by_cases same : k = key
    · subst same
      rw [here, Option.some.injEq] at there
      subst there
      exact ⟨rfl, fun t settled => nomatch settled⟩
    · rw [rows, if_neg same] at there
      exact sim.owned k r there
  · by_cases named : Named db' j
    · rw [kept j s named] at there
      obtain ⟨k, r, row, job, holder, fence'⟩ := sim.steps j s step there
      by_cases same : k = key
      · obtain ⟨k', r', row', job'⟩ := named
        by_cases same' : k' = key
        · rw [same', here, Option.some.injEq] at row'
          subst row'
          exact absurd (job.trans job'.symm) (unused k r row)
        · rw [rows, if_neg same'] at row'
          exact absurd ((keyed k' k r' r row' row (job'.trans job.symm)).trans same) same'
      · exact ⟨k, r, names k r same row, job, holder, fence'⟩
    · rw [swept j s named] at there
      cases there
  · rw [Leases.get_insert, Leases.get_insert]
    split_ifs
    · rfl
    · exact sim.leases j
  · by_cases same : k = key
    · subst same
      rw [here, Option.some.injEq] at there
      subst there
      rw [Leases.get_insert, if_pos rfl]
    · rw [rows, if_neg same] at there
      rw [Leases.get_insert, if_neg (unused k r there)]
      exact sim.issued k r there

/-- **Both drop a claim.** -/
theorem forget {key : TreeKey} {row : ClaimRow} (found : db.claims.lookup key = some row)
    (byKey : ∀ k, l'.byKey.lookup k = if k = key then none else l.byKey.lookup k)
    (claims : ∀ j, l'.claims.lookup j = if j = row.jobId then none else l.claims.lookup j)
    (rows : ∀ k, db'.claims.lookup k = if k = key then none else db.claims.lookup k)
    (steps : ∀ j s, db'.steps.lookup (j, s) =
      if j = row.jobId then none else db.steps.lookup (j, s)) :
    Sim decode owner l' mine db' theirs nowMs := by
  have keyed := sim.keyed
  have other : ∀ {k r}, db'.claims.lookup k = some r →
      db.claims.lookup k = some r ∧ k ≠ key ∧ r.jobId ≠ row.jobId := by
    intro k r there
    rw [rows] at there
    split_ifs at there with same
    exact ⟨there, same, fun job => same (keyed k key r row there found job)⟩
  refine ⟨fun k => ?_, fun j c there => ?_, fun k r there => ?_, fun k r there => ?_,
    fun j s step there => ?_, sim.leases, fun k r there => ?_⟩
  · rw [byKey, rows, sim.index]
    split_ifs <;> rfl
  · rw [claims] at there
    split_ifs at there with same
    have known := sim.indexed j c there
    rw [byKey, if_neg]
    · exact known
    · intro same'
      rw [sim.index, same', found] at known
      exact same (Option.some.inj known).symm
  · obtain ⟨there, -, job⟩ := other there
    obtain ⟨c, claimed, tree, mirrors, marked⟩ := sim.rows k r there
    refine ⟨c, by rw [claims, if_neg job]; exact claimed, tree, mirrors, fun s => ?_⟩
    rw [steps, if_neg job]
    exact marked s
  · exact sim.owned k r (other there).1
  · rw [steps] at there
    split_ifs at there with same
    obtain ⟨k, r, row', rfl, holder, fence⟩ := sim.steps j s step there
    refine ⟨k, r, ?_, rfl, holder, fence⟩
    rw [rows, if_neg]
    · exact row'
    · rintro rfl
      rw [found, Option.some.injEq] at row'
      exact same (by rw [row'])
  · exact sim.issued k r (other there).1

theorem same (byKey : ∀ k, l'.byKey.lookup k = l.byKey.lookup k)
    (claims : ∀ j, l'.claims.lookup j = l.claims.lookup j)
    (rows : ∀ k, db'.claims.lookup k = db.claims.lookup k)
    (steps : ∀ k, db'.steps.lookup k = db.steps.lookup k) :
    Sim decode owner l' mine db' theirs nowMs := by
  refine ⟨fun k => ?_, fun j c here => ?_, fun k r here => ?_, fun k r here => ?_,
    fun j s step here => ?_, sim.leases, fun k r here => ?_⟩
  · rw [byKey, rows]
    exact sim.index k
  · rw [claims] at here
    rw [byKey]
    exact sim.indexed j c here
  · rw [rows] at here
    rw [claims]
    simp only [steps]
    exact sim.rows k r here
  · rw [rows] at here
    exact sim.owned k r here
  · rw [steps] at here
    simp only [rows]
    exact sim.steps j s step here
  · rw [rows] at here
    exact sim.issued k r here

/-! ### The calls -/

theorem lease_iff (j : JobId) : mine.get j = none ↔ theirs.get j = none := by
  rw [← Option.isNone_iff_eq_none, ← Option.isNone_iff_eq_none, ← Option.not_isSome,
    ← Option.not_isSome, sim.leases j]

theorem aged_stale {key : TreeKey} {row : ClaimRow} {retentionMs : ℤ}
    (found : db.claims.lookup key = some row) (retention : (bigint retentionMs).isSome = true)
    (sums : ∀ t, row.settledAtMs = some t → (bigint (t + retentionMs)).isSome = true) :
    row.aged nowMs retentionMs = some (l.stale key nowMs retentionMs) := by
  obtain ⟨claim, claimed, -, mirrors, -⟩ := sim.rows key row found
  have stale : l.stale key nowMs retentionMs =
      row.settledAtMs.any fun t => decide (retentionMs ≤ saturatingSub nowMs t) := by
    rw [LocalClaims.stale, sim.index, found, Option.map_some, Option.bind_some, claimed,
      Option.bind_some, mirrors.settled]
  rw [stale, ClaimRow.aged]
  cases settled : row.settledAtMs with
  | none => rfl
  | some t =>
    have past := (sim.owned key row found).2 t settled
    have sum := sums t settled
    dsimp only
    unfold bigint at retention sum ⊢
    split_ifs at retention sum with range range'
    · rw [if_pos range', Option.map_some, Option.any_some]
      congr 1
      refine decide_eq_decide.mpr ?_
      unfold saturatingSub
      omega
    · exact absurd sum Bool.false_ne_true
    · exact absurd retention Bool.false_ne_true
    · exact absurd retention Bool.false_ne_true

/-- A step's row carries the owner and the fence of its job's. -/
theorem own_steps {key : TreeKey} {row : ClaimRow} (found : db.claims.lookup key = some row)
    {s : StepId} {step : StepRow} (here : db.steps.lookup (row.jobId, s) = some step) :
    step.owner = row.owner ∧ step.fence = row.fence := by
  obtain ⟨k, r, there, job, holder, fence⟩ := sim.steps row.jobId s step here
  obtain rfl := sim.keyed k key r row there found job
  rw [found, Option.some.injEq] at there
  subst there
  exact ⟨holder, fence⟩

theorem steps_of_unnamed {j : JobId} (unnamed : ¬ Named db j) (s : StepId) :
    db.steps.lookup (j, s) = none := by
  by_contra held
  obtain ⟨step, held⟩ := Option.ne_none_iff_exists'.mp held
  obtain ⟨key, row, found, job, -⟩ := sim.steps j s step held
  exact unnamed ⟨key, row, found, job⟩

theorem admit_created {key : TreeKey} {proposed : JobId} {url : String} {leaseMs retentionMs : ℤ}
    (l' : LocalClaims) (row : ClaimRow) (wasUpdate : Bool) (unissued : theirs.get proposed = none)
    (fresh : row = ⟨proposed, owner, row.fence, row.leaseExpiresMs, [url], none, none⟩)
    (update : wasUpdate = (db.claims.lookup key).isSome)
    (admits : db.admitRow owner key proposed url nowMs leaseMs retentionMs =
      some (⟨db.claims.insert key row, db.steps⟩, row, wasUpdate))
    (byKey : ∀ k, l'.byKey.lookup k = if k = key then some proposed else l.byKey.lookup k)
    (claims : ∀ j, l'.claims.lookup j = if j = proposed then some ⟨key, [url], none, none, ∅⟩
      else if (db.claims.lookup key).map (·.jobId) = some j then none else l.claims.lookup j) :
    ∃ db', PgClaims.admitDispatch decode owner db key proposed url nowMs leaseMs retentionMs =
        some (db', .created ⟨proposed, owner, row.fence⟩) ∧
      Sim decode owner l' (mine.insert ⟨proposed, localOwner, 0⟩) db'
        (theirs.insert ⟨proposed, owner, row.fence⟩) nowMs := by
  have job : row.jobId = proposed := congrArg ClaimRow.jobId fresh
  have answer : PgClaims.admitted decode owner proposed row =
      .created ⟨proposed, owner, row.fence⟩ := by
    rw [PgClaims.admitted, if_pos job, job]
  rw [PgClaims.admitDispatch, admits, Option.map_some]
  dsimp only
  rw [answer]
  refine ⟨_, rfl, ?_⟩
  have written : ∀ k, (db.claims.insert key row).lookup k =
      if k = key then some ⟨proposed, owner, row.fence, row.leaseExpiresMs, [url], none, none⟩
      else db.claims.lookup k := by
    intro k
    rw [Table.lookup_insert, ← fresh]
  have named : ∀ (steps : Table (JobId × StepId) StepRow) j,
      ((Table.values (db.claims.insert key row)).any fun c => c.jobId = j) = true ↔
        Named ⟨db.claims.insert key row, steps⟩ j := by
    intro steps j
    rw [List.any_eq_true]
    constructor
    · rintro ⟨c, mem, job⟩
      obtain ⟨k, found⟩ := Table.mem_values.mp mem
      exact ⟨k, c, found, of_decide_eq_true job⟩
    · rintro ⟨k, c, found, job⟩
      exact ⟨c, Table.mem_values.mpr ⟨k, found⟩, decide_eq_true job⟩
  cases wasUpdate with
  | true =>
    rw [if_pos ⟨job, rfl⟩]
    refine sim.create unissued byKey claims written ?_ ?_
    · intro j s here
      show (db.steps.keep _).lookup _ = _
      rw [Table.lookup_keep]
      cases db.steps.lookup (j, s) with
      | none => rfl
      | some step => rw [Option.filter_some, if_pos ((named _ j).mpr here)]
    · intro j s here
      show (db.steps.keep _).lookup _ = _
      rw [Table.lookup_keep]
      cases db.steps.lookup (j, s) with
      | none => rfl
      | some step => rw [Option.filter_some, if_neg fun any => here ((named _ j).mp any)]
  | false =>
    rw [if_neg fun both => Bool.false_ne_true both.2]
    refine sim.create unissued byKey claims written (fun j s _ => rfl) ?_
    intro j s here
    refine sim.steps_of_unnamed ?_ s
    rintro ⟨k, r, found, job⟩
    refine here ⟨k, r, ?_, job⟩
    show (db.claims.insert key row).lookup k = _
    rw [Table.lookup_insert, if_neg]
    · exact found
    · rintro rfl
      rw [found] at update
      cases update

/-- **Admissions agree.** -/
theorem admit_step {key : TreeKey} {proposed : JobId} {url : String} {leaseMs retentionMs : ℤ}
    (unissued : theirs.get proposed = none)
    (represented : Representable db (nowMs, .admitDispatch key proposed url leaseMs retentionMs))
    (live : ∀ row, db.claims.lookup key = some row → row.lapsed nowMs = false) :
    ∃ db' theirAnswer, PgClaims.admitDispatch decode owner db key proposed url nowMs leaseMs retentionMs =
        some (db', theirAnswer) ∧
      Answer.ofAdmitted (l.admitDispatch key proposed url nowMs retentionMs).2 =
        .ofAdmitted theirAnswer ∧
      Sim decode owner (l.admitDispatch key proposed url nowMs retentionMs).1
        (keepLease mine (l.admitDispatch key proposed url nowMs retentionMs).2) db'
        (keepLease theirs theirAnswer) nowMs ∧
      ∀ j, ((keepLease theirs theirAnswer).get j).isSome = true →
        (theirs.get j).isSome = true ∨ j = proposed := by
  obtain ⟨sum, retention, sums⟩ := represented
  obtain ⟨expires, sum⟩ := Option.isSome_iff_exists.mp sum
  have leased : ∀ (lease : DriveLease) j, lease.jobId = proposed →
      ((theirs.insert lease).get j).isSome = true → (theirs.get j).isSome = true ∨ j = proposed := by
    intro lease j job issued
    rw [Leases.get_insert] at issued
    split_ifs at issued with same
    · exact .inr (same.trans job)
    · exact .inl issued
  have unused : ∀ k, db.unique k proposed = true := by
    refine fun k => unique_iff.mpr fun key' row found job => ?_
    have issued := sim.issued key' row found
    rw [job, unissued] at issued
    cases issued
  cases found : db.claims.lookup key with
  | none =>
    have free : l.byKey.lookup key = none := by rw [sim.index, found]; rfl
    have fresh : l.stale key nowMs retentionMs = false := by
      rw [LocalClaims.stale, free]
      rfl
    have mineIs : l.admitDispatch key proposed url nowMs retentionMs =
        l.create key proposed url := by
      unfold LocalClaims.admitDispatch LocalClaims.dropStale
      rw [fresh]
      simp only [Bool.false_eq_true, if_false, free]
    rw [mineIs]
    have admits : db.admitRow owner key proposed url nowMs leaseMs retentionMs =
        some (⟨db.claims.insert key ⟨proposed, owner, 1, expires, [url], none, none⟩, db.steps⟩,
          ⟨proposed, owner, 1, expires, [url], none, none⟩, false) := by
      unfold Db.admitRow
      rw [sum, Option.bind_some, found]
      simp only [unused, if_true]
    obtain ⟨db', answer, after⟩ := sim.admit_created (l.create key proposed url).1
      ⟨proposed, owner, 1, expires, [url], none, none⟩ false unissued rfl (by rw [found]; rfl) admits
      (fun k => Table.lookup_insert _ _ _ _)
      (fun j => by
        rw [found]
        exact Table.lookup_insert _ _ _ _)
    exact ⟨db', _, answer, rfl, after, fun j => leased ⟨proposed, owner, 1⟩ j rfl⟩
  | some row =>
    have known : l.byKey.lookup key = some row.jobId := by rw [sim.index, found]; rfl
    have other : row.jobId ≠ proposed := fun same => by
      have issued := sim.issued key row found
      rw [same, unissued] at issued
      cases issued
    obtain ⟨claim, claimed, tree, mirrors, marked⟩ := sim.rows key row found
    have aged := sim.aged_stale found retention (sums row found)
    have asleep := live row found
    cases old : l.stale key nowMs retentionMs with
    | true =>
      rw [old] at aged
      have mineIs : l.admitDispatch key proposed url nowMs retentionMs =
          LocalClaims.create ⟨l.byKey.erase key, l.claims.erase row.jobId⟩ key proposed url := by
        unfold LocalClaims.admitDispatch LocalClaims.dropStale
        simp only [old, if_true, known]
        rw [Table.lookup_erase, if_pos rfl]
      rw [mineIs]
      have admits : db.admitRow owner key proposed url nowMs leaseMs retentionMs =
          some (⟨db.claims.insert key ⟨proposed, owner, row.fence + 1, expires, [url], none, none⟩,
            db.steps⟩, ⟨proposed, owner, row.fence + 1, expires, [url], none, none⟩, true) := by
        unfold Db.admitRow
        rw [sum, Option.bind_some, found]
        simp only [aged, Option.bind_some, Bool.or_true, ClaimRow.update, if_true, unused]
      obtain ⟨db', answer, after⟩ := sim.admit_created
        (LocalClaims.create ⟨l.byKey.erase key, l.claims.erase row.jobId⟩ key proposed url).1
        ⟨proposed, owner, row.fence + 1, expires, [url], none, none⟩ true unissued rfl
        (by rw [found]; rfl) admits
        (fun k => by
          show ((l.byKey.erase key).insert key proposed).lookup k = _
          rw [Table.lookup_insert, Table.lookup_erase]
          split_ifs <;> rfl)
        (fun j => by
          show ((l.claims.erase row.jobId).insert proposed _).lookup j = _
          rw [Table.lookup_insert, Table.lookup_erase, found, Option.map_some]
          simp only [Option.some.injEq, eq_comm])
      exact ⟨db', _, answer, rfl, after, fun j => leased ⟨proposed, owner, _⟩ j rfl⟩
    | false =>
      rw [old] at aged
      have mineIs : l.admitDispatch key proposed url nowMs retentionMs =
          ({ l with claims := l.claims.insert row.jobId (claim.attach url) },
            .attached row.jobId localOwner claim.verdict) := by
        unfold LocalClaims.admitDispatch LocalClaims.dropStale
        simp only [old, Bool.false_eq_true, if_false, known, claimed]
      rw [mineIs]
      have row' : row.update (row.lapsed nowMs || false) false owner proposed url expires =
          { row with callbackUrls := (claim.attach url).callbackUrls } := by
        rw [asleep]
        simp only [ClaimRow.update, Bool.or_self, Bool.false_eq_true, if_false]
        unfold LocalClaim.attach
        rw [mirrors.urls]
        split_ifs
        · rw [mirrors.urls]
        · rfl
      have admits : db.admitRow owner key proposed url nowMs leaseMs retentionMs =
          some (⟨db.claims.insert key { row with callbackUrls := (claim.attach url).callbackUrls },
            db.steps⟩, { row with callbackUrls := (claim.attach url).callbackUrls }, true) := by
        have unique : db.unique key row.jobId = true :=
          unique_iff.mpr fun k r here job => sim.keyed k key r row here found job
        unfold Db.admitRow
        rw [sum, Option.bind_some, found]
        simp only [aged, Option.bind_some, row', unique, if_true]
      have answer : PgClaims.admitDispatch decode owner db key proposed url nowMs leaseMs retentionMs =
          some (⟨db.claims.insert key { row with callbackUrls := (claim.attach url).callbackUrls },
            db.steps⟩, .attached row.jobId row.owner (row.verdict.bind decode)) := by
        rw [PgClaims.admitDispatch, admits, Option.map_some]
        dsimp only
        rw [if_neg fun both => other both.1, PgClaims.admitted, if_neg other]
      refine ⟨_, _, answer, ?_, ?_, fun j issued => .inl issued⟩
      · simp only [Answer.ofAdmitted, mirrors.verdict]
      · refine sim.write { row with callbackUrls := (claim.attach url).callbackUrls }
          (claim.attach url) found claimed rfl rfl rfl ?_ ⟨rfl, ?_, ?_, mirrors.dated⟩
          (sim.owned key row found).2 (fun k => rfl) (fun j => Table.lookup_insert _ _ _ _)
          (fun k => Table.lookup_insert _ _ _ _) (fun s => ?_) (fun s step here => ?_)
          (fun j s different => rfl)
        · unfold LocalClaim.attach
          split_ifs <;> rfl
        · rw [LocalClaim.attach_settledAtMs]
          exact mirrors.settled
        · rw [LocalClaim.attach_verdict]
          exact mirrors.verdict
        · rw [LocalClaim.attach_steps]
          exact marked s
        · exact sim.own_steps found here

theorem held_iff {key : TreeKey} {row : ClaimRow} {lease : DriveLease}
    (found : db.claims.lookup key = some row) (job : row.jobId = lease.jobId)
    (presented : theirs.get lease.jobId = some lease) (k : TreeKey) (r : ClaimRow)
    (there : db.claims.lookup k = some r) : r.held lease = true ↔ k = key := by
  have issued := sim.issued key row found
  rw [job, presented, Option.some.injEq] at issued
  constructor
  · intro held
    simp only [ClaimRow.held, Bool.and_eq_true, decide_eq_true_eq] at held
    exact sim.keyed k key r row there found (held.1.1.trans job.symm)
  · rintro rfl
    rw [found, Option.some.injEq] at there
    subst there
    rw [issued]
    simp [ClaimRow.held, job]

omit sim in
theorem unheld {lease : DriveLease} (unnamed : ¬ Named db lease.jobId) (k : TreeKey) (r : ClaimRow)
    (there : db.claims.lookup k = some r) : r.held lease = false := by
  rw [Bool.eq_false_iff]
  intro held
  simp only [ClaimRow.held, Bool.and_eq_true, decide_eq_true_eq] at held
  exact unnamed ⟨k, r, there, held.1.1⟩

/-- **Renewals agree.** -/
theorem renew_step {lease : DriveLease} {leaseMs : ℤ} (presented : theirs.get lease.jobId = some lease)
    (represented : (bigint (nowMs + leaseMs)).isSome = true) :
    ∃ db', PgClaims.renew db lease nowMs leaseMs =
        some (db', (l.claims.lookup lease.jobId).isSome) ∧
      Sim decode owner l mine db' theirs nowMs := by
  by_cases named : Named db lease.jobId
  · obtain ⟨expires, sum⟩ := Option.isSome_iff_exists.mp represented
    rw [(sim.named_iff _).mp named]
    obtain ⟨key, row, found, job⟩ := named
    have held := sim.held_iff found job presented
    have one : db.rows (·.held lease) = [row] := rows_single found ((held key row found).mpr rfl)
      fun k r there holds => (held k r there).mp holds
    obtain ⟨claim, claimed, tree, mirrors, marked⟩ := sim.rows key row found
    refine ⟨⟨db.claims.mapValues fun r =>
        if r.held lease then { r with leaseExpiresMs := expires } else r, db.steps⟩, ?_,
      sim.write { row with leaseExpiresMs := expires } claim found claimed rfl rfl rfl rfl
      ⟨mirrors.urls, mirrors.settled, mirrors.verdict, mirrors.dated⟩
      (sim.owned key row found).2 (fun k => rfl) (fun j => ?_) (fun k => ?_) marked
      (fun s step here => sim.own_steps found here) (fun j s different => rfl)⟩
    · simp only [PgClaims.renew, Db.renewRows, one, sum, List.length_singleton, one_ne_zero,
        if_false, Option.map_some]
      rfl
    · split_ifs with same
      · rw [same]
        exact claimed
      · rfl
    · exact lookup_update found held k
  · have none : (l.claims.lookup lease.jobId).isSome = false := by
      rw [← Bool.not_eq_true]
      exact fun some => named ((sim.named_iff _).mpr some)
    rw [none]
    exact ⟨db, renew_unheld (fun held => named held.named) nowMs leaseMs, sim⟩

theorem presented_row {lease : DriveLease} (presented : theirs.get lease.jobId = some lease)
    (named : Named db lease.jobId) : ∃ key row claim, db.claims.lookup key = some row ∧
      lease = ⟨row.jobId, row.owner, row.fence⟩ ∧ l.claims.lookup row.jobId = some claim ∧
      Mirrors decode claim row ∧
      ∀ s, s ∈ claim.steps ↔ (db.steps.lookup (row.jobId, s)).isSome = true := by
  obtain ⟨key, row, found, job⟩ := named
  have issued := sim.issued key row found
  rw [job, presented, Option.some.injEq] at issued
  obtain ⟨claim, claimed, -, mirrors, marked⟩ := sim.rows key row found
  exact ⟨key, row, claim, found, by rw [issued, job], claimed, mirrors, marked⟩

theorem unclaimed {j : JobId} (unnamed : ¬ Named db j) : l.claims.lookup j = none := by
  rw [← Option.not_isSome_iff_eq_none]
  exact fun claimed => unnamed ((sim.named_iff j).mpr claimed)

/-- **Step claims agree.** -/
theorem claim_step {lease : DriveLease} (presented : theirs.get lease.jobId = some lease)
    (stepId : StepId) :
    Answer.ofStep (l.claimStep lease stepId).2 =
        .ofStep (PgClaims.claimStep db lease stepId nowMs).2 ∧
      Sim decode owner (l.claimStep lease stepId).1 mine
        (PgClaims.claimStep db lease stepId nowMs).1 theirs nowMs := by
  by_cases named : Named db lease.jobId
  · have held := (sim.lease_held presented).mpr named
    obtain ⟨key, row, claim, found, rfl, claimed, mirrors, marked⟩ :=
      sim.presented_row presented named
    by_cases taken : stepId ∈ claim.steps
    · obtain ⟨step, there⟩ := Option.isSome_iff_exists.mp ((marked stepId).mp taken)
      have refused : (db.claimStepRow ⟨row.jobId, row.owner, row.fence⟩ stepId nowMs) =
          (db, false) := by
        rw [Db.claimStepRow, there]
        simp
      have mineIs : l.claimStep ⟨row.jobId, row.owner, row.fence⟩ stepId =
          (l, .taken localOwner) := by
        rw [LocalClaims.claimStep, claimed]
        exact if_pos taken
      rw [mineIs, PgClaims.claimStep, refused]
      simp only [PgClaims.refusal, there]
      exact ⟨rfl, sim⟩
    · have free : db.steps.lookup (row.jobId, stepId) = none := by
        rw [← Option.not_isSome_iff_eq_none]
        exact fun there => taken ((marked stepId).mpr there)
      have granted : db.claimStepRow ⟨row.jobId, row.owner, row.fence⟩ stepId nowMs =
          (⟨db.claims, db.steps.insert (row.jobId, stepId) ⟨row.owner, row.fence, nowMs⟩⟩, true) := by
        have holds := any_held.mpr held
        rw [Db.claimStepRow, holds, free]
        rfl
      have mineIs : l.claimStep ⟨row.jobId, row.owner, row.fence⟩ stepId =
          (⟨l.byKey, l.claims.insert row.jobId
            { claim with steps := insert stepId claim.steps }⟩, .granted) := by
        rw [LocalClaims.claimStep, claimed]
        exact if_neg taken
      rw [mineIs, PgClaims.claimStep, granted]
      refine ⟨rfl, sim.write row { claim with steps := insert stepId claim.steps } found claimed
        rfl rfl rfl rfl ⟨mirrors.urls, mirrors.settled, mirrors.verdict, mirrors.dated⟩
        (sim.owned key row found).2 (fun k => rfl) (fun j => Table.lookup_insert _ _ _ _)
        (fun k => ?_) (fun s => ?_) (fun s step there => ?_) (fun j s different => ?_)⟩
      · split_ifs with same
        · rw [same]
          exact found
        · rfl
      · show _ ↔ ((db.steps.insert _ _).lookup _).isSome = true
        rw [Table.lookup_insert, Finset.mem_insert, marked s]
        by_cases same : s = stepId
        · simp [same]
        · simp [same]
      · have there : (db.steps.insert (row.jobId, stepId) ⟨row.owner, row.fence, nowMs⟩).lookup
            (row.jobId, s) = some step := there
        rw [Table.lookup_insert] at there
        split_ifs at there
        · rw [Option.some.injEq] at there
          rw [← there]
          exact ⟨rfl, rfl⟩
        · exact sim.own_steps found there
      · refine (Table.lookup_insert _ _ _ _).trans (if_neg fun same => different ?_)
        exact congrArg Prod.fst same
  · have unheld : ¬ Held db lease := fun held => named held.named
    have refused : db.claimStepRow lease stepId nowMs = (db, false) := by
      have none : (db.claims.values.any fun row => row.held lease) = false := by
        rw [← Bool.not_eq_true]
        exact fun any => unheld (any_held.mp any)
      rw [Db.claimStepRow, none]
      rfl
    have mineIs : l.claimStep lease stepId = (l, .fenced noClaim) := by
      rw [LocalClaims.claimStep, sim.unclaimed named]
    rw [mineIs, PgClaims.claimStep, refused]
    simp only [PgClaims.refusal, sim.steps_of_unnamed named stepId]
    refine ⟨?_, sim⟩
    cases (db.rows (·.jobId = lease.jobId)).head? <;> rfl

/-- **Releases agree.** -/
theorem release_step {lease : DriveLease} (presented : theirs.get lease.jobId = some lease)
    (stepId : StepId) :
    Sim decode owner (l.releaseStep lease stepId) mine (db.releaseRow lease stepId) theirs nowMs := by
  have steps : ∀ k, (db.releaseRow lease stepId).steps.lookup k = (db.steps.lookup k).filter
      fun row => !(k = (lease.jobId, stepId) && row.owner = lease.owner && row.fence = lease.fence) :=
    Table.lookup_keep _ _
  by_cases named : Named db lease.jobId
  · obtain ⟨key, row, claim, found, rfl, claimed, mirrors, marked⟩ :=
      sim.presented_row presented named
    refine sim.write row { claim with steps := claim.steps.erase stepId } found claimed rfl rfl rfl
      rfl ⟨mirrors.urls, mirrors.settled, mirrors.verdict, mirrors.dated⟩
      (sim.owned key row found).2 (fun k => rfl) (fun j => ?_) (fun k => ?_) (fun s => ?_)
      (fun s step there => ?_) (fun j s different => ?_)
    · rw [LocalClaims.lookup_releaseStep]
      split_ifs
      · rw [claimed]
        rfl
      · rfl
    · split_ifs with same
      · rw [same]
        exact found
      · rfl
    · rw [steps, Finset.mem_erase, marked s]
      cases there : db.steps.lookup (row.jobId, s) with
      | none => simp
      | some step =>
        obtain ⟨holder, fence⟩ := sim.own_steps found there
        by_cases same : s = stepId
        · simp [same, holder, fence, Option.filter_some]
        · simp [same, Option.filter_some]
    · rw [steps, Option.filter_eq_some_iff] at there
      exact sim.own_steps found there.1
    · rw [steps]
      cases there : db.steps.lookup (j, s) with
      | none => rfl
      | some step => simp [different, Option.filter_some]
  · refine sim.same (fun k => rfl) (fun j => ?_) (fun k => rfl) (fun k => ?_)
    · rw [LocalClaims.lookup_releaseStep, sim.unclaimed named]
      split_ifs with same
      · rw [same]
        exact (sim.unclaimed named).symm
      · rfl
    · rw [steps]
      cases there : db.steps.lookup k with
      | none => rfl
      | some step =>
        rw [Option.filter_some, if_pos]
        rw [Bool.not_eq_true', Bool.eq_false_iff]
        intro all
        simp only [Bool.and_eq_true, decide_eq_true_eq] at all
        rw [all.1.1, sim.steps_of_unnamed named] at there
        cases there

/-- **Verdicts agree.** -/
theorem settle_step {lease : DriveLease} (presented : theirs.get lease.jobId = some lease)
    {verdict : Verdict} {raw : String} (parses : decode raw = some verdict) :
    Sim decode owner (l.settle lease verdict nowMs) mine (db.settleRows lease raw nowMs) theirs
      nowMs := by
  by_cases named : Named db lease.jobId
  · obtain ⟨key, row, claim, found, rfl, claimed, mirrors, marked⟩ :=
      sim.presented_row presented named
    have held := sim.held_iff found rfl presented
    refine sim.write { row with verdict := some raw, settledAtMs := some nowMs }
      { claim with verdict := some verdict, settledAtMs := some nowMs } found claimed rfl rfl rfl
      rfl ⟨mirrors.urls, rfl, ?_, rfl⟩ (fun t settled => ?_) (fun k => rfl) (fun j => ?_)
      (fun k => lookup_update found held k) marked (fun s step there => sim.own_steps found there)
      (fun j s different => rfl)
    · rw [Option.bind_some, parses]
    · exact (Option.some.inj settled).ge
    · rw [LocalClaims.lookup_settle]
      split_ifs
      · rw [claimed]
        rfl
      · rfl
  · refine sim.same (fun k => rfl) (fun j => ?_) (fun k => ?_) (fun k => rfl)
    · rw [LocalClaims.lookup_settle, sim.unclaimed named]
      split_ifs with same
      · rw [same]
        exact (sim.unclaimed named).symm
      · rfl
    · rw [Db.settleRows]
      dsimp only
      rw [Table.lookup_mapValues]
      cases there : db.claims.lookup k with
      | none => rfl
      | some r =>
        rw [Option.map_some, if_neg]
        rw [Sim.unheld named k r there]
        exact Bool.false_ne_true

/-- **Destinations agree.** -/
theorem destinations_step (j : JobId) :
    l.destinations j = PgClaims.destinations db j := by
  by_cases named : Named db j
  · obtain ⟨key, row, found, rfl⟩ := named
    obtain ⟨claim, claimed, -, mirrors, -⟩ := sim.rows key row found
    rw [destinations_row sim.keyed found, LocalClaims.destinations, claimed]
    exact mirrors.urls
  · have none : db.rows (·.jobId = j) = [] := by
      refine List.eq_nil_iff_forall_not_mem.mpr fun row mem => named ?_
      obtain ⟨value, job⟩ := List.mem_filter.mp mem
      obtain ⟨key, found⟩ := Table.mem_values.mp value
      exact ⟨key, row, found, of_decide_eq_true job⟩
    rw [LocalClaims.destinations, sim.unclaimed named, PgClaims.destinations, none]
    rfl

/-- **Forgetting agrees.** -/
theorem forget_step (j : JobId) :
    Sim decode owner (l.forget j) mine (db.forgetRows owner j) theirs nowMs := by
  have rows : ∀ k, (db.forgetRows owner j).claims.lookup k =
      (db.claims.lookup k).filter fun row => !row.forgettable owner j := Table.lookup_keep _ _
  have steps : ∀ k, (db.forgetRows owner j).steps.lookup k = (db.steps.lookup k).filter
      fun _ => !(db.rows (·.forgettable owner j)).any fun row => row.jobId = k.1 :=
    Table.lookup_keep _ _
  by_cases named : Named db j
  · obtain ⟨key, row, found, rfl⟩ := named
    obtain ⟨claim, claimed, tree, -⟩ := sim.rows key row found
    have mayForget : ∀ k r, db.claims.lookup k = some r →
        (r.forgettable owner row.jobId = true ↔ k = key) := by
      intro k r there
      have holder := (sim.owned k r there).1
      constructor
      · intro forgets
        simp only [ClaimRow.forgettable, Bool.and_eq_true, decide_eq_true_eq] at forgets
        exact sim.keyed k key r row there found forgets.1
      · rintro rfl
        rw [found, Option.some.injEq] at there
        subst there
        simp [ClaimRow.forgettable, holder]
    have gone : db.rows (·.forgettable owner row.jobId) = [row] :=
      rows_single found ((mayForget key row found).mpr rfl) fun k r there forgets =>
        (mayForget k r there).mp forgets
    refine sim.forget found (fun k => ?_) (fun j => LocalClaims.lookup_forget l row.jobId j)
      (fun k => ?_) (fun j s => ?_)
    · have known : l.byKey.lookup key = some row.jobId := by rw [sim.index, found]; rfl
      rw [LocalClaims.forget, claimed]
      dsimp only
      rw [tree, if_pos known]
      exact Table.lookup_erase _ _ _
    · rw [rows]
      cases there : db.claims.lookup k with
      | none => simp
      | some r =>
        by_cases same : k = key
        · rw [if_pos same, Option.filter_some, if_neg]
          simp [(mayForget k r there).mpr same]
        · rw [if_neg same, Option.filter_some, if_pos]
          rw [Bool.not_eq_true', Bool.eq_false_iff]
          exact fun forgets => same ((mayForget k r there).mp forgets)
    · rw [steps, gone]
      cases there : db.steps.lookup (j, s) with
      | none => simp
      | some step =>
        by_cases same : j = row.jobId
        · simp [same, Option.filter_some]
        · simp [same, Ne.symm same, Option.filter_some]
  · have stays : ∀ r ∈ db.claims.values, r.forgettable owner j = false := by
      intro r value
      obtain ⟨key, found⟩ := Table.mem_values.mp value
      rw [Bool.eq_false_iff]
      intro forgets
      simp only [ClaimRow.forgettable, Bool.and_eq_true, decide_eq_true_eq] at forgets
      exact named ⟨key, r, found, forgets.1⟩
    have none : db.rows (·.forgettable owner j) = [] :=
      List.filter_eq_nil_iff.mpr fun r value => by simp [stays r value]
    have mineIs : l.forget j = l := by
      rw [LocalClaims.forget, sim.unclaimed named]
    rw [mineIs]
    refine sim.same (fun k => rfl) (fun j => rfl) (fun k => ?_) (fun k => ?_)
    · rw [rows]
      cases there : db.claims.lookup k with
      | none => rfl
      | some r =>
        have kept := stays r (Table.mem_values.mpr ⟨k, there⟩)
        rw [Option.filter_some, kept]
        rfl
    · rw [steps, none]
      cases db.steps.lookup k <;> rfl

end Sim

/-! ### Whole runs -/

theorem sim_new (decode : String → Option Verdict) (owner : String) (nowMs : ℤ) :
    Sim decode owner LocalClaims.new Leases.new Db.new Leases.new nowMs where
  index _ := rfl
  indexed _ _ claimed := nomatch claimed
  rows _ _ found := nomatch found
  owned _ _ found := nomatch found
  steps _ _ _ found := nomatch found
  leases _ := rfl
  issued _ _ found := nomatch found

/-- **One call: the same answer, and the stores stay in step.** -/
theorem sim_perform {encode : Verdict → Option String} (sim : Sim decode owner l mine db theirs nowMs)
    (op : Op) (unissued : ∀ j, op.proposed = some j → theirs.get j = none)
    (represented : Representable db (nowMs, op)) (promised : Promised encode decode db (nowMs, op)) :
    let here := perform localStore (l, mine) (nowMs, op)
    let there := perform (pgStore encode decode owner) (db, theirs) (nowMs, op)
    here.2 = there.2 ∧ Sim decode owner here.1.1 here.1.2 there.1.1 there.1.2 nowMs ∧
      ∀ j, (there.1.2.get j).isSome = true → (theirs.get j).isSome = true ∨ op.proposed = some j := by
  cases op with
  | admitDispatch key proposed url leaseMs retentionMs =>
    obtain ⟨db', theirAnswer, admits, same, after, issued⟩ :=
      sim.admit_step (unissued proposed rfl) represented promised
    simp only [perform, localStore, pgStore, admits]
    refine ⟨same, after, fun j known => ?_⟩
    rcases issued j known with old | new
    · exact .inl old
    · exact .inr (congrArg some new.symm)
  | renew jobId leaseMs =>
    cases presented : theirs.get jobId with
    | none =>
      simp only [perform, presented, (sim.lease_iff jobId).mpr presented]
      exact ⟨trivial, sim, fun j known => .inl known⟩
    | some lease =>
      obtain rfl := Leases.jobId_of_get presented
      obtain ⟨lease', mineIs⟩ := Option.isSome_iff_exists.mp
        ((sim.leases lease.jobId).trans (congrArg Option.isSome presented))
      obtain ⟨db', renews, after⟩ := sim.renew_step presented represented
      simp only [perform, presented, mineIs, localStore, pgStore, renews]
      exact ⟨by rw [Leases.jobId_of_get mineIs], after, fun j known => .inl known⟩
  | claimStep jobId stepId =>
    cases presented : theirs.get jobId with
    | none =>
      simp only [perform, presented, (sim.lease_iff jobId).mpr presented]
      exact ⟨trivial, sim, fun j known => .inl known⟩
    | some lease =>
      obtain rfl := Leases.jobId_of_get presented
      obtain ⟨lease', mineIs⟩ := Option.isSome_iff_exists.mp
        ((sim.leases lease.jobId).trans (congrArg Option.isSome presented))
      have same : l.claimStep lease' stepId = l.claimStep lease stepId := by
        unfold LocalClaims.claimStep
        rw [Leases.jobId_of_get mineIs]
      obtain ⟨answer, after⟩ := sim.claim_step presented stepId
      simp only [perform, presented, mineIs, localStore, pgStore, same]
      exact ⟨answer, after, fun j known => .inl known⟩
  | releaseStep jobId stepId =>
    cases presented : theirs.get jobId with
    | none =>
      simp only [perform, presented, (sim.lease_iff jobId).mpr presented]
      exact ⟨trivial, sim, fun j known => .inl known⟩
    | some lease =>
      obtain rfl := Leases.jobId_of_get presented
      obtain ⟨lease', mineIs⟩ := Option.isSome_iff_exists.mp
        ((sim.leases lease.jobId).trans (congrArg Option.isSome presented))
      have same : l.releaseStep lease' stepId = l.releaseStep lease stepId := by
        unfold LocalClaims.releaseStep
        rw [Leases.jobId_of_get mineIs]
      simp only [perform, presented, mineIs, localStore, pgStore, same]
      exact ⟨trivial, sim.release_step presented stepId, fun j known => .inl known⟩
  | settle jobId verdict =>
    cases presented : theirs.get jobId with
    | none =>
      simp only [perform, presented, (sim.lease_iff jobId).mpr presented]
      exact ⟨trivial, sim, fun j known => .inl known⟩
    | some lease =>
      obtain rfl := Leases.jobId_of_get presented
      obtain ⟨lease', mineIs⟩ := Option.isSome_iff_exists.mp
        ((sim.leases lease.jobId).trans (congrArg Option.isSome presented))
      have same : l.settle lease' verdict nowMs = l.settle lease verdict nowMs := by
        unfold LocalClaims.settle
        rw [Leases.jobId_of_get mineIs]
      obtain ⟨raw, encodes, parses⟩ := Option.bind_eq_some_iff.mp promised
      simp only [perform, presented, mineIs, localStore, pgStore, same, PgClaims.settle, encodes,
        Option.map_some]
      exact ⟨trivial, sim.settle_step presented parses, fun j known => .inl known⟩
  | destinations jobId =>
    refine ⟨?_, sim, fun j known => .inl known⟩
    exact congrArg Answer.urls (sim.destinations_step jobId)
  | forget jobId => exact ⟨rfl, sim.forget_step jobId, fun j known => .inl known⟩

theorem replies_agree {encode : Verdict → Option String} {calls : List (ℤ × Op)} {earlier : ℤ}
    (sim : Sim decode owner l mine db theirs earlier) (later : ∀ call ∈ calls, earlier ≤ call.1)
    (ordered : Ordered calls)
    (unissued : ∀ call ∈ calls, ∀ j, call.2.proposed = some j → theirs.get j = none)
    (along : Along (fun s call => (perform (pgStore encode decode owner) s call).1)
      (fun s call => Representable s.1 call ∧ Promised encode decode s.1 call) (db, theirs) calls) :
    replies localStore (l, mine) calls =
      replies (pgStore encode decode owner) (db, theirs) calls := by
  induction calls generalizing l mine db theirs earlier with
  | nil => rfl
  | cons call rest ih =>
    obtain ⟨nowMs, op⟩ := call
    obtain ⟨⟨represented, promised⟩, along⟩ := along_cons.mp along
    have now := sim.later (later (nowMs, op) List.mem_cons_self)
    obtain ⟨answer, after, issued⟩ := sim_perform now op
      (unissued (nowMs, op) List.mem_cons_self) represented promised
    have clock := List.pairwise_cons.mp ordered.clock
    have proposals : (op.proposed.toList ++ rest.filterMap fun call => call.2.proposed).Nodup := by
      have fresh := ordered.fresh
      rw [List.filterMap_cons] at fresh
      cases proposed : op.proposed with
      | none =>
        rw [proposed] at fresh
        exact fresh
      | some j =>
        rw [proposed] at fresh
        exact fresh
    rw [replies, replies, answer]
    congr 1
    refine ih after clock.1 ⟨(List.nodup_append.mp proposals).2.1, clock.2⟩ ?_ along
    intro call mem j proposed
    by_contra known
    have known := Option.isSome_iff_ne_none.mpr known
    rcases issued j known with old | new
    · rw [unissued call (List.mem_cons_of_mem _ mem) j proposed] at old
      cases old
    · refine (List.nodup_append.mp proposals).2.2 j ?_ j ?_ rfl
      · rw [new]
        exact List.mem_singleton_self j
      · exact List.mem_filterMap.mpr ⟨call, mem, proposed⟩

end Simulation

/-- A green verdict's JSON. -/
def greenJson : String := "\x7b\"status\":\"green\",\"summary\":\"ok\"\x7d"

def greenEncode (verdict : Verdict) : Option String :=
  if verdict = .green "ok" then some greenJson else none

def greenDecode (raw : String) : Option Verdict :=
  if raw = greenJson then some (.green "ok") else none

/-- A job that settles, a second dispatch that hears its verdict, and a third after retention. -/
def oneReplica : List (ℤ × Op) :=
  [(0, .admitDispatch ⟨"repo", "tree"⟩ "1" "url" 60000 3600000), (1, .claimStep "1" "build"),
    (30000, .renew "1" 60000), (40000, .settle "1" (.green "ok")),
    (50000, .admitDispatch ⟨"repo", "tree"⟩ "2" "other" 60000 3600000), (60000, .destinations "1"),
    (3700000, .admitDispatch ⟨"repo", "tree"⟩ "3" "url" 60000 3600000), (3700001, .claimStep "1" "build")]

/-- A clock at the end of `i64`: the shared store's statement fails, the local one answers. -/
def lastMoment : List (ℤ × Op) :=
  [(2 ^ 63 - 1, .admitDispatch ⟨"repo", "tree"⟩ "1" "url" 60000 3600000)]

end HullCi.Server
