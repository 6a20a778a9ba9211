/-
**The scheduler's books: a slot is in use exactly where a placement says so.**

A step in flight is written down twice: in its tenant's `running` map, which the caps are counted
over, and in its job's placement. A job id belongs to one tenant, which `F` names.

* `Books` — both maps hold the same clock for every step, and a queue holds its own tenant's steps.
* `books_apply` — every call keeps the books, whatever its arguments.
* `select_grants` — a call grants steps that wait, each once.
-/

import HullCi.Control.FairSelection

namespace HullCi.Control

open HullCi.Proto HullCi.Base

namespace FairQueue

/-! ### The two maps -/

/-- What the scheduler holds for a tenant; an unknown one holds nothing. -/
def tenantAt (q : FairQueue) (T : String) : Tenant :=
  (q.tenants.lookup T).getD {}

/-- When the tenant's `running` map says the step was started. -/
def slot (q : FairQueue) (T : String) (jobId : JobId) (stepId : StepId) : Option Instant :=
  (q.tenantAt T).running.lookup (jobId, stepId)

/-- When the placement says the step was started, if the job is the tenant's. -/
def clock (q : FairQueue) (T : String) (jobId : JobId) (stepId : StepId) : Option Instant :=
  (q.jobs.lookup jobId).bind fun m =>
    if m.tenant = T then (m.steps.lookup stepId).bind (·.since) else none

/-- A tenant's queued steps, of both classes. -/
def queued (q : FairQueue) (T : String) : List Waiting :=
  (q.tenantAt T).interactive ++ (q.tenantAt T).background

/-- The scheduler's books, for jobs whose tenants `F` names. -/
structure Books (F : JobId → String) (q : FairQueue) : Prop where
  owned : ∀ jobId m, q.jobs.lookup jobId = some m → m.tenant = F jobId
  filed : ∀ T, ∀ w ∈ q.queued T, F w.jobId = T
  even : ∀ T jobId stepId, q.slot T jobId stepId = q.clock T jobId stepId

theorem books_fresh (F : JobId → String) (cfg : FairShare)
    (costs : Table (String × String) (List ℚ)) (costKeys : Table String (List String)) :
    Books F (fresh cfg costs costKeys) where
  owned := fun jobId m known => by cases known
  filed := fun T w member => by cases member
  even := fun _ _ _ => rfl

/-! ### Reading a tenant after a write -/

theorem tenantAt_insertNew (tenants : Table String Tenant) (U T : String) :
    ((tenants.insertNew U {}).lookup T).getD {} = (tenants.lookup T).getD {} := by
  rw [Table.lookup_insertNew]
  by_cases same : T = U
  · rw [if_pos same, same, Option.getD_some]
  · rw [if_neg same]

theorem tenantAt_opened (tenants : Table String Tenant) (U T : String) (f : Tenant → Tenant) :
    (((tenants.insertNew U {}).modify U f).lookup T).getD {} =
      if T = U then f ((tenants.lookup T).getD {}) else (tenants.lookup T).getD {} := by
  rw [Table.lookup_modify]
  by_cases same : T = U
  · rw [if_pos same, if_pos same, same, Table.lookup_insertNew, if_pos rfl]
    rfl
  · rw [if_neg same, if_neg same, tenantAt_insertNew]

theorem clock_owned {F : JobId → String} {q : FairQueue} (books : Books F q) (T : String)
    (jobId : JobId) (stepId : StepId) :
    q.clock T jobId stepId =
      if F jobId = T then (q.placement jobId stepId).bind (·.since) else none := by
  unfold clock placement
  cases known : q.jobs.lookup jobId with
  | none => simp
  | some m => simp [books.owned jobId m known]

theorem slot_of_waiting {F : JobId → String} {q : FairQueue} (books : Books F q) {jobId : JobId}
    {stepId : StepId} (waits : q.isWaiting jobId stepId = true) (T : String) :
    q.slot T jobId stepId = none := by
  rw [books.even, clock_owned books]
  unfold isWaiting at waits
  split
  · cases placed : q.placement jobId stepId with
    | none => rfl
    | some p =>
      rw [placed, Option.any_some, Option.isNone_iff_eq_none] at waits
      exact waits
  · rfl

/-! ### What each call does to the books -/

/-- Rewriting tenants keeps the books when every slot stays and no queue gets a stranger. -/
theorem books_tenants {F : JobId → String} {q : FairQueue} (books : Books F q)
    (tenants : Table String Tenant)
    (slots : ∀ T, ((tenants.lookup T).getD {}).running = (q.tenantAt T).running)
    (queues : ∀ T, ∀ w ∈ ((tenants.lookup T).getD {}).interactive
      ++ ((tenants.lookup T).getD {}).background, w ∈ q.queued T ∨ F w.jobId = T) :
    Books F { q with tenants := tenants } where
  owned := books.owned
  filed := fun T w member => by
    rcases queues T w member with old | own
    · exact books.filed T w old
    · exact own
  even := fun T jobId stepId => by
    have same := books.even T jobId stepId
    unfold slot tenantAt at same ⊢
    rw [slots T]
    exact same

theorem books_costs {F : JobId → String} {q : FairQueue} (books : Books F q)
    (costs : Table (String × String) (List ℚ)) (costKeys : Table String (List String)) :
    Books F { q with costs := costs, costKeys := costKeys } :=
  ⟨books.owned, books.filed, books.even⟩

theorem books_mapValues {F : JobId → String} {q : FairQueue} (books : Books F q)
    (f : Tenant → Tenant) (keeps : ∀ t, (f t).running = t.running)
    (fewer : ∀ t, ∀ w ∈ (f t).interactive ++ (f t).background, w ∈ t.interactive ++ t.background) :
    Books F { q with tenants := q.tenants.mapValues f } := by
  refine books_tenants books _ (fun T => ?_) fun T w member => ?_
  · rw [Table.lookup_mapValues]
    unfold tenantAt
    cases q.tenants.lookup T with
    | none => rfl
    | some t => exact keeps t
  · rw [Table.lookup_mapValues] at member
    unfold queued tenantAt
    cases known : q.tenants.lookup T with
    | none => rw [known] at member; cases member
    | some t =>
      rw [known] at member
      exact .inl (fewer t w member)

theorem owned_insert {F : JobId → String} {q : FairQueue} (books : Books F q) {jobId : JobId}
    {m : JobMeta} (known : m.tenant = F jobId) (jobId' : JobId) (m' : JobMeta)
    (found : (q.jobs.insert jobId m).lookup jobId' = some m') : m'.tenant = F jobId' := by
  rw [Table.lookup_insert] at found
  by_cases same : jobId' = jobId
  · rw [if_pos same, Option.some.injEq] at found
    rw [same, ← found, known]
  · rw [if_neg same] at found
    exact books.owned jobId' m' found

theorem clock_insert (q : FairQueue) {jobId : JobId} {m : JobMeta}
    (known : q.jobs.lookup jobId = some m) (steps : Table StepId Placement) (T : String)
    (jobId' : JobId) (stepId : StepId) :
    ((q.jobs.insert jobId { m with steps := steps }).lookup jobId').bind
        (fun m' => if m'.tenant = T then (m'.steps.lookup stepId).bind (·.since) else none) =
      if jobId' = jobId ∧ T = m.tenant then (steps.lookup stepId).bind (·.since)
      else q.clock T jobId' stepId := by
  rw [Table.lookup_insert]
  unfold clock
  by_cases same : jobId' = jobId
  · subst same
    rw [if_pos rfl, known, Option.bind_some, Option.bind_some]
    by_cases own : m.tenant = T
    · rw [if_pos own, if_pos ⟨rfl, own.symm⟩]
    · rw [if_neg own, if_neg (fun both => own both.2.symm), if_neg own]
  · rw [if_neg same, if_neg (fun both => same both.1)]

theorem lookup_admitJob (q : FairQueue) (jobId : JobId) (tenant : String) (priority : Priority)
    (jobId' : JobId) :
    (q.admitJob jobId tenant priority).jobs.lookup jobId' =
      if jobId' = jobId then
        some { (q.jobs.lookup jobId).getD ⟨tenant, priority, ∅⟩ with priority := priority }
      else q.jobs.lookup jobId' := by
  unfold admitJob
  dsimp only
  rw [Table.lookup_modify, Table.lookup_insertNew, Table.lookup_insertNew]
  by_cases same : jobId' = jobId
  · rw [if_pos same, if_pos same, if_pos rfl, Option.map_some]
  · rw [if_neg same, if_neg same, if_neg same]

theorem books_admitJob {F : JobId → String} {q : FairQueue} (books : Books F q) {jobId : JobId}
    {tenant : String} (own : tenant = F jobId) (priority : Priority) :
    Books F (q.admitJob jobId tenant priority) := by
  have opened : Books F { q with tenants := q.tenants.insertNew tenant {} } := by
    refine books_tenants books _ (fun T => ?_) fun T w member => .inl ?_
    · rw [tenantAt_insertNew]
      rfl
    · rw [tenantAt_insertNew] at member
      exact member
  refine ⟨fun jobId' m found => ?_, opened.filed, fun T jobId' stepId => ?_⟩
  · rw [lookup_admitJob] at found
    split at found
    · rename_i same
      obtain rfl := Option.some.inj found
      cases known : q.jobs.lookup jobId with
      | none => exact own.trans (by rw [same])
      | some m' => exact (books.owned jobId m' known).trans (by rw [same])
    · exact books.owned jobId' m found
  · refine (opened.even T jobId' stepId).trans ?_
    show q.clock T jobId' stepId = (q.admitJob jobId tenant priority).clock T jobId' stepId
    unfold clock
    rw [lookup_admitJob]
    split
    · rename_i same
      rw [same]
      cases q.jobs.lookup jobId with
      | none =>
        show none = if tenant = T then _ else none
        split <;> rfl
      | some m' => rfl
    · rfl

theorem books_enqueue {F : JobId → String} {q : FairQueue} (books : Books F q) (jobId : JobId)
    (stepId : StepId) (stepName : String) : Books F (q.enqueue jobId stepId stepName) := by
  unfold enqueue
  cases known : q.jobs.lookup jobId with
  | none => exact books
  | some m =>
    dsimp only
    split
    · exact books
    · rename_i unplaced
      have own := books.owned jobId m known
      set w : Waiting := ⟨jobId, stepId, q.estimate m.tenant stepName⟩ with named
      have pushed : Books F { q with tenants :=
          (q.tenants.insertNew m.tenant {}).modify m.tenant (·.push w m.priority) } := by
        refine books_tenants books _ (fun T => ?_) fun T v member => ?_
        · rw [tenantAt_opened]
          split
          · cases m.priority <;> rfl
          · rfl
        · rw [tenantAt_opened] at member
          unfold queued tenantAt
          by_cases same : T = m.tenant
          · rw [if_pos same] at member
            have either : v ∈ (q.tenantAt T).interactive ++ (q.tenantAt T).background ∨ v = w := by
              unfold tenantAt
              cases priority : m.priority <;>
                · simp only [priority, Tenant.push, List.mem_append, List.mem_singleton] at member ⊢
                  tauto
            rcases either with old | rfl
            · exact .inl old
            · exact .inr (by rw [same, own])
          · rw [if_neg same] at member
            exact .inl member
      refine ⟨owned_insert books own, pushed.filed, fun T jobId' stepId' => ?_⟩
      refine (pushed.even T jobId' stepId').trans (Eq.symm ?_)
      refine (clock_insert q known _ T jobId' stepId').trans ?_
      split
      · rename_i here
        obtain ⟨rfl, rfl⟩ := here
        show _ = q.clock m.tenant jobId' stepId'
        unfold clock
        rw [known, Option.bind_some, if_pos rfl, Table.lookup_insert]
        split
        · rename_i same
          rw [same]
          cases placed : m.steps.lookup stepId with
          | none => rfl
          | some p => rw [placed] at unplaced; exact absurd rfl unplaced
        · rfl
      · rfl

theorem books_observeCost {F : JobId → String} {q : FairQueue} (books : Books F q)
    (tenant stepName : String) (ran : Duration) : Books F (q.observeCost tenant stepName ran) := by
  unfold observeCost
  dsimp only
  split
  · exact books_costs books _ _
  · exact books_costs books _ _

theorem running_settled (q : FairQueue) (U : String) (jobId : JobId) (stepId : StepId)
    (at' : Instant) (ran : Duration) (charged : Option ℚ) (weight : ℚ) (T : String) :
    (((q.tenants.modify U (settleUp jobId stepId at' ran charged weight)).lookup T).getD {}).running
      = if T = U then (q.tenantAt T).running.erase (jobId, stepId)
        else (q.tenantAt T).running := by
  rw [Table.lookup_modify]
  unfold tenantAt
  by_cases same : T = U
  · rw [if_pos same, if_pos same, same]
    cases q.tenants.lookup U <;> rfl
  · rw [if_neg same, if_neg same]

theorem queued_settled (q : FairQueue) (U : String) (jobId : JobId) (stepId : StepId)
    (at' : Instant) (ran : Duration) (charged : Option ℚ) (weight : ℚ) (T : String) :
    FairQueue.queued { q with
      tenants := q.tenants.modify U (settleUp jobId stepId at' ran charged weight) } T
      = q.queued T := by
  unfold queued tenantAt
  dsimp only
  rw [Table.lookup_modify]
  by_cases same : T = U
  · rw [if_pos same, same]
    cases q.tenants.lookup U <;> rfl
  · rw [if_neg same]

theorem clock_erase (q : FairQueue) {jobId : JobId} {m : JobMeta}
    (known : q.jobs.lookup jobId = some m) (stepId : StepId) (T : String) (jobId' : JobId)
    (stepId' : StepId) :
    ((q.jobs.insert jobId { m with steps := m.steps.erase stepId }).lookup jobId').bind
        (fun m' => if m'.tenant = T then (m'.steps.lookup stepId').bind (·.since) else none) =
      if T = m.tenant ∧ (jobId', stepId') = (jobId, stepId) then none
      else q.clock T jobId' stepId' := by
  rw [clock_insert q known]
  by_cases own : jobId' = jobId ∧ T = m.tenant
  · obtain ⟨rfl, rfl⟩ := own
    rw [if_pos ⟨rfl, rfl⟩, Table.lookup_erase]
    by_cases same : stepId' = stepId
    · rw [if_pos same, if_pos ⟨rfl, by rw [same]⟩]
      rfl
    · rw [if_neg same, if_neg (fun both => same (Prod.mk.inj both.2).2)]
      unfold clock
      rw [known, Option.bind_some, if_pos rfl]
  · rw [if_neg own, if_neg (fun both => own ⟨(Prod.mk.inj both.2).1, both.1⟩)]

theorem books_unplace {F : JobId → String} {q : FairQueue} (books : Books F q) (jobId : JobId)
    (stepId : StepId) (at' : Instant) (learn : Bool) :
    Books F (q.unplace jobId stepId at' learn) := by
  unfold unplace
  cases known : q.jobs.lookup jobId with
  | none => exact books
  | some m =>
    dsimp only
    have own := books.owned jobId m known
    cases placed : m.steps.lookup stepId with
    | none => exact books
    | some p =>
      dsimp only
      have here : q.slot m.tenant jobId stepId = p.since := by
        rw [books.even]
        unfold clock
        rw [known, Option.bind_some, if_pos rfl, placed, Option.bind_some]
      cases running : p.since with
      | none =>
        -- A step that waits holds no slot, so only its placement goes.
        refine ⟨owned_insert books own, books.filed, fun T jobId' stepId' => ?_⟩
        refine Eq.trans ?_ (clock_erase q known stepId T jobId' stepId').symm
        refine (books.even T jobId' stepId').trans ?_
        split
        · rename_i gone
          obtain ⟨rfl, pair⟩ := gone
          obtain ⟨rfl, rfl⟩ := Prod.mk.inj pair
          rw [← books.even, here, running]
        · rfl
      | some since =>
        have settled : Books F { q with
            jobs := q.jobs.insert jobId { m with steps := m.steps.erase stepId }
            tenants := q.tenants.modify m.tenant (settleUp jobId stepId at' (at' - since) p.charged
              (q.cfg.weight m.tenant)) } := by
          refine ⟨owned_insert books own, fun T w member => ?_, fun T jobId' stepId' => ?_⟩
          · refine books.filed T w ?_
            rw [← queued_settled q m.tenant jobId stepId at' (at' - since) p.charged
              (q.cfg.weight m.tenant) T]
            exact member
          · refine Eq.trans ?_ (clock_erase q known stepId T jobId' stepId').symm
            unfold slot
            unfold tenantAt
            rw [running_settled]
            by_cases same : T = m.tenant
            · rw [if_pos same, Table.lookup_erase]
              by_cases pair : (jobId', stepId') = (jobId, stepId)
              · rw [if_pos pair, if_pos ⟨same, pair⟩]
              · rw [if_neg pair, if_neg (fun both => pair both.2)]
                exact books.even T jobId' stepId'
            · rw [if_neg same, if_neg (fun both => same both.1)]
              exact books.even T jobId' stepId'
        dsimp only
        split
        · exact books_observeCost settled _ _ _
        · exact settled

theorem books_adopt {F : JobId → String} {q : FairQueue} (books : Books F q) (jobId : JobId)
    (stepId : StepId) (name : String) (since : Instant) :
    Books F (q.adopt jobId stepId name since) := by
  unfold adopt
  cases known : q.jobs.lookup jobId with
  | none => exact books
  | some m =>
    have own := books.owned jobId m known
    refine ⟨owned_insert books own, fun T w member => books.filed T w ?_,
      fun T jobId' stepId' => ?_⟩
    · unfold queued tenantAt at member ⊢
      rw [tenantAt_opened] at member
      split at member <;> exact member
    · refine Eq.trans ?_ (clock_insert q known _ T jobId' stepId').symm
      have even := books.even T jobId' stepId'
      unfold slot tenantAt at even ⊢
      dsimp only
      rw [tenantAt_opened]
      by_cases same : T = m.tenant
      · rw [if_pos same, Table.lookup_insert]
        by_cases job : jobId' = jobId
        · rw [if_pos (show jobId' = jobId ∧ T = m.tenant from ⟨job, same⟩), Table.lookup_insert]
          by_cases step : stepId' = stepId
          · have pair : (jobId', stepId') = (jobId, stepId) := by rw [job, step]
            rw [if_pos pair, if_pos step, Option.bind_some]
          · rw [if_neg (fun pair => step (Prod.mk.inj pair).2), if_neg step, even]
            unfold clock
            rw [job, known, Option.bind_some, if_pos same.symm]
        · rw [if_neg (fun pair => job (Prod.mk.inj pair).1), if_neg (fun both => job both.1)]
          exact even
      · rw [if_neg same, if_neg (fun both => same both.2)]
        exact even

theorem books_reconcileStep {F : JobId → String} {q : FairQueue} (books : Books F q)
    (jobId : JobId) (now : Instant) (step : StepView) :
    Books F (reconcileStep jobId now q step) := by
  unfold reconcileStep
  split
  · exact books_enqueue books _ _ _
  · exact books_enqueue (books_unplace books _ _ _ _) _ _ _
  · exact books
  · exact books
  · exact books_adopt (books_unplace books _ _ _ _) _ _ _ _
  · exact books_adopt (books_unplace books _ _ _ _) _ _ _ _
  · exact books_unplace books _ _ _ _
  · exact books_unplace books _ _ _ _
  · exact books_unplace books _ _ _ _
  · exact books_unplace books _ _ _ _
  · exact books_unplace books _ _ _ _
  · exact books

/-- A step that stops being accounted for leaves every other placement alone. -/
theorem placement_unplace (q : FairQueue) (jobId : JobId) (stepId : StepId) (at' : Instant)
    (learn : Bool) (jobId' : JobId) (stepId' : StepId) :
    (q.unplace jobId stepId at' learn).placement jobId' stepId' =
      if jobId' = jobId ∧ stepId' = stepId then none else q.placement jobId' stepId' := by
  have kept : ∀ (books : FairQueue), books.jobs = q.jobs → books.placement = q.placement := by
    intro books same
    unfold placement
    rw [same]
  unfold unplace
  cases known : q.jobs.lookup jobId with
  | none =>
    dsimp only
    split
    · rename_i same
      unfold placement
      rw [same.1, known, Option.bind_none]
    · rfl
  | some m =>
    dsimp only
    cases placed : m.steps.lookup stepId with
    | none =>
      dsimp only
      split
      · rename_i same
        unfold placement
        rw [same.1, known, Option.bind_some, same.2, placed]
      · rfl
    | some p =>
      have erased : FairQueue.placement { q with
          jobs := q.jobs.insert jobId { m with steps := m.steps.erase stepId } } jobId' stepId' =
          if jobId' = jobId ∧ stepId' = stepId then none else q.placement jobId' stepId' := by
        unfold placement
        dsimp only
        rw [Table.lookup_insert]
        by_cases job : jobId' = jobId
        · rw [if_pos job, Option.bind_some, Table.lookup_erase]
          by_cases step : stepId' = stepId
          · rw [if_pos step, if_pos ⟨job, step⟩]
          · rw [if_neg step, if_neg (fun both => step both.2), job, known, Option.bind_some]
        · rw [if_neg job, if_neg (fun both => job both.1)]
      dsimp only
      cases p.since with
      | none => exact erased
      | some since =>
        dsimp only
        split
        · unfold observeCost
          dsimp only
          split <;> exact erased
        · exact erased

theorem books_released {F : JobId → String} {q : FairQueue} (books : Books F q) (jobId : JobId)
    (at' : Instant) (steps : List StepId) :
    Books F (steps.foldl (fun q stepId => q.release jobId stepId at') q) ∧
      ∀ stepId, (steps.foldl (fun q stepId => q.release jobId stepId at') q).placement jobId stepId
        = if stepId ∈ steps then none else q.placement jobId stepId := by
  induction steps generalizing q with
  | nil => exact ⟨books, fun stepId => by rw [if_neg List.not_mem_nil]; rfl⟩
  | cons first steps ih =>
    obtain ⟨kept, placed⟩ := ih (books_unplace books jobId first at' false)
    refine ⟨kept, fun stepId => (placed stepId).trans ?_⟩
    rw [placement_unplace]
    by_cases later : stepId ∈ steps
    · rw [if_pos later, if_pos (List.mem_cons_of_mem _ later)]
    · rw [if_neg later]
      by_cases same : stepId = first
      · rw [if_pos ⟨rfl, same⟩, if_pos (List.mem_cons.mpr (.inl same))]
      · rw [if_neg (fun both => same both.2),
          if_neg (fun member => (List.mem_cons.mp member).elim same later)]

theorem books_drop {F : JobId → String} {q : FairQueue} (books : Books F q) {jobId : JobId}
    (idle : ∀ stepId, q.placement jobId stepId = none) :
    Books F { q with jobs := q.jobs.erase jobId } := by
  refine ⟨fun jobId' m' found => ?_, books.filed, fun T jobId' stepId => ?_⟩
  · rw [Table.lookup_erase] at found
    split at found
    · cases found
    · exact books.owned jobId' m' found
  · refine (books.even T jobId' stepId).trans ?_
    by_cases same : jobId' = jobId
    · rw [clock_owned books, same, idle]
      unfold clock
      rw [Table.lookup_erase, if_pos rfl]
      split <;> rfl
    · unfold clock
      rw [Table.lookup_erase, if_neg same]

theorem books_forgetJob {F : JobId → String} {q : FairQueue} (books : Books F q) (jobId : JobId)
    (at' : Instant) : Books F (q.forgetJob jobId at') := by
  unfold forgetJob
  cases known : q.jobs.lookup jobId with
  | none => exact books
  | some m =>
    obtain ⟨kept, placed⟩ := books_released books jobId at' m.steps.keys
    refine books_drop kept fun stepId => ?_
    rw [placed]
    split
    · rfl
    · rename_i absent
      unfold placement
      rw [known, Option.bind_some]
      exact AList.lookup_eq_none.mpr absent

theorem books_reconcile {F : JobId → String} {q : FairQueue} (books : Books F q) (view : JobView)
    (own : view.tenant = F view.jobId) (now : Instant) : Books F (q.reconcile view now) := by
  unfold reconcile
  exact run_invariant (I := Books F) (fun q' step kept => books_reconcileStep kept view.jobId now step)
    (books_admitJob books own view.priority) view.steps

/-! ### One turn of a selection -/

theorem books_pruneLedgers {F : JobId → String} {q : FairQueue} (books : Books F q)
    (now : Instant) : Books F (q.pruneLedgers now) :=
  books_mapValues books _ (fun _ => rfl) fun _ _ member => member

theorem books_dropStaleHeads {F : JobId → String} {q : FairQueue} (books : Books F q) :
    Books F q.dropStaleHeads :=
  books_mapValues books _ (fun _ => rfl) fun _ _ member => mem_append_dropWhile member

/-- The placements after a grant: the granted step's clock starts. -/
theorem placement_granted (q : FairQueue) (now : Instant) (T : String) (t : Tenant) (start vft : ℚ)
    (w : Waiting) (jobId : JobId) (stepId : StepId) :
    (q.granted now T t start vft w).placement jobId stepId =
      if jobId = w.jobId ∧ stepId = w.stepId then
        (q.placement jobId stepId).map fun p =>
          { p with since := some now, charged := some ((vft - start) * q.cfg.weight T) }
      else q.placement jobId stepId := by
  unfold placement granted charge
  dsimp only
  rw [Table.lookup_modify]
  by_cases job : jobId = w.jobId
  · rw [if_pos job, job]
    cases q.jobs.lookup w.jobId with
    | none => split <;> rfl
    | some m =>
      rw [Option.map_some, Option.bind_some, Option.bind_some, Table.lookup_modify]
      by_cases step : stepId = w.stepId
      · rw [if_pos step, if_pos ⟨rfl, step⟩, step]
      · rw [if_neg step, if_neg (fun both => step both.2)]
  · rw [if_neg job, if_neg (fun both => job both.1)]

/-- The slots after a grant: the granted step takes one of its tenant's. -/
theorem running_granted (q : FairQueue) (now : Instant) (T : String) (t : Tenant) (start vft : ℚ)
    (w : Waiting) (U : String) :
    ((q.granted now T t start vft w).tenantAt U).running =
      if U = T then t.running.insert (w.jobId, w.stepId) now else (q.tenantAt U).running := by
  unfold granted charge tenantAt
  dsimp only
  rw [Table.lookup_modify]
  by_cases same : U = T
  · rw [if_pos same, if_pos same, Table.lookup_insert, if_pos rfl]
    show t.pop.running.insert (w.jobId, w.stepId) now = _
    unfold Tenant.pop
    split <;> rfl
  · rw [if_neg same, if_neg same, Table.lookup_insert, if_neg same]

/-- A head of a tenant's queue that waits belongs to a job of that tenant. -/
theorem job_of_head {F : JobId → String} {q : FairQueue} (books : Books F q) {T : String}
    {t : Tenant} {w : Waiting} (known : q.tenants.lookup T = some t) (head : t.head = some w) :
    F w.jobId = T := by
  refine books.filed T w ?_
  unfold queued tenantAt
  rw [known]
  exact head_mem head

theorem books_granted {F : JobId → String} {q : FairQueue} (books : Books F q) {T : String}
    {t : Tenant} {w : Waiting} (known : q.tenants.lookup T = some t) (head : t.head = some w)
    (waits : q.isWaiting w.jobId w.stepId = true) (now : Instant) (start vft : ℚ) :
    Books F (q.granted now T t start vft w) := by
  have own : ∀ jobId m, (q.granted now T t start vft w).jobs.lookup jobId = some m →
      m.tenant = F jobId := by
    intro jobId m found
    unfold granted charge at found
    dsimp only at found
    rw [Table.lookup_modify] at found
    split at found
    · rename_i same
      obtain ⟨m', found', rfl⟩ := Option.map_eq_some_iff.mp found
      rw [same]
      exact books.owned w.jobId m' found'
    · exact books.owned jobId m found
  refine ⟨own, fun U v member => ?_, fun U jobId stepId => ?_⟩
  · refine books.filed U v ?_
    unfold queued tenantAt granted charge at member
    dsimp only at member
    rw [Table.lookup_modify] at member
    unfold queued tenantAt
    by_cases same : U = T
    · rw [if_pos same, Table.lookup_insert, if_pos rfl] at member
      rw [same, known]
      exact pop_subset member
    · rw [if_neg same, Table.lookup_insert, if_neg same] at member
      exact member
  · have clocks : (q.granted now T t start vft w).clock U jobId stepId =
        if F jobId = U then ((q.granted now T t start vft w).placement jobId stepId).bind (·.since)
        else none := by
      unfold clock placement
      cases found : (q.granted now T t start vft w).jobs.lookup jobId with
      | none => simp
      | some m => simp [own jobId m found]
    have even := books.even U jobId stepId
    have mine := job_of_head books known head
    rw [clock_owned books] at even
    rw [clocks, placement_granted]
    unfold slot at even ⊢
    rw [running_granted]
    by_cases same : U = T
    · have holds : q.tenantAt T = t := by
        unfold tenantAt
        rw [known, Option.getD_some]
      rw [same, holds] at even
      rw [if_pos same, Table.lookup_insert]
      by_cases step : jobId = w.jobId ∧ stepId = w.stepId
      · have pair : (jobId, stepId) = (w.jobId, w.stepId) := by rw [step.1, step.2]
        rw [if_pos pair, if_pos step, step.1, step.2, mine, if_pos same.symm]
        unfold isWaiting at waits
        cases placed : q.placement w.jobId w.stepId with
        | none => rw [placed] at waits; cases waits
        | some p => rfl
      · rw [if_neg step, if_neg (fun pair => step (Prod.mk.inj pair)), even, same]
    · rw [if_neg same, even]
      by_cases step : jobId = w.jobId ∧ stepId = w.stepId
      · have other : F jobId ≠ U := by
          rw [step.1, mine]
          exact fun again => same again.symm
        rw [if_neg other, if_neg other]
      · rw [if_neg step]

/-- What one turn does: the books stand, and a granted step waited and now does not. -/
structure Granted (F : JobId → String) (q : FairQueue) (r : FairQueue × Option Grant) : Prop where
  books : Books F r.1
  waited : ∀ g ∈ r.2, q.isWaiting g.jobId g.stepId = true ∧ F g.jobId = g.tenant
  waits : ∀ jobId stepId, r.1.isWaiting jobId stepId = true →
    q.isWaiting jobId stepId = true ∧ ∀ g ∈ r.2, (jobId, stepId) ≠ (g.jobId, g.stepId)

theorem granted_turn {F : JobId → String} {q : FairQueue} (books : Books F q) {now : Instant}
    {r : FairQueue × Option Grant} (turn : Turn q now r) : Granted F q r := by
  have tidy := books_dropStaleHeads books
  cases turn with
  | rest => exact ⟨tidy, fun g none => (by cases none), fun _ _ waits =>
      ⟨waits, fun g none => (by cases none)⟩⟩
  | @grant T t w start vft known head bids least =>
    have waits : q.isWaiting w.jobId w.stepId = true := head_isWaiting known head
    refine ⟨books_granted tidy known head waits now start vft, fun g same => ?_,
      fun jobId stepId still => ?_⟩
    · obtain rfl := Option.some.inj same
      exact ⟨waits, job_of_head tidy known head⟩
    · have after : (q.dropStaleHeads.granted now T t start vft w).isWaiting jobId stepId = true :=
        still
      unfold isWaiting at after
      rw [placement_granted] at after
      split at after
      · -- The granted step's clock has started.
        cases placed : q.dropStaleHeads.placement jobId stepId with
        | none => rw [placed] at after; cases after
        | some p => rw [placed] at after; cases after
      · rename_i other
        refine ⟨after, fun g same pair => other ?_⟩
        obtain rfl := Option.some.inj same
        exact Prod.mk.inj pair

/-- The step a grant is for. -/
def Grant.key (g : Grant) : JobId × StepId := (g.jobId, g.stepId)

/-- **A call grants steps that wait, each once, and keeps the books.** -/
theorem selectLoop_grants {F : JobId → String} (now : Instant) (budget : ℕ) {q : FairQueue}
    (books : Books F q) :
    Books F (selectLoop now budget q).1 ∧
      (∀ g ∈ (selectLoop now budget q).2,
        q.isWaiting g.jobId g.stepId = true ∧ F g.jobId = g.tenant) ∧
      ((selectLoop now budget q).2.map Grant.key).Nodup := by
  induction budget generalizing q with
  | zero => exact ⟨books, fun g member => (by cases member), List.nodup_nil⟩
  | succ budget ih =>
    have turned := granted_turn books (turn_selectOne q now)
    unfold selectLoop
    revert turned
    cases q.selectOne now with
    | mk q' grant =>
      intro turned
      cases grant with
      | none => exact ⟨turned.books, fun g member => (by cases member), List.nodup_nil⟩
      | some first =>
        obtain ⟨kept, waited, once⟩ := ih turned.books
        refine ⟨kept, fun g member => ?_, List.nodup_cons.mpr ⟨fun again => ?_, once⟩⟩
        · rcases List.mem_cons.mp member with rfl | later
          · exact turned.waited g rfl
          · obtain ⟨waits, own⟩ := waited g later
            exact ⟨(turned.waits g.jobId g.stepId waits).1, own⟩
        · obtain ⟨g, later, same⟩ := List.mem_map.mp again
          exact (turned.waits g.jobId g.stepId (waited g later).1).2 first rfl same

theorem select_grants {F : JobId → String} {q : FairQueue} (books : Books F q) (now : Instant) :
    Books F (q.select now).1 ∧
      (∀ g ∈ (q.select now).2, q.isWaiting g.jobId g.stepId = true ∧ F g.jobId = g.tenant) ∧
      ((q.select now).2.map Grant.key).Nodup :=
  selectLoop_grants now _ (books_pruneLedgers books now)

/-! ### Every run -/

/-- A call that admits a job names the tenant the job belongs to. -/
def NamesOwner (F : JobId → String) : FairOp → Prop
  | .admitJob jobId tenant _ => tenant = F jobId
  | .reconcile view _ => view.tenant = F view.jobId
  | _ => True

/-- **Every call keeps the books.** -/
theorem books_apply {F : JobId → String} {q : FairQueue} (books : Books F q) {op : FairOp}
    (own : NamesOwner F op) : Books F (q.apply op) := by
  cases op with
  | admitJob jobId tenant priority => exact books_admitJob books own priority
  | enqueue jobId stepId stepName => exact books_enqueue books jobId stepId stepName
  | release jobId stepId at' => exact books_unplace books jobId stepId at' false
  | finish jobId stepId at' => exact books_unplace books jobId stepId at' true
  | requeue jobId stepId stepName at' =>
    exact books_enqueue (books_unplace books jobId stepId at' false) jobId stepId stepName
  | forgetJob jobId at' => exact books_forgetJob books jobId at'
  | reconcile view now => exact books_reconcile books view own now
  | select now => exact (select_grants books now).1

theorem books_run {F : JobId → String} (cfg : FairShare) {ops : List FairOp}
    (own : ∀ op ∈ ops, NamesOwner F op) : Books F (run apply (FairQueue.new cfg) ops) := by
  suffices from' : ∀ q, Books F q → Books F (run apply q ops) from
    from' _ (books_fresh F cfg ∅ ∅)
  induction ops with
  | nil => exact fun q books => books
  | cons op ops ih =>
    intro q books
    exact ih (fun op member => own op (List.mem_cons_of_mem _ member)) (q.apply op)
      (books_apply books (own op List.mem_cons_self))

theorem slot_isSome (q : FairQueue) (T : String) (jobId : JobId) (stepId : StepId) :
    (q.slot T jobId stepId).isSome ↔
      ∃ t, q.tenants.lookup T = some t ∧ (t.running.lookup (jobId, stepId)).isSome := by
  unfold slot tenantAt
  cases q.tenants.lookup T with
  | none => simp
  | some t => simp

theorem clock_isSome (q : FairQueue) (T : String) (jobId : JobId) (stepId : StepId) :
    (q.clock T jobId stepId).isSome ↔ ∃ m p, q.jobs.lookup jobId = some m ∧ m.tenant = T ∧
      m.steps.lookup stepId = some p ∧ p.since.isSome := by
  unfold clock
  cases q.jobs.lookup jobId with
  | none => simp
  | some m =>
    rw [Option.bind_some]
    by_cases own : m.tenant = T
    · rw [if_pos own]
      cases placed : m.steps.lookup stepId with
      | none => simp [placed]
      | some p => simp [own, placed]
    · simp [own]

end FairQueue

end HullCi.Control
