/-
**The scheduler's places: a step that waits is in a queue, and is granted or waits on.**

A step has at most one placement. Each call moves the placement of one step, of one job, or of the
steps it grants.

* `Lined` — every step that waits has an entry in a tenant's queue; every call keeps it so.
* `reconcile_places` — after `reconcile` every step seen as ready waits.
* `select_places` — a selection grants a step that waits, or leaves it waiting.
-/

import HullCi.Control.FairBooks

namespace HullCi.Control

open HullCi.Proto HullCi.Base

namespace FairQueue

/-! ### Places -/

/-- The scheduler accounts for the job. -/
def knows (q : FairQueue) (jobId : JobId) : Bool :=
  (q.jobs.lookup jobId).isSome

/-- The step has an entry in a tenant's queue. -/
def Listed (q : FairQueue) (jobId : JobId) (stepId : StepId) : Prop :=
  ∃ T, ∃ w ∈ q.queued T, w.jobId = jobId ∧ w.stepId = stepId

/-- Every step that waits has an entry in a queue. -/
def Lined (q : FairQueue) : Prop :=
  ∀ jobId stepId, q.isWaiting jobId stepId = true → q.Listed jobId stepId

theorem isWaiting_eq {q q' : FairQueue} {jobId : JobId} {stepId : StepId}
    (same : q'.placement jobId stepId = q.placement jobId stepId) :
    q'.isWaiting jobId stepId = q.isWaiting jobId stepId := by
  unfold isWaiting
  rw [same]

theorem isWaiting_of_placement {q : FairQueue} {jobId : JobId} {stepId : StepId} {p : Placement}
    (placed : q.placement jobId stepId = some p) : q.isWaiting jobId stepId = p.since.isNone := by
  unfold isWaiting
  rw [placed]
  rfl

theorem unwaiting_of_placement {q : FairQueue} {jobId : JobId} {stepId : StepId}
    (none : q.placement jobId stepId = none) : q.isWaiting jobId stepId = false := by
  unfold isWaiting
  rw [none]
  rfl

/-- A call that moves the placement of one step at most, and drops no entry of a queue. -/
structure Moves (q q' : FairQueue) (jobId : JobId) (stepId : StepId) : Prop where
  others : ∀ j i, ¬ (j = jobId ∧ i = stepId) → q'.placement j i = q.placement j i
  knows : ∀ j, q'.knows j = q.knows j
  queued : ∀ T, ∀ w ∈ q.queued T, w ∈ q'.queued T

section Moved

variable {q q' q'' : FairQueue} {jobId : JobId} {stepId : StepId}

theorem Moves.refl (q : FairQueue) (jobId : JobId) (stepId : StepId) : Moves q q jobId stepId :=
  ⟨fun _ _ _ => rfl, fun _ => rfl, fun _ _ member => member⟩

theorem Moves.trans (first : Moves q q' jobId stepId) (second : Moves q' q'' jobId stepId) :
    Moves q q'' jobId stepId where
  others j i other := (second.others j i other).trans (first.others j i other)
  knows j := (second.knows j).trans (first.knows j)
  queued T w member := second.queued T w (first.queued T w member)

theorem Moves.listed (moves : Moves q q' jobId stepId) {j : JobId} {i : StepId}
    (listed : q.Listed j i) : q'.Listed j i := by
  obtain ⟨T, w, member, own⟩ := listed
  exact ⟨T, w, moves.queued T w member, own⟩

/-- What waits is still listed when the step that was moved is. -/
theorem Moves.lined (moves : Moves q q' jobId stepId) (lined : q.Lined)
    (own : q'.isWaiting jobId stepId = true → q'.Listed jobId stepId) : q'.Lined := by
  intro j i waits
  by_cases here : j = jobId ∧ i = stepId
  · obtain ⟨rfl, rfl⟩ := here
    exact own waits
  · rw [isWaiting_eq (moves.others j i here)] at waits
    exact moves.listed (lined j i waits)

end Moved

/-! ### What each call does to the places -/

theorem placement_insert (q : FairQueue) {jobId : JobId} {m : JobMeta}
    (known : q.jobs.lookup jobId = some m) (stepId : StepId) (p : Placement)
    (tenants : Table String Tenant) (j : JobId) (i : StepId) :
    FairQueue.placement { q with
        jobs := q.jobs.insert jobId { m with steps := m.steps.insert stepId p }
        tenants := tenants } j i =
      if j = jobId ∧ i = stepId then some p else q.placement j i := by
  unfold placement
  dsimp only
  rw [Table.lookup_insert]
  by_cases job : j = jobId
  · rw [if_pos job, Option.bind_some, Table.lookup_insert]
    by_cases step : i = stepId
    · rw [if_pos step, if_pos ⟨job, step⟩]
    · rw [if_neg step, if_neg (fun both => step both.2), job, known, Option.bind_some]
  · rw [if_neg job, if_neg (fun both => job both.1)]

theorem knows_insert (q : FairQueue) {jobId : JobId} {m : JobMeta}
    (known : q.jobs.lookup jobId = some m) (m' : JobMeta) (tenants : Table String Tenant)
    (j : JobId) :
    FairQueue.knows { q with jobs := q.jobs.insert jobId m', tenants := tenants } j = q.knows j := by
  unfold knows
  dsimp only
  rw [Table.lookup_insert]
  by_cases job : j = jobId
  · rw [if_pos job, job, known]
    rfl
  · rw [if_neg job]

theorem mem_push {t : Tenant} {v w : Waiting} {priority : Priority} :
    v ∈ (t.push w priority).interactive ++ (t.push w priority).background ↔
      v ∈ t.interactive ++ t.background ∨ v = w := by
  cases priority <;> simp only [Tenant.push, List.mem_append, List.mem_singleton] <;> tauto

theorem mem_queued_push (q : FairQueue) (jobs : Table JobId JobMeta) (U : String) (w : Waiting)
    (priority : Priority) {T : String} {v : Waiting} :
    v ∈ FairQueue.queued { q with
        jobs := jobs
        tenants := (q.tenants.insertNew U {}).modify U (·.push w priority) } T ↔
      v ∈ q.queued T ∨ T = U ∧ v = w := by
  unfold queued tenantAt
  dsimp only
  rw [tenantAt_opened]
  by_cases same : T = U
  · rw [if_pos same, mem_push]
    simp [same]
  · rw [if_neg same]
    simp [same]

/-- What `enqueue` does: nothing, or the step waits, with an entry of its own. -/
theorem enqueue_cases (q : FairQueue) (jobId : JobId) (stepId : StepId) (stepName : String) :
    (q.enqueue jobId stepId stepName = q ∧
        (q.knows jobId = false ∨ (q.placement jobId stepId).isSome = true)) ∨
      Moves q (q.enqueue jobId stepId stepName) jobId stepId ∧
        (q.enqueue jobId stepId stepName).isWaiting jobId stepId = true ∧
        (q.enqueue jobId stepId stepName).Listed jobId stepId := by
  unfold enqueue
  cases found : q.jobs.lookup jobId with
  | none =>
    refine .inl ⟨rfl, .inl ?_⟩
    unfold knows
    rw [found]
    rfl
  | some m =>
    dsimp only
    cases placed : m.steps.lookup stepId with
    | some p =>
      rw [if_pos (by rfl)]
      refine .inl ⟨rfl, .inr ?_⟩
      unfold placement
      rw [found, Option.bind_some, placed]
      rfl
    | none =>
      rw [if_neg (by simp)]
      have places := placement_insert q found stepId ⟨stepName, none, none⟩
        ((q.tenants.insertNew m.tenant {}).modify m.tenant
          (·.push ⟨jobId, stepId, q.estimate m.tenant stepName⟩ m.priority))
      refine .inr ⟨⟨fun j i other => ?_, fun j => knows_insert q found _ _ j, fun T w member => ?_⟩,
        ?_, ?_⟩
      · rw [places, if_neg other]
      · exact (mem_queued_push q _ _ _ _).mpr (.inl member)
      · have here := (places jobId stepId).trans (if_pos ⟨rfl, rfl⟩)
        rw [isWaiting_of_placement here]
        rfl
      · exact ⟨m.tenant, _, (mem_queued_push q _ _ _ _).mpr (.inr ⟨rfl, rfl⟩), rfl, rfl⟩

theorem moves_enqueue (q : FairQueue) (jobId : JobId) (stepId : StepId) (stepName : String) :
    Moves q (q.enqueue jobId stepId stepName) jobId stepId := by
  rcases enqueue_cases q jobId stepId stepName with ⟨same, -⟩ | ⟨moves, -⟩
  · rw [same]
    exact .refl q jobId stepId
  · exact moves

theorem lined_enqueue {q : FairQueue} (lined : q.Lined) (jobId : JobId) (stepId : StepId)
    (stepName : String) : (q.enqueue jobId stepId stepName).Lined := by
  rcases enqueue_cases q jobId stepId stepName with ⟨same, -⟩ | ⟨moves, -, listed⟩
  · rw [same]
    exact lined
  · exact moves.lined lined fun _ => listed

/-- A step of a known job that is not accounted for waits once it is enqueued. -/
theorem waits_enqueue {q : FairQueue} {jobId : JobId} {stepId : StepId}
    (known : q.knows jobId = true) (none : q.placement jobId stepId = none) (stepName : String) :
    (q.enqueue jobId stepId stepName).isWaiting jobId stepId = true := by
  rcases enqueue_cases q jobId stepId stepName with ⟨-, unknown | placed⟩ | ⟨-, waits, -⟩
  · rw [known] at unknown
    cases unknown
  · rw [none] at placed
    cases placed
  · exact waits

theorem knows_observeCost (q : FairQueue) (tenant stepName : String) (ran : Duration) (j : JobId) :
    (q.observeCost tenant stepName ran).knows j = q.knows j := by
  unfold observeCost
  dsimp only
  split <;> rfl

theorem queued_observeCost (q : FairQueue) (tenant stepName : String) (ran : Duration)
    (T : String) : (q.observeCost tenant stepName ran).queued T = q.queued T := by
  unfold observeCost
  dsimp only
  split <;> rfl

theorem moves_unplace (q : FairQueue) (jobId : JobId) (stepId : StepId) (at' : Instant)
    (learn : Bool) : Moves q (q.unplace jobId stepId at' learn) jobId stepId := by
  have others := placement_unplace q jobId stepId at' learn
  refine ⟨fun j i other => (others j i).trans (if_neg other), fun j => ?_, fun T w member => ?_⟩
  · unfold unplace
    cases found : q.jobs.lookup jobId with
    | none => rfl
    | some m =>
      dsimp only
      cases m.steps.lookup stepId with
      | none => rfl
      | some p =>
        dsimp only
        cases p.since with
        | none => exact knows_insert q found _ q.tenants j
        | some since =>
          dsimp only
          split
          · rw [knows_observeCost]
            exact knows_insert q found _ _ j
          · exact knows_insert q found _ _ j
  · unfold unplace
    cases q.jobs.lookup jobId with
    | none => exact member
    | some m =>
      dsimp only
      cases m.steps.lookup stepId with
      | none => exact member
      | some p =>
        dsimp only
        cases p.since with
        | none => exact member
        | some since =>
          dsimp only
          have settled := queued_settled q m.tenant jobId stepId at' (at' - since) p.charged
            (q.cfg.weight m.tenant) T
          split
          · rw [queued_observeCost]
            exact settled ▸ member
          · exact settled ▸ member

theorem placement_released (q : FairQueue) (jobId : JobId) (stepId : StepId) (at' : Instant)
    (learn : Bool) : (q.unplace jobId stepId at' learn).placement jobId stepId = none := by
  rw [placement_unplace, if_pos ⟨rfl, rfl⟩]

theorem lined_unplace {q : FairQueue} (lined : q.Lined) (jobId : JobId) (stepId : StepId)
    (at' : Instant) (learn : Bool) : (q.unplace jobId stepId at' learn).Lined := by
  refine (moves_unplace q jobId stepId at' learn).lined lined fun waits => ?_
  rw [unwaiting_of_placement (placement_released q jobId stepId at' learn)] at waits
  cases waits

/-- A step of a known job waits once it is requeued, whatever it did before. -/
theorem waits_requeue {q : FairQueue} {jobId : JobId} (known : q.knows jobId = true)
    (stepId : StepId) (stepName : String) (at' : Instant) :
    (q.requeue jobId stepId stepName at').isWaiting jobId stepId = true :=
  waits_enqueue (((moves_unplace q jobId stepId at' false).knows jobId).trans known)
    (placement_released q jobId stepId at' false) stepName

theorem moves_requeue (q : FairQueue) (jobId : JobId) (stepId : StepId) (stepName : String)
    (at' : Instant) : Moves q (q.requeue jobId stepId stepName at') jobId stepId :=
  (moves_unplace q jobId stepId at' false).trans (moves_enqueue _ jobId stepId stepName)

theorem lined_requeue {q : FairQueue} (lined : q.Lined) (jobId : JobId) (stepId : StepId)
    (stepName : String) (at' : Instant) : (q.requeue jobId stepId stepName at').Lined :=
  lined_enqueue (lined_unplace lined jobId stepId at' false) jobId stepId stepName

/-- What `adopt` does: nothing, or the step runs. -/
theorem adopt_cases (q : FairQueue) (jobId : JobId) (stepId : StepId) (name : String)
    (since : Instant) :
    Moves q (q.adopt jobId stepId name since) jobId stepId ∧
      (q.placement jobId stepId = none →
        (q.adopt jobId stepId name since).isWaiting jobId stepId = false) := by
  unfold adopt
  cases found : q.jobs.lookup jobId with
  | none => exact ⟨.refl q jobId stepId, unwaiting_of_placement⟩
  | some m =>
    dsimp only
    have places := placement_insert q found stepId ⟨name, some since, none⟩
      ((q.tenants.insertNew m.tenant {}).modify m.tenant fun t =>
        { t with running := t.running.insert (jobId, stepId) since })
    refine ⟨⟨fun j i other => (places j i).trans (if_neg other),
      fun j => knows_insert q found _ _ j, fun T w member => ?_⟩, fun _ => ?_⟩
    · unfold queued tenantAt at member ⊢
      dsimp only
      rw [tenantAt_opened]
      split <;> exact member
    · rw [isWaiting_of_placement ((places jobId stepId).trans (if_pos ⟨rfl, rfl⟩))]
      rfl

/-! ### Reconciling -/

/-- What one observed step makes `reconcile` do. -/
structure Reconciled (q q' : FairQueue) (jobId : JobId) (step : StepView) : Prop where
  moves : Moves q q' jobId step.stepId
  lined : q.Lined → q'.Lined
  ready : step.state = .ready → q.knows jobId = true → q'.isWaiting jobId step.stepId = true
  waits : q'.isWaiting jobId step.stepId = true →
    q.isWaiting jobId step.stepId = true ∨ step.state = .ready

theorem reconciled_unplace (q : FairQueue) (jobId : JobId) (step : StepView) (at' : Instant)
    (learn : Bool) (other : step.state ≠ .ready) :
    Reconciled q (q.unplace jobId step.stepId at' learn) jobId step where
  moves := moves_unplace q jobId step.stepId at' learn
  lined lined := lined_unplace lined jobId step.stepId at' learn
  ready same := absurd same other
  waits waits := by
    rw [unwaiting_of_placement (placement_released q jobId step.stepId at' learn)] at waits
    cases waits

theorem reconciled_adopt (q : FairQueue) (jobId : JobId) (step : StepView) (at' since : Instant)
    (other : step.state ≠ .ready) :
    Reconciled q ((q.release jobId step.stepId at').adopt jobId step.stepId step.name since) jobId
      step := by
  obtain ⟨moves, idle⟩ := adopt_cases (q.release jobId step.stepId at') jobId step.stepId step.name
    since
  have idle := idle (placement_released q jobId step.stepId at' false)
  have lines : q.Lined →
      ((q.release jobId step.stepId at').adopt jobId step.stepId step.name since).Lined := by
    intro lined
    refine moves.lined (lined_unplace lined jobId step.stepId at' false) fun waits => ?_
    rw [idle] at waits
    cases waits
  refine ⟨(moves_unplace q jobId step.stepId at' false).trans moves, lines,
    fun same => absurd same other, fun waits => ?_⟩
  rw [idle] at waits
  cases waits

theorem reconciled_still (q : FairQueue) (jobId : JobId) (step : StepView)
    (ready : step.state = .ready → q.isWaiting jobId step.stepId = true) :
    Reconciled q q jobId step :=
  ⟨.refl q jobId step.stepId, id, fun same _ => ready same, .inl⟩

theorem held_cases (q : FairQueue) (jobId : JobId) (stepId : StepId) :
    (q.held jobId stepId = none ∧ q.placement jobId stepId = none) ∨
      (q.held jobId stepId = some true) ∨
      (q.held jobId stepId = some false ∧ q.isWaiting jobId stepId = true) := by
  unfold held isWaiting
  cases q.placement jobId stepId with
  | none => exact .inl ⟨rfl, rfl⟩
  | some p =>
    cases since : p.since with
    | some since => exact .inr (.inl (by simp [since]))
    | none => exact .inr (.inr (by simp [since]))

theorem reconciled_step (q : FairQueue) (jobId : JobId) (now : Instant) (step : StepView) :
    Reconciled q (reconcileStep jobId now q step) jobId step := by
  unfold reconcileStep
  have held := held_cases q jobId step.stepId
  split
  · rename_i state unheld
    have none : q.placement jobId step.stepId = none := by
      rcases held with ⟨-, none⟩ | running | ⟨waiting, -⟩
      · exact none
      · rw [unheld] at running
        cases running
      · rw [unheld] at waiting
        cases waiting
    exact ⟨moves_enqueue q jobId step.stepId step.name,
      fun lined => lined_enqueue lined jobId step.stepId step.name,
      fun _ known => waits_enqueue known none step.name, fun _ => .inr state⟩
  · rename_i state running
    exact ⟨moves_requeue q jobId step.stepId step.name now,
      fun lined => lined_requeue lined jobId step.stepId step.name now,
      fun _ known => waits_requeue known step.stepId step.name now, fun _ => .inr state⟩
  · exact reconciled_still q jobId step fun same => by simp_all
  · exact reconciled_still q jobId step fun same => by simp_all
  · exact reconciled_adopt q jobId step _ _ (by simp_all)
  · exact reconciled_adopt q jobId step _ _ (by simp_all)
  · exact reconciled_unplace q jobId step _ _ (by simp_all)
  · exact reconciled_unplace q jobId step _ _ (by simp_all)
  · exact reconciled_unplace q jobId step _ _ (by simp_all)
  · exact reconciled_unplace q jobId step _ _ (by simp_all)
  · exact reconciled_unplace q jobId step _ _ (by simp_all)
  · refine reconciled_still q jobId step fun same => ?_
    rcases held with ⟨unheld, -⟩ | running | ⟨-, waits⟩
    · simp_all
    · simp_all
    · exact waits

/-- What every observed step keeps, and what it brings about for the step it is about. -/
structure ReconciledAll (q q' : FairQueue) (jobId : JobId) (steps : List StepView) : Prop where
  others : ∀ j i, j ≠ jobId → q'.placement j i = q.placement j i
  knows : ∀ j, q'.knows j = q.knows j
  lined : q.Lined → q'.Lined
  waits : ∀ i, q'.isWaiting jobId i = true →
    q.isWaiting jobId i = true ∨ ∃ step ∈ steps, step.stepId = i ∧ step.state = .ready
  ready : q.knows jobId = true → ∀ i, (∀ step ∈ steps, step.stepId = i → step.state = .ready) →
    (q.isWaiting jobId i = true ∨ ∃ step ∈ steps, step.stepId = i) → q'.isWaiting jobId i = true

theorem reconciled_all (jobId : JobId) (now : Instant) (steps : List StepView) (q : FairQueue) :
    ReconciledAll q (steps.foldl (reconcileStep jobId now) q) jobId steps := by
  induction steps generalizing q with
  | nil =>
    exact ⟨fun _ _ _ => rfl, fun _ => rfl, id, fun _ waits => .inl waits, fun _ i _ either => by
      rcases either with waits | ⟨step, member, -⟩
      · exact waits
      · cases member⟩
  | cons first steps ih =>
    rw [List.foldl_cons]
    have one := reconciled_step q jobId now first
    have rest := ih (reconcileStep jobId now q first)
    refine ⟨fun j i other => ?_, fun j => (rest.knows j).trans (one.moves.knows j),
      fun lined => rest.lined (one.lined lined), fun i waits => ?_, fun known i all either => ?_⟩
    · exact (rest.others j i other).trans (one.moves.others j i fun both => other both.1)
    · rcases rest.waits i waits with before | ⟨step, member, own, state⟩
      · by_cases here : i = first.stepId
        · subst here
          exact (one.waits before).imp id fun state => ⟨first, List.mem_cons_self, rfl, state⟩
        · rw [isWaiting_eq (one.moves.others jobId i fun both => here both.2)] at before
          exact .inl before
      · exact .inr ⟨step, List.mem_cons_of_mem _ member, own, state⟩
    · refine rest.ready ((one.moves.knows jobId).trans known) i
        (fun step member => all step (List.mem_cons_of_mem _ member)) ?_
      by_cases here : i = first.stepId
      · subst here
        exact .inl (one.ready (all first List.mem_cons_self rfl) known)
      · rcases either with waits | ⟨step, member, own⟩
        · rw [isWaiting_eq (one.moves.others jobId i fun both => here both.2)]
          exact .inl waits
        · rcases List.mem_cons.mp member with rfl | later
          · exact absurd own.symm here
          · exact .inr ⟨step, later, own⟩

theorem placement_admitJob (q : FairQueue) (jobId : JobId) (tenant : String) (priority : Priority)
    (j : JobId) (i : StepId) : (q.admitJob jobId tenant priority).placement j i = q.placement j i := by
  unfold placement
  rw [lookup_admitJob]
  by_cases same : j = jobId
  · rw [if_pos same, same]
    cases q.jobs.lookup jobId <;> rfl
  · rw [if_neg same]

theorem knows_admitJob (q : FairQueue) (jobId : JobId) (tenant : String) (priority : Priority)
    (j : JobId) : (q.admitJob jobId tenant priority).knows j = (q.knows j || j = jobId) := by
  unfold knows
  rw [lookup_admitJob]
  by_cases same : j = jobId
  · simp [same]
  · simp [same]

theorem queued_admitJob (q : FairQueue) (jobId : JobId) (tenant : String) (priority : Priority)
    (T : String) : (q.admitJob jobId tenant priority).queued T = q.queued T := by
  unfold queued admitJob tenantAt
  dsimp only
  rw [tenantAt_insertNew]

theorem lined_admitJob {q : FairQueue} (lined : q.Lined) (jobId : JobId) (tenant : String)
    (priority : Priority) : (q.admitJob jobId tenant priority).Lined := by
  intro j i waits
  rw [isWaiting_eq (placement_admitJob q jobId tenant priority j i)] at waits
  obtain ⟨T, w, member, own⟩ := lined j i waits
  exact ⟨T, w, (queued_admitJob q jobId tenant priority T).symm ▸ member, own⟩

/-- **After `reconcile` every step seen as ready waits**, and nothing else has come to wait. -/
theorem reconcile_places (q : FairQueue) (view : JobView) (now : Instant) :
    (∀ j, (q.reconcile view now).knows j = (q.knows j || j = view.jobId)) ∧
      (∀ j i, j ≠ view.jobId → (q.reconcile view now).placement j i = q.placement j i) ∧
      (q.Lined → (q.reconcile view now).Lined) ∧
      (∀ i, (q.reconcile view now).isWaiting view.jobId i = true →
        q.isWaiting view.jobId i = true ∨
          ∃ step ∈ view.steps, step.stepId = i ∧ step.state = .ready) ∧
      ∀ i, (∀ step ∈ view.steps, step.stepId = i → step.state = .ready) →
        (∃ step ∈ view.steps, step.stepId = i) →
          (q.reconcile view now).isWaiting view.jobId i = true := by
  have all := reconciled_all view.jobId now view.steps
    (q.admitJob view.jobId view.tenant view.priority)
  have known : (q.admitJob view.jobId view.tenant view.priority).knows view.jobId = true := by
    rw [knows_admitJob]
    simp
  refine ⟨fun j => (all.knows j).trans (knows_admitJob q _ _ _ j), fun j i other => ?_,
    fun lined => all.lined (lined_admitJob lined _ _ _), fun i waits => ?_,
    fun i ready present => all.ready known i ready (.inr present)⟩
  · exact (all.others j i other).trans (placement_admitJob q _ _ _ j i)
  · have either := all.waits i waits
    rw [isWaiting_eq (placement_admitJob q _ _ _ _ i)] at either
    exact either

/-! ### Forgetting a job -/

/-- Forgetting a job leaves the places of every other job alone. -/
theorem forgetJob_places (q : FairQueue) (jobId : JobId) (at' : Instant) :
    (∀ j, j ≠ jobId → (q.forgetJob jobId at').knows j = q.knows j) ∧
      (∀ j i, j ≠ jobId → (q.forgetJob jobId at').placement j i = q.placement j i) ∧
      (∀ i, (q.forgetJob jobId at').isWaiting jobId i = true → q.isWaiting jobId i = true) ∧
      (q.Lined → (q.forgetJob jobId at').Lined) := by
  have released : ∀ (steps : List StepId) (q : FairQueue),
      (∀ j, (steps.foldl (fun q stepId => q.release jobId stepId at') q).knows j = q.knows j) ∧
      (∀ j i, j ≠ jobId →
        (steps.foldl (fun q stepId => q.release jobId stepId at') q).placement j i
          = q.placement j i) ∧
      (q.Lined → (steps.foldl (fun q stepId => q.release jobId stepId at') q).Lined) := by
    intro steps
    induction steps with
    | nil => exact fun q => ⟨fun _ => rfl, fun _ _ _ => rfl, id⟩
    | cons first steps ih =>
      intro q
      obtain ⟨known, placed, lined⟩ := ih (q.release jobId first at')
      have moves := moves_unplace q jobId first at' false
      exact ⟨fun j => (known j).trans (moves.knows j),
        fun j i other => (placed j i other).trans (moves.others j i fun both => other both.1),
        fun lines => lined (lined_unplace lines jobId first at' false)⟩
  unfold forgetJob
  cases found : q.jobs.lookup jobId with
  | none => exact ⟨fun _ _ => rfl, fun _ _ _ => rfl, fun _ waits => waits, id⟩
  | some m =>
    dsimp only
    obtain ⟨known, placed, lined⟩ := released m.steps.keys q
    set q' := m.steps.keys.foldl (fun q stepId => q.release jobId stepId at') q with named
    have erased : ∀ j i, FairQueue.placement { q' with jobs := q'.jobs.erase jobId } j i =
        if j = jobId then none else q'.placement j i := by
      intro j i
      unfold placement
      dsimp only
      rw [Table.lookup_erase]
      split <;> rfl
    refine ⟨fun j other => ?_, fun j i other => ?_, fun i waits => ?_, fun lines j i waits => ?_⟩
    · refine Eq.trans ?_ (known j)
      unfold knows
      dsimp only
      rw [Table.lookup_erase, if_neg other]
    · rw [erased, if_neg other]
      exact placed j i other
    · rw [unwaiting_of_placement ((erased jobId i).trans (if_pos rfl))] at waits
      cases waits
    · by_cases same : j = jobId
      · rw [unwaiting_of_placement ((erased j i).trans (if_pos same))] at waits
        cases waits
      · rw [isWaiting_eq ((erased j i).trans (if_neg same))] at waits
        exact lined lines j i waits

/-! ### Selecting -/

/-- What a selection does to the places: a granted step waited, and what waited is granted or
waits on. -/
structure Selected (q q' : FairQueue) (grants : List Grant) : Prop where
  knows : ∀ j, q'.knows j = q.knows j
  lined : q.Lined → q'.Lined
  waited : ∀ j i, q'.isWaiting j i = true → q.isWaiting j i = true
  granted : ∀ g ∈ grants, q.isWaiting g.jobId g.stepId = true
  kept : ∀ j i, q.isWaiting j i = true →
    q'.isWaiting j i = true ∨ ∃ g ∈ grants, g.jobId = j ∧ g.stepId = i

theorem mem_dropWhile_of_not {p : Waiting → Bool} {l : List Waiting} {w : Waiting} (member : w ∈ l)
    (stays : p w = false) : w ∈ l.dropWhile p := by
  rw [← List.takeWhile_append_dropWhile (p := p) (l := l)] at member
  rcases List.mem_append.mp member with taken | kept
  · rw [List.mem_takeWhile_imp taken] at stays
    cases stays
  · exact kept

/-- Dropping stale heads drops no entry of a step that waits. -/
theorem queued_dropStaleHeads {q : FairQueue} {T : String} {w : Waiting} (member : w ∈ q.queued T)
    (waits : q.isWaiting w.jobId w.stepId = true) : w ∈ q.dropStaleHeads.queued T := by
  unfold queued tenantAt at member ⊢
  unfold dropStaleHeads
  dsimp only
  rw [Table.lookup_mapValues]
  cases found : q.tenants.lookup T with
  | none =>
    rw [found] at member
    cases member
  | some t =>
    rw [found, Option.getD_some] at member
    have fresh : (!q.isWaiting w.jobId w.stepId) = false := by
      rw [waits]
      rfl
    rcases List.mem_append.mp member with left | right
    · exact List.mem_append_left _ (mem_dropWhile_of_not left fresh)
    · exact List.mem_append_right _ (mem_dropWhile_of_not right fresh)

theorem lined_dropStaleHeads {q : FairQueue} (lined : q.Lined) : q.dropStaleHeads.Lined := by
  intro j i waits
  obtain ⟨T, w, member, rfl, rfl⟩ := lined j i waits
  exact ⟨T, w, queued_dropStaleHeads member waits, rfl, rfl⟩

theorem mem_pop {t : Tenant} {v w : Waiting} (head : t.head = some w)
    (member : v ∈ t.interactive ++ t.background) :
    v = w ∨ v ∈ t.pop.interactive ++ t.pop.background := by
  have taken : ∀ {l : List Waiting}, l.head? = some w → v ∈ l → v = w ∨ v ∈ l.tail := by
    intro l first held
    cases l with
    | nil => cases held
    | cons u rest =>
      obtain rfl := Option.some.inj first
      exact List.mem_cons.mp held
  unfold Tenant.head at head
  unfold Tenant.pop
  cases known : t.headClass with
  | none => rw [known] at head; cases head
  | some priority =>
    rw [known] at head
    cases priority with
    | interactive =>
      rcases List.mem_append.mp member with left | right
      · exact (taken head left).imp id fun later => List.mem_append_left _ later
      · exact .inr (List.mem_append_right _ right)
    | background =>
      rcases List.mem_append.mp member with left | right
      · exact .inr (List.mem_append_left _ left)
      · exact (taken head right).imp id fun later => List.mem_append_right _ later

theorem queued_granted {q : FairQueue} {T : String} {t : Tenant} {w : Waiting}
    (known : q.tenants.lookup T = some t) (head : t.head = some w) (now : Instant)
    (start vft : ℚ) {U : String} {v : Waiting} (member : v ∈ q.queued U) :
    v = w ∨ v ∈ (q.granted now T t start vft w).queued U := by
  unfold queued tenantAt at member ⊢
  unfold granted charge
  dsimp only
  rw [Table.lookup_modify]
  by_cases same : U = T
  · rw [if_pos same, Table.lookup_insert, if_pos rfl]
    rw [same, known] at member
    exact mem_pop head member
  · rw [if_neg same, Table.lookup_insert, if_neg same]
    exact .inr member

theorem knows_granted (q : FairQueue) (now : Instant) (T : String) (t : Tenant) (start vft : ℚ)
    (w : Waiting) (j : JobId) : (q.granted now T t start vft w).knows j = q.knows j := by
  unfold knows granted charge
  dsimp only
  rw [Table.lookup_modify]
  by_cases same : j = w.jobId
  · rw [if_pos same, same, Option.isSome_map]
  · rw [if_neg same]

theorem selected_turn {q : FairQueue} {now : Instant} {r : FairQueue × Option Grant}
    (turn : Turn q now r) : Selected q r.1 r.2.toList := by
  cases turn with
  | rest =>
    exact ⟨fun _ => rfl, lined_dropStaleHeads, fun _ _ waits => waits,
      fun _ member => (by cases member), fun _ _ waits => .inl waits⟩
  | @grant T t w start vft found head bids least =>
    have held : q.isWaiting w.jobId w.stepId = true := head_isWaiting found head
    have placed := placement_granted q.dropStaleHeads now T t start vft w
    -- The granted step's clock has started.
    have runs : (q.dropStaleHeads.granted now T t start vft w).isWaiting w.jobId w.stepId = false := by
      unfold isWaiting
      rw [placed, if_pos ⟨rfl, rfl⟩]
      cases q.dropStaleHeads.placement w.jobId w.stepId <;> rfl
    have others : ∀ j i, ¬ (j = w.jobId ∧ i = w.stepId) →
        (q.dropStaleHeads.granted now T t start vft w).isWaiting j i = q.isWaiting j i :=
      fun j i other => isWaiting_eq ((placed j i).trans (if_neg other))
    refine ⟨knows_granted q.dropStaleHeads now T t start vft w, fun lined j i waits => ?_,
      fun j i waits => ?_, fun g member => ?_, fun j i waits => ?_⟩
    · by_cases own : j = w.jobId ∧ i = w.stepId
      · obtain ⟨rfl, rfl⟩ := own
        exact absurd (runs.symm.trans waits) Bool.false_ne_true
      · obtain ⟨U, v, member, rfl, rfl⟩ := lined_dropStaleHeads lined j i
          ((others j i own).symm.trans waits)
        rcases queued_granted found head now start vft member with rfl | kept
        · exact absurd ⟨rfl, rfl⟩ own
        · exact ⟨U, v, kept, rfl, rfl⟩
    · by_cases own : j = w.jobId ∧ i = w.stepId
      · obtain ⟨rfl, rfl⟩ := own
        exact held
      · exact (others j i own).symm.trans waits
    · obtain rfl := List.mem_singleton.mp member
      exact held
    · by_cases own : j = w.jobId ∧ i = w.stepId
      · exact .inr ⟨_, List.mem_singleton_self _, own.1.symm, own.2.symm⟩
      · exact .inl ((others j i own).trans waits)

theorem selected_loop (now : Instant) (budget : ℕ) (q : FairQueue) :
    Selected q (selectLoop now budget q).1 (selectLoop now budget q).2 := by
  induction budget generalizing q with
  | zero =>
    exact ⟨fun _ => rfl, id, fun _ _ waits => waits, fun _ member => (by cases member),
      fun _ _ waits => .inl waits⟩
  | succ budget ih =>
    have turned := selected_turn (turn_selectOne q now)
    unfold selectLoop
    revert turned
    cases q.selectOne now with
    | mk q' grant =>
      intro turned
      cases grant with
      | none => exact turned
      | some first =>
        have rest := ih q'
        refine ⟨fun j => (rest.knows j).trans (turned.knows j),
          fun lined => rest.lined (turned.lined lined),
          fun j i waits => turned.waited j i (rest.waited j i waits), fun g member => ?_,
          fun j i waits => ?_⟩
        · rcases List.mem_cons.mp member with rfl | later
          · exact turned.granted g List.mem_cons_self
          · exact turned.waited _ _ (rest.granted g later)
        · rcases turned.kept j i waits with still | ⟨g, member, own⟩
          · exact (rest.kept j i still).imp id fun granted => by
              obtain ⟨g, member, own⟩ := granted
              exact ⟨g, List.mem_cons_of_mem _ member, own⟩
          · obtain rfl := List.mem_singleton.mp member
            exact .inr ⟨g, List.mem_cons_self, own⟩

/-- **A selection grants a step that waits, or leaves it waiting.** -/
theorem select_places (q : FairQueue) (now : Instant) :
    Selected q (q.select now).1 (q.select now).2 := by
  have pruned : ∀ T, (q.pruneLedgers now).queued T = q.queued T := by
    intro T
    unfold queued tenantAt pruneLedgers
    dsimp only
    rw [Table.lookup_mapValues]
    cases q.tenants.lookup T <;> rfl
  have loop := selected_loop now (q.pruneLedgers now).budget (q.pruneLedgers now)
  refine ⟨loop.knows, fun lined => loop.lined fun j i waits => ?_, loop.waited, loop.granted,
    loop.kept⟩
  obtain ⟨T, w, member, own⟩ := lined j i waits
  exact ⟨T, w, (pruned T).symm ▸ member, own⟩

end FairQueue

end HullCi.Control
