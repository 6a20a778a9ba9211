/-
**The scheduler's caps, and what its books are for.**

* `turn_within` — a turn of a selection takes at most one slot, of a tenant that has room.
* `within_run` — a run that adopts no step passes no plan cap and not the fleet's size.
* `slots_accounted` — no slot is leaked and none is counted twice, in any run.
-/

import HullCi.Control.FairBooks

namespace HullCi.Control

open HullCi.Proto HullCi.Base

namespace FairQueue

/-! ### The caps -/

/-- How many slots a tenant uses. -/
def used (q : FairQueue) (T : String) : ℕ :=
  (q.tenantAt T).running.size

/-- A call that takes no slot. -/
structure Frees (q q' : FairQueue) : Prop where
  cfg : q'.cfg = q.cfg
  used : ∀ T, q'.used T ≤ q.used T
  inFlight : q'.inFlight ≤ q.inFlight

theorem Frees.refl (q : FairQueue) : Frees q q :=
  ⟨rfl, fun _ => le_rfl, le_rfl⟩

theorem Frees.trans {q q' q'' : FairQueue} (first : Frees q q') (second : Frees q' q'') :
    Frees q q'' :=
  ⟨second.cfg.trans first.cfg, fun T => (second.used T).trans (first.used T),
    second.inFlight.trans first.inFlight⟩

theorem frees_insertNew (q : FairQueue) (T : String) :
    Frees q { q with tenants := q.tenants.insertNew T {} } := by
  refine ⟨rfl, fun U => ?_, (Table.total_insertNew _ q.tenants T rfl).le⟩
  unfold FairQueue.used tenantAt
  rw [tenantAt_insertNew]

theorem frees_modify (q : FairQueue) (T : String) {f : Tenant → Tenant}
    (fewer : ∀ t, (f t).running.size ≤ t.running.size) :
    Frees q { q with tenants := q.tenants.modify T f } := by
  refine ⟨rfl, fun U => ?_, ?_⟩
  · unfold FairQueue.used tenantAt
    dsimp only
    rw [Table.lookup_modify]
    by_cases same : U = T
    · rw [if_pos same, same]
      cases q.tenants.lookup T with
      | none => exact le_rfl
      | some t => exact fewer t
    · rw [if_neg same]
  · have moved := Table.total_modify (fun t : Tenant => t.running.size) q.tenants T f
    have share : Table.share (fun t => (f t).running.size) q.tenants T
        ≤ Table.share (fun t : Tenant => t.running.size) q.tenants T := by
      unfold Table.share
      cases q.tenants.lookup T with
      | none => exact le_rfl
      | some t => exact fewer t
    show Table.total (fun t : Tenant => t.running.size) (q.tenants.modify T f)
      ≤ Table.total (fun t : Tenant => t.running.size) q.tenants
    omega

theorem frees_books (q : FairQueue) (jobs : Table JobId JobMeta)
    (costs : Table (String × String) (List ℚ)) (costKeys : Table String (List String)) :
    Frees q { q with jobs := jobs, costs := costs, costKeys := costKeys } :=
  ⟨rfl, fun _ => le_rfl, le_rfl⟩

theorem frees_admitJob (q : FairQueue) (jobId : JobId) (tenant : String) (priority : Priority) :
    Frees q (q.admitJob jobId tenant priority) :=
  (frees_insertNew q tenant).trans (frees_books _ _ _ _)

theorem frees_enqueue (q : FairQueue) (jobId : JobId) (stepId : StepId) (stepName : String) :
    Frees q (q.enqueue jobId stepId stepName) := by
  unfold enqueue
  cases q.jobs.lookup jobId with
  | none => exact .refl q
  | some m =>
    dsimp only
    split
    · exact .refl q
    · refine ((frees_insertNew q m.tenant).trans (frees_modify _ m.tenant fun t => ?_)).trans
        (frees_books _ _ _ _)
      cases m.priority <;> exact le_rfl

theorem frees_unplace (q : FairQueue) (jobId : JobId) (stepId : StepId) (at' : Instant)
    (learn : Bool) : Frees q (q.unplace jobId stepId at' learn) := by
  unfold unplace
  cases q.jobs.lookup jobId with
  | none => exact .refl q
  | some m =>
    dsimp only
    cases m.steps.lookup stepId with
    | none => exact .refl q
    | some p =>
      dsimp only
      cases p.since with
      | none => exact frees_books q _ _ _
      | some since =>
        have settled := (frees_modify q m.tenant (f := settleUp jobId stepId at' (at' - since)
          p.charged (q.cfg.weight m.tenant)) fun t => Table.size_erase_le _ _).trans
            (frees_books _ (q.jobs.insert jobId { m with steps := m.steps.erase stepId }) q.costs
              q.costKeys)
        dsimp only
        split
        · unfold observeCost
          dsimp only
          split <;> exact settled.trans (frees_books _ _ _ _)
        · exact settled

theorem frees_forgetJob (q : FairQueue) (jobId : JobId) (at' : Instant) :
    Frees q (q.forgetJob jobId at') := by
  unfold forgetJob
  cases q.jobs.lookup jobId with
  | none => exact .refl q
  | some m =>
    have released : ∀ (steps : List StepId) q', Frees q q' →
        Frees q (steps.foldl (fun q stepId => q.release jobId stepId at') q') := by
      intro steps
      induction steps with
      | nil => exact fun q' kept => kept
      | cons stepId steps ih =>
        exact fun q' kept => ih _ (kept.trans (frees_unplace q' jobId stepId at' false))
    exact (released _ q (.refl q)).trans (frees_books _ _ _ _)

/-- What `reconcile` sees is a step in flight that the scheduler does not hold as running. -/
def adopts (q : FairQueue) (jobId : JobId) (step : StepView) : Bool :=
  match step.state, q.held jobId step.stepId with
  | .leased, some true | .running, some true => false
  | .leased, _ | .running, _ => true
  | _, _ => false

/-- A call that adopts no step. -/
def AdoptsNone (q : FairQueue) : FairOp → Prop
  | .reconcile view now =>
    Along (reconcileStep view.jobId now) (fun q step => q.adopts view.jobId step = false)
      (q.admitJob view.jobId view.tenant view.priority) view.steps
  | _ => True

instance AdoptsNone.decidable (q : FairQueue) : ∀ op, Decidable (q.AdoptsNone op)
  | .reconcile _ _ => inferInstanceAs (Decidable (Along _ _ _ _))
  | .admitJob .. | .enqueue .. | .release .. | .finish .. | .requeue .. | .forgetJob ..
  | .select .. => inferInstanceAs (Decidable True)

theorem frees_reconcileStep {q : FairQueue} {jobId : JobId} {step : StepView} (now : Instant)
    (known : q.adopts jobId step = false) : Frees q (reconcileStep jobId now q step) := by
  unfold adopts at known
  unfold reconcileStep
  cases state : step.state <;> cases held : q.held jobId step.stepId with
  | none =>
    simp only [state, held] at known ⊢
    first
      | exact .refl q
      | exact frees_enqueue q _ _ _
      | cases known
  | some running =>
    cases running <;> simp only [state, held] at known ⊢ <;>
      first
        | exact .refl q
        | exact frees_unplace q _ _ _ _
        | exact (frees_unplace q _ _ _ _).trans (frees_enqueue _ _ _ _)
        | cases known

/-- The scheduler is within every plan cap, and within the fleet. -/
structure Within (q : FairQueue) : Prop where
  plans : ∀ T, q.used T ≤ (q.cfg.plan T).maxRunningSteps
  fleet : ∀ total, q.cfg.fleetSlots = some total → q.inFlight ≤ total

theorem Within.frees {q q' : FairQueue} (within : Within q) (frees : Frees q q') : Within q' := by
  refine ⟨fun T => ?_, fun total slots => ?_⟩
  · rw [frees.cfg]
    exact (frees.used T).trans (within.plans T)
  · rw [frees.cfg] at slots
    exact frees.inFlight.trans (within.fleet total slots)

theorem frees_mapValues (q : FairQueue) {f : Tenant → Tenant}
    (keeps : ∀ t, (f t).running = t.running) :
    Frees q { q with tenants := q.tenants.mapValues f } := by
  refine ⟨rfl, fun T => ?_, ?_⟩
  · unfold FairQueue.used tenantAt
    dsimp only
    rw [Table.lookup_mapValues]
    cases q.tenants.lookup T with
    | none => exact le_rfl
    | some t => exact (congrArg Table.size (keeps t)).le
  · exact (Table.total_mapValues (fun t : Tenant => t.running.size) q.tenants
      fun t => congrArg Table.size (keeps t)).le

/-- One turn keeps every plan cap, and takes at most one slot. -/
theorem turn_within {q : FairQueue} {now : Instant} {r : FairQueue × Option Grant}
    (turn : Turn q now r) (plans : ∀ T, q.used T ≤ (q.cfg.plan T).maxRunningSteps) :
    r.1.cfg = q.cfg ∧ (∀ T, r.1.used T ≤ (q.cfg.plan T).maxRunningSteps) ∧
      r.1.inFlight ≤ q.inFlight + 1 := by
  have tidy : Frees q q.dropStaleHeads := frees_mapValues q fun _ => rfl
  cases turn with
  | rest => exact ⟨rfl, fun T => (tidy.used T).trans (plans T), tidy.inFlight.trans (Nat.le_succ _)⟩
  | @grant T t w start vft known head bids least =>
    have room : t.running.size < (q.cfg.plan T).maxRunningSteps := by
      unfold bid at bids
      rw [head] at bids
      dsimp only at bids
      split at bids
      · rename_i fits
        unfold admissible Tenant.overConcurrency at fits
        rw [Bool.and_eq_true, Bool.not_eq_true', decide_eq_false_iff_not, not_le] at fits
        exact fits.1
      · cases bids
    refine ⟨rfl, fun U => ?_, ?_⟩
    · show Table.size ((q.dropStaleHeads.granted now T t start vft w).tenantAt U).running ≤ _
      rw [running_granted]
      by_cases same : U = T
      · rw [if_pos same, same]
        exact (Table.size_insert_le _ _ _).trans room
      · rw [if_neg same]
        exact (tidy.used U).trans (plans U)
    · have popped := Table.total_insert (fun t : Tenant => t.running.size)
        q.dropStaleHeads.tenants T t.pop
      have taken := Table.total_modify (fun t : Tenant => t.running.size)
        (q.dropStaleHeads.tenants.insert T t.pop) T fun t =>
          { t with vftLast := vft, running := t.running.insert (w.jobId, w.stepId) now }
      have same : t.pop.running = t.running := by
        unfold Tenant.pop
        split <;> rfl
      have one := Table.size_insert_le t.running (w.jobId, w.stepId) now
      unfold Table.share at popped taken
      rw [known] at popped
      rw [Table.lookup_insert, if_pos rfl] at taken
      simp only [Option.map_some, Option.getD_some, same] at popped taken
      have tidied := tidy.inFlight
      unfold inFlight at tidied
      show Table.total (fun t : Tenant => t.running.size)
        (Table.modify (q.dropStaleHeads.tenants.insert T t.pop) T fun t =>
          { t with vftLast := vft, running := t.running.insert (w.jobId, w.stepId) now })
        ≤ Table.total (fun t : Tenant => t.running.size) q.tenants + 1
      unfold Table.total at popped taken ⊢
      omega

/-- A selection within `budget` free slots takes no more than that. -/
theorem selectLoop_within (now : Instant) (budget : ℕ) {q : FairQueue}
    (plans : ∀ T, q.used T ≤ (q.cfg.plan T).maxRunningSteps) :
    (selectLoop now budget q).1.cfg = q.cfg ∧
      (∀ T, (selectLoop now budget q).1.used T ≤ (q.cfg.plan T).maxRunningSteps) ∧
      (selectLoop now budget q).1.inFlight ≤ q.inFlight + budget := by
  induction budget generalizing q with
  | zero => exact ⟨rfl, plans, le_rfl⟩
  | succ budget ih =>
    have turned := turn_within (turn_selectOne q now) plans
    unfold selectLoop
    revert turned
    cases q.selectOne now with
    | mk q' grant =>
      rintro ⟨cfg, kept, taken⟩
      dsimp only at cfg kept taken
      cases grant with
      | none => exact ⟨cfg, kept, taken.trans (by omega)⟩
      | some first =>
        obtain ⟨cfg', kept', taken'⟩ := ih (q := q') (by rw [cfg]; exact kept)
        rw [cfg] at cfg' kept'
        exact ⟨cfg', kept', by dsimp only; omega⟩

theorem within_select {q : FairQueue} (within : Within q) (now : Instant) :
    Within (q.select now).1 := by
  have pruned : Within (q.pruneLedgers now) := within.frees (frees_mapValues q fun _ => rfl)
  obtain ⟨cfg, plans, taken⟩ := selectLoop_within now (q.pruneLedgers now).budget pruned.plans
  refine ⟨fun T => ?_, fun total slots => ?_⟩
  · show _ ≤ ((selectLoop now (q.pruneLedgers now).budget
        (q.pruneLedgers now)).1.cfg.plan T).maxRunningSteps
    rw [cfg]
    exact plans T
  · change (selectLoop now (q.pruneLedgers now).budget (q.pruneLedgers now)).1.cfg.fleetSlots
      = some total at slots
    rw [cfg] at slots
    have room := pruned.fleet total slots
    have budget : (q.pruneLedgers now).budget = total - (q.pruneLedgers now).inFlight := by
      unfold FairQueue.budget
      rw [slots]
    show (selectLoop now (q.pruneLedgers now).budget (q.pruneLedgers now)).1.inFlight ≤ total
    omega

/-- **A call that adopts no step keeps every cap.** -/
theorem within_apply {q : FairQueue} (within : Within q) {op : FairOp}
    (none' : q.AdoptsNone op) : Within (q.apply op) := by
  cases op with
  | admitJob jobId tenant priority => exact within.frees (frees_admitJob q jobId tenant priority)
  | enqueue jobId stepId stepName => exact within.frees (frees_enqueue q jobId stepId stepName)
  | release jobId stepId at' => exact within.frees (frees_unplace q jobId stepId at' false)
  | finish jobId stepId at' => exact within.frees (frees_unplace q jobId stepId at' true)
  | requeue jobId stepId stepName at' =>
    exact within.frees ((frees_unplace q jobId stepId at' false).trans (frees_enqueue _ _ _ _))
  | forgetJob jobId at' => exact within.frees (frees_forgetJob q jobId at')
  | reconcile view now =>
    exact within.frees (run_invariant_along (I := Frees q)
      (fun q' step frees known => frees.trans (frees_reconcileStep now known))
      (frees_admitJob q view.jobId view.tenant view.priority) none')
  | select now => exact within_select within now

theorem within_run (cfg : FairShare) {ops : List FairOp}
    (none' : Along apply AdoptsNone (FairQueue.new cfg) ops) :
    Within (run apply (FairQueue.new cfg) ops) :=
  run_invariant_along (I := Within) (fun _ _ within known => within_apply within known)
    ⟨fun _ => Nat.zero_le _, fun _ _ => Nat.zero_le _⟩ none'

/-! ### The guarantee -/

/-- **No slot is leaked and none is counted twice.** In every run of calls that name each job's
tenant alike, a step is in a tenant's `running` map exactly when its job is the tenant's and holds
it with a clock; a call grants steps that wait, each once; and no cap is passed unless a step was
adopted. -/
theorem slots_accounted (F : JobId → String) (cfg : FairShare) (ops : List FairOp)
    (own : ∀ op ∈ ops, NamesOwner F op) :
    (∀ T jobId stepId,
      (∃ t, (run apply (FairQueue.new cfg) ops).tenants.lookup T = some t ∧
        (t.running.lookup (jobId, stepId)).isSome) ↔
      ∃ m p, (run apply (FairQueue.new cfg) ops).jobs.lookup jobId = some m ∧ m.tenant = T ∧
        m.steps.lookup stepId = some p ∧ p.since.isSome) ∧
    (∀ now,
      (∀ g ∈ ((run apply (FairQueue.new cfg) ops).select now).2,
        (run apply (FairQueue.new cfg) ops).isWaiting g.jobId g.stepId = true ∧
        ∀ T t, (run apply (FairQueue.new cfg) ops).tenants.lookup T = some t →
          t.running.lookup (g.jobId, g.stepId) = none) ∧
      (((run apply (FairQueue.new cfg) ops).select now).2.map Grant.key).Nodup) ∧
    (Along apply AdoptsNone (FairQueue.new cfg) ops →
      (∀ T t, (run apply (FairQueue.new cfg) ops).tenants.lookup T = some t →
        t.running.size ≤ ((run apply (FairQueue.new cfg) ops).cfg.plan T).maxRunningSteps) ∧
      ∀ total, (run apply (FairQueue.new cfg) ops).cfg.fleetSlots = some total →
        (run apply (FairQueue.new cfg) ops).inFlight ≤ total) := by
  have books := books_run cfg own
  set q := run apply (FairQueue.new cfg) ops with reached
  have held : ∀ T t, q.tenants.lookup T = some t → q.tenantAt T = t := by
    intro T t known
    unfold tenantAt
    rw [known, Option.getD_some]
  refine ⟨fun T jobId stepId => ?_, fun now => ?_, fun none' => ?_⟩
  · rw [← slot_isSome, ← clock_isSome, books.even]
  · obtain ⟨-, waits, once⟩ := select_grants books now
    refine ⟨fun g member => ⟨(waits g member).1, fun T t known => ?_⟩, once⟩
    have empty := slot_of_waiting books (waits g member).1 T
    unfold slot at empty
    rwa [held T t known] at empty
  · have within := within_run cfg none'
    rw [← reached] at within
    refine ⟨fun T t known => ?_, within.fleet⟩
    have cap := within.plans T
    unfold FairQueue.used at cap
    rwa [held T t known] at cap

/-- One job's step is queued and granted. -/
def servedJob : List FairOp :=
  [.admitJob "j" "acme" .interactive, .enqueue "j" "s" "build", .select 0]

theorem slots_accounted_once :
    (∀ T jobId stepId,
      (∃ t, (run apply (FairQueue.new { fleetSlots := some 1 }) servedJob).tenants.lookup T = some t ∧
        (t.running.lookup (jobId, stepId)).isSome) ↔
      ∃ m p, (run apply (FairQueue.new { fleetSlots := some 1 }) servedJob).jobs.lookup jobId = some m ∧
        m.tenant = T ∧ m.steps.lookup stepId = some p ∧ p.since.isSome) ∧
    (run apply (FairQueue.new { fleetSlots := some 1 }) servedJob).inFlight ≤ 1 := by
  have all := slots_accounted (fun _ => "acme") { fleetSlots := some 1 } servedJob (by
    intro op member
    simp only [servedJob, List.mem_cons, List.not_mem_nil, or_false] at member
    rcases member with rfl | rfl | rfl <;> trivial)
  exact ⟨all.1, (all.2.2 (by decide +kernel)).2 1 (by decide +kernel)⟩

/-- A job is forgotten, admitted again for another tenant, and its stale entry is granted. -/
def movedJob : List FairOp :=
  [.admitJob "j" "acme" .interactive, .enqueue "j" "s" "build", .forgetJob "j" 0,
    .admitJob "j" "zeta" .interactive, .enqueue "j" "s" "build", .select 0]

/-- A job id that changes its tenant leaks the slot of the tenant it left. -/
theorem moved_job_leaks :
    ¬ ∀ T jobId stepId,
      (∃ t, (run apply (FairQueue.new {}) movedJob).tenants.lookup T = some t ∧
        (t.running.lookup (jobId, stepId)).isSome) ↔
      ∃ m p, (run apply (FairQueue.new {}) movedJob).jobs.lookup jobId = some m ∧ m.tenant = T ∧
        m.steps.lookup stepId = some p ∧ p.since.isSome := by
  intro even
  have same := even "acme" "j" "s"
  rw [← slot_isSome, ← clock_isSome] at same
  have taken : ((run apply (FairQueue.new {}) movedJob).slot "acme" "j" "s").isSome = true := by
    decide +kernel
  have untold : ((run apply (FairQueue.new {}) movedJob).clock "acme" "j" "s").isSome = false := by
    decide +kernel
  rw [same.mp taken] at untold
  cases untold

end FairQueue

end HullCi.Control
