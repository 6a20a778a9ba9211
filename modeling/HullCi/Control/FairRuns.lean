/-
**Runs of the scheduler, and the calls that leave every tag alone.**

A run is any sequence of the scheduler's operations. Every granted step pays exactly what it was
charged (`Honest`), and at every selection both tenants have work and room (`Competes`).

* `served` — the sum of the costs a run grants one tenant.
* `unlifted` — the idle-credit clamp leaves a tenant's start tag alone.
* `quiet_of_honest` — no operation but a selection moves a tag or the clock, when charges are exact.
-/

import HullCi.Base.Run
import HullCi.Control.Fairshare
import Mathlib.Algebra.Order.Field.Basic
import Mathlib.Tactic.NormNum

namespace HullCi.Control

open HullCi.Proto HullCi.Base

/-! ### Operations and their service -/

/-- A call on the scheduler. -/
inductive FairOp
  | admitJob (jobId : JobId) (tenant : String) (priority : Priority)
  | enqueue (jobId : JobId) (stepId : StepId) (stepName : String)
  | release (jobId : JobId) (stepId : StepId) (at' : Instant)
  | finish (jobId : JobId) (stepId : StepId) (at' : Instant)
  | requeue (jobId : JobId) (stepId : StepId) (stepName : String) (at' : Instant)
  | forgetJob (jobId : JobId) (at' : Instant)
  | reconcile (view : JobView) (now : Instant)
  | select (now : Instant)

namespace FairQueue

/-- The scheduler after a call. -/
def apply (q : FairQueue) : FairOp → FairQueue
  | .admitJob jobId tenant priority => q.admitJob jobId tenant priority
  | .enqueue jobId stepId stepName => q.enqueue jobId stepId stepName
  | .release jobId stepId at' => q.release jobId stepId at'
  | .finish jobId stepId at' => q.finish jobId stepId at'
  | .requeue jobId stepId stepName at' => q.requeue jobId stepId stepName at'
  | .forgetJob jobId at' => q.forgetJob jobId at'
  | .reconcile view now => q.reconcile view now
  | .select now => (q.select now).1

/-- A fresh scheduler with some cost history. -/
def fresh (cfg : FairShare) (costs : Table (String × String) (List ℚ))
    (costKeys : Table String (List String)) : FairQueue :=
  { FairQueue.new cfg with costs := costs, costKeys := costKeys }

/-- A tenant's virtual finish time; zero before it is known. -/
def tag (q : FairQueue) (tenant : String) : ℚ :=
  ((q.tenants.lookup tenant).map (·.vftLast)).getD 0

/-- What a granted step was charged. -/
def chargeOf (q : FairQueue) (g : Grant) : ℚ :=
  ((q.placement g.jobId g.stepId).bind (·.charged)).getD 0

/-- The cost a call grants one tenant. -/
def servedBy (tenant : String) (q : FairQueue) : FairOp → ℚ
  | .select now =>
    (((q.select now).2.filter (·.tenant = tenant)).map (q.select now).1.chargeOf).sum
  | _ => 0

/-- The sum of the costs granted to one tenant over a run. -/
def served (tenant : String) : FairQueue → List FairOp → ℚ
  | _, [] => 0
  | q, op :: ops => servedBy tenant q op + served tenant (q.apply op) ops

/-! ### The runs the guarantee is about -/

/-- A running step that leaves its slot now has taken exactly what it was charged. -/
def paysExactly (q : FairQueue) (jobId : JobId) (stepId : StepId) (at' : Instant) : Bool :=
  (q.placement jobId stepId).all fun p => p.since.all fun since => p.charged.all fun charged =>
    asSecs (at' - since) = charged

/-- The same for what one observed step makes `reconcile` do. -/
def seenExactly (jobId : JobId) (now : Instant) (q : FairQueue) (step : StepView) : Bool :=
  match step.state, q.held jobId step.stepId with
  | .ready, some true => q.paysExactly jobId step.stepId now
  | .passed, some true | .failed, some true | .errored, some true | .cached, some true
  | .skipped, some true => q.paysExactly jobId step.stepId (step.finishedAt.getD now)
  | _, _ => true

/-- Every step a call takes out of its slot has paid exactly what it was charged. -/
def Honest (q : FairQueue) : FairOp → Prop
  | .release jobId stepId at' | .finish jobId stepId at' => q.paysExactly jobId stepId at' = true
  | .requeue jobId stepId _ at' => q.paysExactly jobId stepId at' = true
  | .forgetJob jobId at' =>
    Along (fun q stepId => q.release jobId stepId at')
      (fun q stepId => q.paysExactly jobId stepId at' = true) q
      (((q.jobs.lookup jobId).map (·.steps.keys)).getD [])
  | .reconcile view now =>
    Along (reconcileStep view.jobId now) (fun q step => seenExactly view.jobId now q step = true)
      (q.admitJob view.jobId view.tenant view.priority) view.steps
  | _ => True

instance Honest.decidable (q : FairQueue) : ∀ op, Decidable (q.Honest op)
  | .release _ _ _ | .finish _ _ _ | .requeue _ _ _ _ => inferInstanceAs (Decidable (_ = true))
  | .forgetJob _ _ | .reconcile _ _ => inferInstanceAs (Decidable (Along _ _ _ _))
  | .admitJob _ _ _ | .enqueue _ _ _ | .select _ => inferInstanceAs (Decidable True)

/-- A tenant has a step waiting and is under both of its plan caps. -/
def contends (q : FairQueue) (now : Instant) (tenant : String) : Bool :=
  0 < (q.depth tenant).queued && !(q.admission tenant now).blocked

/-- No step of the tenant costs more than `cap`. -/
def costsAtMost (q : FairQueue) (tenant : String) (cap : ℚ) : Bool :=
  (q.tenants.lookup tenant).all fun t => (t.interactive ++ t.background).all (·.cost ≤ cap)

/-- The clamp does not lift the tenant's start tag above its own finish tag. -/
def unlifted (q : FairQueue) (tenant : String) : Bool :=
  q.floor ≤ q.tag tenant

/-- Both tenants compete at a selection, with steps of bounded cost; other calls are honest. -/
def Competes (A B : String) (capA capB : ℚ) (q : FairQueue) : FairOp → Prop
  | .select now => q.contends now A = true ∧ q.contends now B = true ∧
      q.costsAtMost A capA = true ∧ q.costsAtMost B capB = true
  | op => q.Honest op

instance (A B : String) (capA capB : ℚ) (q : FairQueue) :
    ∀ op, Decidable (Competes A B capA capB q op)
  | .select _ => inferInstanceAs (Decidable (_ ∧ _ ∧ _ ∧ _))
  | .admitJob jobId tenant priority => Honest.decidable q (.admitJob jobId tenant priority)
  | .enqueue jobId stepId stepName => Honest.decidable q (.enqueue jobId stepId stepName)
  | .release jobId stepId at' => Honest.decidable q (.release jobId stepId at')
  | .finish jobId stepId at' => Honest.decidable q (.finish jobId stepId at')
  | .requeue jobId stepId stepName at' => Honest.decidable q (.requeue jobId stepId stepName at')
  | .forgetJob jobId at' => Honest.decidable q (.forgetJob jobId at')
  | .reconcile view now => Honest.decidable q (.reconcile view now)

/-- The clamp lifts neither tenant at a selection. -/
def Unclamped (A B : String) (q : FairQueue) : FairOp → Prop
  | .select _ => q.unlifted A = true ∧ q.unlifted B = true
  | _ => True

instance (A B : String) (q : FairQueue) : ∀ op, Decidable (Unclamped A B q op)
  | .select _ => inferInstanceAs (Decidable (_ ∧ _))
  | .admitJob .. | .enqueue .. | .release .. | .finish .. | .requeue .. | .forgetJob ..
  | .reconcile .. => inferInstanceAs (Decidable True)

/-! ### Operations that leave every tag alone -/

/-- No queued step has a negative cost. -/
def Paid (q : FairQueue) : Prop :=
  ∀ T t, q.tenants.lookup T = some t → ∀ w ∈ t.interactive ++ t.background, 0 ≤ w.cost

/-- A call that keeps the configuration, the clock and every tag, and the costs sensible. -/
structure Quiet (q q' : FairQueue) : Prop where
  cfg : q'.cfg = q.cfg
  clock : q'.virtualNow = q.virtualNow
  tag : ∀ T, q'.tag T = q.tag T
  paid : q.Paid → q'.Paid

theorem Quiet.refl (q : FairQueue) : Quiet q q :=
  ⟨rfl, rfl, fun _ => rfl, id⟩

theorem Quiet.trans {q q' q'' : FairQueue} (first : Quiet q q') (second : Quiet q' q'') :
    Quiet q q'' :=
  ⟨second.cfg.trans first.cfg, second.clock.trans first.clock, fun T => (second.tag T).trans
    (first.tag T), fun paid => second.paid (first.paid paid)⟩

theorem quiet_insertNew (q : FairQueue) (T : String) :
    Quiet q { q with tenants := q.tenants.insertNew T {} } := by
  refine ⟨rfl, rfl, fun T' => ?_, fun paid T' t found => ?_⟩
  · unfold tag
    simp only [Table.lookup_insertNew]
    by_cases same : T' = T
    · subst same
      rw [if_pos rfl]
      cases q.tenants.lookup T' <;> rfl
    · rw [if_neg same]
  · simp only [Table.lookup_insertNew] at found
    by_cases same : T' = T
    · subst same
      rw [if_pos rfl, Option.some.injEq] at found
      cases known : q.tenants.lookup T' with
      | none =>
        rw [known, Option.getD_none] at found
        subst found
        intro w member
        cases member
      | some t' =>
        rw [known, Option.getD_some] at found
        subst found
        exact paid T' t' known
    · rw [if_neg same] at found
      exact paid T' t found

/-- Rewriting one tenant is quiet when its tag stays and its queues get no negative cost. -/
theorem quiet_modify (q : FairQueue) (T : String) (f : Tenant → Tenant)
    (keeps : ∀ t, (f t).vftLast = t.vftLast)
    (sensible : ∀ t, (∀ w ∈ t.interactive ++ t.background, 0 ≤ w.cost) →
      ∀ w ∈ (f t).interactive ++ (f t).background, 0 ≤ w.cost) :
    Quiet q { q with tenants := q.tenants.modify T f } := by
  refine ⟨rfl, rfl, fun T' => ?_, fun paid T' t found => ?_⟩
  · unfold tag
    simp only [Table.lookup_modify]
    by_cases same : T' = T
    · subst same
      rw [if_pos rfl, Option.map_map]
      cases q.tenants.lookup T' with
      | none => rfl
      | some t => exact keeps t
    · rw [if_neg same]
  · simp only [Table.lookup_modify] at found
    by_cases same : T' = T
    · subst same
      rw [if_pos rfl] at found
      obtain ⟨t', known, rfl⟩ := Option.map_eq_some_iff.mp found
      exact sensible t' (paid T' t' known)
    · rw [if_neg same] at found
      exact paid T' t found

theorem quiet_books (q : FairQueue) (jobs : Table JobId JobMeta)
    (costs : Table (String × String) (List ℚ)) (costKeys : Table String (List String)) :
    Quiet q { q with jobs := jobs, costs := costs, costKeys := costKeys } :=
  ⟨rfl, rfl, fun _ => rfl, id⟩

theorem estimate_nonneg (q : FairQueue) (tenant stepName : String) :
    0 ≤ q.estimate tenant stepName := by
  unfold estimate
  refine le_max_of_le_right ?_
  unfold minCostSecs
  norm_num

theorem quiet_admitJob (q : FairQueue) (jobId : JobId) (tenant : String) (priority : Priority) :
    Quiet q (q.admitJob jobId tenant priority) :=
  (quiet_insertNew q tenant).trans (quiet_books _ _ _ _)

theorem quiet_push (q : FairQueue) (T : String) (w : Waiting) (priority : Priority)
    (sensible : 0 ≤ w.cost) :
    Quiet q { q with tenants := (q.tenants.insertNew T {}).modify T (·.push w priority) } := by
  refine (quiet_insertNew q T).trans (quiet_modify _ T _ (fun t => ?_) fun t paid v member => ?_)
  · cases priority <;> rfl
  · cases priority with
    | interactive =>
      simp only [Tenant.push, List.mem_append, List.mem_singleton] at member
      rcases member with (old | rfl) | old
      · exact paid v (List.mem_append_left _ old)
      · exact sensible
      · exact paid v (List.mem_append_right _ old)
    | background =>
      simp only [Tenant.push, List.mem_append, List.mem_singleton] at member
      rcases member with old | old | rfl
      · exact paid v (List.mem_append_left _ old)
      · exact paid v (List.mem_append_right _ old)
      · exact sensible

theorem quiet_enqueue (q : FairQueue) (jobId : JobId) (stepId : StepId) (stepName : String) :
    Quiet q (q.enqueue jobId stepId stepName) := by
  unfold enqueue
  cases q.jobs.lookup jobId with
  | none => exact .refl q
  | some m =>
    dsimp only
    split
    · exact .refl q
    · exact (quiet_push q m.tenant _ m.priority (estimate_nonneg q _ _)).trans
        (quiet_books _ _ _ _)

theorem quiet_observeCost (q : FairQueue) (tenant stepName : String) (ran : Duration) :
    Quiet q (q.observeCost tenant stepName ran) := by
  unfold observeCost
  dsimp only
  split
  · exact quiet_books q _ _ _
  · exact quiet_books q _ _ _

theorem quiet_unplace {q : FairQueue} {jobId : JobId} {stepId : StepId} {at' : Instant}
    (learn : Bool) (pays : q.paysExactly jobId stepId at' = true) :
    Quiet q (q.unplace jobId stepId at' learn) := by
  unfold unplace
  unfold paysExactly placement at pays
  cases known : q.jobs.lookup jobId with
  | none => exact .refl q
  | some m =>
    rw [known, Option.bind_some] at pays
    dsimp only
    cases placed : m.steps.lookup stepId with
    | none => exact .refl q
    | some p =>
      rw [placed, Option.all_some] at pays
      dsimp only
      cases running : p.since with
      | none => exact quiet_books q _ _ _
      | some since =>
        rw [running, Option.all_some] at pays
        dsimp only
        have settled : Quiet q { q with
            jobs := q.jobs.insert jobId { m with steps := m.steps.erase stepId }
            tenants := q.tenants.modify m.tenant
              (settleUp jobId stepId at' (at' - since) p.charged (q.cfg.weight m.tenant)) } := by
          refine (quiet_modify q m.tenant
            (settleUp jobId stepId at' (at' - since) p.charged (q.cfg.weight m.tenant))
            (fun t => ?_) fun t paid => paid).trans (quiet_books _ _ _ _)
          unfold settleUp
          cases charge : p.charged with
          | none => rfl
          | some charged =>
            rw [charge, Option.all_some] at pays
            show t.vftLast + (asSecs (at' - since) - charged) / _ = t.vftLast
            rw [of_decide_eq_true pays, sub_self, zero_div, add_zero]
        split
        · exact settled.trans (quiet_observeCost _ _ _ _)
        · exact settled

theorem quiet_requeue {q : FairQueue} {jobId : JobId} {stepId : StepId} {at' : Instant}
    (stepName : String) (pays : q.paysExactly jobId stepId at' = true) :
    Quiet q (q.requeue jobId stepId stepName at') :=
  (quiet_unplace false pays).trans (quiet_enqueue _ _ _ _)

theorem quiet_adopt (q : FairQueue) (jobId : JobId) (stepId : StepId) (name : String)
    (since : Instant) : Quiet q (q.adopt jobId stepId name since) := by
  unfold adopt
  cases q.jobs.lookup jobId with
  | none => exact .refl q
  | some m =>
    refine ((quiet_insertNew q m.tenant).trans (quiet_modify _ m.tenant _ ?_ ?_)).trans
      (quiet_books _ _ _ _)
    · exact fun t => rfl
    · exact fun t paid => paid

theorem paysExactly_of_held {q : FairQueue} {jobId : JobId} {stepId : StepId} (at' : Instant)
    (idle : q.held jobId stepId ≠ some true) : q.paysExactly jobId stepId at' = true := by
  unfold held at idle
  unfold paysExactly
  cases placed : q.placement jobId stepId with
  | none => rfl
  | some p =>
    rw [placed, Option.map_some] at idle
    cases running : p.since with
    | none => simp [running]
    | some since => simp [running] at idle

theorem quiet_reconcileStep {q : FairQueue} {jobId : JobId} {now : Instant} {step : StepView}
    (seen : seenExactly jobId now q step = true) :
    Quiet q (reconcileStep jobId now q step) := by
  unfold reconcileStep seenExactly at *
  have idle : ∀ at', q.held jobId step.stepId ≠ some true →
      q.paysExactly jobId step.stepId at' = true := fun at' => paysExactly_of_held at'
  cases state : step.state <;> cases holds : q.held jobId step.stepId with
  | none =>
    simp only [state, holds] at seen ⊢
    first
      | exact .refl q
      | exact quiet_enqueue q _ _ _
      | exact (quiet_unplace false (idle _ (by simp [holds]))).trans (quiet_adopt _ _ _ _ _)
  | some running =>
    cases running <;> simp only [state, holds] at seen ⊢ <;>
      first
        | exact .refl q
        | exact quiet_requeue _ seen
        | exact quiet_unplace _ seen
        | exact quiet_unplace _ (idle _ (by simp [holds]))
        | exact (quiet_unplace false (idle _ (by simp [holds]))).trans (quiet_adopt _ _ _ _ _)

/-- **No honest call but a selection moves a tag.** -/
theorem quiet_of_honest {q : FairQueue} {op : FairOp} (honest : q.Honest op)
    (other : ∀ now, op ≠ .select now) : Quiet q (q.apply op) := by
  cases op with
  | admitJob jobId tenant priority => exact quiet_admitJob q jobId tenant priority
  | enqueue jobId stepId stepName => exact quiet_enqueue q jobId stepId stepName
  | release jobId stepId at' => exact quiet_unplace false honest
  | finish jobId stepId at' => exact quiet_unplace true honest
  | requeue jobId stepId stepName at' => exact quiet_requeue stepName honest
  | forgetJob jobId at' =>
    show Quiet q (q.forgetJob jobId at')
    unfold forgetJob
    simp only [Honest] at honest
    cases known : q.jobs.lookup jobId with
    | none => exact .refl q
    | some m =>
      rw [known] at honest
      have released := run_invariant_along (I := Quiet q)
        (fun q' stepId quiet pays => quiet.trans (quiet_unplace false pays)) (.refl q) honest
      exact released.trans (quiet_books _ _ _ _)
  | reconcile view now =>
    exact run_invariant_along (I := Quiet q)
      (fun q' step quiet seen => quiet.trans (quiet_reconcileStep seen))
      (quiet_admitJob q view.jobId view.tenant view.priority) honest
  | select now => exact absurd rfl (other now)

end FairQueue

end HullCi.Control
