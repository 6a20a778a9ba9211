/-
**Every call of the scheduler, as a list of elementary writes.**

A call that does several things does them one after the other: `requeue` takes a step out and queues
it again, `reconcile` does something for each step it is shown, a selection is a list of turns. What
holds across every write holds across every call.

* `acts` — the writes a call makes, in order.
* `run_acts` — a call is the run of its writes.
* `fits_acts` — what is known when a write is made: a grant goes to a head that waits, a step that is
  adopted has no placement, and a job that is dropped has none left.
-/

import HullCi.Control.FairPlaces

namespace HullCi.Control

open HullCi.Proto HullCi.Base

/-- One write. -/
inductive Act
  | admits (jobId : JobId) (tenant : String) (priority : Priority)
  | enqueue (jobId : JobId) (stepId : StepId) (stepName : String)
  | unplace (jobId : JobId) (stepId : StepId) (at' : Instant) (learn : Bool)
  | adopt (jobId : JobId) (stepId : StepId) (name : String) (since : Instant)
  | drop (jobId : JobId)
  | prune (now : Instant)
  | tidy
  | grant (now : Instant) (tenant : String) (t : Tenant) (start vft : ℚ) (w : Waiting)

namespace FairQueue

def act (q : FairQueue) : Act → FairQueue
  | .admits jobId tenant priority => q.admitJob jobId tenant priority
  | .enqueue jobId stepId stepName => q.enqueue jobId stepId stepName
  | .unplace jobId stepId at' learn => q.unplace jobId stepId at' learn
  | .adopt jobId stepId name since => q.adopt jobId stepId name since
  | .drop jobId => { q with jobs := q.jobs.erase jobId }
  | .prune now => q.pruneLedgers now
  | .tidy => q.dropStaleHeads
  | .grant now tenant t start vft w => q.granted now tenant t start vft w

/-! ### The writes of a call -/

/-- The writes of `reconcile` for one observed step. -/
def stepActs (jobId : JobId) (now : Instant) (q : FairQueue) (step : StepView) : List Act :=
  match step.state, q.held jobId step.stepId with
  | .ready, none => [.enqueue jobId step.stepId step.name]
  | .ready, some true =>
    [.unplace jobId step.stepId now false, .enqueue jobId step.stepId step.name]
  | .leased, some true | .running, some true => []
  | .leased, _ | .running, _ =>
    [.unplace jobId step.stepId now false,
      .adopt jobId step.stepId step.name (step.startedAt.getD now)]
  | .passed, some _ | .failed, some _ =>
    [.unplace jobId step.stepId (step.finishedAt.getD now) true]
  | .errored, some _ | .cached, some _ | .skipped, some _ =>
    [.unplace jobId step.stepId (step.finishedAt.getD now) false]
  | _, _ => []

def stepsActs (jobId : JobId) (now : Instant) : FairQueue → List StepView → List Act
  | _, [] => []
  | q, step :: steps =>
    stepActs jobId now q step ++ stepsActs jobId now (reconcileStep jobId now q step) steps

/-- The writes of one turn of the selection loop. -/
def turnActs (now : Instant) (q : FairQueue) : List Act :=
  .tidy :: match q.dropStaleHeads.best now with
    | none => []
    | some (tenant, start, vft) =>
      match q.dropStaleHeads.tenants.lookup tenant with
      | none => []
      | some t => (t.head.map fun w => .grant now tenant t start vft w).toList

def selectActs (now : Instant) : ℕ → FairQueue → List Act
  | 0, _ => []
  | budget + 1, q =>
    turnActs now q ++ match q.selectOne now with
      | (_, none) => []
      | (q', some _) => selectActs now budget q'

/-- The writes of a call. -/
def acts (q : FairQueue) : FairOp → List Act
  | .admitJob jobId tenant priority => [.admits jobId tenant priority]
  | .enqueue jobId stepId stepName => [.enqueue jobId stepId stepName]
  | .release jobId stepId at' => [.unplace jobId stepId at' false]
  | .finish jobId stepId at' => [.unplace jobId stepId at' true]
  | .requeue jobId stepId stepName at' =>
    [.unplace jobId stepId at' false, .enqueue jobId stepId stepName]
  | .forgetJob jobId at' =>
    match q.jobs.lookup jobId with
    | none => []
    | some m => m.steps.keys.map (fun stepId => .unplace jobId stepId at' false) ++ [.drop jobId]
  | .reconcile view now =>
    .admits view.jobId view.tenant view.priority ::
      stepsActs view.jobId now (q.admitJob view.jobId view.tenant view.priority) view.steps
  | .select now => .prune now :: selectActs now (q.pruneLedgers now).budget (q.pruneLedgers now)

/-! ### A call is the run of its writes -/

theorem run_stepActs (jobId : JobId) (now : Instant) (q : FairQueue) (step : StepView) :
    run act q (stepActs jobId now q step) = reconcileStep jobId now q step := by
  unfold stepActs reconcileStep
  cases step.state <;> cases q.held jobId step.stepId with
  | none => rfl
  | some running => cases running <;> rfl

theorem run_stepsActs (jobId : JobId) (now : Instant) (q : FairQueue) (steps : List StepView) :
    run act q (stepsActs jobId now q steps) = steps.foldl (reconcileStep jobId now) q := by
  induction steps generalizing q with
  | nil => rfl
  | cons step steps ih =>
    unfold stepsActs
    rw [run_append, run_stepActs, ih]
    rfl

theorem run_turnActs (now : Instant) (q : FairQueue) :
    run act q (turnActs now q) = (q.selectOne now).1 := by
  unfold turnActs selectOne
  dsimp only [run_cons, act]
  cases q.dropStaleHeads.best now with
  | none => rfl
  | some choice =>
    obtain ⟨tenant, start, vft⟩ := choice
    dsimp only
    unfold popHead
    cases q.dropStaleHeads.tenants.lookup tenant with
    | none => rfl
    | some t =>
      dsimp only
      cases t.head with
      | none => rfl
      | some w => rfl

theorem run_selectActs (now : Instant) (budget : ℕ) (q : FairQueue) :
    run act q (selectActs now budget q) = (selectLoop now budget q).1 := by
  induction budget generalizing q with
  | zero => rfl
  | succ budget ih =>
    unfold selectActs selectLoop
    rw [run_append, run_turnActs]
    cases q.selectOne now with
    | mk q' grant =>
      cases grant with
      | none => rfl
      | some grant => exact ih q'

/-- **A call is the run of its writes.** -/
theorem run_acts (q : FairQueue) (op : FairOp) : run act q (q.acts op) = q.apply op := by
  cases op with
  | admitJob | enqueue | release | finish | requeue => rfl
  | forgetJob jobId at' =>
    dsimp only [acts, apply, forgetJob]
    cases q.jobs.lookup jobId with
    | none => rfl
    | some m =>
      dsimp only
      unfold run
      rw [List.foldl_append, List.foldl_map]
      rfl
  | reconcile view now => exact run_stepsActs view.jobId now _ view.steps
  | select now => exact run_selectActs now _ _

/-! ### What is known when a write is made -/

/-- A grant goes to the head of a tenant that bids, and that head waits; a step that is adopted has
no placement, and neither has any step of a job that is dropped. -/
def Fits (q : FairQueue) : Act → Prop
  | .adopt jobId stepId _ _ => q.placement jobId stepId = none
  | .drop jobId => ∀ stepId, q.placement jobId stepId = none
  | .grant now tenant t start vft w =>
    q.tenants.lookup tenant = some t ∧ t.head = some w ∧ q.isWaiting w.jobId w.stepId = true ∧
      q.bid now tenant t = some (start, vft)
  | _ => True

theorem fits_stepActs (jobId : JobId) (now : Instant) (q : FairQueue) (step : StepView) :
    Along act Fits q (stepActs jobId now q step) := by
  have adopted : Along act Fits q [.unplace jobId step.stepId now false,
      .adopt jobId step.stepId step.name (step.startedAt.getD now)] :=
    ⟨trivial, placement_released q jobId step.stepId now false, trivial⟩
  have taken : ∀ at' learn, Along act Fits q [.unplace jobId step.stepId at' learn] :=
    fun _ _ => ⟨trivial, trivial⟩
  unfold stepActs
  split
  · exact ⟨trivial, trivial⟩
  · exact ⟨trivial, trivial, trivial⟩
  · trivial
  · trivial
  · exact adopted
  · exact adopted
  · exact taken _ true
  · exact taken _ true
  · exact taken _ false
  · exact taken _ false
  · exact taken _ false
  · trivial

theorem fits_stepsActs (jobId : JobId) (now : Instant) (q : FairQueue) (steps : List StepView) :
    Along act Fits q (stepsActs jobId now q steps) := by
  induction steps generalizing q with
  | nil => trivial
  | cons step steps ih =>
    unfold stepsActs
    rw [along_append, run_stepActs]
    exact ⟨fits_stepActs jobId now q step, ih _⟩

theorem fits_turnActs (now : Instant) (q : FairQueue) : Along act Fits q (turnActs now q) := by
  have chosen := best_chosen q.dropStaleHeads now
  unfold turnActs
  refine ⟨trivial, ?_⟩
  show Along act Fits q.dropStaleHeads _
  cases best : q.dropStaleHeads.best now with
  | none => trivial
  | some choice =>
    obtain ⟨tenant, start, vft⟩ := choice
    rw [best] at chosen
    obtain ⟨⟨t, member, bids⟩, -⟩ := chosen
    have known := Table.mem_sorted.mp member
    simp only [known]
    cases head : t.head with
    | none => trivial
    | some w =>
      have waits : q.isWaiting w.jobId w.stepId = true := head_isWaiting known head
      exact ⟨⟨known, head, waits, bids⟩, trivial⟩

theorem fits_selectActs (now : Instant) (budget : ℕ) (q : FairQueue) :
    Along act Fits q (selectActs now budget q) := by
  induction budget generalizing q with
  | zero => trivial
  | succ budget ih =>
    unfold selectActs
    rw [along_append, run_turnActs]
    refine ⟨fits_turnActs now q, ?_⟩
    cases q.selectOne now with
    | mk q' grant =>
      cases grant with
      | none => trivial
      | some grant => exact ih q'

theorem fits_released (q : FairQueue) (jobId : JobId) (at' : Instant) (steps : List StepId) :
    Along act Fits q (steps.map fun stepId => .unplace jobId stepId at' false) := by
  induction steps generalizing q with
  | nil => trivial
  | cons first steps ih => exact ⟨trivial, ih _⟩

theorem placement_unplaceAll (q : FairQueue) (jobId : JobId) (at' : Instant) (steps : List StepId)
    (stepId : StepId) :
    (run act q (steps.map fun stepId => .unplace jobId stepId at' false)).placement jobId stepId =
      if stepId ∈ steps then none else q.placement jobId stepId := by
  induction steps generalizing q with
  | nil => rfl
  | cons first steps ih =>
    rw [List.map_cons, run_cons, ih]
    show (if stepId ∈ steps then none else (q.unplace jobId first at' false).placement jobId stepId) = _
    rw [placement_unplace]
    by_cases later : stepId ∈ steps
    · rw [if_pos later, if_pos (List.mem_cons_of_mem _ later)]
    · rw [if_neg later]
      by_cases same : stepId = first
      · rw [if_pos ⟨rfl, same⟩, if_pos (List.mem_cons.mpr (.inl same))]
      · rw [if_neg (fun both => same both.2),
          if_neg (fun member => (List.mem_cons.mp member).elim same later)]

/-- **Every write of a call fits.** -/
theorem fits_acts (q : FairQueue) (op : FairOp) : Along act Fits q (q.acts op) := by
  cases op with
  | admitJob | enqueue | release | finish => exact ⟨trivial, trivial⟩
  | requeue => exact ⟨trivial, trivial, trivial⟩
  | forgetJob jobId at' =>
    dsimp only [acts]
    cases known : q.jobs.lookup jobId with
    | none => trivial
    | some m =>
      dsimp only
      rw [along_append]
      refine ⟨fits_released q jobId at' m.steps.keys, fun stepId => ?_, trivial⟩
      rw [placement_unplaceAll]
      split
      · rfl
      · rename_i absent
        unfold placement
        rw [known, Option.bind_some]
        exact AList.lookup_eq_none.mpr absent
  | reconcile view now => exact ⟨trivial, fits_stepsActs view.jobId now _ view.steps⟩
  | select now => exact ⟨trivial, fits_selectActs now _ _⟩

/-! ### Runs of calls as runs of writes -/

/-- The writes of a run. -/
def allActs : FairQueue → List FairOp → List Act
  | _, [] => []
  | q, op :: ops => q.acts op ++ allActs (q.apply op) ops

theorem run_allActs (q : FairQueue) (ops : List FairOp) :
    run act q (q.allActs ops) = run apply q ops := by
  induction ops generalizing q with
  | nil => rfl
  | cons op ops ih =>
    unfold allActs
    rw [run_append, run_acts, ih]
    rfl

theorem fits_allActs (q : FairQueue) (ops : List FairOp) : Along act Fits q (q.allActs ops) := by
  induction ops generalizing q with
  | nil => trivial
  | cons op ops ih =>
    unfold allActs
    rw [along_append, run_acts]
    exact ⟨fits_acts q op, ih _⟩

/-- A write that admits a job names the tenant the job belongs to. -/
def Names (F : JobId → String) : Act → Prop
  | .admits jobId tenant _ => tenant = F jobId
  | _ => True

theorem names_acts {F : JobId → String} {op : FairOp} (own : NamesOwner F op) (q : FairQueue) :
    ∀ a ∈ q.acts op, Names F a := by
  have stepped : ∀ (jobId : JobId) (now : Instant) (q : FairQueue) (step : StepView),
      ∀ a ∈ stepActs jobId now q step, Names F a := by
    intro jobId now q step a member
    unfold stepActs at member
    split at member <;> simp only [List.mem_cons, List.not_mem_nil, or_false] at member <;>
      rcases member with rfl | rfl <;> exact trivial
  have observed : ∀ (jobId : JobId) (now : Instant) (steps : List StepView) (q : FairQueue),
      ∀ a ∈ stepsActs jobId now q steps, Names F a := by
    intro jobId now steps
    induction steps with
    | nil => exact fun q a member => by cases member
    | cons step steps ih =>
      intro q a member
      rcases List.mem_append.mp member with first | rest
      · exact stepped jobId now q step a first
      · exact ih _ a rest
  have selected : ∀ (now : Instant) (budget : ℕ) (q : FairQueue),
      ∀ a ∈ selectActs now budget q, Names F a := by
    intro now budget
    induction budget with
    | zero => exact fun q a member => by cases member
    | succ budget ih =>
      intro q a member
      unfold selectActs turnActs at member
      rcases List.mem_append.mp member with turn | rest
      · rcases List.mem_cons.mp turn with rfl | turn
        · trivial
        · split at turn
          · cases turn
          · split at turn
            · cases turn
            · obtain ⟨w, -, rfl⟩ := Option.map_eq_some_iff.mp (Option.mem_toList.mp turn)
              trivial
      · split at rest
        · cases rest
        · exact ih _ a rest
  intro a member
  cases op with
  | admitJob =>
    obtain rfl := List.mem_singleton.mp member
    exact own
  | enqueue | release | finish =>
    obtain rfl := List.mem_singleton.mp member
    trivial
  | requeue =>
    rcases List.mem_cons.mp member with rfl | member
    · trivial
    · obtain rfl := List.mem_singleton.mp member
      trivial
  | forgetJob jobId at' =>
    dsimp only [acts] at member
    split at member
    · cases member
    · rcases List.mem_append.mp member with taken | last
      · obtain ⟨stepId, -, rfl⟩ := List.mem_map.mp taken
        trivial
      · obtain rfl := List.mem_singleton.mp last
        trivial
  | reconcile view now =>
    rcases List.mem_cons.mp member with rfl | member
    · exact own
    · exact observed view.jobId now view.steps _ a member
  | select now =>
    rcases List.mem_cons.mp member with rfl | member
    · trivial
    · exact selected now _ _ a member

theorem names_allActs {F : JobId → String} {ops : List FairOp}
    (own : ∀ op ∈ ops, NamesOwner F op) (q : FairQueue) : ∀ a ∈ q.allActs ops, Names F a := by
  induction ops generalizing q with
  | nil => exact fun a member => by cases member
  | cons op ops ih =>
    intro a member
    rcases List.mem_append.mp member with first | rest
    · exact names_acts (own op List.mem_cons_self) q a first
    · exact ih (fun op' member => own op' (List.mem_cons_of_mem _ member)) _ a rest

theorem books_act {F : JobId → String} {q : FairQueue} {a : Act} (books : Books F q)
    (fits : q.Fits a) (own : Names F a) : Books F (q.act a) := by
  cases a with
  | admits jobId tenant priority => exact books_admitJob books own priority
  | enqueue jobId stepId stepName => exact books_enqueue books jobId stepId stepName
  | unplace jobId stepId at' learn => exact books_unplace books jobId stepId at' learn
  | adopt jobId stepId name since => exact books_adopt books jobId stepId name since
  | drop jobId => exact books_drop books fits
  | prune now => exact books_pruneLedgers books now
  | tidy => exact books_dropStaleHeads books
  | grant now tenant t start vft w =>
    exact books_granted books fits.1 fits.2.1 fits.2.2.1 now start vft

end FairQueue

end HullCi.Control
