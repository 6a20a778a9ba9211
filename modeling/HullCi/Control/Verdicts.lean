/-
**A whole run of one job: its verdict says what its steps did.**

The driver installs a plan and then alternates with step events: the fleet answers, a node renews or
reports, and the driver's own sections follow one another. A green fold accepts skipped steps, so
soundness rests on an invariant of the steps, `Explained`: a skipped step is below a fatal failure
or an errored step, and an errored step names its reason.

* `Explained.move` — a step-wise change keeps the invariant when each step moves legally and a skip
  has a spoiled step behind it.
* `explained_passSteps` — one pass of sweep and graph keeps it, at any depth of the cascade.
* `verdict_sound` — at the first pass where the fold decides, the verdict is what the steps say, and
  no later event changes what is recorded.
-/

import HullCi.Base.Run
import HullCi.Control.Phases

namespace HullCi.Control

open HullCi.Proto HullCi.Base

/-! ### The invariant of the steps -/

/-- Something has gone wrong that decides the job: a fatal failure, or an errored step. -/
def Spoiled (steps : List Step) : Prop :=
  ∃ s ∈ steps, s.failedFatally = true ∨ s.state = .errored

/-- Every skip is below a spoiled step, and every errored step names its reason. -/
structure Explained (steps : List Step) : Prop where
  skipped : (∃ s ∈ steps, s.state = .skipped) → Spoiled steps
  reasoned : ∀ s ∈ steps, s.state = .errored → s.errorReason.isSome = true

/-- A legal move of one step: a terminal step stays, an error has a reason, a skip has a cause. -/
structure StepMove (cause : Prop) (s s' : Step) : Prop where
  terminal : s.state.isTerminal = true → s' = s
  reasoned : s'.state = .errored → s' = s ∨ s'.errorReason.isSome = true
  skipped : s'.state = .skipped → s' = s ∨ cause

theorem StepMove.refl (cause : Prop) (s : Step) : StepMove cause s s :=
  ⟨fun _ => rfl, fun _ => .inl rfl, fun _ => .inl rfl⟩

theorem isTerminal_of_spoiled {s : Step} (spoiled : s.failedFatally = true ∨ s.state = .errored) :
    s.state.isTerminal = true := by
  rcases spoiled with fatal | errored
  · unfold Step.failedFatally at fatal
    rw [(of_decide_eq_true fatal).1]
    rfl
  · rw [errored]
    rfl

/-- A list of legal moves leaves a member of the old list behind each member of the new one. -/
theorem exists_source {R : Step → Step → Prop} {steps steps' : List Step}
    (moves : List.Forall₂ R steps steps') {s' : Step} (member : s' ∈ steps') :
    ∃ s ∈ steps, R s s' := by
  induction moves with
  | nil => cases member
  | cons first _ ih =>
    rcases List.mem_cons.mp member with rfl | member
    · exact ⟨_, List.mem_cons_self, first⟩
    · obtain ⟨s, found, moved⟩ := ih member
      exact ⟨s, List.mem_cons_of_mem _ found, moved⟩

theorem exists_target {R : Step → Step → Prop} {steps steps' : List Step}
    (moves : List.Forall₂ R steps steps') {s : Step} (member : s ∈ steps) :
    ∃ s' ∈ steps', R s s' := by
  induction moves with
  | nil => cases member
  | cons first _ ih =>
    rcases List.mem_cons.mp member with rfl | member
    · exact ⟨_, List.mem_cons_self, first⟩
    · obtain ⟨s', found, moved⟩ := ih member
      exact ⟨s', List.mem_cons_of_mem _ found, moved⟩

theorem Spoiled.move {cause : Prop} {steps steps' : List Step}
    (moves : List.Forall₂ (StepMove cause) steps steps') (spoiled : Spoiled steps) :
    Spoiled steps' := by
  obtain ⟨s, member, how⟩ := spoiled
  obtain ⟨s', member', moved⟩ := exists_target moves member
  obtain rfl := moved.terminal (isTerminal_of_spoiled how)
  exact ⟨s', member', how⟩

/-- **Legal moves keep the invariant.** -/
theorem Explained.move {steps steps' : List Step} (explained : Explained steps)
    (moves : List.Forall₂ (StepMove (Spoiled steps)) steps steps') : Explained steps' := by
  refine ⟨fun ⟨s', member', skipped⟩ => ?_, fun s' member' errored => ?_⟩
  · obtain ⟨s, member, moved⟩ := exists_source moves member'
    have spoiled : Spoiled steps := by
      rcases moved.skipped skipped with rfl | spoiled
      · exact explained.skipped ⟨s', member, skipped⟩
      · exact spoiled
    exact spoiled.move moves
  · obtain ⟨s, member, moved⟩ := exists_source moves member'
    rcases moved.reasoned errored with rfl | reasoned
    · exact explained.reasoned s' member errored
    · exact reasoned

theorem forall₂_map {cause : Prop} {f : Step → Step} {steps : List Step}
    (moves : ∀ s ∈ steps, StepMove cause s (f s)) :
    List.Forall₂ (StepMove cause) steps (steps.map f) :=
  List.forall₂_map_right_iff.mpr (List.forall₂_same.mpr moves)

theorem forall₂_modifyStep {cause : Prop} {f : Step → Step} {id : StepId} {job : Job}
    (moves : ∀ s, job.step id = some s → StepMove cause s (f s)) :
    List.Forall₂ (StepMove cause) job.steps (job.modifyStep id f).steps := by
  show List.Forall₂ (StepMove cause) job.steps (Job.modifyStep.go id f job.steps)
  unfold Job.step at moves
  generalize job.steps = steps at moves
  induction steps with
  | nil => exact .nil
  | cons s rest ih =>
    unfold Job.modifyStep.go
    by_cases here : s.id = id
    · rw [if_pos here]
      have first := moves s (List.find?_cons_of_pos (by simpa using here))
      exact .cons first (List.forall₂_same.mpr fun s _ => .refl cause s)
    · rw [if_neg here]
      rw [List.find?_cons_of_neg (by simpa using here)] at moves
      exact .cons (.refl cause s) (ih moves)

/-- What holds of every step, and of the rewritten one, holds after one step was rewritten. -/
theorem forall_modifyStep {P : Step → Prop} {f : Step → Step} {id : StepId} {job : Job}
    (all : ∀ s ∈ job.steps, P s) (rewritten : ∀ s, job.step id = some s → P (f s)) :
    ∀ s ∈ (job.modifyStep id f).steps, P s := by
  show ∀ s ∈ Job.modifyStep.go id f job.steps, P s
  unfold Job.step at rewritten
  generalize job.steps = steps at all rewritten
  induction steps with
  | nil => exact all
  | cons s rest ih =>
    unfold Job.modifyStep.go
    have tail : ∀ s ∈ rest, P s := fun s member => all s (List.mem_cons_of_mem _ member)
    by_cases here : s.id = id
    · rw [if_pos here]
      have first := rewritten s (List.find?_cons_of_pos (by simpa using here))
      exact List.forall_mem_cons.mpr ⟨first, tail⟩
    · rw [if_neg here]
      rw [List.find?_cons_of_neg (by simpa using here)] at rewritten
      exact List.forall_mem_cons.mpr ⟨all s List.mem_cons_self, ih tail rewritten⟩

/-! ### The sweep and the graph keep it -/

theorem stepMove_sweep (cause : Prop) (t : Timeouts) (now : Instant) (s : Step) :
    StepMove cause s (sweepStep t now s).1 := by
  rcases sweepStep_cases t now s with same | ⟨expiry, legal, same⟩
  · rw [same]
    exact .refl cause s
  · rw [same]
    refine ⟨fun terminal => ?_, fun _ => .inr rfl, fun skipped => by cases skipped⟩
    rw [StepState.isTerminal_stuck terminal] at legal
    cases legal

/-- A move of the graph out of `pending` is legal when a skip has its cause. -/
theorem stepMove_moved {cause : Prop} {now : Instant} {s s' : Step} (pending : s.state = .pending)
    (moved : Moved now s s') (caused : s'.state = .skipped → cause) : StepMove cause s s' := by
  refine ⟨fun terminal => ?_, fun errored => .inr ?_, fun skipped => .inr (caused skipped)⟩
  · rw [pending] at terminal
    cases terminal
  · cases moved with
    | ready | skipped => cases errored
    | broken => rfl

/-- A skip of one pass has a spoiled step behind it, directly or through an earlier skip. -/
theorem explained_pass {now : Instant} {steps : List Step} (explained : Explained steps) :
    Explained (steps.map (passStep now (snapshot steps))) := by
  refine explained.move (forall₂_map fun s _ => ?_)
  rcases passStep_cases now (snapshot steps) s with same | ⟨pending, moved, below⟩
  · rw [same]
    exact .refl _ s
  · refine stepMove_moved pending moved fun skipped => ?_
    obtain ⟨name, -, blocked⟩ := gate_skip (below skipped)
    obtain ⟨dep, member, fatal | errored | gone⟩ := depStatus_blocked blocked
    · exact ⟨dep, member, .inl fatal⟩
    · exact ⟨dep, member, .inr errored⟩
    · exact explained.skipped ⟨dep, member, gone⟩

theorem stepMove_break (cause : Prop) (now : Instant) (s : Step) :
    StepMove cause s (breakStep now s) := by
  unfold breakStep
  by_cases pending : s.state = .pending
  · rw [if_pos pending]
    cases found : errorInfra now cycleDetail s with
    | none => exact .refl cause s
    | some s' =>
      obtain ⟨-, rfl⟩ := errorInfra_eq_some.mp found
      exact stepMove_moved pending (.broken cycleDetail) fun skipped => by cases skipped
  · rw [if_neg pending]
    exact .refl cause s

/-- **One pass of the driver keeps the invariant**, whatever the graph and the clock. -/
theorem explained_passSteps (t : Timeouts) (now : Instant) {steps : List Step}
    (explained : Explained steps) : Explained (passSteps t now steps) := by
  have swept : Explained (sweep t now steps).1 :=
    explained.move (forall₂_map fun s _ => stepMove_sweep _ t now s)
  refine advance_keeps (fun steps => explained_pass) (fun steps explained _ => ?_) swept
  exact explained.move (forall₂_map fun s _ => stepMove_break _ now s)

/-! ### Seeding keeps it -/

theorem seedStep_state (now : Instant) (id : StepId) (spec : StepSpec) (decision : MemoDecision) :
    (seedStep now id spec decision).state ≠ .skipped ∧
      (seedStep now id spec decision).state ≠ .errored := by
  unfold seedStep
  cases decision.hit with
  | none => exact ⟨fun skipped => (by cases skipped), fun errored => (by cases errored)⟩
  | some outcome =>
    cases outcome <;>
      exact ⟨fun skipped => (by cases skipped), fun errored => (by cases errored)⟩

theorem mem_seedSteps {now : Instant} {noise : ℕ → BitVec 32} {i : ℕ}
    {plan : List (StepSpec × MemoDecision)} {s : Step} (member : s ∈ seedSteps now noise i plan) :
    ∃ j spec decision, s = seedStep now (newStepId j (noise j)) spec decision := by
  induction plan generalizing i with
  | nil => cases member
  | cons planned rest ih =>
    rcases List.mem_cons.mp member with rfl | member
    · exact ⟨i, planned.1, planned.2, rfl⟩
    · exact ih member

theorem explained_seedSteps (now : Instant) (noise : ℕ → BitVec 32) (i : ℕ)
    (plan : List (StepSpec × MemoDecision)) : Explained (seedSteps now noise i plan) := by
  refine ⟨fun ⟨s, member, skipped⟩ => ?_, fun s member errored => ?_⟩
  · obtain ⟨j, spec, decision, rfl⟩ := mem_seedSteps member
    exact absurd skipped (seedStep_state now _ spec decision).1
  · obtain ⟨j, spec, decision, rfl⟩ := mem_seedSteps member
    exact absurd errored (seedStep_state now _ spec decision).2

/-! ### Events keep it -/

theorem stepMove_settle {cause : Prop} {t : Timeouts} {leaseTtl : Duration} {now : Instant}
    {result : Except NodeError String} {s s' : Step}
    (settled : settleStep t leaseTtl now result s = some s') : StepMove cause s s' := by
  obtain ⟨-, -, moving, how⟩ := settleStep_cases settled
  refine ⟨fun terminal => ?_, fun errored => ?_, fun skipped => ?_⟩
  · rw [moving] at terminal
    cases terminal
  · rcases how with ⟨leased, -⟩ | ⟨-, reason, -⟩
    · rw [leased] at errored
      cases errored
    · exact .inr (by rw [reason]; rfl)
  · rcases how with ⟨leased, -⟩ | ⟨broken, -⟩
    · rw [leased] at skipped
      cases skipped
    · rw [broken] at skipped
      cases skipped

theorem not_terminal_of_isLeased {s : StepState} (leased : isLeased s = true) :
    s.isTerminal = false := by
  cases s <;> simp_all [isLeased, StepState.isTerminal]

theorem stepMove_report {cause : Prop} {report : StepReport} {fromNode logPrefix : String}
    {now : Instant} {s s' : Step}
    (accepted : reportStep report fromNode logPrefix now s = .ok s') : StepMove cause s s' := by
  obtain ⟨-, -, leased, state, reason⟩ := reportStep_cases accepted
  refine ⟨fun terminal => ?_, fun errored => .inr ?_, fun skipped => ?_⟩
  · rw [not_terminal_of_isLeased leased] at terminal
    cases terminal
  · rw [reason errored]
    rfl
  · rw [state] at skipped
    cases outcome : report.outcome <;> rw [outcome] at skipped <;> cases skipped

theorem stepMove_renew {cause : Prop} {leaseTtl : Duration} {fromNode : String} {now : Instant}
    {s s' : Step} (accepted : renewStep leaseTtl fromNode now s = .ok s') :
    StepMove cause s s' := by
  obtain ⟨-, -, leased, running⟩ := renewStep_cases accepted
  refine ⟨fun terminal => ?_, fun errored => ?_, fun skipped => ?_⟩
  · rw [not_terminal_of_isLeased leased] at terminal
    cases terminal
  · rw [running] at errored
    cases errored
  · rw [running] at skipped
    cases skipped

/-- What an event of the fleet does to a record: nothing, or one legal move of one step. -/
def StepEvent (job job' : Job) : Prop :=
  job' = job ∨ ∃ id s s', job.step id = some s ∧ (∀ cause, StepMove cause s s') ∧
    job' = job.modifyStep id fun _ => s'

theorem StepEvent.rest {job job' : Job} (event : StepEvent job job') :
    job'.verdict = job.verdict ∧ job'.state = job.state := by
  rcases event with rfl | ⟨id, s, s', -, -, rfl⟩
  · exact ⟨rfl, rfl⟩
  · exact ⟨rfl, rfl⟩

theorem StepEvent.explained {job job' : Job} (event : StepEvent job job')
    (explained : Explained job.steps) : Explained job'.steps := by
  rcases event with rfl | ⟨id, s, s', found, moved, rfl⟩
  · exact explained
  · refine explained.move (forall₂_modifyStep fun other found' => ?_)
    obtain rfl := Option.some.inj (found.symm.trans found')
    exact moved _

theorem stepEvent_assigned (t : Timeouts) (leaseTtl : Duration) (now : Instant) (id : StepId)
    (result : Except NodeError String) (job : Job) :
    StepEvent job (settleAssignment t leaseTtl now id result job).1 := by
  rcases settleAssignment_cases t leaseTtl now id result job with
    same | ⟨s, s', found, settled, -, same⟩
  · exact .inl (by rw [same])
  · exact .inr ⟨id, s, s', found, fun _ => stepMove_settle settled, by rw [same]⟩

theorem stepEvent_renewed (leaseTtl : Duration) (id : StepId) (fromNode : String) (now : Instant)
    (job : Job) : StepEvent job ((renewLease leaseTtl id fromNode now job).toOption.getD job) := by
  rcases onStep_cases job id (renewStep leaseTtl fromNode now) with same | ⟨s, s', found, ok, same⟩
  · exact .inl same
  · exact .inr ⟨id, s, s', found, fun _ => stepMove_renew ok, same⟩

theorem stepEvent_reported (report : StepReport) (fromNode : String) (now : Instant) (job : Job) :
    StepEvent job ((recordStepReport report fromNode now job).toOption.getD job) := by
  rcases onStep_cases job report.stepId (reportStep report fromNode _ now) with
    same | ⟨s, s', found, ok, same⟩
  · exact .inl same
  · exact .inr ⟨report.stepId, s, s', found, fun _ => stepMove_report ok, same⟩

/-! ### The driver and its events -/

/-- What one driver reads of the configuration. -/
structure DriverConfig where
  timeouts : Timeouts := {}
  leaseTtl : Duration := fromSecs 30
  detailsUrl : Option String := none
  deriving DecidableEq, Repr

/-- Where the driver of a job stands. -/
inductive Stage
  | driving
  | finishing (cancel : List StepId) (verdict : Verdict)
  | done
  deriving DecidableEq, Repr

/-- A job and its driver. -/
structure Driver where
  job : Job
  stage : Stage
  deriving DecidableEq, Repr

/-- What can happen next: a section of the driver, an event of the fleet or the sender, or a
verdict that comes after the recorded one. -/
inductive Event
  | drive (now : Instant)
  | assigned (step : StepId) (result : Except NodeError String) (now : Instant)
  | renewed (step : StepId) (fromNode : String) (now : Instant)
  | reported (report : StepReport) (fromNode : String) (now : Instant)
  | delivered (attempts : ℕ) (landed : Bool) (now : Instant)
  | late (verdict : Verdict) (now : Instant)

/-- The driver's next section: a pass, one cancelled sibling, or the verdict. -/
def driveStep (cfg : DriverConfig) (now : Instant) (w : Driver) : Driver :=
  match w.stage with
  | .driving =>
    match passJob cfg.timeouts now w.job with
    | (job, .decided d) => ⟨job, .finishing d.cancel d.verdict⟩
    | (job, .jobTimeout) =>
      ⟨job, .finishing (inFlightSteps job) (expiryVerdict .job cfg.timeouts.job)⟩
    | (job, .wait _) => ⟨job, .driving⟩
  | .finishing (id :: rest) v => ⟨skipStep id w.job, .finishing rest v⟩
  | .finishing [] v => ⟨(recordVerdict (linked cfg.detailsUrl v) now w.job).1, .done⟩
  | .done => w

/-- One event. -/
def eventStep (cfg : DriverConfig) (w : Driver) : Event → Driver
  | .drive now => driveStep cfg now w
  | .assigned id result now =>
    { w with job := (settleAssignment cfg.timeouts cfg.leaseTtl now id result w.job).1 }
  | .renewed id fromNode now =>
    { w with job := (renewLease cfg.leaseTtl id fromNode now w.job).toOption.getD w.job }
  | .reported report fromNode now =>
    { w with job := (recordStepReport report fromNode now w.job).toOption.getD w.job }
  | .delivered attempts landed now => { w with job := settleReport attempts landed now w.job }
  | .late v now =>
    { w with job := if w.stage = .done then (recordVerdict v now w.job).1 else w.job }

/-- A fetched and planned record, with its plan installed and its driver in the loop. -/
def launched (id : JobId) (dispatch : Dispatch) (authorClass : AuthorClass)
    (timeouts : Timeouts) (created start : Instant) (noise : ℕ → BitVec 32)
    (specs : List StepSpec) (decisions : List MemoDecision) : Driver :=
  let job := Job.new id dispatch authorClass created timeouts.job
  let job := (job.tryTransitionAt .fetching created).tryTransitionAt .planning start
  ⟨installPlan start noise specs decisions job, .driving⟩

/-! ### What a run keeps -/

/-- Until the verdict is recorded the record is running without one, and in the loop its steps are
explained. -/
structure Undecided (w : Driver) : Prop where
  explained : w.stage = .driving → Explained w.job.steps
  verdict : w.stage ≠ .done → w.job.verdict = none
  running : w.stage ≠ .done → w.job.state = .running

/-- This run answers with `v`, as the pass that decided it said. -/
def Answers (cfg : DriverConfig) (v : Verdict) (w : Driver) : Prop :=
  match w.stage with
  | .driving => False
  | .finishing _ u => u = v ∧ w.job.verdict = none ∧ w.job.state = .running
  | .done => w.job.verdict = some (linked cfg.detailsUrl v) ∧ w.job.state.hasVerdict = true

theorem settleReport_hasVerdict (attempts : ℕ) (landed : Bool) (now : Instant) (job : Job) :
    (settleReport attempts landed now job).state.hasVerdict = job.state.hasVerdict := by
  unfold settleReport
  rw [Job.tryTransitionAt_state]
  cases landed <;> cases state : job.state <;>
    simp_all [JobState.canTransitionTo, JobState.hasVerdict]

theorem settleReport_running (attempts : ℕ) (landed : Bool) (now : Instant) {job : Job}
    (running : job.state = .running) :
    (settleReport attempts landed now job).state = .running := by
  unfold settleReport
  rw [Job.tryTransitionAt_state]
  cases landed <;> simp [running, JobState.canTransitionTo]

/-- What an event that is not the driver's leaves alone. -/
structure Quiet (w w' : Driver) : Prop where
  stage : w'.stage = w.stage
  verdict : w'.job.verdict = w.job.verdict
  running : w.job.state = .running → w'.job.state = .running
  decided : w'.job.state.hasVerdict = w.job.state.hasVerdict
  explained : Explained w.job.steps → Explained w'.job.steps

theorem StepEvent.quiet {w : Driver} {job' : Job} (event : StepEvent w.job job') :
    Quiet w { w with job := job' } where
  stage := rfl
  verdict := event.rest.1
  running := fun running => event.rest.2.trans running
  decided := congrArg _ event.rest.2
  explained := event.explained

/-- Every event but the driver's own sections is quiet on an undecided or a decided record. -/
theorem eventStep_quiet (cfg : DriverConfig) (w : Driver) (e : Event)
    (other : ∀ now, e ≠ .drive now) (guarded : w.stage = .done → w.job.state.hasVerdict = true) :
    Quiet w (eventStep cfg w e) := by
  cases e with
  | drive now => exact absurd rfl (other now)
  | assigned id result now =>
    exact (stepEvent_assigned cfg.timeouts cfg.leaseTtl now id result w.job).quiet
  | renewed id fromNode now => exact (stepEvent_renewed cfg.leaseTtl id fromNode now w.job).quiet
  | reported report fromNode now => exact (stepEvent_reported report fromNode now w.job).quiet
  | delivered attempts landed now =>
    refine ⟨rfl, ?_, settleReport_running attempts landed now,
      settleReport_hasVerdict attempts landed now w.job, fun explained => ?_⟩
    · simp [eventStep, settleReport]
    · simpa [eventStep, settleReport] using explained
  | late v now =>
    have same : eventStep cfg w (.late v now) = w := by
      unfold eventStep
      by_cases done : w.stage = .done
      · simp only [if_pos done, recordVerdict_once (guarded done)]
      · simp only [if_neg done]
    rw [same]
    exact ⟨rfl, rfl, id, rfl, id⟩

/-- Where one pass leaves the driver: in the loop, or with a verdict in hand. -/
theorem driveStep_driving (cfg : DriverConfig) (now : Instant) {w : Driver}
    (driving : w.stage = .driving) :
    (driveStep cfg now w).job = (passJob cfg.timeouts now w.job).1 ∧
      ((driveStep cfg now w).stage = .driving ∨
        ∃ cancel v, (driveStep cfg now w).stage = .finishing cancel v) := by
  unfold driveStep
  simp only [driving]
  cases pass : passJob cfg.timeouts now w.job with
  | mk job next =>
    cases next with
    | decided d => exact ⟨rfl, .inr ⟨d.cancel, d.verdict, rfl⟩⟩
    | jobTimeout => exact ⟨rfl, .inr ⟨_, _, rfl⟩⟩
    | wait deadline => exact ⟨rfl, .inl rfl⟩

/-- What holds of every state of a run: undecided until `done`, and decided there. -/
structure Tracked (w : Driver) : Prop extends Undecided w where
  decided : w.stage = .done → w.job.state.hasVerdict = true

theorem recordVerdict_running {v : Verdict} {now : Instant} {job : Job}
    (running : job.state = .running) :
    (recordVerdict v now job).1.verdict = some v ∧
      (recordVerdict v now job).1.state.hasVerdict = true := by
  rw [recordVerdict_first (by rw [running]; rfl)]
  refine ⟨rfl, ?_⟩
  show (job.tryTransitionAt (.fromStatus v.status) now).state.hasVerdict = true
  rw [Job.tryTransitionAt_state, running]
  cases v.status <;> rfl

/-- The driver's own section keeps what every state satisfies. -/
theorem tracked_drive (cfg : DriverConfig) (now : Instant) {w : Driver} (tracked : Tracked w) :
    Tracked (driveStep cfg now w) := by
  cases stage : w.stage with
  | driving =>
    have open' : w.stage ≠ .done := by rw [stage]; exact fun done => by cases done
    obtain ⟨job, left⟩ := driveStep_driving cfg now stage
    refine ⟨⟨fun _ => ?_, fun _ => ?_, fun _ => ?_⟩, fun done => ?_⟩
    · rw [job]
      exact explained_passSteps _ _ (tracked.explained stage)
    · rw [job]
      exact tracked.verdict open'
    · rw [job]
      exact tracked.running open'
    · rcases left with driving | ⟨cancel, v, finishing⟩
      · rw [driving] at done
        cases done
      · rw [finishing] at done
        cases done
  | finishing cancel v =>
    have open' : w.stage ≠ .done := by rw [stage]; exact fun done => by cases done
    unfold driveStep
    simp only [stage]
    cases cancel with
    | nil =>
      refine ⟨⟨fun driving => (by cases driving), fun open' => absurd rfl open',
        fun open' => absurd rfl open'⟩, fun _ => ?_⟩
      exact (recordVerdict_running (tracked.running open')).2
    | cons id rest =>
      exact ⟨⟨fun driving => (by cases driving), fun _ => tracked.verdict open',
        fun _ => tracked.running open'⟩, fun done => (by cases done)⟩
  | done =>
    unfold driveStep
    simp only [stage]
    exact tracked

theorem tracked_step (cfg : DriverConfig) (w : Driver) (e : Event) (tracked : Tracked w) :
    Tracked (eventStep cfg w e) := by
  by_cases other : ∀ now, e ≠ .drive now
  · have quiet := eventStep_quiet cfg w e other tracked.decided
    refine ⟨⟨fun driving => ?_, fun open' => ?_, fun open' => ?_⟩, fun done => ?_⟩
    · exact quiet.explained (tracked.explained (quiet.stage ▸ driving))
    · exact quiet.verdict.trans (tracked.verdict (quiet.stage ▸ open'))
    · exact quiet.running (tracked.running (quiet.stage ▸ open'))
    · exact quiet.decided.trans (tracked.decided (quiet.stage ▸ done))
  · obtain ⟨now, rfl⟩ : ∃ now, e = .drive now := by simpa using other
    exact tracked_drive cfg now tracked

/-- **Once a pass has decided, the run answers with that verdict and no other.** -/
theorem answers_step (cfg : DriverConfig) (v : Verdict) (w : Driver) (e : Event)
    (answers : Answers cfg v w) : Answers cfg v (eventStep cfg w e) := by
  unfold Answers at answers
  by_cases other : ∀ now, e ≠ .drive now
  · have guarded : w.stage = .done → w.job.state.hasVerdict = true := fun done => by
      rw [done] at answers
      exact answers.2
    have quiet := eventStep_quiet cfg w e other guarded
    unfold Answers
    rw [quiet.stage]
    cases stage : w.stage with
    | driving =>
      rw [stage] at answers
      exact answers
    | finishing cancel u =>
      rw [stage] at answers
      exact ⟨answers.1, quiet.verdict.trans answers.2.1, quiet.running answers.2.2⟩
    | done =>
      rw [stage] at answers
      exact ⟨quiet.verdict.trans answers.1, quiet.decided.trans answers.2⟩
  · obtain ⟨now, rfl⟩ : ∃ now, e = .drive now := by simpa using other
    show Answers cfg v (driveStep cfg now w)
    unfold driveStep
    cases stage : w.stage with
    | driving =>
      rw [stage] at answers
      exact answers.elim
    | finishing cancel u =>
      rw [stage] at answers
      obtain ⟨rfl, verdict, running⟩ := answers
      cases cancel with
      | nil => exact recordVerdict_running running
      | cons id rest => exact ⟨rfl, verdict, running⟩
    | done =>
      show Answers cfg v w
      unfold Answers
      rw [stage] at answers ⊢
      exact answers

/-! ### The whole run -/

section Run

variable (cfg : DriverConfig) (id : JobId) (dispatch : Dispatch) (authorClass : AuthorClass)
  (created start : Instant) (noise : ℕ → BitVec 32) (specs : List StepSpec)
  (decisions : List MemoDecision)

theorem tracked_launched :
    Tracked (launched id dispatch authorClass cfg.timeouts created start noise specs
      decisions) where
  explained _ := explained_seedSteps start noise 0 (decisionsFor specs decisions)
  verdict _ := rfl
  running _ := rfl
  decided done := by cases done

/-- The state of a run after some events. -/
def after (events : List Event) : Driver :=
  run (eventStep cfg)
    (launched id dispatch authorClass cfg.timeouts created start noise specs decisions) events

/-- **The verdict of a whole run is what its steps say, and it stands.** At the first pass where the
fold decides: red exactly when a step failed fatally; green only when every step passed, was cached
or failed tolerably; errored with the reason of the first errored step, or `no_tests` on an empty
plan. Whatever happens next, that verdict is the only one the record can carry. -/
theorem verdict_sound (events : List Event) (now : Instant) (d : Decision)
    (driving : (after cfg id dispatch authorClass created start noise specs decisions events).stage
      = .driving)
    (decides : (passJob cfg.timeouts now
      (after cfg id dispatch authorClass created start noise specs decisions events).job).2
        = .decided d) :
    let w := after cfg id dispatch authorClass created start noise specs decisions events
    let steps := (passJob cfg.timeouts now w.job).1.steps
    (d.verdict.status = .red ↔ ∃ s ∈ steps, s.failedFatally = true) ∧
      (d.verdict.status = .green → ∀ s ∈ steps, s.state = .passed ∨ s.state = .cached ∨
        (s.state = .failed ∧ s.spec.continueOnError = true)) ∧
      (d.verdict.status = .errored → (steps = [] ∧ d.verdict.reason = some .noTests) ∨
        ∃ s, steps.find? (·.state = .errored) = some s ∧
          s.errorReason.isSome = true ∧ d.verdict.reason = s.errorReason) ∧
      ∀ later, Answers cfg d.verdict (run (eventStep cfg) w (.drive now :: later)) := by
  intro w steps
  have tracked : Tracked w := run_invariant (tracked_step cfg)
    (tracked_launched cfg id dispatch authorClass created start noise specs decisions) events
  have decided : fold steps (now - w.job.createdAt) = .decided d := passJob_decided decides
  have explained : Explained steps := explained_passSteps _ _ (tracked.explained driving)
  refine ⟨fold_red decided, fun green s member => ?_, fun errored => ?_, fun later => ?_⟩
  · obtain ⟨terminal, sound, whole⟩ := fold_green decided green s member
    have unskipped : s.state ≠ .skipped := fun skipped => by
      obtain ⟨bad, found, fatal | error⟩ := explained.skipped ⟨s, member, skipped⟩
      · rw [(fold_green decided green bad found).2.2] at fatal
        cases fatal
      · exact (fold_green decided green bad found).2.1 error
    cases state : s.state <;> simp_all [StepState.isTerminal, Step.failedFatally]
  · rcases fold_errored decided errored with empty | ⟨s, found, reason⟩
    · exact .inl empty
    · have state : s.state = .errored := by simpa using List.find?_some found
      have reasoned := explained.reasoned s (List.mem_of_find?_eq_some found) state
      refine .inr ⟨s, found, reasoned, ?_⟩
      obtain ⟨why, same⟩ := Option.isSome_iff_exists.mp reasoned
      rw [reason, same, Option.getD_some]
  · have open' : w.stage ≠ .done := by rw [driving]; exact fun done => by cases done
    refine run_invariant (answers_step cfg d.verdict) ?_ later
    show Answers cfg d.verdict (driveStep cfg now w)
    have pass : passJob cfg.timeouts now w.job
        = ((passJob cfg.timeouts now w.job).1, .decided d) := Prod.ext rfl decides
    unfold driveStep
    rw [driving, pass]
    exact ⟨rfl, tracked.verdict open', tracked.running open'⟩

end Run

/-- A plan of two steps, the second below the first. -/
def chainPlan : List StepSpec :=
  [{ name := "build" }, { name := "test", needs := ["build"] }]

/-- The first step is handed out, and its node reports a failure. -/
def chainEvents : List Event :=
  [.drive 1, .assigned (newStepId 0 0) (.ok "node") 2,
    .reported { jobId := "job", stepId := newStepId 0 0, outcome := .failed } "node" 3]

/-- The chain decides red at the pass after the report, over a step that did fail fatally. -/
theorem verdict_sound_chain :
    ∃ s ∈ (passJob {} 4 (after {} "job" ⟨"t/r", "", "tree", "", "", "", "cb", none⟩ .outsider 0 0
      (fun _ => 0) chainPlan [] chainEvents).job).1.steps, s.failedFatally = true :=
  (verdict_sound {} "job" ⟨"t/r", "", "tree", "", "", "", "cb", none⟩ .outsider 0 0 (fun _ => 0)
    chainPlan [] chainEvents 4
    ⟨.red "step `build` failed — 0s", []⟩ (by decide +kernel) (by decide +kernel)).1.mp
    rfl

end HullCi.Control
