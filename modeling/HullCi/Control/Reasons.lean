/-
**The reason of a verdict, and the reason a node gave.**

A node's report of an errored step carries a typed reason; the control plane writes `infra` whatever
it says. No later event rewrites the step, so the verdict's reason is the reported one exactly when
the node reported `infra` or nothing.

* `reported_infra` — the step of an accepted errored report is errored for `infra` ever after.
* `reason_reaches_iff` — the reported reason reaches the verdict exactly when it is `infra` or absent.
-/

import HullCi.Control.Turns

namespace HullCi.Control

open HullCi.Proto HullCi.Base

theorem recordStepReport_errored {report : StepReport} {fromNode : String} {now : Instant}
    {job job' : Job} (errored : report.outcome = .errored)
    (accepted : recordStepReport report fromNode now job = .ok job') :
    ∃ s, job'.step report.stepId = some s ∧ s.id = report.stepId ∧ s.state = .errored ∧
      s.errorReason = some .infra := by
  unfold recordStepReport onStep at accepted
  cases found : job.step report.stepId with
  | none =>
    rw [found] at accepted
    cases accepted
  | some before =>
    simp only [found] at accepted
    split at accepted
    · cases accepted
    · rename_i s same
      obtain rfl := Except.ok.inj accepted
      obtain ⟨id, -, -, state, reason⟩ := reportStep_cases same
      have own : before.id = report.stepId := (Job.mem_of_step found).2
      have there : s.state = .errored := by rw [state, errored]; rfl
      refine ⟨s, ?_, id.trans own, there, reason there⟩
      rw [Job.step_modifyStep (fun _ _ => id.trans own), if_pos rfl, found]
      rfl

section Run

variable (cfg : DriverConfig) (id : JobId) (dispatch : Dispatch) (authorClass : AuthorClass)
  (created start : Instant) (noise : ℕ → BitVec 32) (specs : List StepSpec)
  (decisions : List MemoDecision)

/-- **The step of an accepted errored report is errored for `infra` ever after.** -/
theorem reported_infra (before later : List Event) {report : StepReport} {fromNode : String}
    {at' : Instant} {job : Job} (errored : report.outcome = .errored)
    (accepted : recordStepReport report fromNode at'
      (after cfg id dispatch authorClass created start noise specs decisions before).job = .ok job)
    (now : Instant) :
    ∃ s, (passSteps cfg.timeouts now
        (after cfg id dispatch authorClass created start noise specs decisions
          (before ++ .reported report fromNode at' :: later)).job.steps).find?
            (·.id = report.stepId) = some s ∧
      s.state = .errored ∧ s.errorReason = some .infra := by
  obtain ⟨s, found, -, state, reason⟩ := recordStepReport_errored errored accepted
  have terminal : s.state.isTerminal = true := by rw [state]; rfl
  have reported : (eventStep cfg
      (after cfg id dispatch authorClass created start noise specs decisions before)
        (.reported report fromNode at')).job.step report.stepId = some s := by
    unfold eventStep
    simp only [accepted]
    exact found
  have still : (run (eventStep cfg) _ later).job.step report.stepId = some s :=
    run_frozen reported terminal later
  refine ⟨s, (turns_passSteps now _).frozen ?_ terminal, state, reason⟩
  unfold after
  rw [run_append, run_cons]
  exact still

theorem reason_reaches_iff (before later : List Event) (report : StepReport) (fromNode : String)
    (at' now : Instant) (job : Job) (d : Decision) (s : Step) (errored : report.outcome = .errored)
    (accepted : recordStepReport report fromNode at'
      (after cfg id dispatch authorClass created start noise specs decisions before).job = .ok job)
    (decides : (passJob cfg.timeouts now
      (after cfg id dispatch authorClass created start noise specs decisions
        (before ++ .reported report fromNode at' :: later)).job).2 = .decided d)
    (status : d.verdict.status = .errored)
    (first : (passJob cfg.timeouts now
      (after cfg id dispatch authorClass created start noise specs decisions
        (before ++ .reported report fromNode at' :: later)).job).1.steps.find?
          (·.state = .errored) = some s)
    (own : s.id = report.stepId) :
    d.verdict.reason = some (report.reason.getD .infra) ↔
      report.reason = none ∨ report.reason = some .infra := by
  obtain ⟨stored, found, -, infra⟩ := reported_infra cfg id dispatch authorClass created start noise
    specs decisions before later errored accepted now
  have distinct := nodup_after cfg id dispatch authorClass created start noise specs decisions
    (before ++ .reported report fromNode at' :: later)
  have turns : Turns cfg (.drive now)
      (after cfg id dispatch authorClass created start noise specs decisions
        (before ++ .reported report fromNode at' :: later)).job.steps _ := turns_passSteps now _
  rw [← turns.ids] at distinct
  have same : s = stored := by
    have mine : (passJob cfg.timeouts now _).1.step s.id = some s :=
      step_of_mem distinct (List.mem_of_find?_eq_some first)
    rw [own] at mine
    exact Option.some.inj (mine.symm.trans found)
  have reason : d.verdict.reason = some .infra := by
    rcases fold_errored (passJob_decided decides) status with ⟨empty, -⟩ | ⟨other, found', reason⟩
    · have none : (passSteps cfg.timeouts now _).find? (·.state = .errored) = some s := first
      rw [empty] at none
      cases none
    · obtain rfl := Option.some.inj (found'.symm.trans first)
      rw [reason, same, infra]
      rfl
  rw [reason]
  cases report.reason with
  | none => simp
  | some r => simp [eq_comm]

end Run

/-- A node's report of the first step, errored for `reason`. -/
def erroredFor (reason : Option Reason) : StepReport :=
  { jobId := "job", stepId := newStepId 0 0, outcome := .errored, reason := reason }

/-- The chain up to that report. -/
def chainLeased : Driver :=
  after {} "job" ⟨"t/r", "", "tree", "", "", "", "cb", none⟩ .outsider 0 0 (fun _ => 0) chainPlan []
    [.drive 1, .assigned (newStepId 0 0) (.ok "node") 2]

/-- The chain at the pass after that report. -/
def chainErrored (reason : Option Reason) : Job × Next :=
  passJob {} 4 (after {} "job" ⟨"t/r", "", "tree", "", "", "", "cb", none⟩ .outsider 0 0 (fun _ => 0)
    chainPlan [] ([.drive 1, .assigned (newStepId 0 0) (.ok "node") 2] ++
      [.reported (erroredFor reason) "node" 3])).job

/-- A report without a reason ends in `infra`. -/
theorem reason_reaches_unstated :
    (Verdict.errored .infra "step `build` errored — no verdict produced").reason = some .infra :=
  (reason_reaches_iff {} "job" ⟨"t/r", "", "tree", "", "", "", "cb", none⟩ .outsider 0 0 (fun _ => 0)
    chainPlan [] [.drive 1, .assigned (newStepId 0 0) (.ok "node") 2] [] (erroredFor none) "node" 3 4
    ((recordStepReport (erroredFor none) "node" 3 chainLeased.job).toOption.getD chainLeased.job)
    ⟨.errored .infra "step `build` errored — no verdict produced", []⟩
    ((chainErrored none).1.steps.headD { id := "", spec := { name := "" } })
    rfl (by decide +kernel) (by decide +kernel) rfl (by decide +kernel) (by decide +kernel)).mpr
      (.inl rfl)

/-- **`no_tests` is reported as `infra`**: the node says that nothing exercises the change, and the
verdict says that the runner broke. -/
theorem no_tests_reported_infra :
    (recordStepReport (erroredFor (some .noTests)) "node" 3 chainLeased.job).toOption.isSome = true ∧
      (chainErrored (some .noTests)).2 =
        .decided ⟨.errored .infra "step `build` errored — no verdict produced", []⟩ ∧
      ((chainErrored (some .noTests)).1.steps.find? (·.state = .errored)).map (·.id) =
        some (erroredFor (some .noTests)).stepId := by
  decide +kernel

end HullCi.Control
