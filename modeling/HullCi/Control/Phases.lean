/-
**What the control plane does to one job record, one critical section at a time.**

Each definition is the closure one lock acquisition runs on the record: seeding a plan, one pass of
the driver's loop, settling an assignment, a lease renewal, a node's report, recording the verdict.
The interleaving of these sections is the business of the modules above.

* `passJob_*` — a pass rewrites the steps only.
* `settleStep_cases`, `reportStep_cases`, `renewStep_cases` — what each event can do to one step.
* `recordVerdict_once` — one verdict, ever.
-/

import HullCi.Control.Timeouts
import HullCi.Control.Graph
import HullCi.Control.Aggregate

namespace HullCi.Control

open HullCi.Proto

/-! ### Identifiers -/

/-- Pad a number's digits on the left to a width. -/
def zeroPad (width : ℕ) (digits : List Char) : List Char :=
  List.replicate (width - digits.length) '0' ++ digits

/-- A step id: the index in decimal, and eight hexadecimal digits of noise. -/
def newStepId (index : ℕ) (noise : BitVec 32) : StepId :=
  "step_" ++ String.ofList (zeroPad 2 (Nat.toDigits 10 index)) ++ "_"
    ++ String.ofList (zeroPad 8 (Nat.toDigits 16 noise.toNat))

/-! ### Seeding the plan -/

/-- What the step memo may remember. -/
inductive MemoOutcome
  | passed
  | failed
  deriving DecidableEq, Repr

/-- The subset of states that may be remembered. -/
def MemoOutcome.fromState : StepState → Option MemoOutcome
  | .passed => some .passed
  | .failed => some .failed
  | _ => none

/-- What the memo decided about one step before it was ever scheduled. -/
structure MemoDecision where
  key : Option StepKey := none
  hit : Option MemoOutcome := none
  deriving DecidableEq, Repr

/-- The record of one planned step: a hit resolves it before it is ever scheduled. -/
def seedStep (now : Instant) (id : StepId) (spec : StepSpec) (decision : MemoDecision) : Step :=
  let step : Step := { id := id, spec := spec, memoKey := decision.key }
  match decision.hit with
  | some .passed => { step.tryTransition .cached with finishedAt := some now }
  | some .failed =>
    { step.tryTransition .failed with
      detail := "identical inputs failed recently (step memo)"
      finishedAt := some now }
  | none => step

/-- The steps of a plan; `noise` gives each id its random part. -/
def seedSteps (now : Instant) (noise : ℕ → BitVec 32) :
    ℕ → List (StepSpec × MemoDecision) → List Step
  | _, [] => []
  | i, (spec, decision) :: rest =>
    seedStep now (newStepId i (noise i)) spec decision :: seedSteps now noise (i + 1) rest

/-- One memo decision for each spec, in order; a missing one is the safe default. -/
def decisionsFor (specs : List StepSpec) (decisions : List MemoDecision) :
    List (StepSpec × MemoDecision) :=
  specs.zip (decisions ++ List.replicate (specs.length - decisions.length) ⟨none, none⟩)

/-- The section of `phase_run` that starts the run. -/
def installPlan (now : Instant) (noise : ℕ → BitVec 32) (specs : List StepSpec)
    (decisions : List MemoDecision) (job : Job) : Job :=
  let job := job.tryTransitionAt .running now
  { job with steps := job.steps ++ seedSteps now noise 0 (decisionsFor specs decisions) }

/-! ### One pass of the driver -/

/-- What a pass tells the driver to do. -/
inductive Next
  | decided (d : Decision)
  | jobTimeout
  | wait (deadline : Instant)
  deriving DecidableEq, Repr

/-- The steps after the sweep and the graph. -/
def passSteps (t : Timeouts) (now : Instant) (steps : List Step) : List Step :=
  (advance now (sweep t now steps).1).1

/-- The locked section of `phase_run`'s loop: sweep, advance, then the deadline or the fold. -/
def passJob (t : Timeouts) (now : Instant) (job : Job) : Job × Next :=
  let steps := passSteps t now job.steps
  ({ job with steps := steps },
    if job.deadlineAt ≤ now then .jobTimeout
    else match fold steps (now - job.createdAt) with
      | .decided d => .decided d
      | .undecided => .wait (match nextStepDeadline t steps with
        | none => job.deadlineAt
        | some deadline => min deadline job.deadlineAt))

/-- The steps a job timeout cancels. -/
def inFlightSteps (job : Job) : List StepId :=
  (job.steps.filter (·.state.isInFlight)).map (·.id)

/-! ### Events on one step -/

/-- Why the fleet did not take a step. -/
inductive NodeError
  | unwired
  | noCapacity
  | rejected (why : String)
  deriving DecidableEq, Repr

/-- The text of a `NodeError`. -/
def NodeError.text : NodeError → String
  | .unwired => "no node fleet is wired into this control plane"
  | .noCapacity => "no capacity"
  | .rejected why => "node rejected the assignment: " ++ why

/-- The section of `settle_assignment`: what the fleet said about one granted step. -/
def settleStep (t : Timeouts) (leaseTtl : Duration) (now : Instant)
    (result : Except NodeError String) (s : Step) : Option Step :=
  match result with
  | .ok nodeId => (s.transition .leased).toOption.map fun s' => { s' with
      nodeId := some nodeId
      attempt := s'.attempt + 1
      startedAt := some now
      leaseExpiresAt := some (now + max leaseTtl t.step) }
  | .error e => (s.transition .errored).toOption.map fun s' => { s' with
      errorReason := some .infra
      detail := sanitizeSummary e.text summaryMaxChars
      finishedAt := some now }

/-- `settle_assignment` on the record it found; the flag says whether the step left `ready`. -/
def settleAssignment (t : Timeouts) (leaseTtl : Duration) (now : Instant) (id : StepId)
    (result : Except NodeError String) (job : Job) : Job × Bool :=
  match result with
  | .error .noCapacity => (job, false)
  | result =>
    match job.step id with
    | none => (job, false)
    | some s =>
      match settleStep t leaseTtl now result s with
      | none => (job, false)
      | some s' => (job.modifyStep id fun _ => s', true)

/-- Why a node's message was refused. -/
inductive ReportRejected
  | unknownJob
  | unknownStep
  | notLeaseHolder
  | notInFlight
  | leaseExpired
  deriving DecidableEq, Repr

/-- The log key a report may leave on a step: well formed, and under the job's own prefix. -/
def acceptedLogKey (reported : Option String) (prefixed : String) : Option String :=
  match reported with
  | none => none
  | some key =>
    match checkLogKey key with
    | .error _ => none
    | .ok () => if prefixed.toList.isPrefixOf key.toList then some key else none

/-- Where a report puts its step. -/
def outcomeState : StepOutcome → StepState
  | .passed => .passed
  | .failed => .failed
  | .errored => .errored

/-- In the hands of a node. -/
def isLeased (s : StepState) : Bool :=
  s = .leased ∨ s = .running

/-- The section of `record_step_report`, past the lookups. -/
def reportStep (report : StepReport) (fromNode : String) (logPrefix : String) (now : Instant)
    (s : Step) : Except ReportRejected Step :=
  if isLeased s.state = false then .error .notInFlight
  else if s.nodeId ≠ some fromNode then .error .notLeaseHolder
  else if s.leaseExpiresAt.any (· < now) then .error .leaseExpired
  else match s.transition (outcomeState report.outcome) with
    | .error _ => .error .notInFlight
    | .ok s' => .ok { s' with
        exitCode := report.exitCode
        logKey := acceptedLogKey report.logKey logPrefix
        detail := sanitizeSummary report.detail summaryMaxChars
        finishedAt := some now
        errorReason :=
          if outcomeState report.outcome = .errored then some .infra else s'.errorReason }

/-- The section of `renew_lease`, past the lookups. -/
def renewStep (leaseTtl : Duration) (fromNode : String) (now : Instant) (s : Step) :
    Except ReportRejected Step :=
  if s.nodeId ≠ some fromNode then .error .notLeaseHolder
  else if isLeased s.state = false then .error .notInFlight
  else
    let s := { s with leaseExpiresAt := some (now + leaseTtl) }
    .ok (if s.state = .leased then s.tryTransition .running else s)

/-- Run a fallible section on the step with this id. -/
def onStep (job : Job) (id : StepId) (f : Step → Except ReportRejected Step) :
    Except ReportRejected Job :=
  match job.step id with
  | none => .error .unknownStep
  | some s =>
    match f s with
    | .error why => .error why
    | .ok s' => .ok (job.modifyStep id fun _ => s')

/-- `Control::record_step_report` on the record it found. -/
def recordStepReport (report : StepReport) (fromNode : String) (now : Instant) (job : Job) :
    Except ReportRejected Job :=
  let logPrefix := job.dispatch.tenant ++ "/" ++ job.dispatch.repo ++ "/" ++ job.dispatch.treeId
    ++ "/"
  onStep job report.stepId (reportStep report fromNode logPrefix now)

/-- `Control::renew_lease` on the record it found. -/
def renewLease (leaseTtl : Duration) (stepId : StepId) (fromNode : String) (now : Instant)
    (job : Job) : Except ReportRejected Job :=
  onStep job stepId (renewStep leaseTtl fromNode now)

/-- What a report leaves for the step memo. -/
def toMemoize (job : Job) (stepId : StepId) : Option (String × StepKey × MemoOutcome) := do
  let s ← job.step stepId
  let key ← s.memoKey
  let outcome ← MemoOutcome.fromState s.state
  return (job.dispatch.tenant, key, outcome)

/-- The last section of `cancel_steps`. -/
def skipStep (id : StepId) (job : Job) : Job :=
  job.modifyStep id (·.tryTransition .skipped)

/-! ### The verdict -/

/-- The verdict as it is recorded, with its link when the deployment has one. -/
def linked (detailsUrl : Option String) (v : Verdict) : Verdict :=
  match detailsUrl with
  | none => v
  | some url => v.withDetailsUrl url

/-- The first section of `finish`; the flag says whether the verdict was recorded. -/
def recordVerdict (v : Verdict) (now : Instant) (job : Job) : Job × Bool :=
  if job.state.hasVerdict then (job, false)
  else ({ job.tryTransitionAt (.fromStatus v.status) now with verdict := some v }, true)

/-- The section of `report` that settles a delivery. -/
def settleReport (attempts : ℕ) (delivered : Bool) (now : Instant) (job : Job) : Job :=
  let job := { job with reportAttempts := job.reportAttempts + attempts }
  job.tryTransitionAt (if delivered then .reported else .reportFailed) now

/-! ### What each section can do -/

theorem passJob_decided {t : Timeouts} {now : Instant} {job : Job} {d : Decision}
    (decided : (passJob t now job).2 = .decided d) :
    fold (passSteps t now job.steps) (now - job.createdAt) = .decided d := by
  unfold passJob at decided
  dsimp only at decided
  by_cases late : job.deadlineAt ≤ now
  · rw [if_pos late] at decided
    cases decided
  · rw [if_neg late] at decided
    cases folded : fold (passSteps t now job.steps) (now - job.createdAt) with
    | undecided =>
      rw [folded] at decided
      cases decided
    | decided d' =>
      rw [folded] at decided
      obtain rfl := Next.decided.inj decided
      rfl

theorem settleStep_cases {t : Timeouts} {leaseTtl : Duration} {now : Instant}
    {result : Except NodeError String} {s s' : Step}
    (settled : settleStep t leaseTtl now result s = some s') :
    s'.id = s.id ∧ s'.spec = s.spec ∧ s.state.isTerminal = false ∧
      ((s'.state = .leased ∧ s.state = .ready ∧ ∃ node, result = .ok node) ∨
        (s'.state = .errored ∧ s'.errorReason = some .infra ∧ ∃ e, result = .error e)) := by
  cases result with
  | ok node =>
    obtain ⟨moved, found, rfl⟩ := Option.map_eq_some_iff.mp settled
    obtain ⟨legal, rfl⟩ := Step.toOption_transition_eq_some.mp found
    have ready : s.state = .ready := by
      cases state : s.state <;> simp_all [StepState.canTransitionTo]
    exact ⟨rfl, rfl, by rw [ready]; rfl, .inl ⟨rfl, ready, node, rfl⟩⟩
  | error e =>
    obtain ⟨moved, found, rfl⟩ := Option.map_eq_some_iff.mp settled
    obtain ⟨legal, rfl⟩ := Step.toOption_transition_eq_some.mp found
    have moving : s.state.isTerminal = false := by
      cases state : s.state <;> simp_all [StepState.canTransitionTo, StepState.isTerminal]
    exact ⟨rfl, rfl, moving, .inr ⟨rfl, rfl, e, rfl⟩⟩

/-- A settled assignment rewrites one step, and its flag says so. -/
theorem settleAssignment_cases (t : Timeouts) (leaseTtl : Duration) (now : Instant) (id : StepId)
    (result : Except NodeError String) (job : Job) :
    settleAssignment t leaseTtl now id result job = (job, false) ∨
      ∃ s s', job.step id = some s ∧ settleStep t leaseTtl now result s = some s' ∧
        result ≠ .error .noCapacity ∧
        settleAssignment t leaseTtl now id result job = (job.modifyStep id fun _ => s', true) := by
  unfold settleAssignment
  split
  · exact .inl rfl
  · rename_i result' admitted
    cases found : job.step id with
    | none => exact .inl rfl
    | some s =>
      cases settled : settleStep t leaseTtl now result s with
      | none => exact .inl (by simp only [settled])
      | some s' => exact .inr ⟨s, s', rfl, settled, admitted, by simp only [settled]⟩

theorem reportStep_cases {report : StepReport} {fromNode logPrefix : String} {now : Instant}
    {s s' : Step} (accepted : reportStep report fromNode logPrefix now s = .ok s') :
    s'.id = s.id ∧ s'.spec = s.spec ∧ isLeased s.state = true ∧
      s'.state = outcomeState report.outcome ∧
      (s'.state = .errored → s'.errorReason = some .infra) := by
  unfold reportStep at accepted
  by_cases idle : isLeased s.state = false
  · rw [if_pos idle] at accepted
    cases accepted
  by_cases stranger : s.nodeId ≠ some fromNode
  · rw [if_neg idle, if_pos stranger] at accepted
    cases accepted
  by_cases expired : s.leaseExpiresAt.any (· < now)
  · rw [if_neg idle, if_neg stranger, if_pos expired] at accepted
    cases accepted
  rw [if_neg idle, if_neg stranger, if_neg expired] at accepted
  have leased : isLeased s.state = true := by simpa using idle
  cases moved : s.transition (outcomeState report.outcome) with
  | error _ => rw [moved] at accepted; cases accepted
  | ok m =>
    rw [moved] at accepted
    obtain rfl := Except.ok.inj accepted
    obtain ⟨-, rfl⟩ := Step.transition_eq_ok.mp moved
    refine ⟨rfl, rfl, leased, rfl, fun errored => ?_⟩
    have there : outcomeState report.outcome = .errored := errored
    show (if outcomeState report.outcome = .errored then some Reason.infra else s.errorReason) = _
    rw [if_pos there]

theorem renewStep_cases {leaseTtl : Duration} {fromNode : String} {now : Instant} {s s' : Step}
    (accepted : renewStep leaseTtl fromNode now s = .ok s') :
    s'.id = s.id ∧ s'.spec = s.spec ∧ isLeased s.state = true ∧ s'.state = .running := by
  unfold renewStep at accepted
  split_ifs at accepted with holder idle
  have leased : isLeased s.state = true := by simpa using idle
  obtain rfl := Except.ok.inj accepted
  by_cases waiting : s.state = .leased
  · simp [waiting, Step.tryTransition_state, StepState.canTransitionTo, isLeased]
  · have running : s.state = .running := by
      simpa [isLeased, waiting] using leased
    simp [running, isLeased]

/-- A section on one step either leaves the record alone or rewrites the step it found. -/
theorem onStep_cases (job : Job) (id : StepId) (f : Step → Except ReportRejected Step) :
    (onStep job id f).toOption.getD job = job ∨
      ∃ s s', job.step id = some s ∧ f s = .ok s' ∧
        (onStep job id f).toOption.getD job = job.modifyStep id fun _ => s' := by
  unfold onStep
  cases found : job.step id with
  | none => exact .inl rfl
  | some s =>
    cases moved : f s with
    | error why => exact .inl (by simp only [moved]; rfl)
    | ok s' => exact .inr ⟨s, s', rfl, moved, by simp only [moved]; rfl⟩

/-- **One verdict, ever**: a decided record keeps its verdict. -/
theorem recordVerdict_once {v : Verdict} {now : Instant} {job : Job}
    (decided : job.state.hasVerdict = true) : recordVerdict v now job = (job, false) := by
  unfold recordVerdict
  rw [if_pos decided]

theorem recordVerdict_first {v : Verdict} {now : Instant} {job : Job}
    (live : job.state.hasVerdict = false) :
    recordVerdict v now job =
      ({ job.tryTransitionAt (.fromStatus v.status) now with verdict := some v }, true) := by
  unfold recordVerdict
  rw [if_neg (by rw [live]; exact Bool.false_ne_true)]

end HullCi.Control
