/-
**The job and step model.**

```
job  : queued → fetching → planning → running → {green | red | errored} → reported
step : pending → ready → leased → running → {passed | failed | errored | cached | skipped}
```

The transition tables are exhaustive: an edge that is not listed is an error, never absorbed.

* `JobState.hasVerdict_of_canTransitionTo` — a decided job stays decided.
* `StepState.isTerminal_stuck` — a terminal step never moves again.
* `Job.mem_addCallbackUrl` — attaching a destination adds that one and keeps the others.
-/

import HullCi.Proto.Contract
import HullCi.Base.Table

namespace HullCi.Control

open HullCi.Proto

abbrev JobId := String

abbrev StepId := String

/-- A monotonic clock reading, in nanoseconds. -/
abbrev Instant := ℕ

/-- A length of time, in nanoseconds. -/
abbrev Duration := ℕ

def fromSecs (secs : ℕ) : Duration := secs * 1000000000

/-! ### Jobs -/

/-- Where a job is in its life; the last two are the delivery half. -/
inductive JobState
  | queued
  | fetching
  | planning
  | running
  | green
  | red
  | errored
  | reported
  | reportFailed
  deriving DecidableEq, Repr

namespace JobState

def fromStatus : Status → JobState
  | .green => .green
  | .red => .red
  | .errored => .errored

/-- A job that has decided. It may still owe Hull a callback. -/
def hasVerdict : JobState → Bool
  | .green | .red | .errored | .reported | .reportFailed => true
  | _ => false

/-- A job that will never run another step. -/
def isFinished (s : JobState) : Bool :=
  s.hasVerdict

/-- Hull has not confirmed hearing this job's answer. -/
def owesAVerdict : JobState → Bool
  | .reported => false
  | _ => true

def asStr : JobState → String
  | .queued => "queued"
  | .fetching => "fetching"
  | .planning => "planning"
  | .running => "running"
  | .green => "green"
  | .red => "red"
  | .errored => "errored"
  | .reported => "reported"
  | .reportFailed => "report_failed"

/-- The legal edges. -/
def canTransitionTo : JobState → JobState → Bool
  | .queued, .fetching => true
  | .fetching, .planning => true
  | .planning, .running => true
  | .running, .green | .running, .red | .running, .errored => true
  | .queued, .errored | .fetching, .errored | .planning, .errored => true
  | .green, .reported | .red, .reported | .errored, .reported => true
  | .green, .reportFailed | .red, .reportFailed | .errored, .reportFailed => true
  | .reportFailed, .reported => true
  | _, _ => false

@[simp] theorem hasVerdict_fromStatus (s : Status) : (fromStatus s).hasVerdict = true := by
  cases s <;> rfl

@[simp] theorem fromStatus_ne_reported (s : Status) : fromStatus s ≠ .reported := by
  cases s <;> decide

/-- **A decided job stays decided.** -/
theorem hasVerdict_of_canTransitionTo {s next : JobState} (decided : s.hasVerdict = true)
    (legal : s.canTransitionTo next = true) : next.hasVerdict = true := by
  cases s <;> cases next <;> simp_all [hasVerdict, canTransitionTo]

end JobState

/-! ### Steps -/

/-- Where one step is. -/
inductive StepState
  | pending
  | ready
  | leased
  | running
  | passed
  | failed
  | errored
  | cached
  | skipped
  deriving DecidableEq, Repr

namespace StepState

/-- No further transition leaves this state. -/
def isTerminal : StepState → Bool
  | .passed | .failed | .errored | .cached | .skipped => true
  | _ => false

/-- Still occupying capacity somewhere. -/
def isInFlight (s : StepState) : Bool :=
  !s.isTerminal

def asStr : StepState → String
  | .pending => "pending"
  | .ready => "ready"
  | .leased => "leased"
  | .running => "running"
  | .passed => "passed"
  | .failed => "failed"
  | .errored => "errored"
  | .cached => "cached"
  | .skipped => "skipped"

/-- The legal edges. -/
def canTransitionTo : StepState → StepState → Bool
  | .pending, .ready => true
  | .ready, .leased => true
  | .leased, .running => true
  | .leased, .passed | .leased, .failed | .leased, .errored => true
  | .running, .passed | .running, .failed | .running, .errored => true
  -- A lease that expires puts the step back on the queue.
  | .leased, .ready | .running, .ready => true
  -- Both halves of a memo hit: a remembered failure is served as `failed`.
  | .pending, .cached | .ready, .cached => true
  | .pending, .failed | .ready, .failed => true
  | .pending, .skipped | .ready, .skipped | .leased, .skipped | .running, .skipped => true
  | .pending, .errored | .ready, .errored => true
  | _, _ => false

/-- **A terminal step never moves again.** -/
theorem isTerminal_stuck {s : StepState} (terminal : s.isTerminal = true) (next : StepState) :
    s.canTransitionTo next = false := by
  cases s <;> cases next <;> simp_all [isTerminal, canTransitionTo]

end StepState

/-- An edge the tables do not list, by the names of its ends. -/
inductive StateError
  | job (source target : String)
  | step (source target : String)
  deriving DecidableEq, Repr

/-- What the planner emitted for one step. -/
structure StepSpec where
  name : String
  argv : List String := []
  image : String := ""
  timeout : Option Duration := none
  continueOnError : Bool := false
  needs : List String := []
  secrets : List String := []
  inputs : List String := []
  envAllowlist : List (String × String) := []
  deriving DecidableEq, Repr

/-- A step's memo key. -/
abbrev StepKey := String

/-- One step of a job, with the fields `Step::new` starts it with. -/
structure Step where
  id : StepId
  spec : StepSpec
  state : StepState := .pending
  attempt : ℕ := 0
  nodeId : Option String := none
  leaseExpiresAt : Option Instant := none
  readyAt : Option Instant := none
  startedAt : Option Instant := none
  finishedAt : Option Instant := none
  exitCode : Option ℤ := none
  logKey : Option String := none
  detail : String := ""
  errorReason : Option Reason := none
  memoKey : Option StepKey := none
  deriving DecidableEq, Repr

namespace Step

def transition (s : Step) (next : StepState) : Except StateError Step :=
  if s.state.canTransitionTo next then .ok { s with state := next }
  else .error (.step s.state.asStr next.asStr)

/-- A transition whose refusal the caller ignores. -/
def tryTransition (s : Step) (next : StepState) : Step :=
  (s.transition next).toOption.getD s

/-- A failure that decides the verdict. -/
def failedFatally (s : Step) : Bool :=
  s.state = .failed ∧ s.spec.continueOnError = false

theorem transition_eq_ok {s s' : Step} {next : StepState} :
    s.transition next = .ok s' ↔
      s.state.canTransitionTo next = true ∧ s' = { s with state := next } := by
  unfold transition
  split
  · rename_i legal
    simp only [Except.ok.injEq, legal, true_and]
    exact eq_comm
  · rename_i illegal
    simp [illegal]

theorem toOption_transition_eq_some {s s' : Step} {next : StepState} :
    (s.transition next).toOption = some s' ↔
      s.state.canTransitionTo next = true ∧ s' = { s with state := next } := by
  rw [← transition_eq_ok]
  cases s.transition next <;> simp [Except.toOption]

theorem tryTransition_eq (s : Step) (next : StepState) :
    s.tryTransition next =
      if s.state.canTransitionTo next then { s with state := next } else s := by
  unfold tryTransition transition
  split <;> rfl

@[simp] theorem tryTransition_id (s : Step) (next : StepState) :
    (s.tryTransition next).id = s.id := by
  rw [tryTransition_eq]
  split <;> rfl

@[simp] theorem tryTransition_spec (s : Step) (next : StepState) :
    (s.tryTransition next).spec = s.spec := by
  rw [tryTransition_eq]
  split <;> rfl

theorem tryTransition_state (s : Step) (next : StepState) :
    (s.tryTransition next).state =
      if s.state.canTransitionTo next then next else s.state := by
  rw [tryTransition_eq]
  split <;> rfl

end Step

/-! ### The job record -/

/-- One job, as the replica that drives it records it. -/
structure Job where
  id : JobId
  dispatch : Dispatch
  authorClass : AuthorClass
  state : JobState
  steps : List Step
  verdict : Option Verdict
  createdAt : Instant
  deadlineAt : Instant
  reportAttempts : ℕ
  callbackUrls : List String
  delivering : Bool
  lastDeliveryAt : Option Instant
  settledAt : Option Instant
  deriving DecidableEq, Repr

/-- The idempotency key: which tree of which repository. -/
structure TreeKey where
  repo : String
  treeId : String
  deriving DecidableEq, Repr

namespace Job

def new (id : JobId) (dispatch : Dispatch) (authorClass : AuthorClass) (now : Instant)
    (jobTimeout : Duration) : Job where
  id := id
  dispatch := dispatch
  authorClass := authorClass
  state := .queued
  steps := []
  verdict := none
  createdAt := now
  deadlineAt := now + jobTimeout
  reportAttempts := 0
  callbackUrls := [dispatch.callbackUrl]
  delivering := false
  lastDeliveryAt := none
  settledAt := none

/-- Record a destination that must receive this job's verdict, once. -/
def addCallbackUrl (job : Job) (url : String) : Job :=
  if url ∈ job.callbackUrls then job
  else { job with callbackUrls := job.callbackUrls ++ [url] }

/-- A verdict Hull never received, that nothing is retrying, and that has cooled down. -/
def awaitsRedelivery (job : Job) (now : Instant) (cooldown : Duration) : Bool :=
  job.state = .reportFailed ∧ job.delivering = false ∧
    job.lastDeliveryAt.all fun t => decide (cooldown ≤ now - t)

def key (job : Job) : TreeKey :=
  ⟨job.dispatch.repo, job.dispatch.treeId⟩

/-- `Job::transition_at`: the first terminal transition stamps `settled_at`. -/
def transitionAt (job : Job) (next : JobState) (now : Instant) : Except StateError Job :=
  if job.state.canTransitionTo next then
    .ok { job with
      state := next
      settledAt := if next.isFinished ∧ job.settledAt.isNone then some now else job.settledAt }
  else .error (.job job.state.asStr next.asStr)

/-- A job transition whose refusal the caller ignores. -/
def tryTransitionAt (job : Job) (next : JobState) (now : Instant) : Job :=
  (job.transitionAt next now).toOption.getD job

def step (job : Job) (id : StepId) : Option Step :=
  job.steps.find? (·.id = id)

/-- Rewrite the first step with this id, the one `Job::step_mut` finds. -/
def modifyStep (job : Job) (id : StepId) (f : Step → Step) : Job :=
  { job with steps := go job.steps }
where
  go : List Step → List Step
    | [] => []
    | s :: rest => if s.id = id then f s :: rest else s :: go rest

theorem step_modifyStep {job : Job} {id : StepId} {f : Step → Step}
    (keeps : ∀ s, job.step id = some s → (f s).id = id) (id' : StepId) :
    (job.modifyStep id f).step id' =
      if id' = id then (job.step id).map f else job.step id' := by
  show (modifyStep.go id f job.steps).find? (·.id = id') =
    if id' = id then (job.steps.find? (·.id = id)).map f else job.steps.find? (·.id = id')
  unfold Job.step at keeps
  generalize job.steps = steps at keeps ⊢
  induction steps with
  | nil => split <;> rfl
  | cons s rest ih =>
    unfold modifyStep.go
    by_cases here : s.id = id
    · have first : (s :: rest).find? (·.id = id) = some s :=
        List.find?_cons_of_pos (by simpa using here)
      have kept : (f s).id = id := keeps s first
      rw [if_pos here, first]
      by_cases same : id' = id
      · subst same
        rw [if_pos rfl, List.find?_cons_of_pos (by simpa using kept)]
        rfl
      · rw [if_neg same, List.find?_cons_of_neg (by simpa [kept] using Ne.symm same),
          List.find?_cons_of_neg (by simpa [here] using Ne.symm same)]
    · have skipped : (s :: rest).find? (·.id = id) = rest.find? (·.id = id) :=
        List.find?_cons_of_neg (by simpa using here)
      rw [skipped] at keeps ⊢
      rw [if_neg here]
      by_cases same : s.id = id'
      · subst same
        rw [if_neg here, List.find?_cons_of_pos (by simp), List.find?_cons_of_pos (by simp)]
      · rw [List.find?_cons_of_neg (by simpa using same),
          List.find?_cons_of_neg (by simpa using same)]
        exact ih keeps

theorem mem_of_step {job : Job} {id : StepId} {s : Step} (found : job.step id = some s) :
    s ∈ job.steps ∧ s.id = id :=
  ⟨List.mem_of_find?_eq_some found, by simpa using List.find?_some found⟩

theorem mem_addCallbackUrl {job : Job} {url u : String} :
    u ∈ (job.addCallbackUrl url).callbackUrls ↔ u ∈ job.callbackUrls ∨ u = url := by
  unfold addCallbackUrl
  split
  · rename_i known
    constructor
    · exact Or.inl
    · rintro (known | rfl)
      · exact known
      · exact known
  · rw [List.mem_append, List.mem_singleton]

theorem tryTransitionAt_eq (job : Job) (next : JobState) (now : Instant) :
    job.tryTransitionAt next now =
      if job.state.canTransitionTo next then
        { job with
          state := next
          settledAt := if next.isFinished ∧ job.settledAt.isNone then some now
            else job.settledAt }
      else job := by
  unfold tryTransitionAt transitionAt
  split <;> rfl

@[simp] theorem tryTransitionAt_id (job : Job) (next : JobState) (now : Instant) :
    (job.tryTransitionAt next now).id = job.id := by
  rw [tryTransitionAt_eq]
  split <;> rfl

@[simp] theorem tryTransitionAt_dispatch (job : Job) (next : JobState) (now : Instant) :
    (job.tryTransitionAt next now).dispatch = job.dispatch := by
  rw [tryTransitionAt_eq]
  split <;> rfl

@[simp] theorem tryTransitionAt_steps (job : Job) (next : JobState) (now : Instant) :
    (job.tryTransitionAt next now).steps = job.steps := by
  rw [tryTransitionAt_eq]
  split <;> rfl

@[simp] theorem tryTransitionAt_verdict (job : Job) (next : JobState) (now : Instant) :
    (job.tryTransitionAt next now).verdict = job.verdict := by
  rw [tryTransitionAt_eq]
  split <;> rfl

@[simp] theorem tryTransitionAt_callbackUrls (job : Job) (next : JobState) (now : Instant) :
    (job.tryTransitionAt next now).callbackUrls = job.callbackUrls := by
  rw [tryTransitionAt_eq]
  split <;> rfl

@[simp] theorem tryTransitionAt_delivering (job : Job) (next : JobState) (now : Instant) :
    (job.tryTransitionAt next now).delivering = job.delivering := by
  rw [tryTransitionAt_eq]
  split <;> rfl

theorem tryTransitionAt_state (job : Job) (next : JobState) (now : Instant) :
    (job.tryTransitionAt next now).state =
      if job.state.canTransitionTo next then next else job.state := by
  rw [tryTransitionAt_eq]
  split <;> rfl

theorem hasVerdict_tryTransitionAt {job : Job} (decided : job.state.hasVerdict = true)
    (next : JobState) (now : Instant) :
    (job.tryTransitionAt next now).state.hasVerdict = true := by
  rw [tryTransitionAt_state]
  split
  · rename_i legal
    exact JobState.hasVerdict_of_canTransitionTo decided legal
  · exact decided

end Job

end HullCi.Control
