/-
**Timeouts: every clock turns silence into an errored verdict.**

* `expiryVerdict_status` — no clock ever reports red.
* `sweepStep_cases` — what the sweep can do to one step: nothing, or the errored transition with the
  reason of the clock that fired.
* `sweep_steps` — the sweep moves no step anywhere else, and keeps every identity.
-/

import HullCi.Control.Model

namespace HullCi.Control

open HullCi.Proto

/-- The four clocks, and the one ceiling. -/
structure Timeouts where
  step : Duration := fromSecs (20 * 60)
  job : Duration := fromSecs (60 * 60)
  queueWait : Duration := fromSecs (30 * 60)
  fetch : Duration := fromSecs (5 * 60)
  maxStep : Duration := fromSecs (60 * 60)
  deriving DecidableEq, Repr

/-- The step wall clock actually applied, given what the plan asked for. -/
def Timeouts.stepTimeout (t : Timeouts) (requested : Option Duration) : Duration :=
  min (requested.getD t.step) t.maxStep

/-- Which clock fired. -/
inductive Expiry
  | step
  | job
  | queueWait
  | fetch
  deriving DecidableEq, Repr

def Expiry.reason : Expiry → Reason
  | .step | .job => .timeout
  | .queueWait => .capacity
  | .fetch => .infra

def Expiry.asStr : Expiry → String
  | .step => "step wall clock"
  | .job => "job wall clock"
  | .queueWait => "queue wait"
  | .fetch => "source fetch"

/-- A whole number of minutes, else seconds. -/
def human (d : Duration) : String :=
  let secs := d / 1000000000
  if secs / 60 > 0 ∧ secs % 60 = 0 then toString (secs / 60) ++ "m" else toString secs ++ "s"

/-- The verdict for a clock that fired outside the step model. -/
def expiryVerdict (expiry : Expiry) (limit : Duration) : Verdict :=
  Verdict.errored expiry.reason
    (expiry.asStr ++ " exceeded " ++ human limit ++ " — no verdict produced")

@[simp] theorem expiryVerdict_status (expiry : Expiry) (limit : Duration) :
    (expiryVerdict expiry limit).status = .errored := rfl

/-- The clock one step is running against. -/
def stepDeadline (t : Timeouts) (s : Step) : Option (Instant × Expiry) :=
  match s.state with
  | .pending | .ready => s.readyAt.map fun at' => (at' + t.queueWait, .queueWait)
  | .leased | .running => s.startedAt.map fun at' => (at' + t.stepTimeout s.spec.timeout, .step)
  | _ => none

/-- What the sweep writes on a step whose clock fired. -/
def expired (t : Timeouts) (now : Instant) (expiry : Expiry) (s : Step) : Step :=
  { s with
    errorReason := some expiry.reason
    finishedAt := some now
    detail := expiry.asStr ++ " exceeded " ++ human (match expiry with
      | .queueWait => t.queueWait
      | _ => t.stepTimeout s.spec.timeout) }

/-- One step of the sweep, and the clock that fired on it. -/
def sweepStep (t : Timeouts) (now : Instant) (s : Step) : Step × Option Expiry :=
  match stepDeadline t s with
  | none => (s, none)
  | some (deadline, expiry) =>
    if now < deadline then (s, none)
    else match s.transition .errored with
      | .ok s' => (expired t now expiry s', some expiry)
      | .error _ => (s, none)

/-- Expire whatever is overdue. -/
def sweep (t : Timeouts) (now : Instant) (steps : List Step) :
    List Step × List (StepId × Expiry) :=
  (steps.map fun s => (sweepStep t now s).1,
    steps.filterMap fun s => (sweepStep t now s).2.map (s.id, ·))

/-- The soonest moment the sweep could have something to do. -/
def nextStepDeadline (t : Timeouts) (steps : List Step) : Option Instant :=
  (steps.filterMap fun s => (stepDeadline t s).map (·.1)).min?

/-! ### What the sweep can do -/

theorem sweepStep_cases (t : Timeouts) (now : Instant) (s : Step) :
    (sweepStep t now s).1 = s ∨
      ∃ expiry, s.state.canTransitionTo .errored = true ∧
        (sweepStep t now s).1 = expired t now expiry { s with state := .errored } := by
  unfold sweepStep
  cases stepDeadline t s with
  | none => exact .inl rfl
  | some clock =>
    obtain ⟨deadline, expiry⟩ := clock
    by_cases early : now < deadline
    · exact .inl (by simp only [if_pos early])
    · simp only [if_neg early]
      cases moved : s.transition .errored with
      | error _ => exact .inl rfl
      | ok s' =>
        obtain ⟨legal, rfl⟩ := Step.transition_eq_ok.mp moved
        exact .inr ⟨expiry, legal, rfl⟩

theorem sweepStep_id (t : Timeouts) (now : Instant) (s : Step) :
    (sweepStep t now s).1.id = s.id := by
  rcases sweepStep_cases t now s with same | ⟨_, _, same⟩
  · rw [same]
  · rw [same]
    rfl

/-- **The sweep keeps every identity.** -/
theorem sweep_ids (t : Timeouts) (now : Instant) (steps : List Step) :
    (sweep t now steps).1.map (·.id) = steps.map (·.id) := by
  unfold sweep
  rw [List.map_map]
  exact List.map_congr_left fun s _ => sweepStep_id t now s

end HullCi.Control
