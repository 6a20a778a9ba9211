/-
**Leases and the step clock.**

A lease is granted for the longer of the lease time and the *default* step clock, while the step's
own clock is the time its plan asked for, under the ceiling. Without renewals the lease covers the
step exactly when the second is no longer than the first; a step that asks for more is refused
between the two instants, and its report is lost.

* `armed_after` — in every state of a run without renewals a leased step carries the instants its
  assignment armed.
* `lease_covers_iff` — the lease outlives the step's own clock exactly under that bound.
-/

import HullCi.Control.Turns

namespace HullCi.Control

open HullCi.Proto HullCi.Base

/-- What an assignment armed on a step, while a node has it. -/
def Armed (cfg : DriverConfig) (s : Step) : Prop :=
  isLeased s.state = true → ∃ at', s.startedAt = some at' ∧
    s.leaseExpiresAt = some (at' + max cfg.leaseTtl cfg.timeouts.step)

theorem Armed.of_idle {cfg : DriverConfig} {s : Step} (idle : isLeased s.state = false) :
    Armed cfg s := fun leased => by
  rw [idle] at leased
  cases leased

/-- The event renews a lease. -/
def Event.isRenewal : Event → Bool
  | .renewed .. => true
  | _ => false

/-- **Every turn but a renewal keeps what the assignment armed.** -/
theorem Turn.armed {cfg : DriverConfig} {e : Event} (still : e.isRenewal = false) {s s' : Step}
    (turn : Turn cfg e s s') (armed : Armed cfg s) : Armed cfg s' := by
  induction turn with
  | stay => exact armed
  | swept now s =>
    rcases sweepStep_cases cfg.timeouts now s with same | ⟨expiry, -, same⟩
    · rw [same]
      exact armed
    · rw [same]
      exact .of_idle rfl
  | graph pending moved => cases moved <;> exact .of_idle rfl
  | cancelled now s =>
    rw [Step.tryTransition_eq]
    split_ifs
    · exact .of_idle rfl
    · exact armed
  | @assigned id result now s s' settled =>
    cases result with
    | ok node =>
      obtain ⟨moved, -, rfl⟩ := Option.map_eq_some_iff.mp settled
      exact fun _ => ⟨now, rfl, rfl⟩
    | error e =>
      obtain ⟨moved, found, rfl⟩ := Option.map_eq_some_iff.mp settled
      obtain ⟨-, rfl⟩ := Step.toOption_transition_eq_some.mp found
      exact .of_idle rfl
  | renewed => cases still
  | @reported report fromNode logPrefix now s s' accepted =>
    obtain ⟨-, -, -, state, -⟩ := reportStep_cases accepted
    refine .of_idle ?_
    rw [state]
    cases report.outcome <;> rfl
  | trans first next ih ih' => exact ih' still (ih still armed)

/-- The lease of every step that asked for `requested` outlives the step's own clock, and a report
from its node before that clock is not refused for its lease. -/
structure LeaseCovers (cfg : DriverConfig) (requested : Option Duration) (job : Job) : Prop where
  lease : ∀ s ∈ job.steps, s.spec.timeout = requested → isLeased s.state = true →
    ∃ at' expires, s.startedAt = some at' ∧ s.leaseExpiresAt = some expires ∧
      at' + cfg.timeouts.stepTimeout requested ≤ expires
  heard : ∀ (report : StepReport) (fromNode : String) (now : Instant) (s : Step) (at' : Instant),
    job.step report.stepId = some s → s.spec.timeout = requested → s.startedAt = some at' →
      now < at' + cfg.timeouts.stepTimeout requested →
        recordStepReport report fromNode now job ≠ .error .leaseExpired

theorem reportStep_leaseExpired {report : StepReport} {fromNode logPrefix : String} {now : Instant}
    {s : Step} (refused : reportStep report fromNode logPrefix now s = .error .leaseExpired) :
    isLeased s.state = true ∧ ∃ expires, s.leaseExpiresAt = some expires ∧ expires < now := by
  unfold reportStep at refused
  by_cases idle : isLeased s.state = false
  · rw [if_pos idle] at refused
    cases refused
  by_cases stranger : s.nodeId ≠ some fromNode
  · rw [if_neg idle, if_pos stranger] at refused
    cases refused
  by_cases expired : s.leaseExpiresAt.any (· < now)
  · refine ⟨by simpa using idle, ?_⟩
    cases lease : s.leaseExpiresAt with
    | none =>
      rw [lease] at expired
      cases expired
    | some expires =>
      rw [lease] at expired
      exact ⟨expires, rfl, of_decide_eq_true expired⟩
  · rw [if_neg idle, if_neg stranger, if_neg expired] at refused
    cases moved : s.transition (outcomeState report.outcome) with
    | error _ => rw [moved] at refused; cases refused
    | ok _ => rw [moved] at refused; cases refused

theorem recordStepReport_leaseExpired {report : StepReport} {fromNode : String} {now : Instant}
    {job : Job} {s : Step} (found : job.step report.stepId = some s)
    (refused : recordStepReport report fromNode now job = .error .leaseExpired) :
    isLeased s.state = true ∧ ∃ expires, s.leaseExpiresAt = some expires ∧ expires < now := by
  unfold recordStepReport onStep at refused
  simp only [found] at refused
  split at refused
  · rename_i why same
    rw [Except.error.inj refused] at same
    exact reportStep_leaseExpired same
  · cases refused

section Run

variable (cfg : DriverConfig) (id : JobId) (dispatch : Dispatch) (authorClass : AuthorClass)
  (created start : Instant) (noise : ℕ → BitVec 32) (specs : List StepSpec)
  (decisions : List MemoDecision)

/-- **In every state of a run without renewals the leased steps carry what was armed.** -/
theorem armed_after (events : List Event) (still : ∀ e ∈ events, e.isRenewal = false) :
    ∀ s ∈ (after cfg id dispatch authorClass created start noise specs decisions events).job.steps,
      Armed cfg s := by
  refine run_invariant_along (P := fun _ e => e.isRenewal = false)
    (I := fun w : Driver => ∀ s ∈ w.job.steps, Armed cfg s)
    (fun w e armed still => (eventStep_turns cfg w e).keep (Turn.armed still) armed)
    (fun s member => ?_) ?_
  · rw [launched_steps] at member
    obtain ⟨i, spec, decision, rfl⟩ := mem_seedSteps member
    refine .of_idle ?_
    unfold seedStep
    cases decision.hit with
    | none => rfl
    | some outcome => cases outcome <;> rfl
  · exact along_of_forall still _




end Run

/-! ### A step that asks for its own time -/

/-- A job over an empty dispatch. -/
def bareDispatch : Dispatch := ⟨"t/r", "", "tree", "", "", "", "cb", none⟩

/-- One step that asks for `requested`, handed out at once. -/
def leasedAtOnce (cfg : DriverConfig) (requested : Option Duration) : Driver :=
  after cfg "job" bareDispatch .outsider 0 0 (fun _ => 0) [{ name := "test", timeout := requested }] []
    [.drive 0, .assigned (newStepId 0 0) (.ok "node") 0]

theorem leasedAtOnce_steps (cfg : DriverConfig) (requested : Option Duration) :
    ∃ s, (leasedAtOnce cfg requested).job.steps = [s] ∧ s.spec.timeout = requested ∧
      s.state = .leased ∧ s.startedAt = some 0 := by
  have driven : (leasedAtOnce cfg requested).job = (settleAssignment cfg.timeouts cfg.leaseTtl 0
      (newStepId 0 0) (.ok "node") (passJob cfg.timeouts 0 (launched "job" bareDispatch .outsider
        cfg.timeouts 0 0 (fun _ => 0) [{ name := "test", timeout := requested }] []).job).1).1 := by
    rw [← (driveStep_driving cfg 0 rfl).1]
    rfl
  rw [driven]
  exact ⟨_, rfl, rfl, rfl, rfl⟩

theorem lease_covers_iff (cfg : DriverConfig) (requested : Option Duration) :
    (∀ (id : JobId) (dispatch : Dispatch) (authorClass : AuthorClass) (created start : Instant)
        (noise : ℕ → BitVec 32) (specs : List StepSpec) (decisions : List MemoDecision)
        (events : List Event), (∀ e ∈ events, e.isRenewal = false) →
      LeaseCovers cfg requested
        (after cfg id dispatch authorClass created start noise specs decisions events).job) ↔
      cfg.timeouts.stepTimeout requested ≤ max cfg.leaseTtl cfg.timeouts.step := by
  constructor
  · intro covers
    obtain ⟨s, steps, asked, leased, started⟩ := leasedAtOnce_steps cfg requested
    have covered := covers "job" bareDispatch .outsider 0 0 (fun _ => 0)
      [{ name := "test", timeout := requested }] []
      [.drive 0, .assigned (newStepId 0 0) (.ok "node") 0] (by simp [Event.isRenewal])
    have armed := armed_after cfg "job" bareDispatch .outsider 0 0 (fun _ => 0)
      [{ name := "test", timeout := requested }] []
      [.drive 0, .assigned (newStepId 0 0) (.ok "node") 0] (by simp [Event.isRenewal])
    have member : s ∈ (leasedAtOnce cfg requested).job.steps := by
      rw [steps]
      exact List.mem_singleton.mpr rfl
    have held : isLeased s.state = true := by rw [leased]; rfl
    obtain ⟨at', expires, same, lease, le⟩ := covered.lease s member asked held
    obtain ⟨at'', same', lease'⟩ := armed s member held
    obtain rfl := Option.some.inj (same.symm.trans same')
    obtain rfl := Option.some.inj (lease.symm.trans lease')
    exact Nat.le_of_add_le_add_left le
  · intro bound id dispatch authorClass created start noise specs decisions events still
    have armed := armed_after cfg id dispatch authorClass created start noise specs decisions events
      still
    refine ⟨fun s member asked leased => ?_, fun report fromNode now s at' found asked started early
      refused => ?_⟩
    · obtain ⟨at', started, lease⟩ := armed s member leased
      exact ⟨at', _, started, lease, Nat.add_le_add_left bound at'⟩
    · obtain ⟨leased, expires, lease, past⟩ := recordStepReport_leaseExpired found refused
      obtain ⟨at'', started', lease'⟩ := armed s (Job.mem_of_step found).1 leased
      obtain rfl := Option.some.inj (started.symm.trans started')
      obtain rfl := Option.some.inj (lease.symm.trans lease')
      exact absurd (past.trans early) (Nat.not_lt.mpr (Nat.add_le_add_left bound at'))

/-- The defaults, and a step that asks for half an hour of the hour it may have: its node reports a
pass after twenty-five minutes, and is refused. -/
theorem lease_lapses_early :
    ∃ s, (leasedAtOnce {} (some (fromSecs (30 * 60)))).job.step (newStepId 0 0) = some s ∧
      s.startedAt = some 0 ∧ s.nodeId = some "node" ∧ isLeased s.state = true ∧
      fromSecs (25 * 60) < 0 + Timeouts.stepTimeout {} s.spec.timeout ∧
      recordStepReport { jobId := "job", stepId := newStepId 0 0, outcome := .passed } "node"
          (fromSecs (25 * 60)) (leasedAtOnce {} (some (fromSecs (30 * 60)))).job =
        .error .leaseExpired := by
  refine ⟨_, rfl, ?_⟩
  decide +kernel

end HullCi.Control
