/-
**No step the fleet has taken is left running when its job is decided.**

While a step of an undecided job is not terminal, the job's drive stands in its loop or is about to
cancel that step. What the fleet has taken is Ready until its acceptance is recorded, and then in the
hands of a node until it is reported or cancelled. This holds while no clock and no skip takes a step
away from the fleet (`Attended`).

* `state_move` — what a step does to the state of one step of a job.
* `tended_fires` — every attended step keeps what the fleet has taken in sight.
* `no_orphans` — along every run of attended steps.
-/

import HullCi.System.Answers

namespace HullCi.System

open HullCi.Proto HullCi.Base HullCi.Control

/-! ### The state of one step -/

/-- The state of the step `i` of the job `j`, if its record has it. -/
def stateOf (c : Control) (j : JobId) (i : StepId) : Option StepState :=
  ((c.jobs.get j).bind (·.step i)).map (·.state)

theorem stateOf_eq_some {c : Control} {j : JobId} {i : StepId} {state : StepState} :
    stateOf c j i = some state ↔
      ∃ job s, c.jobs.get j = some job ∧ job.step i = some s ∧ s.state = state := by
  unfold stateOf
  constructor
  · intro found
    obtain ⟨s, known, rfl⟩ := Option.map_eq_some_iff.mp found
    obtain ⟨job, held, step⟩ := Option.bind_eq_some_iff.mp known
    exact ⟨job, s, held, step, rfl⟩
  · rintro ⟨job, s, held, step, rfl⟩
    rw [held, Option.bind_some, step]
    rfl

theorem stateOf_found {c : Control} {j : JobId} {i : StepId} {job : Job}
    (found : c.jobs.get j = some job) : stateOf c j i = (job.step i).map (·.state) := by
  unfold stateOf
  rw [found]
  rfl

/-- What `cancel_steps` has still to make sure of. -/
def CancelAt.remaining : CancelAt → List StepId
  | .check ids => ids
  | .send id rest => id :: rest
  | .skip id rest => id :: rest

/-- The drive of `j` stands in its loop, or is about to cancel the step `i`. -/
def tending (j : JobId) (i : StepId) : Frame → Bool
  | .drive k .pass => k = j
  | .drive k .timedOut => k = j
  | .drive k (.cancel cancelling _) => k = j ∧ i ∈ cancelling.remaining
  | _ => false

theorem owning_of_tending {j : JobId} {i : StepId} {f : Frame} (tends : tending j i f = true) :
    owning j f = true := by
  unfold tending at tends
  split at tends
  · exact tends
  · exact tends
  · simp only [decide_eq_true_eq] at tends
    simp [owning, tends.1]
  · cases tends

theorem Sound.undecided {w : World} (sound : Sound w) {j : JobId} {i : StepId} {f : Frame}
    (member : f ∈ w.frames) (tends : tending j i f = true) :
    ∃ job, w.control.jobs.get j = some job ∧ Undecided job := by
  have phase := (sound.owned j).phase f member (owning_of_tending tends)
  unfold tending at tends
  split at tends
  · obtain rfl := of_decide_eq_true tends
    obtain ⟨job, found, open', -⟩ := phase
    exact ⟨job, found, open'⟩
  · obtain rfl := of_decide_eq_true tends
    obtain ⟨job, found, open', -⟩ := phase
    exact ⟨job, found, open'⟩
  · obtain ⟨rfl, -⟩ := of_decide_eq_true tends
    obtain ⟨job, found, open', -⟩ := phase
    exact ⟨job, found, open'⟩
  · cases tends

/-- What a step does to the state of the step `i` of `j`. -/
inductive StateMove (w : World) (f : Frame) (o : Outcome) (j : JobId) (i : StepId)
    (old new : Option StepState) : Prop
  | same (kept : new = old) : StateMove w f o j i old new
  | installed {specs : List StepSpec} (own : f = .drive j (.install specs)) (none : old = none) :
      StateMove w f o j i old new
  | passed (own : f = .drive j .pass) : StateMove w f o j i old new
  | skipped {rest : List StepId} {v : Verdict} {state : StepState}
      (own : f = .drive j (.cancel (.skip i rest) v)) (after : new = some state)
      (terminal : state.isTerminal = true) : StateMove w f o j i old new
  | leased {p : Pump} {ticket : Ticket} {rest : List Grant} {node : String} (own : f = .pump p)
      (pc : p.pc = .settle ticket (.ok node) rest)
      (mine : ticket.grant.jobId = j ∧ ticket.grant.stepId = i) (before : old = some .ready)
      (after : new = some .leased) : StateMove w f o j i old new
  | refused {p : Pump} {ticket : Ticket} {rest : List Grant} {e : NodeError} (own : f = .pump p)
      (pc : p.pc = .settle ticket (.error e) rest)
      (mine : ticket.grant.jobId = j ∧ ticket.grant.stepId = i) (after : new = some .errored) :
      StateMove w f o j i old new
  | reported {before after : StepState} (held : old = some before)
      (leased : isLeased before = true) (there : new = some after)
      (terminal : after.isTerminal = true) (seen : .reported j i ∈ o.observed) :
      StateMove w f o j i old new
  | renewed {before : StepState} (held : old = some before) (leased : isLeased before = true)
      (there : new = some .running) (own : ∃ fromNode, f = .renewLease j i fromNode) :
      StateMove w f o j i old new
  | dropped (gone : new = none) (idle : ∀ g ∈ w.frames, tending j i g = false) :
      StateMove w f o j i old new

theorem skipped_terminal (s : Step) : (s.tryTransition .skipped).state.isTerminal = true := by
  rw [Step.tryTransition_state]
  cases s.state <;> rfl

theorem outcomeState_terminal (outcome : StepOutcome) :
    (outcomeState outcome).isTerminal = true := by
  cases outcome <;> rfl

theorem settleAssignment_ready (t : Timeouts) (leaseTtl : Duration) (now : Instant) (node : String)
    {job : Job} {i : StepId} {s : Step} (known : job.step i = some s) (ready : s.state = .ready) :
    ∃ s', s'.id = s.id ∧ s'.state = .leased ∧
      settleAssignment t leaseTtl now i (.ok node) job = (job.modifyStep i fun _ => s', true) := by
  have moved : s.transition .leased = .ok { s with state := .leased } :=
    Step.transition_eq_ok.mpr ⟨by rw [ready]; rfl, rfl⟩
  obtain ⟨s', settled, id, leased⟩ : ∃ s', settleStep t leaseTtl now (.ok node) s = some s' ∧
      s'.id = s.id ∧ s'.state = .leased := by
    unfold settleStep
    dsimp only
    rw [moved]
    exact ⟨_, rfl, rfl, rfl⟩
  refine ⟨s', id, leased, ?_⟩
  unfold settleAssignment
  dsimp only
  rw [known]
  dsimp only
  rw [settled]

section Steps

variable {w w' : World} {env : Env} {f : Frame} {o : Outcome} {others : List Frame}
  {j : JobId} {i : StepId}

/-- A section on the step `k` leaves the state of every other step alone. -/
theorem OneStep.state_other {job job' : Job} {k : StepId} (one : OneStep job k job')
    (other : i ≠ k) : (job'.step i).map (·.state) = (job.step i).map (·.state) := by
  rw [one.others i other]

theorem state_modifyStep {job : Job} {s s' : Step} (found : job.step i = some s)
    (same : s'.id = s.id) :
    ((job.modifyStep i fun _ => s').step i).map (·.state) = some s'.state := by
  rw [Job.step_modifyStep (fun s'' found' => same.trans (Job.mem_of_step found).2), if_pos rfl,
    found]
  rfl

theorem settle_state {c : Control} {p : Pump} {ticket : Ticket} {rest : List Grant}
    {result : Except NodeError String} (pc : p.pc = .settle ticket result rest)
    (mine : ticket.grant.jobId = j) (job : Job) :
    StateMove w (.pump p) o j i ((job.step i).map (·.state))
      (((assignmentSettled env c ticket.grant.stepId result job).1.step i).map (·.state)) := by
  by_cases here : i = ticket.grant.stepId
  · subst here
    unfold assignmentSettled
    rcases settleAssignment_cases c.config.timeouts c.config.leaseTtl env.now ticket.grant.stepId
      result job with same | ⟨s, s', found, settled, -, same⟩
    · rw [same]
      exact .same rfl
    · obtain ⟨id, -, -, cause⟩ := settleStep_cases settled
      rw [same, state_modifyStep found id, found, Option.map_some]
      rcases cause with ⟨leased, ready, node, rfl⟩ | ⟨errored, -, e, rfl⟩
      · exact .leased rfl pc ⟨mine, rfl⟩ (congrArg some ready) (congrArg some leased)
      · exact .refused rfl pc ⟨mine, rfl⟩ (congrArg some errored)
  · exact .same ((oneStep_settled env c _ _ job).state_other here)

/-- What a section does to the state of the step `i`. -/
theorem StepsEdit.state_move {g : Job → Job} (edit : StepsEdit env w.control f j g)
    (stepped : f.step env w.control = o) {job : Job} (found : w.control.jobs.get j = some job)
    (blank : early job.state = true → job.steps = [])
    (phase : ∀ specs, f = .drive j (.install specs) → job.state = .planning) :
    StateMove w f o j i ((job.step i).map (·.state)) (((g job).step i).map (·.state)) := by
  cases edit with
  | still same =>
    refine .same ?_
    unfold Job.step
    rw [same]
  | @install specs own =>
    refine .installed own ?_
    have none := blank (by rw [phase specs own]; rfl)
    unfold Job.step
    rw [none]
    rfl
  | pass own => exact .passed own
  | @skip id rest v own skips =>
    subst skips
    by_cases here : i = id
    · subst here
      cases known : job.step i with
      | none =>
        refine .same ?_
        have gone : (skipStep i job).step i = none := by
          unfold skipStep
          rw [Job.step_modifyStep (fun s found' => by rw [known] at found'; cases found'),
            if_pos rfl, known]
          rfl
        rw [gone]
      | some s =>
        refine .skipped own ?_ (skipped_terminal s)
        unfold skipStep
        rw [Job.step_modifyStep (fun s' found' => (Step.tryTransition_id s' _).trans
          (Job.mem_of_step found').2), if_pos rfl, known]
        rfl
    · exact .same ((oneStep_skip id job).state_other here)
  | settle own pc mine settles =>
    subst own settles
    exact settle_state pc mine job
  | @reported report fromNode own mine reports =>
    subst own mine reports
    by_cases here : i = report.stepId
    · subst here
      have move := report_message_moves env w.control report fromNode
      rw [show reportStepOn env w.control report fromNode = o from stepped] at move
      cases move with
      | @reported _ _ _ job' s s' found' known accepted rewritten =>
        obtain rfl := Option.some.inj (found'.symm.trans found)
        obtain ⟨id, -, leased, state, -⟩ := reportStep_cases accepted
        rw [rewritten, state_modifyStep known id, known, Option.map_some]
        exact .reported rfl leased rfl (state ▸ outcomeState_terminal _) (List.mem_singleton_self _)
      | unreported same =>
        rw [same job found]
        exact .same rfl
    · exact .same ((oneStep_reported report fromNode env.now job).state_other here)
  | @renewed stepId fromNode own renews =>
    subst own renews
    by_cases here : i = stepId
    · subst here
      unfold HullCi.System.renewed renewLease
      rcases onStep_cases job i (renewStep w.control.config.leaseTtl fromNode env.now) with
        same | ⟨s, s', known, moved, same⟩
      · rw [same]
        exact .same rfl
      · obtain ⟨id, -, leased, running⟩ := renewStep_cases moved
        rw [same, state_modifyStep known id, known, Option.map_some, running]
        exact .renewed rfl leased rfl ⟨fromNode, rfl⟩
    · exact .same ((oneStep_renewed _ stepId fromNode env.now job).state_other here)

theorem step_new (j : JobId) (d : Dispatch) (a : AuthorClass) (now : Instant) (t : Duration) :
    (Job.new j d a now t).step i = none :=
  rfl

/-- **What a step does to the state of one step of a job.** -/
theorem state_move (sound : Sound w)
    (planned : ∀ j job, w.control.jobs.get j = some job → Planned job)
    (fires : World.Fires w env f o others w') (j : JobId) (i : StepId) :
    StateMove w f o j i (stateOf w.control j i) (stateOf w'.control j i) := by
  have control := fires.control
  cases record_move fires.stepped j with
  | same kept =>
    refine .same ?_
    unfold stateOf
    rw [control, kept]
  | touched touches mapped =>
    cases found : w.control.jobs.get j with
    | none =>
      refine .same ?_
      unfold stateOf
      rw [control, mapped, found]
      rfl
    | some job =>
      rw [found, Option.map_some, ← control] at mapped
      rw [stateOf_found found, stateOf_found mapped]
      refine touches.steps_edit.state_move fires.stepped found (planned j job found).blank
        fun specs own => ?_
      subst own
      obtain ⟨job', known, -, phase⟩ :=
        (sound.owned j).phase _ fires.frames.mem_before (by simp [owning])
      obtain rfl := Option.some.inj (found.symm.trans known)
      exact phase
  | evicted pc found settled _ gone =>
    refine .dropped ?_ fun g member => ?_
    · unfold stateOf
      rw [control, gone]
      rfl
    · by_contra tends
      obtain ⟨job, known, open'⟩ := sound.undecided member (by simpa using tends)
      obtain rfl := Option.some.inj (found.symm.trans known)
      rw [open'.settledAt] at settled
      cases settled
  | @rolledBack a pc gone =>
    refine .dropped ?_ fun g member => ?_
    · unfold stateOf
      rw [control, gone]
      rfl
    · by_contra tends
      have tends : tending j i g = true := by simpa using tends
      have creator : owning j (.accept a) = true := by simp [owning, pc, creatingAt]
      obtain rfl := eq_of_countP_le_one (sound.owned j).single fires.frames.mem_before creator
        member (owning_of_tending tends)
      cases tends
  | inserted _ absent fresh =>
    refine .same ?_
    unfold stateOf
    rw [control, fresh, absent, Option.bind_some, step_new]
    rfl
  | foreign _ written =>
    refine .same ?_
    unfold stateOf
    rw [control, written, Option.bind_some]
    cases w.control.jobs.get j with
    | none => rfl
    | some job => rfl

/-- The job's drive stands in its loop, or is about to cancel the step. -/
def Tends (w : World) (j : JobId) (i : StepId) : Prop :=
  ∃ g ∈ w.frames, tending j i g = true

/-- While a step is not terminal, the drive goes on tending it. -/
theorem tending_goes_on
    (planned : ∀ j job, w.control.jobs.get j = some job → Planned job)
    (fires : World.Fires w env f o others w') (tends : tending j i f = true) {state : StepState}
    (found : stateOf w'.control j i = some state) (moving : state.isTerminal = false) :
    ∃ g ∈ o.push ++ o.spawned, tending j i g = true := by
  rw [fires.control] at found
  obtain ⟨job', s, held, known, rfl⟩ := stateOf_eq_some.mp found
  obtain ⟨member, rfl⟩ := Job.mem_of_step known
  have move : FrameMove env w.control f o := fires.stepped ▸ frame_moves env w.control f
  cases move with
  | @drive k pc _ move =>
    cases move with
    | passGone absent =>
      obtain rfl : k = j := by simpa [tending] using tends
      rw [absent] at held
      cases held
    | @decided job d before passed =>
      obtain rfl : k = j := by simpa [tending] using tends
      obtain rfl := Option.some.inj (held.symm.trans (get_withJobMut before))
      have distinct : ((passSteps w.control.config.timeouts env.now job.steps).map (·.id)).Nodup := by
        rw [passSteps_ids]
        exact (planned k job before).distinct
      have listed := cancel_complete distinct (passJob_decided passed) member moving
      exact ⟨_, List.mem_singleton_self _, by simpa [tending, CancelAt.remaining] using listed⟩
    | late =>
      obtain rfl : k = j := by simpa [tending] using tends
      exact ⟨_, List.mem_singleton_self _, by simp [tending]⟩
    | waits =>
      obtain rfl : k = j := by simpa [tending] using tends
      exact ⟨_, List.mem_cons_of_mem _ (List.mem_singleton_self _), by simp [tending]⟩
    | timedOut =>
      obtain rfl : k = j := by simpa [tending] using tends
      refine ⟨_, List.mem_singleton_self _, ?_⟩
      have listed : s.id ∈ inFlightSteps job' :=
        List.mem_map.mpr ⟨s, List.mem_filter.mpr ⟨member, by simp [StepState.isInFlight, moving]⟩, rfl⟩
      simpa [tending, CancelAt.remaining, held] using listed
    | cancelled => simp [tending, CancelAt.remaining] at tends
    | inFlight =>
      refine ⟨_, List.mem_singleton_self _, ?_⟩
      simpa [tending, CancelAt.remaining] using tends
    | notInFlight =>
      refine ⟨_, List.mem_singleton_self _, ?_⟩
      simpa [tending, CancelAt.remaining] using tends
    | send =>
      refine ⟨_, List.mem_singleton_self _, ?_⟩
      simpa [tending, CancelAt.remaining] using tends
    | @skip v id rest =>
      refine ⟨_, List.mem_singleton_self _, ?_⟩
      simp only [tending, CancelAt.remaining, decide_eq_true_eq, List.mem_cons] at tends
      obtain ⟨rfl, rfl | later⟩ := tends
      · -- The step itself has just been skipped.
        exfalso
        obtain ⟨job, before, rfl⟩ : ∃ job, w.control.jobs.get k = some job ∧
            skipStep s.id job = job' := by
          have got := JobStore.get_modify w.control.jobs k (skipStep s.id) (skipStep_id s.id) k
          rw [if_pos rfl] at got
          exact Option.map_eq_some_iff.mp (got.symm.trans held)
        unfold skipStep at known
        rw [Job.step_modifyStep (fun s' found' => (Step.tryTransition_id s' _).trans
          (Job.mem_of_step found').2), if_pos rfl] at known
        obtain ⟨s', -, rfl⟩ := Option.map_eq_some_iff.mp known
        rw [skipped_terminal] at moving
        cases moving
      · simp [tending, CancelAt.remaining, later]
    | _ => simp [tending] at tends
  | accept => cases tends
  | finish => cases tends
  | retire => cases tends
  | report => cases tends
  | pump => cases tends
  | message move => cases move <;> cases tends

end Steps

/-! ### The condition -/

/-- The call of the fleet a frame is to be answered. -/
def calling : Frame → Option Ticket
  | .pump ⟨_, _, .assign ticket _ _⟩ => some ticket
  | _ => none

/-- The job whose steps a frame is to sweep. -/
def sweeping : Frame → Option JobId
  | .drive j .pass => some j
  | _ => none

/-- The step a frame is to skip. -/
def skipping : Frame → Option (JobId × StepId)
  | .drive j (.cancel (.skip id _) _) => some (j, id)
  | _ => none

/-- A step that takes nothing away from the fleet. -/
structure Attended (w : World) (f : Frame) (env : Env) : Prop where
  /-- The fleet accepts a step that is still Ready. -/
  ready : env.assigned.isOk = true → ∀ ticket ∈ calling f,
    stateOf w.control ticket.grant.jobId ticket.grant.stepId = some .ready
  /-- A sweep expires no step the fleet has accepted. -/
  unexpired : ∀ j ∈ sweeping f, ∀ job ∈ w.control.jobs.get j, ∀ s ∈ job.steps,
    (isLeased s.state = true ∨ ∃ g ∈ w.frames, settling j s.id g = true) →
      overdue w.control.config.timeouts env.now s = false
  /-- A step is not skipped while its acceptance is to be recorded. -/
  recorded : ∀ p ∈ skipping f, ∀ g ∈ w.frames, settling p.1 p.2 g = false
  /-- A step in the hands of a node is skipped once the node was called. -/
  called : ∀ p ∈ skipping f, ∀ state ∈ stateOf w.control p.1 p.2, isLeased state = true →
    .cancelled p.1 p.2 ∈ w.history

instance (w : World) (f : Frame) (env : Env) : Decidable (Attended w f env) :=
  decidable_of_iff
    ((env.assigned.isOk = true → ∀ ticket ∈ calling f,
        stateOf w.control ticket.grant.jobId ticket.grant.stepId = some .ready) ∧
      (∀ j ∈ sweeping f, ∀ job ∈ w.control.jobs.get j, ∀ s ∈ job.steps,
        (isLeased s.state = true ∨ ∃ g ∈ w.frames, settling j s.id g = true) →
          overdue w.control.config.timeouts env.now s = false) ∧
      (∀ p ∈ skipping f, ∀ g ∈ w.frames, settling p.1 p.2 g = false) ∧
      (∀ p ∈ skipping f, ∀ state ∈ stateOf w.control p.1 p.2, isLeased state = true →
        .cancelled p.1 p.2 ∈ w.history))
    ⟨fun ⟨ready, unexpired, recorded, called⟩ => ⟨ready, unexpired, recorded, called⟩,
      fun attended => ⟨attended.ready, attended.unexpired, attended.recorded, attended.called⟩⟩

/-! ### The invariant -/

/-- Where a step the fleet has taken is. -/
inductive InSight (w : World) (j : JobId) (i : StepId) : Prop
  | settling {g : Frame} (member : g ∈ w.frames) (settles : settling j i g = true) : InSight w j i
  | leased {state : StepState} (found : stateOf w.control j i = some state)
      (leased : isLeased state = true) : InSight w j i
  | cancelled (seen : .cancelled j i ∈ w.history) : InSight w j i
  | reported (seen : .reported j i ∈ w.history) : InSight w j i

/-- **What the fleet has taken is in sight, and what is not terminal is tended.** -/
structure Tended (w : World) : Prop where
  tends : ∀ j i state, stateOf w.control j i = some state → state.isTerminal = false → Tends w j i
  ready : ∀ j i, ∀ g ∈ w.frames, settling j i g = true → stateOf w.control j i = some .ready
  inSight : ∀ j i, .assigned j i ∈ w.history → InSight w j i
  leased : ∀ j i, .assigned j i ∈ w.history →
    (∃ g ∈ w.frames, settling j i g = true) ∨ .leased j i ∈ w.history

theorem moving_of_leased {state : StepState} (leased : isLeased state = true) :
    state.isTerminal = false := by
  revert leased
  cases state <;> decide

section Keep

variable {w w' : World} {env : Env} {f : Frame} {o : Outcome} {others : List Frame}
  {j : JobId} {i : StepId}

/-- A frame is another one than the frame that runs, or that frame. -/
theorem World.Fires.cases_mem (fires : World.Fires w env f o others w') {g : Frame}
    (member : g ∈ w.frames) : g = f ∨ g ∈ others :=
  List.mem_cons.mp (fires.frames.before.mem_iff.mp member)

theorem Tended.tends_after (tended : Tended w) (sound : Sound w)
    (planned : ∀ j job, w.control.jobs.get j = some job → Planned job)
    (fires : World.Fires w env f o others w') {state : StepState}
    (found : stateOf w'.control j i = some state) (moving : state.isTerminal = false) :
    Tends w' j i := by
  -- A step that was not terminal before is tended by another frame, or by what this one becomes.
  have carried : ∀ {before}, stateOf w.control j i = some before → before.isTerminal = false →
      Tends w' j i := by
    intro before held live
    obtain ⟨g, member, tends⟩ := tended.tends j i before held live
    rcases fires.cases_mem member with rfl | other
    · obtain ⟨g', new, tends'⟩ := tending_goes_on planned fires tends found moving
      exact ⟨g', fires.frames.mem.mpr (.inl new), tends'⟩
    · exact ⟨g, fires.frames.mem.mpr (.inr other), tends⟩
  cases state_move sound planned fires j i with
  | same kept => exact carried (kept ▸ found) moving
  | @installed specs own none =>
    subst own
    refine ⟨.drive j .pass, fires.frames.mem.mpr (.inl ?_), by simp [tending]⟩
    rw [← fires.stepped]
    exact List.mem_singleton_self _
  | passed own =>
    subst own
    obtain ⟨g, new, tends⟩ := tending_goes_on planned fires (by simp [tending]) found moving
    exact ⟨g, fires.frames.mem.mpr (.inl new), tends⟩
  | skipped _ after terminal =>
    obtain rfl := Option.some.inj (found.symm.trans after)
    rw [terminal] at moving
    cases moving
  | leased _ _ _ before => exact carried before rfl
  | refused _ _ _ after =>
    obtain rfl := Option.some.inj (found.symm.trans after)
    cases moving
  | reported held leased => exact carried held (moving_of_leased leased)
  | renewed held leased => exact carried held (moving_of_leased leased)
  | dropped gone =>
    rw [gone] at found
    cases found

/-- A pass leaves a step alone that is not pending and whose clock has not run out. -/
theorem pass_keeps (fires : World.Fires w env (.drive j .pass) o others w') {job : Job} {s : Step}
    (found : w.control.jobs.get j = some job) (known : job.step i = some s)
    (moving : s.state ≠ .pending) (still : overdue w.control.config.timeouts env.now s = false) :
    stateOf w'.control j i = some s.state := by
  have after : w'.control.jobs.get j =
      some (passJob w.control.config.timeouts env.now job).1 := by
    rw [fires.control]
    cases fires.drive_move with
    | passGone absent =>
      rw [absent] at found
      cases found
    | decided => exact get_withJobMut found
    | late => exact get_withJobMut found
    | waits => exact get_withJobMut found
  exact stateOf_eq_some.mpr ⟨_, s, after, find?_passSteps known moving still, rfl⟩

theorem settle_leases (fires : World.Fires w env f o others w') (settles : settling j i f = true)
    (ready : stateOf w.control j i = some .ready) :
    stateOf w'.control j i = some .leased ∧ .leased j i ∈ o.observed := by
  obtain ⟨job, s, found, known, state⟩ := stateOf_eq_some.mp ready
  unfold settling at settles
  split at settles
  · rename_i onBehalfOf now ticket node rest
    obtain ⟨rfl, rfl⟩ := of_decide_eq_true settles
    -- What the section does to the record it finds.
    obtain ⟨s', id, leased, settled⟩ := settleAssignment_ready w.control.config.timeouts
      w.control.config.leaseTtl env.now node known state
    cases fires.pump_move with
    | @settled ticket' _ node' job' pc found' moved =>
      obtain ⟨rfl, same, -⟩ := PumpAt.settle.inj pc
      obtain rfl := Except.ok.inj same
      refine ⟨?_, List.mem_singleton_self _⟩
      rw [fires.control]
      refine (stateOf_found (get_withJobMut found)).trans ?_
      unfold assignmentSettled
      rw [settled, state_modifyStep known id, leased]
    | @discarded ticket' _ result pc stuck =>
      obtain ⟨rfl, rfl, -⟩ := PumpAt.settle.inj pc
      rcases stuck with ⟨e, same⟩ | stuck
      · cases same
      · have stays := stuck job found
        unfold assignmentSettled at stays
        rw [settled] at stays
        cases stays
    | _ => simp_all
  · cases settles

theorem Tended.ready_after (tended : Tended w) (answers : OneAnswer w) (sound : Sound w)
    (planned : ∀ j job, w.control.jobs.get j = some job → Planned job)
    (attended : Attended w f env) (fires : World.Fires w env f o others w') {g : Frame}
    (member : g ∈ w'.frames) (settles : settling j i g = true) :
    stateOf w'.control j i = some .ready := by
  rcases fires.frames.mem.mp member with new | other
  · cases answered fires.stepped with
    | none none => exact absurd (recording_of_settling settles) (List.countP_eq_zero.mp none g new)
    | @accepted onBehalfOf now ticket lease rest node own answer control new' seen =>
      subst own
      rw [new'] at new
      obtain rfl := List.mem_singleton.mp new
      obtain ⟨rfl, rfl⟩ : ticket.grant.jobId = j ∧ ticket.grant.stepId = i := by
        simpa [settling] using settles
      rw [fires.control, control]
      exact attended.ready (by rw [answer]; rfl) ticket rfl
    | rejected own control new' silent =>
      rw [new'] at new
      obtain rfl := List.mem_singleton.mp new
      cases settles
  · have old := fires.frames.mem_others other
    have ready := tended.ready j i g old settles
    cases state_move sound planned fires j i with
    | same kept => exact kept.trans ready
    | installed _ none =>
      rw [none] at ready
      cases ready
    | passed own =>
      subst own
      obtain ⟨job, s, found, known, state⟩ := stateOf_eq_some.mp ready
      obtain ⟨held, rfl⟩ := Job.mem_of_step known
      have still := attended.unexpired j rfl job found s held (.inr ⟨g, old, settles⟩)
      rw [pass_keeps fires found known (by rw [state]; decide) still, state]
    | skipped own =>
      subst own
      have none := attended.recorded (j, i) rfl g old
      rw [settles] at none
      cases none
    | @leased p ticket rest node own pc mine =>
      -- A second frame would be to record the same acceptance.
      have same : settling j i f = true := by
        obtain ⟨onBehalfOf, now, at'⟩ := p
        obtain rfl : at' = _ := pc
        subst own
        simpa [settling] using mine
      have two := fires.frames.none_of_other ((answers.calls j i).trans (answers.accepted_once j i))
        other settles
      rw [same] at two
      cases two
    | @refused p ticket rest e own pc mine =>
      -- The fleet would have turned down a step it has accepted.
      have down : turnedDown j i f = true := by
        obtain ⟨onBehalfOf, now, at'⟩ := p
        obtain rfl : at' = _ := pc
        subst own
        simpa [turnedDown] using mine
      have none := answers.unaccepted fires.frames.mem_before down
      have some : 0 < w.frames.countP (settling j i) := List.countP_pos_iff.mpr ⟨g, old, settles⟩
      have calls := answers.calls j i
      omega
    | reported held leased =>
      rw [held] at ready
      rw [Option.some.inj ready] at leased
      cases leased
    | renewed held leased =>
      rw [held] at ready
      rw [Option.some.inj ready] at leased
      cases leased
    | dropped _ idle =>
      obtain ⟨t, member', tends⟩ := tended.tends j i .ready ready rfl
      rw [idle t member'] at tends
      cases tends

theorem Tended.inSight_after (tended : Tended w) (answers : OneAnswer w) (sound : Sound w)
    (planned : ∀ j job, w.control.jobs.get j = some job → Planned job)
    (attended : Attended w f env) (fires : World.Fires w env f o others w')
    (taken : .assigned j i ∈ w'.history) : InSight w' j i := by
  rcases fires.seen.mp taken with old | new
  · cases tended.inSight j i old with
    | settling member settles =>
      rcases fires.cases_mem member with rfl | other
      · exact .leased (settle_leases fires settles (tended.ready j i _ member settles)).1 rfl
      · exact .settling (fires.frames.mem.mpr (.inr other)) settles
    | cancelled seen => exact .cancelled (fires.seen.mpr (.inl seen))
    | reported seen => exact .reported (fires.seen.mpr (.inl seen))
    | @leased state found leased =>
      cases state_move sound planned fires j i with
      | same kept => exact .leased (kept.trans found) leased
      | installed _ none =>
        rw [none] at found
        cases found
      | passed own =>
        subst own
        obtain ⟨job, s, held, known, rfl⟩ := stateOf_eq_some.mp found
        obtain ⟨member, rfl⟩ := Job.mem_of_step known
        have still := attended.unexpired j rfl job held s member (.inl leased)
        have moving : s.state ≠ .pending := fun same => by
          rw [same] at leased
          cases leased
        exact .leased (pass_keeps fires held known moving still) leased
      | skipped own =>
        subst own
        exact .cancelled (fires.seen.mpr (.inl (attended.called (j, i) rfl state found leased)))
      | leased _ _ _ _ after => exact .leased after rfl
      | @refused p ticket rest e own pc mine =>
        have down : turnedDown j i f = true := by
          obtain ⟨onBehalfOf, now, at'⟩ := p
          obtain rfl : at' = _ := pc
          subst own
          simpa [turnedDown] using mine
        have none := answers.unaccepted fires.frames.mem_before down
        have some : 0 < w.history.count (.assigned j i) := List.count_pos_iff.mpr old
        omega
      | reported _ _ _ _ seen => exact .reported (fires.seen.mpr (.inr seen))
      | renewed _ _ there => exact .leased there rfl
      | dropped _ idle =>
        obtain ⟨t, member, tends⟩ := tended.tends j i state found (moving_of_leased leased)
        rw [idle t member] at tends
        cases tends
  · obtain ⟨g, member, settles⟩ := settling_of_assigned fires.stepped new
    exact .settling (fires.frames.mem.mpr (.inl member)) settles

theorem Tended.leased_after (tended : Tended w) (fires : World.Fires w env f o others w')
    (taken : .assigned j i ∈ w'.history) :
    (∃ g ∈ w'.frames, settling j i g = true) ∨ .leased j i ∈ w'.history := by
  rcases fires.seen.mp taken with old | new
  · rcases tended.leased j i old with ⟨g, member, settles⟩ | seen
    · rcases fires.cases_mem member with rfl | other
      · have leases := settle_leases fires settles (tended.ready j i _ member settles)
        exact .inr (fires.seen.mpr (.inr leases.2))
      · exact .inl ⟨g, fires.frames.mem.mpr (.inr other), settles⟩
    · exact .inr (fires.seen.mpr (.inl seen))
  · obtain ⟨g, member, settles⟩ := settling_of_assigned fires.stepped new
    exact .inl ⟨g, fires.frames.mem.mpr (.inl member), settles⟩

/-- **Every attended step keeps what the fleet has taken in sight.** -/
theorem tended_fires (tended : Tended w) (answers : OneAnswer w) (sound : Sound w)
    (planned : ∀ j job, w.control.jobs.get j = some job → Planned job)
    (attended : Attended w f env) (fires : World.Fires w env f o others w') : Tended w' where
  tends _ _ _ found moving := tended.tends_after sound planned fires found moving
  ready _ _ _ member settles := tended.ready_after answers sound planned attended fires member settles
  inSight _ _ taken := tended.inSight_after answers sound planned attended fires taken
  leased _ _ taken := tended.leased_after fires taken

end Keep

theorem tended_call {w : World} (call : Call) (tended : Tended w) :
    Tended (w.step (.call call)) := by
  have frames := World.frames_call w call
  have grows : ∀ {g}, g ∈ w.frames → g ∈ (w.step (.call call)).frames := fun member => by
    rw [frames]
    exact List.mem_append_left _ member
  refine ⟨fun j i state found moving => ?_, fun j i g member settles => ?_, fun j i taken => ?_,
    fun j i taken => ?_⟩
  · obtain ⟨g, member, tends⟩ := tended.tends j i state found moving
    exact ⟨g, grows member, tends⟩
  · rw [frames] at member
    rcases List.mem_append.mp member with old | new
    · exact tended.ready j i g old settles
    · rw [List.mem_singleton.mp new] at settles
      cases call <;> cases settles
  · cases tended.inSight j i taken with
    | settling member settles => exact .settling (grows member) settles
    | leased found leased => exact .leased found leased
    | cancelled seen => exact .cancelled seen
    | reported seen => exact .reported seen
  · rcases tended.leased j i taken with ⟨g, member, settles⟩ | seen
    · exact .inl ⟨g, grows member, settles⟩
    · exact .inr seen

theorem tended_init (config : ControlConfig) : Tended (.init config) where
  tends _ _ _ found _ := by cases found
  ready _ _ _ member := by cases member
  inSight _ _ taken := by cases taken
  leased _ _ taken := by cases taken

theorem tended {config : ControlConfig} {labels : List Label}
    (attended : Along World.step (World.Meets Attended) (.init config) labels) :
    Tended (run World.step (.init config) labels) :=
  World.invariant_over
    (B := fun w => OneAnswer w ∧ Sound w ∧ ∀ j job, w.control.jobs.get j = some job → Planned job)
    (fun _ call => tended_call call)
    (fun _ _ _ _ _ _ known tended attended fires =>
      tended_fires tended known.1 known.2.1 known.2.2 attended fires)
    (fun labels => ⟨oneAnswer config labels, sound config labels, planned config labels⟩)
    (tended_init config) attended

theorem decided_of_pos {h : List Obs} {j : JobId} (some : 0 < h.countP (decides j)) :
    ∃ v, .decided j v ∈ h := by
  obtain ⟨x, seen, decided⟩ := List.countP_pos_iff.mp some
  cases x with
  | decided k v =>
    obtain rfl := of_decide_eq_true decided
    exact ⟨v, seen⟩
  | _ => cases decided

/-- Once a job is decided its drive tends nothing, so none of its steps may still run. -/
theorem Tended.terminal {w : World} (tended : Tended w) (sound : Sound w) {j : JobId} {v : Verdict}
    (decided : .decided j v ∈ w.history) {i : StepId} {state : StepState}
    (found : stateOf w.control j i = some state) : state.isTerminal = true := by
  by_contra moving
  obtain ⟨g, member, tends⟩ := tended.tends j i state found (by simpa using moving)
  have none := ((sound.owned j).settled (decides_pos decided)).2.1
  have some : 0 < owners w j := List.countP_pos_iff.mpr ⟨g, member, owning_of_tending tends⟩
  omega

/-- What the fleet has accepted is recorded as Leased or was cancelled, unless its acceptance is
still to be recorded; and once the job is decided, it was cancelled or reported. -/
def NoOrphan (w : World) : Prop :=
  (∀ j i, .assigned j i ∈ w.history →
    (∃ f ∈ w.frames, settling j i f = true) ∨ .leased j i ∈ w.history ∨ .cancelled j i ∈ w.history) ∧
  ∀ j v i, .decided j v ∈ w.history → .assigned j i ∈ w.history →
    .cancelled j i ∈ w.history ∨ .reported j i ∈ w.history

/-- **The fleet is left with no step of a decided job, in an attended run.** -/
theorem no_orphans {config : ControlConfig} {labels : List Label}
    (attended : Along World.step (World.Meets Attended) (.init config) labels) :
    NoOrphan (run World.step (.init config) labels) := by
  have tended := tended attended
  have sound := sound config labels
  constructor
  · intro j i taken
    exact (tended.leased j i taken).imp id .inl
  · intro j v i decided taken
    cases tended.inSight j i taken with
    | settling member settles =>
      have done := tended.terminal sound decided (tended.ready j i _ member settles)
      cases done
    | @leased state found leased =>
      have done := tended.terminal sound decided found
      rw [moving_of_leased leased] at done
      cases done
    | cancelled seen => exact .inl seen
    | reported seen => exact .inr seen

/-- One plan of two steps, both taken by the fleet; the first fails, so the second is cancelled. -/
def cancelledRun : List Label :=
  [.call (.accept (dispatchTo "u1") .member 0)] ++ Label.steps 0 0 8
    ++ Label.steps 1 10 23 (fun env => { env with
      fetched := some (.ok ⟨"tree", ""⟩)
      planned := .ok [{ name := "build" }, { name := "test" }]
      assigned := .ok "node" })
    ++ [.call (.recordStepReport { jobId := "2", stepId := "step_00_00000000", outcome := .failed }
      "node")] ++ Label.steps 2 40 1 ++ Label.steps 1 50 6

theorem no_orphans_cancelled :
    Along World.step (World.Meets Attended) (.init {}) cancelledRun ∧
      NoOrphan (run World.step (.init {}) cancelledRun) := by
  have attended : Along World.step (World.Meets Attended) (.init {}) cancelledRun := by
    decide +kernel
  exact ⟨attended, no_orphans attended⟩

/-- A pump that serves another job calls the fleet for a step of the first; meanwhile the queue wait
of the step runs out and its job is decided; then the fleet accepts. -/
def orphanedRun : List Label :=
  [.call (.accept (dispatchTo "u1") .member 0)] ++ Label.steps 0 0 8
    ++ Label.steps 1 10 18 (fun env => { env with
      fetched := some (.ok ⟨"tree", ""⟩)
      planned := .ok [{ name := "build" }] })
    ++ [.call (.accept { dispatchTo "u2" with treeId := "other" } .member 0)]
    ++ Label.steps 2 30 8 ++ Label.steps 3 40 18
    ++ Label.steps 1 60 3 (fun env => { env with now := fromSecs 1800 })
    ++ Label.steps 3 70 2 fun env => { env with assigned := .ok "node" }

/-- The accepted step of a decided job is neither recorded, nor cancelled, nor reported. -/
theorem orphaned_step : ¬ NoOrphan (run World.step (.init {}) orphanedRun) := by
  rintro ⟨-, ended⟩
  have some : 0 < (run World.step (.init {}) orphanedRun).history.countP (decides "2") := by
    decide +kernel
  obtain ⟨v, decided⟩ := decided_of_pos some
  have taken : Obs.assigned "2" "step_00_00000000" ∈
      (run World.step (.init {}) orphanedRun).history := by decide +kernel
  have kept : Obs.cancelled "2" "step_00_00000000" ∉
      (run World.step (.init {}) orphanedRun).history := by decide +kernel
  have silent : Obs.reported "2" "step_00_00000000" ∉
      (run World.step (.init {}) orphanedRun).history := by decide +kernel
  rcases ended "2" v "step_00_00000000" decided taken with cancelled | reported
  · exact kept cancelled
  · exact silent reported

end HullCi.System
