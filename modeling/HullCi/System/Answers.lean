/-
**The steps of a record, and what the fleet has answered for them.**

Only six sections touch the steps of a record. The fleet's answer to a call is with one frame until
it is recorded, and a step's token is out when the fleet has turned the step down.

* `Touches.steps_edit` — what a section does to the steps of a record.
* `planned` — the steps of a record have different ids.
* `oneAnswer` — one acceptance of a step is with one frame, and there is none of a step turned down.
-/

import HullCi.Control.StepIds
import HullCi.System.Owners
import HullCi.System.StepClaims

namespace HullCi.System

open HullCi.Proto HullCi.Base HullCi.Control

/-! ### The steps of a record -/

/-- A phase before the plan. -/
def early (state : JobState) : Bool :=
  state = .queued ∨ state = .fetching ∨ state = .planning

theorem early_of_canTransitionTo {s next : JobState} (legal : s.canTransitionTo next = true)
    (before : early next = true) : early s = true := by
  revert legal before
  cases s <;> cases next <;> decide

theorem early_tryTransitionAt {job : Job} {next : JobState} {now : Instant}
    (before : early (job.tryTransitionAt next now).state = true) : early job.state = true := by
  rw [Job.tryTransitionAt_state] at before
  split_ifs at before with legal
  · exact early_of_canTransitionTo legal before
  · exact before

/-- What a section on the record of `j` does to its steps. -/
inductive StepsEdit (env : Env) (c : Control) (f : Frame) (j : JobId) (g : Job → Job) : Prop
  | still (same : ∀ job, (g job).steps = job.steps)
      (phase : ∀ job, early (g job).state = true → early job.state = true) : StepsEdit env c f j g
  | install {specs : List StepSpec} (own : f = .drive j (.install specs))
      (installs : g = installPlan env.now env.noise specs env.decisions) : StepsEdit env c f j g
  | pass (own : f = .drive j .pass)
      (passes : g = fun job => (passJob c.config.timeouts env.now job).1) : StepsEdit env c f j g
  | skip {id : StepId} {rest : List StepId} {v : Verdict}
      (own : f = .drive j (.cancel (.skip id rest) v)) (skips : g = skipStep id) :
      StepsEdit env c f j g
  | settle {p : Pump} {ticket : Ticket} {rest : List Grant} {result : Except NodeError String}
      (own : f = .pump p) (pc : p.pc = .settle ticket result rest) (mine : ticket.grant.jobId = j)
      (settles : g = fun job => (assignmentSettled env c ticket.grant.stepId result job).1) :
      StepsEdit env c f j g
  | reported {report : StepReport} {fromNode : String}
      (own : f = .recordStepReport report fromNode) (mine : report.jobId = j)
      (reports : g = HullCi.System.reported report fromNode env.now) : StepsEdit env c f j g
  | renewed {stepId : StepId} {fromNode : String} (own : f = .renewLease j stepId fromNode)
      (renews : g = HullCi.System.renewed c.config.leaseTtl stepId fromNode env.now) :
      StepsEdit env c f j g

/-- **What a section does to the steps of a record.** -/
theorem Touches.steps_edit {env : Env} {c : Control} {f : Frame} {o : Outcome} {j : JobId}
    {g : Job → Job} (touches : Touches env c f o j g) : StepsEdit env c f j g := by
  have same : ∀ urls, StepsEdit env c f j (addCallbackUrls urls) := fun urls =>
    .still (fun job => by rw [addCallbackUrls_eq]) fun job before => by
      rw [addCallbackUrls_eq] at before
      exact before
  cases touches with
  | @attach a _ _ _ pc => exact same [a.dispatch.callbackUrl]
  | startReport => exact .still (fun _ => rfl) fun _ before => before
  | drain => exact .still (fun _ => rfl) fun _ before => before
  | @merge _ _ _ urls => exact same urls
  | settle =>
    rename_i r _
    refine .still (fun job => Job.tryTransitionAt_steps _ _ _) fun job before => ?_
    let counted : Job := { job with reportAttempts := job.reportAttempts + r.attemptsTotal }
    have moved : early (counted.tryTransitionAt (if r.anyDelivered then .reported else .reportFailed)
      env.now).state = true := before
    have counted_early : early counted.state = true := early_tryTransitionAt moved
    exact counted_early
  | release => exact .still (fun _ => rfl) fun _ before => before
  | decide =>
    refine .still (fun job => ?_) fun job before => ?_
    · unfold recordVerdict
      split_ifs
      · rfl
      · exact Job.tryTransitionAt_steps _ _ _
    · unfold recordVerdict at before
      split_ifs at before
      · exact before
      · exact early_tryTransitionAt before
  | claim => exact .still (fun _ => rfl) fun _ before => before
  | fetching => exact .still (fun _ => Job.tryTransitionAt_steps _ _ _) fun _ => early_tryTransitionAt
  | planning => exact .still (fun _ => Job.tryTransitionAt_steps _ _ _) fun _ => early_tryTransitionAt
  | install => exact .install rfl rfl
  | pass => exact .pass rfl rfl
  | skip => exact .skip rfl rfl
  | settled pc => exact .settle rfl pc rfl rfl
  | reported => exact .reported rfl rfl rfl
  | renewed => exact .renewed rfl rfl

/-- A section on one step keeps the phase, every id, and every other step. -/
structure OneStep (job : Job) (id : StepId) (job' : Job) : Prop where
  state : job'.state = job.state
  ids : job'.steps.map (·.id) = job.steps.map (·.id)
  others : ∀ id', id' ≠ id → job'.step id' = job.step id'

theorem OneStep.refl (job : Job) (id : StepId) : OneStep job id job :=
  ⟨rfl, rfl, fun _ _ => rfl⟩

theorem oneStep_modifyStep {job : Job} {id : StepId} {f : Step → Step}
    (keeps : ∀ s, job.step id = some s → (f s).id = s.id) :
    OneStep job id (job.modifyStep id f) := by
  refine ⟨rfl, ?_, fun id' other => ?_⟩
  · show (Job.modifyStep.go id f job.steps).map (·.id) = job.steps.map (·.id)
    unfold Job.step at keeps
    generalize job.steps = steps at keeps
    induction steps with
    | nil => rfl
    | cons s rest ih =>
      unfold Job.modifyStep.go
      by_cases here : s.id = id
      · rw [if_pos here, List.map_cons, List.map_cons,
          keeps s (List.find?_cons_of_pos (by simpa using here))]
      · rw [List.find?_cons_of_neg (by simpa using here)] at keeps
        rw [if_neg here, List.map_cons, List.map_cons, ih keeps]
  · rw [Job.step_modifyStep (fun s found => (keeps s found).trans (Job.mem_of_step found).2),
      if_neg other]

theorem oneStep_onStep {job : Job} {id : StepId} {h : Step → Except ReportRejected Step}
    (keeps : ∀ s s', h s = .ok s' → s'.id = s.id) :
    OneStep job id ((onStep job id h).toOption.getD job) := by
  rcases onStep_cases job id h with same | ⟨s, s', found, moved, same⟩
  · rw [same]
    exact .refl job id
  · rw [same]
    refine oneStep_modifyStep fun s'' found' => ?_
    obtain rfl := Option.some.inj (found.symm.trans found')
    exact keeps s s' moved

theorem oneStep_settled (env : Env) (c : Control) (id : StepId) (result : Except NodeError String)
    (job : Job) : OneStep job id (assignmentSettled env c id result job).1 := by
  unfold assignmentSettled
  rcases settleAssignment_cases c.config.timeouts c.config.leaseTtl env.now id result job with
    same | ⟨s, s', found, settled, -, same⟩
  · rw [same]
    exact .refl job id
  · rw [same]
    refine oneStep_modifyStep fun s'' found' => ?_
    obtain rfl := Option.some.inj (found.symm.trans found')
    exact (settleStep_cases settled).1

theorem oneStep_skip (id : StepId) (job : Job) : OneStep job id (skipStep id job) :=
  oneStep_modifyStep fun s _ => Step.tryTransition_id s _

theorem oneStep_reported (report : StepReport) (fromNode : String) (now : Instant) (job : Job) :
    OneStep job report.stepId (reported report fromNode now job) :=
  oneStep_onStep fun _ _ accepted => (reportStep_cases accepted).1

theorem oneStep_renewed (ttl : Duration) (stepId : StepId) (fromNode : String) (now : Instant)
    (job : Job) : OneStep job stepId (renewed ttl stepId fromNode now job) :=
  oneStep_onStep fun _ _ accepted => (renewStep_cases accepted).1

/-! ### Ids of steps -/

/-- The record's steps have different ids, and there are none before the plan. -/
structure Planned (job : Job) : Prop where
  distinct : (job.steps.map (·.id)).Nodup
  blank : early job.state = true → job.steps = []

theorem Planned.oneStep {job job' : Job} {id : StepId} (planned : Planned job)
    (one : OneStep job id job') : Planned job' where
  distinct := one.ids ▸ planned.distinct
  blank before := by
    have none := planned.blank (one.state ▸ before)
    have ids := one.ids
    rw [none] at ids
    exact List.map_eq_nil_iff.mp ids

theorem planned_installPlan {job : Job} (planned : Planned job) (phase : job.state = .planning)
    (now : Instant) (noise : ℕ → BitVec 32) (specs : List StepSpec) (decisions : List MemoDecision) :
    Planned (installPlan now noise specs decisions job) := by
  have none := planned.blank (by rw [phase]; rfl)
  constructor
  · show (((job.tryTransitionAt .running now).steps ++ _).map (·.id)).Nodup
    rw [Job.tryTransitionAt_steps, none, List.nil_append]
    exact nodup_seedSteps now noise 0 _
  · intro before
    have before : early (job.tryTransitionAt .running now).state = true := before
    rw [Job.tryTransitionAt_state, phase] at before
    cases before

theorem StepsEdit.planned {env : Env} {c : Control} {f : Frame} {j : JobId} {g : Job → Job}
    (edit : StepsEdit env c f j g) {job : Job} (planned : Planned job)
    (phase : ∀ specs, f = .drive j (.install specs) → job.state = .planning) : Planned (g job) := by
  cases edit with
  | still same before =>
    exact ⟨by rw [same]; exact planned.distinct, fun now => by
      rw [same]
      exact planned.blank (before job now)⟩
  | install own installs =>
    subst installs
    exact planned_installPlan planned (phase _ own) _ _ _ _
  | pass own passes =>
    subst passes
    refine ⟨?_, fun before => ?_⟩
    · show ((passSteps c.config.timeouts env.now job.steps).map (·.id)).Nodup
      rw [passSteps_ids]
      exact planned.distinct
    · have none := planned.blank before
      have ids := passSteps_ids c.config.timeouts env.now job.steps
      rw [none] at ids
      show passSteps c.config.timeouts env.now job.steps = []
      rw [none]
      exact List.map_eq_nil_iff.mp ids
  | skip own skips =>
    subst skips
    exact planned.oneStep (oneStep_skip _ job)
  | settle own pc mine settles =>
    subst settles
    exact planned.oneStep (oneStep_settled env c _ _ job)
  | reported own mine reports =>
    subst reports
    exact planned.oneStep (oneStep_reported _ _ _ job)
  | renewed own renews =>
    subst renews
    exact planned.oneStep (oneStep_renewed _ _ _ _ job)

section Steps

variable {w w' : World} {env : Env} {f : Frame} {o : Outcome} {others : List Frame} {j : JobId}

theorem fromStatus_late (status : Status) : early (.fromStatus status) = false := by
  cases status <;> rfl

theorem planned_new (j : JobId) (d : Dispatch) (a : AuthorClass) (now : Instant) (t : Duration) :
    Planned (Job.new j d a now t) :=
  ⟨List.nodup_nil, fun _ => rfl⟩

theorem planned_fires (sound : Sound w)
    (planned : ∀ j job, w.control.jobs.get j = some job → Planned job)
    (fires : World.Fires w env f o others w') (j : JobId) (job' : Job)
    (found' : w'.control.jobs.get j = some job') : Planned job' := by
  rw [fires.control] at found'
  cases record_move fires.stepped j with
  | same kept => exact planned j job' (kept ▸ found')
  | touched touches mapped =>
    rw [mapped] at found'
    obtain ⟨job, found, rfl⟩ := Option.map_eq_some_iff.mp found'
    refine touches.steps_edit.planned (planned j job found) fun specs own => ?_
    subst own
    obtain ⟨job'', known, -, phase⟩ :=
      (sound.owned j).phase _ fires.frames.mem_before (by simp [owning])
    obtain rfl := Option.some.inj (found.symm.trans known)
    exact phase
  | evicted _ _ _ _ gone => simp [gone] at found'
  | rolledBack _ gone => simp [gone] at found'
  | inserted _ _ fresh =>
    rw [fresh] at found'
    obtain rfl := Option.some.inj found'
    exact planned_new _ _ _ _ _
  | foreign _ written =>
    rw [written] at found'
    obtain rfl := Option.some.inj found'
    refine ⟨?_, fun before => ?_⟩
    · show (((w.control.jobs.get j).getD _).steps.map (·.id)).Nodup
      cases found : w.control.jobs.get j with
      | none => exact List.nodup_nil
      | some job => exact (planned j job found).distinct
    · have before : early (.fromStatus _) = true := before
      rw [fromStatus_late] at before
      cases before

end Steps

theorem planned (config : ControlConfig) (labels : List Label) (j : JobId) (job : Job)
    (found : (run World.step (.init config) labels).control.jobs.get j = some job) :
    Planned job := by
  refine World.invariant_over (B := Sound) (C := fun _ _ _ => True)
    (I := fun w => ∀ j job, w.control.jobs.get j = some job → Planned job)
    (fun _ _ all => all) (fun _ _ _ _ _ _ sound all _ fires => planned_fires sound all fires)
    (fun labels => sound config labels) (fun _ _ none => by cases none)
    (along_iff.mpr fun _ _ _ _ _ => trivial) j job found

/-! ### Answers of the fleet -/

/-- The fleet has accepted the step, and the frame is to record it. -/
def settling (j : JobId) (i : StepId) : Frame → Bool
  | .pump ⟨_, _, .settle ticket (.ok _) _⟩ => ticket.grant.jobId = j ∧ ticket.grant.stepId = i
  | _ => false

/-- The fleet has turned the step down for good, and the frame is to record it. -/
def turnedDown (j : JobId) (i : StepId) : Frame → Bool
  | .pump ⟨_, _, .settle ticket (.error _) _⟩ => ticket.grant.jobId = j ∧ ticket.grant.stepId = i
  | _ => false

/-- The frame is to record an answer of the fleet. -/
def recording : Frame → Bool
  | .pump ⟨_, _, .settle _ _ _⟩ => true
  | _ => false

theorem recording_of_settling {j : JobId} {i : StepId} {f : Frame} (settles : settling j i f = true) :
    recording f = true := by
  unfold settling at settles
  split at settles
  · rfl
  · cases settles

theorem recording_of_turnedDown {j : JobId} {i : StepId} {f : Frame}
    (down : turnedDown j i f = true) : recording f = true := by
  unfold turnedDown at down
  split at down
  · rfl
  · cases down

/-- Whether a step leaves a frame that is to record an answer, and which. -/
inductive Answered (env : Env) (c : Control) (f : Frame) (o : Outcome) : Prop
  | none (none : (o.push ++ o.spawned).countP recording = 0) : Answered env c f o
  | accepted {onBehalfOf : Option JobId} {now : Instant} {ticket : Ticket} {lease : DriveLease}
      {rest : List Grant} {node : String} (own : f = .pump ⟨onBehalfOf, now, .assign ticket lease rest⟩)
      (answer : env.assigned = .ok node) (control : o.control = c)
      (new : o.push ++ o.spawned = [.pump ⟨onBehalfOf, now, .settle ticket (.ok node) rest⟩])
      (seen : o.observed = [.assigned ticket.grant.jobId ticket.grant.stepId]) : Answered env c f o
  | rejected {onBehalfOf : Option JobId} {now : Instant} {ticket : Ticket} {lease : DriveLease}
      {rest : List Grant} {e : NodeError} (own : f = .pump ⟨onBehalfOf, now, .assign ticket lease rest⟩)
      (control : o.control = c)
      (new : o.push ++ o.spawned = [.pump ⟨onBehalfOf, now, .settle ticket (.error e) rest⟩])
      (silent : o.observed = []) : Answered env c f o

section Answer

variable {w w' : World} {env : Env} {c : Control} {f : Frame} {o : Outcome} {others : List Frame}
  {j : JobId} {i : StepId}

theorem answered (stepped : f.step env c = o) : Answered env c f o := by
  have move : FrameMove env c f o := stepped ▸ frame_moves env c f
  cases move with
  | accept move =>
    refine .none ?_
    cases move with
    | startReport pc claims => cases claims <;> simp [Accept.goto, recording]
    | drain pc claims => cases claims <;> simp [Accept.goto, recording]
    | _ => simp [Accept.goto, recording]
  | drive move => exact .none (by cases move <;> simp [recording])
  | finish move =>
    refine .none ?_
    cases move with
    | claim claims => cases claims <;> simp [recording]
    | _ => simp [recording]
  | retire move => exact .none (by cases move <;> simp [recording])
  | report move => exact .none (by cases move <;> simp [recording])
  | @pump p _ move =>
    obtain ⟨onBehalfOf, now, at'⟩ := p
    cases move with
    | accepted pc answer =>
      obtain rfl : at' = .assign _ _ _ := pc
      exact .accepted rfl answer rfl rfl rfl
    | rejected pc answer other =>
      obtain rfl : at' = .assign _ _ _ := pc
      exact .rejected rfl rfl rfl rfl
    | _ => exact .none (by simp [Pump.goto, recording])
  | message move => exact .none (by cases move <;> simp)

theorem silent_of_unrecorded (stepped : f.step env c = o)
    (none : (o.push ++ o.spawned).countP recording = 0) : .assigned j i ∉ o.observed := by
  have move : FrameMove env c f o := stepped ▸ frame_moves env c f
  intro seen
  cases move with
  | accept move => cases move <;> simp at seen
  | drive move => cases move <;> simp at seen
  | finish move => cases move <;> simp at seen
  | retire move => cases move <;> simp at seen
  | report move => cases move <;> simp at seen
  | pump move =>
    cases move with
    | select =>
      obtain ⟨_, _, _, -, -, -, -, same⟩ := mem_offers seen
      cases same
    | accepted => simp [Pump.goto, recording] at none
    | _ => simp at seen
  | message move => cases move <;> simp at seen

/-- One acceptance of a step is one frame that is to record it. -/
theorem settling_new (stepped : f.step env c = o) :
    (o.push ++ o.spawned).countP (settling j i) = o.observed.count (.assigned j i) := by
  cases answered stepped with
  | none none =>
    have fewer : (o.push ++ o.spawned).countP (settling j i) ≤ _ :=
      List.countP_mono_left fun g _ => recording_of_settling
    rw [List.count_eq_zero.mpr (silent_of_unrecorded stepped none)]
    omega
  | accepted own answer control new seen =>
    rw [new, seen]
    simp [settling, List.countP_cons, List.count_cons]
  | rejected own control new silent =>
    rw [new, silent]
    rfl

/-- A step's token is out for good: it is in no hand, and no call was accepted with it. -/
def Spent (w : World) (j : JobId) (i : StepId) : Prop :=
  Taken w j i ∧ tokens w j i = 0

theorem Taken.stays (taken : Taken w j i) (one : OneToken w) (fires : World.Fires w env f o others w')
    (empty : inHand j i f = false) : Taken w' j i := by
  refine ⟨fires.drawn taken.1, fun claim found => ?_⟩
  have old : j ≠ env.proposed := fun same => fires.fresh (same ▸ taken.1)
  rw [fires.control] at found
  have move : ClaimsMove env w.control f o := fires.stepped ▸ claims_move env w.control f
  cases move with
  | still _ same => exact taken.2 claim (same ▸ found)
  | books _ moved => exact taken_booksMove moved old taken.2 found
  | granted pc before =>
    rw [show _ = _ from Table.lookup_insert _ _ _ _] at found
    split_ifs at found with mine
    · rw [← Option.some.inj found]
      exact Finset.mem_insert_of_mem (taken.2 _ (mine ▸ before))
    · exact taken.2 claim found
  | answered => exact taken.2 claim found
  | refused => exact taken.2 claim found
  | @released p ticket lease rest pc =>
    obtain ⟨onBehalfOf, now, at'⟩ := p
    obtain rfl : at' = .releaseStep ticket lease rest := pc
    have same : lease.jobId = ticket.grant.jobId := one.own _ fires.frames.mem_before
    rw [LocalClaims.lookup_releaseStep] at found
    split_ifs at found with mine
    · obtain ⟨before, known, rfl⟩ := Option.map_eq_some_iff.mp found
      refine Finset.mem_erase.mpr ⟨fun step => ?_, taken.2 before (mine ▸ known)⟩
      have hand : inHand j i (.pump ⟨onBehalfOf, now, .releaseStep ticket lease rest⟩) = true := by
        simp [inHand, step, mine, same]
      rw [hand] at empty
      cases empty
    · exact taken.2 claim found

/-- A spent token is not in the hand of the frame that runs. -/
theorem Spent.empty (spent : Spent w j i) (fires : World.Fires w env f o others w') :
    inHand j i f = false := by
  by_contra hand
  have some : 0 < w.frames.countP (inHand j i) :=
    List.countP_pos_iff.mpr ⟨f, fires.frames.mem_before, by simpa using hand⟩
  have none := spent.2
  unfold tokens at none
  omega

theorem Spent.stays (spent : Spent w j i) (one : OneToken w)
    (fires : World.Fires w env f o others w') : Spent w' j i := by
  have empty := spent.empty fires
  refine ⟨spent.1.stays one fires empty, ?_⟩
  have balance := tokens_fires fires j i
  have none := spent.2
  have quiet : (o.push ++ o.spawned).countP (inHand j i) = 0 ∧
      o.observed.count (.assigned j i) = 0 := by
    have move : ClaimsMove env w.control f o := fires.stepped ▸ claims_move env w.control f
    cases move with
    | still _ _ after silent =>
      exact ⟨countP_emptyHanded after j i, List.count_eq_zero.mpr (silent j i)⟩
    | books _ _ after silent =>
      exact ⟨countP_emptyHanded after j i, List.count_eq_zero.mpr (silent j i)⟩
    | @granted p ticket lease rest claim pc found free =>
      obtain ⟨onBehalfOf, now, at'⟩ := p
      obtain rfl : at' = .claim ticket lease rest := pc
      have same : lease.jobId = ticket.grant.jobId := one.own _ fires.frames.mem_before
      have other : ¬ (ticket.grant.jobId = j ∧ ticket.grant.stepId = i) := by
        rintro ⟨rfl, rfl⟩
        exact free (spent.1.2 claim (same ▸ found))
      simp [Pump.goto, inHand, other]
    | @answered p ticket lease rest result seen pc said =>
      obtain ⟨onBehalfOf, now, at'⟩ := p
      obtain rfl : at' = .assign ticket lease rest := pc
      have other : ¬ (ticket.grant.jobId = j ∧ ticket.grant.stepId = i) := by
        simpa [inHand] using empty
      rcases said with rfl | rfl
      · simp [Pump.goto, inHand, other]
      · simp [Pump.goto, inHand]
    | @refused p ticket lease rest pc =>
      obtain ⟨onBehalfOf, now, at'⟩ := p
      obtain rfl : at' = .assign ticket lease rest := pc
      have other : ¬ (ticket.grant.jobId = j ∧ ticket.grant.stepId = i) := by
        simpa [inHand] using empty
      simp [Pump.goto, inHand, other]
    | @released p ticket lease rest pc => simp [Pump.goto, inHand]
  obtain ⟨hands, calls⟩ := quiet
  rw [hands, calls, List.countP_singleton, empty] at balance
  simpa [none] using balance

/-- **One frame records the acceptance of a step, and none that of a step turned down.** -/
structure OneAnswer (w : World) : Prop where
  token : OneToken w
  calls : ∀ j i, w.frames.countP (settling j i) ≤ w.history.count (.assigned j i)
  refused : ∀ j i, ∀ g ∈ w.frames, turnedDown j i g = true → Spent w j i

theorem OneAnswer.accepted_once (answers : OneAnswer w) (j : JobId) (i : StepId) :
    w.history.count (.assigned j i) ≤ 1 := by
  have once := answers.token.once j i
  unfold tokens at once
  omega

theorem OneAnswer.unaccepted (answers : OneAnswer w) {g : Frame} (member : g ∈ w.frames)
    (down : turnedDown j i g = true) : w.history.count (.assigned j i) = 0 := by
  have none := (answers.refused j i g member down).2
  unfold tokens at none
  omega

/-- The frame that is to record an acceptance is there as soon as it is seen. -/
theorem settling_of_assigned (stepped : f.step env c = o) (seen : .assigned j i ∈ o.observed) :
    ∃ g ∈ o.push ++ o.spawned, settling j i g = true := by
  refine List.countP_pos_iff.mp ?_
  rw [settling_new stepped]
  exact List.count_pos_iff.mpr seen

theorem oneAnswer_fires (answers : OneAnswer w) (fires : World.Fires w env f o others w') :
    OneAnswer w' := by
  refine ⟨oneToken_fires answers.token fires, fun j i => ?_, fun j i g member down => ?_⟩
  · have balance := fires.frames.count (settling j i)
    have new := settling_new fires.stepped (j := j) (i := i)
    have before := answers.calls j i
    rw [fires.history, List.count_append]
    omega
  · rcases fires.frames.mem_after member with fresh | old
    · cases answered fires.stepped with
      | none none =>
        exact absurd (recording_of_turnedDown down) (List.countP_eq_zero.mp none g fresh)
      | accepted own answer control new seen =>
        rw [new] at fresh
        obtain rfl := List.mem_singleton.mp fresh
        cases down
      | @rejected onBehalfOf now ticket lease rest e own control new silent =>
        subst own
        rw [new] at fresh
        obtain rfl := List.mem_singleton.mp fresh
        have hand : inHand j i (.pump ⟨onBehalfOf, now, .assign ticket lease rest⟩) = true := down
        have balance := tokens_fires fires j i
        have once := answers.token.once j i
        have mine : 0 < w.frames.countP (inHand j i) :=
          List.countP_pos_iff.mpr ⟨_, fires.frames.mem_before, hand⟩
        have some : 0 < tokens w j i := by
          unfold tokens
          omega
        obtain ⟨drawn, taken⟩ := answers.token.taken j i some
        refine ⟨⟨fires.drawn drawn, fun claim found => ?_⟩, ?_⟩
        · rw [fires.control, control] at found
          exact taken claim found
        · rw [new, silent, List.countP_singleton, hand, List.countP_singleton] at balance
          have empty : inHand j i (.pump ⟨onBehalfOf, now, .settle ticket (.error e) rest⟩) = false :=
            rfl
          rw [empty] at balance
          simp only [List.count_nil] at balance
          simp at balance
          omega
    · exact (answers.refused j i g old down).stays answers.token fires

theorem oneAnswer_call {w : World} (call : Call) (answers : OneAnswer w) :
    OneAnswer (w.step (.call call)) := by
  have frames := World.frames_call w call
  have idle : recording call.frame = false := by cases call <;> rfl
  refine ⟨oneToken_call call answers.token, fun j i => ?_, fun j i g member down => ?_⟩
  · have none : settling j i call.frame = false := by cases call <;> rfl
    rw [frames, List.countP_append, List.countP_singleton, none]
    exact answers.calls j i
  · rw [frames] at member
    rcases List.mem_append.mp member with old | new
    · obtain ⟨taken, none⟩ := answers.refused j i g old down
      have empty := (emptyHanded_call call).empty j i
      refine ⟨taken, ?_⟩
      unfold tokens at none ⊢
      rw [frames, List.countP_append, List.countP_singleton, empty]
      exact none
    · rw [List.mem_singleton.mp new] at down
      rw [recording_of_turnedDown down] at idle
      cases idle

end Answer

theorem oneAnswer (config : ControlConfig) (labels : List Label) :
    OneAnswer (run World.step (.init config) labels) :=
  World.invariant_always (fun _ call => oneAnswer_call call) (fun _ _ _ _ _ _ => oneAnswer_fires)
    ⟨oneToken_init config, fun _ _ => Nat.zero_le _, fun _ _ _ member => by cases member⟩ labels

end HullCi.System
