/-
**What one event can do to one step.**

Every event of a run rewrites the steps of its record in place: the sweep, the graph, a cancellation,
and the sections of the fleet. A property of single steps that each of these keeps holds of every
step of every run.

* `Turn` — the ways of one event, closed under composition.
* `eventStep_turns` — an event takes a turn with each step, in its place.
* `Turn.frozen` — no event touches a terminal step.
-/

import HullCi.Control.StepIds

namespace HullCi.Control

open HullCi.Proto HullCi.Base

/-- A way an event can rewrite one step. -/
inductive Turn (cfg : DriverConfig) : Event → Step → Step → Prop
  | stay (e : Event) (s : Step) : Turn cfg e s s
  | swept (now : Instant) (s : Step) : Turn cfg (.drive now) s (sweepStep cfg.timeouts now s).1
  | graph {now : Instant} {s s' : Step} (pending : s.state = .pending) (moved : Moved now s s') :
      Turn cfg (.drive now) s s'
  | cancelled (now : Instant) (s : Step) : Turn cfg (.drive now) s (s.tryTransition .skipped)
  | assigned {id : StepId} {result : Except NodeError String} {now : Instant} {s s' : Step}
      (settled : settleStep cfg.timeouts cfg.leaseTtl now result s = some s') :
      Turn cfg (.assigned id result now) s s'
  | renewed {id : StepId} {fromNode : String} {now : Instant} {s s' : Step}
      (accepted : renewStep cfg.leaseTtl fromNode now s = .ok s') :
      Turn cfg (.renewed id fromNode now) s s'
  | reported {report : StepReport} {fromNode logPrefix : String} {now : Instant} {s s' : Step}
      (accepted : reportStep report fromNode logPrefix now s = .ok s') :
      Turn cfg (.reported report fromNode now) s s'
  | trans {e : Event} {s s' s'' : Step} (first : Turn cfg e s s') (next : Turn cfg e s' s'') :
      Turn cfg e s s''

variable {cfg : DriverConfig}

/-! ### Every event takes turns -/

/-- Turns with each step of a list, in their places. -/
def Turns (cfg : DriverConfig) (e : Event) (steps steps' : List Step) : Prop :=
  List.Forall₂ (Turn cfg e) steps steps'

theorem Turns.refl (e : Event) (steps : List Step) : Turns cfg e steps steps :=
  List.forall₂_same.mpr fun s _ => .stay e s

theorem Turns.map {e : Event} {steps steps' : List Step} {f : Step → Step}
    (turns : Turns cfg e steps steps') (next : ∀ s, Turn cfg e s (f s)) :
    Turns cfg e steps (steps'.map f) :=
  List.forall₂_map_right_iff.mpr (turns.imp fun _ s' first => first.trans (next s'))

theorem turns_modifyStep {e : Event} {id : StepId} {f : Step → Step} {job : Job}
    (turn : ∀ s, job.step id = some s → Turn cfg e s (f s)) :
    Turns cfg e job.steps (job.modifyStep id f).steps := by
  show Turns cfg e job.steps (Job.modifyStep.go id f job.steps)
  unfold Job.step at turn
  generalize job.steps = steps at turn
  induction steps with
  | nil => exact .nil
  | cons s rest ih =>
    unfold Job.modifyStep.go
    by_cases here : s.id = id
    · rw [if_pos here]
      have first := turn s (List.find?_cons_of_pos (by simpa using here))
      exact .cons first (Turns.refl e rest)
    · rw [if_neg here]
      rw [List.find?_cons_of_neg (by simpa using here)] at turn
      exact .cons (.stay e s) (ih turn)

theorem turn_pass (now : Instant) (view : List Seen) (s : Step) :
    Turn cfg (.drive now) s (passStep now view s) := by
  rcases passStep_cases now view s with same | ⟨pending, moved, -⟩
  · rw [same]
    exact .stay _ s
  · exact .graph pending moved

theorem turn_break (now : Instant) (s : Step) : Turn cfg (.drive now) s (breakStep now s) := by
  unfold breakStep
  by_cases pending : s.state = .pending
  · have legal : s.state.canTransitionTo .errored = true := by rw [pending]; rfl
    rw [if_pos pending, errorInfra_eq_some.mpr ⟨legal, rfl⟩]
    exact .graph pending (.broken cycleDetail)
  · rw [if_neg pending]
    exact .stay _ s

/-- The sweep, then the graph, at any depth of its cascade. -/
theorem turns_passSteps (now : Instant) (steps : List Step) :
    Turns cfg (.drive now) steps (passSteps cfg.timeouts now steps) := by
  have swept : Turns cfg (.drive now) steps (sweep cfg.timeouts now steps).1 :=
    (Turns.refl _ steps).map (Turn.swept now)
  exact advance_keeps (I := Turns cfg (.drive now) steps)
    (fun other turns => turns.map (turn_pass now (snapshot other)))
    (fun _ turns _ => turns.map (turn_break now)) swept

theorem recordVerdict_steps (v : Verdict) (now : Instant) (job : Job) :
    (recordVerdict v now job).1.steps = job.steps ∧
      (recordVerdict v now job).1.dispatch = job.dispatch := by
  unfold recordVerdict
  split_ifs
  · exact ⟨rfl, rfl⟩
  · exact ⟨Job.tryTransitionAt_steps _ _ _, Job.tryTransitionAt_dispatch _ _ _⟩

theorem turns_drive (now : Instant) (w : Driver) :
    Turns cfg (.drive now) w.job.steps (driveStep cfg now w).job.steps := by
  cases stage : w.stage with
  | driving =>
    rw [(driveStep_driving cfg now stage).1]
    exact turns_passSteps now w.job.steps
  | finishing cancel v =>
    unfold driveStep
    simp only [stage]
    cases cancel with
    | nil =>
      show Turns cfg _ w.job.steps (recordVerdict (linked cfg.detailsUrl v) now w.job).1.steps
      rw [(recordVerdict_steps _ now w.job).1]
      exact .refl _ _
    | cons id rest => exact turns_modifyStep fun s _ => .cancelled now s
  | done =>
    unfold driveStep
    simp only [stage]
    exact .refl _ _

/-- **An event takes a turn with each step of its record, in its place.** -/
theorem eventStep_turns (cfg : DriverConfig) (w : Driver) (e : Event) :
    Turns cfg e w.job.steps (eventStep cfg w e).job.steps := by
  cases e with
  | drive now => exact turns_drive now w
  | assigned id result now =>
    unfold eventStep
    dsimp only
    rcases settleAssignment_cases cfg.timeouts cfg.leaseTtl now id result w.job with
      same | ⟨s, s', found, settled, -, same⟩
    · rw [same]
      exact .refl _ _
    · rw [same]
      refine turns_modifyStep fun other found' => ?_
      obtain rfl := Option.some.inj (found.symm.trans found')
      exact .assigned settled
  | renewed id fromNode now =>
    unfold eventStep renewLease
    dsimp only
    rcases onStep_cases w.job id (renewStep cfg.leaseTtl fromNode now) with
      same | ⟨s, s', found, accepted, same⟩
    · rw [same]
      exact .refl _ _
    · rw [same]
      refine turns_modifyStep fun other found' => ?_
      obtain rfl := Option.some.inj (found.symm.trans found')
      exact .renewed accepted
  | reported report fromNode now =>
    unfold eventStep recordStepReport
    dsimp only
    rcases onStep_cases w.job report.stepId (reportStep report fromNode _ now) with
      same | ⟨s, s', found, accepted, same⟩
    · rw [same]
      exact .refl _ _
    · rw [same]
      refine turns_modifyStep fun other found' => ?_
      obtain rfl := Option.some.inj (found.symm.trans found')
      exact .reported accepted
  | delivered attempts landed now =>
    show Turns cfg _ w.job.steps (settleReport attempts landed now w.job).steps
    rw [show (settleReport attempts landed now w.job).steps = w.job.steps from
      Job.tryTransitionAt_steps _ _ _]
    exact .refl _ _
  | late v now =>
    unfold eventStep
    dsimp only
    split_ifs
    · rw [(recordVerdict_steps v now w.job).1]
      exact .refl _ _
    · exact .refl _ _

/-! ### What turns keep -/

/-- What every turn of an event keeps, the event keeps of every step. -/
theorem Turns.keep {e : Event} {I : Step → Prop} (keeps : ∀ {s s'}, Turn cfg e s s' → I s → I s')
    {steps steps' : List Step} (turns : Turns cfg e steps steps') (all : ∀ s ∈ steps, I s) :
    ∀ s ∈ steps', I s := by
  intro s' member
  obtain ⟨s, present, turn⟩ := exists_source turns member
  exact keeps turn (all s present)

/-- A turn keeps the identity and the spec of its step, and is a legal move. -/
theorem Turn.legal {e : Event} {s s' : Step} (turn : Turn cfg e s s') :
    s'.id = s.id ∧ s'.spec = s.spec ∧ (s.state.isTerminal = true → s' = s) := by
  induction turn with
  | stay e s => exact ⟨rfl, rfl, fun _ => rfl⟩
  | swept now s =>
    refine ⟨?_, ?_, (stepMove_sweep True cfg.timeouts now s).terminal⟩
    · rcases sweepStep_cases cfg.timeouts now s with same | ⟨expiry, -, same⟩ <;> rw [same]
      rfl
    · rcases sweepStep_cases cfg.timeouts now s with same | ⟨expiry, -, same⟩ <;> rw [same]
      rfl
  | graph pending moved =>
    have move : StepMove True _ _ := stepMove_moved pending moved fun _ => trivial
    refine ⟨moved.id_eq, ?_, move.terminal⟩
    cases moved <;> rfl
  | cancelled now s =>
    refine ⟨Step.tryTransition_id s .skipped, ?_, fun terminal => ?_⟩
    · rw [Step.tryTransition_eq]
      split_ifs <;> rfl
    · rw [Step.tryTransition_eq, if_neg]
      rw [StepState.isTerminal_stuck terminal]
      exact Bool.false_ne_true
  | assigned settled =>
    obtain ⟨id, spec, -, -⟩ := settleStep_cases settled
    have move : StepMove True _ _ := stepMove_settle settled
    exact ⟨id, spec, move.terminal⟩
  | renewed accepted =>
    obtain ⟨id, spec, -, -⟩ := renewStep_cases accepted
    have move : StepMove True _ _ := stepMove_renew accepted
    exact ⟨id, spec, move.terminal⟩
  | reported accepted =>
    obtain ⟨id, spec, -⟩ := reportStep_cases accepted
    have move : StepMove True _ _ := stepMove_report accepted
    exact ⟨id, spec, move.terminal⟩
  | trans first next ih ih' =>
    refine ⟨ih'.1.trans ih.1, ih'.2.1.trans ih.2.1, fun terminal => ?_⟩
    obtain rfl := ih.2.2 terminal
    exact ih'.2.2 terminal

/-- **No event touches a terminal step**, and none changes which step an id finds. -/
theorem Turns.frozen {e : Event} {steps steps' : List Step} (turns : Turns cfg e steps steps')
    {id : StepId} {s : Step} (found : steps.find? (·.id = id) = some s)
    (terminal : s.state.isTerminal = true) : steps'.find? (·.id = id) = some s := by
  induction turns with
  | nil => cases found
  | @cons a b rest rest' first _ ih =>
    obtain ⟨same, -, stays⟩ := first.legal
    by_cases here : a.id = id
    · rw [List.find?_cons_of_pos (by simpa using here)] at found
      obtain rfl := Option.some.inj found
      rw [List.find?_cons_of_pos (by simpa [same] using here), stays terminal]
    · rw [List.find?_cons_of_neg (by simpa using here)] at found
      rw [List.find?_cons_of_neg (by simpa [same] using here)]
      exact ih found

/-- A terminal step stays what it is through the rest of a run. -/
theorem run_frozen {w : Driver} {id : StepId} {s : Step} (found : w.job.step id = some s)
    (terminal : s.state.isTerminal = true) (events : List Event) :
    (run (eventStep cfg) w events).job.step id = some s :=
  run_invariant (I := fun w : Driver => w.job.step id = some s)
    (fun w e found => (eventStep_turns cfg w e).frozen found terminal) found events

theorem Turns.ids {e : Event} {steps steps' : List Step} (turns : Turns cfg e steps steps') :
    steps'.map (·.id) = steps.map (·.id) := by
  induction turns with
  | nil => rfl
  | cons first _ ih => rw [List.map_cons, List.map_cons, first.legal.1, ih]

section Run

variable (cfg : DriverConfig) (id : JobId) (dispatch : Dispatch) (authorClass : AuthorClass)
  (created start : Instant) (noise : ℕ → BitVec 32) (specs : List StepSpec)
  (decisions : List MemoDecision)

theorem launched_steps :
    (launched id dispatch authorClass cfg.timeouts created start noise specs decisions).job.steps =
      seedSteps start noise 0 (decisionsFor specs decisions) := by
  simp [launched, installPlan, Job.new]

/-- **The steps of one record have different ids, in every state of its run.** -/
theorem nodup_after (events : List Event) :
    ((after cfg id dispatch authorClass created start noise specs decisions events).job.steps.map
      (·.id)).Nodup := by
  refine run_invariant (I := fun w : Driver => (w.job.steps.map (·.id)).Nodup) (fun w e distinct => ?_)
    ?_ events
  · rw [(eventStep_turns cfg w e).ids]
    exact distinct
  · rw [launched_steps]
    exact nodup_seedSteps start noise 0 _

end Run

end HullCi.Control
