/-
**A job in the driver's loop never waits on nothing.**

Every transition into a state with a clock sets that clock, so the sweep and the driver's sleep
always have an instant to read. After the graph has advanced, a pending step waits on an unfinished
one; and when nothing is ready or in flight the cycle rule leaves no step pending, so the fold
decides.

* `clocked_after` — in every state of a run the steps carry their clocks.
* `advance_waits` — what is pending after the graph waits, and something is live.
* `never_hangs` — after every pass the fold decides or some step is live, with a finite deadline.
* `stranded_step` — a cycle beside a live step stays pending until nothing is live.
-/

import HullCi.Control.Turns

namespace HullCi.Control

open HullCi.Proto HullCi.Base

/-! ### Clocks -/

/-- A step in a state with a clock carries that clock, and its node once it has one. -/
structure Clocked (s : Step) : Prop where
  ready : s.state = .ready → s.readyAt.isSome = true
  leased : isLeased s.state = true → s.startedAt.isSome = true ∧ s.nodeId.isSome = true

theorem Clocked.of_idle {s : Step} (idle : live [s] = false) : Clocked s := by
  constructor
  · intro ready
    simp [live, ready] at idle
  · intro leased
    cases state : s.state <;> simp_all [live, isLeased]

theorem clocked_sweepStep (t : Timeouts) (now : Instant) {s : Step} (clocked : Clocked s) :
    Clocked (sweepStep t now s).1 := by
  rcases sweepStep_cases t now s with same | ⟨expiry, -, same⟩
  · rw [same]
    exact clocked
  · rw [same]
    exact .of_idle rfl

theorem clocked_moved {now : Instant} {s s' : Step} (moved : Moved now s s') : Clocked s' := by
  cases moved with
  | ready => exact ⟨fun _ => rfl, fun leased => by cases leased⟩
  | skipped => exact .of_idle rfl
  | broken detail => exact .of_idle rfl

theorem clocked_passStep (now : Instant) (view : List Seen) {s : Step} (clocked : Clocked s) :
    Clocked (passStep now view s) := by
  rcases passStep_cases now view s with same | ⟨-, moved, -⟩
  · rw [same]
    exact clocked
  · exact clocked_moved moved

/-- The cycle rule leaves no step pending, and every other one alone. -/
theorem breakStep_cases (now : Instant) (s : Step) :
    breakStep now s = s ∧ s.state ≠ .pending ∨
      s.state = .pending ∧ Moved now s (breakStep now s) := by
  unfold breakStep
  by_cases pending : s.state = .pending
  · rw [if_pos pending]
    have legal : s.state.canTransitionTo .errored = true := by rw [pending]; rfl
    have broken : errorInfra now cycleDetail s = some _ := errorInfra_eq_some.mpr ⟨legal, rfl⟩
    rw [broken]
    exact .inr ⟨pending, .broken cycleDetail⟩
  · rw [if_neg pending]
    exact .inl ⟨rfl, pending⟩

theorem clocked_breakStep (now : Instant) {s : Step} (clocked : Clocked s) :
    Clocked (breakStep now s) := by
  rcases breakStep_cases now s with ⟨same, -⟩ | ⟨-, moved⟩
  · rw [same]
    exact clocked
  · exact clocked_moved moved

theorem clocked_map {f : Step → Step} (keeps : ∀ {s}, Clocked s → Clocked (f s))
    {steps : List Step} (clocked : ∀ s ∈ steps, Clocked s) : ∀ s ∈ steps.map f, Clocked s := by
  intro s member
  obtain ⟨before, present, rfl⟩ := List.mem_map.mp member
  exact keeps (clocked before present)

/-- **One pass of the driver keeps the clocks.** -/
theorem clocked_passSteps (t : Timeouts) (now : Instant) {steps : List Step}
    (clocked : ∀ s ∈ steps, Clocked s) : ∀ s ∈ passSteps t now steps, Clocked s := by
  have swept : ∀ s ∈ (sweep t now steps).1, Clocked s :=
    clocked_map (fun clocked => clocked_sweepStep t now clocked) clocked
  refine advance_keeps (I := fun steps : List Step => ∀ s ∈ steps, Clocked s) (fun steps clocked => ?_)
    (fun steps clocked _ => ?_) swept
  · exact clocked_map (fun clocked => clocked_passStep now _ clocked) clocked
  · exact clocked_map (fun clocked => clocked_breakStep now clocked) clocked

/-! ### Events keep the clocks -/

theorem clocked_settleStep {t : Timeouts} {leaseTtl : Duration} {now : Instant}
    {result : Except NodeError String} {s s' : Step}
    (settled : settleStep t leaseTtl now result s = some s') : Clocked s' := by
  cases result with
  | ok node =>
    obtain ⟨moved, found, rfl⟩ := Option.map_eq_some_iff.mp settled
    obtain ⟨-, rfl⟩ := Step.toOption_transition_eq_some.mp found
    exact ⟨fun ready => (by cases ready), fun _ => ⟨rfl, rfl⟩⟩
  | error e =>
    obtain ⟨moved, found, rfl⟩ := Option.map_eq_some_iff.mp settled
    obtain ⟨-, rfl⟩ := Step.toOption_transition_eq_some.mp found
    exact .of_idle rfl

theorem clocked_reportStep {report : StepReport} {fromNode logPrefix : String} {now : Instant}
    {s s' : Step} (accepted : reportStep report fromNode logPrefix now s = .ok s') :
    Clocked s' := by
  obtain ⟨-, -, -, state, -⟩ := reportStep_cases accepted
  refine .of_idle ?_
  unfold live
  cases outcome : report.outcome <;> simp [state, outcome, outcomeState]

theorem clocked_renewStep {leaseTtl : Duration} {fromNode : String} {now : Instant} {s s' : Step}
    (clocked : Clocked s) (accepted : renewStep leaseTtl fromNode now s = .ok s') :
    Clocked s' := by
  obtain ⟨-, -, leased, running⟩ := renewStep_cases accepted
  refine ⟨fun ready => ?_, fun _ => ?_⟩
  · rw [running] at ready
    cases ready
  · unfold renewStep at accepted
    split_ifs at accepted with holder idle
    obtain rfl := Except.ok.inj accepted
    obtain ⟨started, node⟩ := clocked.leased leased
    split_ifs
    · rw [Step.tryTransition_eq]
      split_ifs
      · exact ⟨started, node⟩
      · exact ⟨started, node⟩
    · exact ⟨started, node⟩

theorem clocked_seedStep (now : Instant) (id : StepId) (spec : StepSpec)
    (decision : MemoDecision) : Clocked (seedStep now id spec decision) := by
  refine .of_idle ?_
  unfold seedStep
  cases decision.hit with
  | none => rfl
  | some outcome => cases outcome <;> rfl

/-- **No turn of an event loses a clock.** -/
theorem Turn.clocked {cfg : DriverConfig} {e : Event} {s s' : Step} (turn : Turn cfg e s s')
    (clocked : Clocked s) : Clocked s' := by
  induction turn with
  | stay => exact clocked
  | swept now s => exact clocked_sweepStep cfg.timeouts now clocked
  | graph _ moved => exact clocked_moved moved
  | cancelled now s =>
    rw [Step.tryTransition_eq]
    split_ifs
    · exact .of_idle rfl
    · exact clocked
  | assigned settled => exact clocked_settleStep settled
  | renewed accepted => exact clocked_renewStep clocked accepted
  | reported accepted => exact clocked_reportStep accepted
  | trans _ _ ih ih' => exact ih' (ih clocked)

/-! ### Waiting -/

/-- A gate that waits has a dependency that waits, and none that blocks it or is not declared. -/
theorem gateLoop_wait {view : List Seen} {needs : List String} {blocked waiting : Bool}
    (waits : gateLoop view needs blocked waiting = .wait) :
    blocked = false ∧ (waiting = true ∨ ∃ name ∈ needs, depStatus name view = .waiting) ∧
      ∀ name ∈ needs, depStatus name view = .waiting ∨ depStatus name view = .satisfied := by
  induction needs generalizing blocked waiting with
  | nil =>
    cases blocked <;> cases waiting <;> simp_all [gateLoop]
  | cons name needs ih =>
    unfold gateLoop at waits
    cases status : depStatus name view with
    | unknown => simp only [status, reduceCtorEq] at waits
    | blocked =>
      simp only [status] at waits
      cases (ih waits).1
    | waiting =>
      simp only [status] at waits
      obtain ⟨unblocked, -, rest⟩ := ih waits
      exact ⟨unblocked, .inr ⟨name, List.mem_cons_self, status⟩,
        List.forall_mem_cons.mpr ⟨.inl status, rest⟩⟩
    | satisfied =>
      simp only [status] at waits
      obtain ⟨unblocked, some, rest⟩ := ih waits
      refine ⟨unblocked, some.imp id ?_, List.forall_mem_cons.mpr ⟨.inr status, rest⟩⟩
      rintro ⟨other, member, same⟩
      exact ⟨other, List.mem_cons_of_mem _ member, same⟩

theorem settle_eq_none {now : Instant} {s : Step} {g : Gate} (pending : s.state = .pending)
    (still : settle now s g = none) : g = .wait := by
  have legal : ∀ next, StepState.pending.canTransitionTo next = true →
      (s.transition next).toOption = some { s with state := next } :=
    fun next legal => Step.toOption_transition_eq_some.mpr ⟨pending ▸ legal, rfl⟩
  cases g with
  | wait => rfl
  | ready =>
    rw [settle, legal .ready rfl] at still
    cases still
  | skip =>
    rw [settle, legal .skipped rfl] at still
    cases still
  | undeclared name =>
    rw [settle, errorInfra, legal .errored rfl] at still
    cases still

/-- What a pending step waits for: a declared step that is unfinished, and none that blocks it. -/
structure Waits (steps : List Step) (s : Step) : Prop where
  unfinished : ∃ name ∈ s.spec.needs, depStatus name (snapshot steps) = .waiting
  open' : ∀ name ∈ s.spec.needs, depStatus name (snapshot steps) = .waiting ∨
    depStatus name (snapshot steps) = .satisfied

/-- **What is pending after the graph has advanced waits on an unfinished step, and something is
ready or in flight.** -/
theorem advance_waits (now : Instant) (steps : List Step) {s : Step}
    (member : s ∈ (advance now steps).1) (pending : s.state = .pending) :
    live (advance now steps).1 = true ∧ Waits (advance now steps).1 s := by
  have settled := advanceLoop_settled now (pendingCount steps + 1) steps (Nat.lt_succ_self _)
  have final : (advance now steps).1
      = (breakCycle now (advanceLoop now (pendingCount steps + 1) steps).1).1 := rfl
  rw [final] at member ⊢
  generalize (advanceLoop now (pendingCount steps + 1) steps).1 = loop at member settled
  unfold breakCycle at member ⊢
  by_cases alive : live loop = true
  · rw [if_pos alive] at member ⊢
    refine ⟨alive, ?_⟩
    have still : settle now s (decision (snapshot loop) s) = none := by
      have none := (List.filterMap_eq_nil_iff.mp settled) s member
      simpa using none
    have waits := settle_eq_none pending still
    rw [decision, if_pos pending] at waits
    obtain ⟨-, some, all⟩ := gateLoop_wait waits
    exact ⟨some.resolve_left Bool.false_ne_true, all⟩
  · rw [if_neg alive] at member
    obtain ⟨before, -, rfl⟩ := List.mem_map.mp member
    rcases breakStep_cases now before with ⟨same, other⟩ | ⟨-, moved⟩
    · exact absurd (same ▸ pending) other
    · exact absurd pending moved.not_pending

/-! ### The fold and the clock -/

theorem fold_of_terminal {steps : List Step} (elapsed : Duration)
    (terminal : ∀ s ∈ steps, s.state.isTerminal = true) :
    ∃ d, fold steps elapsed = .decided d := by
  have finished : (steps.any fun s => !s.state.isTerminal) = false := by
    rw [List.any_eq_false]
    intro s member
    simp [terminal s member]
  unfold fold
  rw [finished]
  split
  · exact ⟨_, rfl⟩
  · split
    · exact ⟨_, rfl⟩
    · rw [if_neg Bool.false_ne_true]
      split
      · exact ⟨_, rfl⟩
      · exact ⟨_, rfl⟩

/-- A live step with its clock gives the driver an instant to sleep to. -/
theorem nextStepDeadline_isSome (t : Timeouts) {steps : List Step}
    (clocked : ∀ s ∈ steps, Clocked s) (alive : live steps = true) :
    (nextStepDeadline t steps).isSome = true := by
  obtain ⟨s, member, state⟩ := List.any_eq_true.mp alive
  have deadline : (stepDeadline t s).isSome = true := by
    have ready := (clocked s member).ready
    have leased := (clocked s member).leased
    unfold stepDeadline
    cases state : s.state <;> simp_all [isLeased]
  obtain ⟨clock, found⟩ := Option.isSome_iff_exists.mp deadline
  have listed : clock.1 ∈ steps.filterMap fun s => (stepDeadline t s).map (·.1) :=
    List.mem_filterMap.mpr ⟨s, member, by rw [found]; rfl⟩
  unfold nextStepDeadline
  rw [List.isSome_min?_iff]
  exact List.ne_nil_of_mem listed

section Run

variable (cfg : DriverConfig) (id : JobId) (dispatch : Dispatch) (authorClass : AuthorClass)
  (created start : Instant) (noise : ℕ → BitVec 32) (specs : List StepSpec)
  (decisions : List MemoDecision)

/-- **In every state of a run the steps carry their clocks.** -/
theorem clocked_after (events : List Event) :
    ∀ s ∈ (after cfg id dispatch authorClass created start noise specs decisions events).job.steps,
      Clocked s := by
  refine run_invariant (I := fun w : Driver => ∀ s ∈ w.job.steps, Clocked s)
    (fun w e clocked => (eventStep_turns cfg w e).keep Turn.clocked clocked) (fun s member => ?_)
    events
  have seeded : s ∈ seedSteps start noise 0 (decisionsFor specs decisions) := by
    simpa [launched, installPlan, Job.new] using member
  obtain ⟨i, spec, decision, rfl⟩ := mem_seedSteps seeded
  exact clocked_seedStep start _ spec decision

/-- **A job cannot hang.** After every pass of every run the fold decides or some step is ready or in
flight; the steps carry their clocks, before and after the pass, so the driver sleeps to a finite
instant; and a step is pending only while some step is live, and waits on an unfinished one. -/
theorem never_hangs (events : List Event) (now : Instant) :
    let w := after cfg id dispatch authorClass created start noise specs decisions events
    let steps := (passJob cfg.timeouts now w.job).1.steps
    ((∃ d, fold steps (now - w.job.createdAt) = .decided d) ∨ live steps = true) ∧
      (∀ s ∈ w.job.steps, Clocked s) ∧ (∀ s ∈ steps, Clocked s) ∧
      (live steps = true → (nextStepDeadline cfg.timeouts steps).isSome = true) ∧
      (∀ deadline, (passJob cfg.timeouts now w.job).2 = .wait deadline →
        ∃ clock, nextStepDeadline cfg.timeouts steps = some clock ∧
          deadline = min clock w.job.deadlineAt) ∧
      ∀ s ∈ steps, s.state = .pending → live steps = true ∧ Waits steps s := by
  intro w steps
  have before : ∀ s ∈ w.job.steps, Clocked s :=
    clocked_after cfg id dispatch authorClass created start noise specs decisions events
  have clocked : ∀ s ∈ steps, Clocked s := clocked_passSteps cfg.timeouts now before
  have waits : ∀ s ∈ steps, s.state = .pending → live steps = true ∧ Waits steps s :=
    fun s member pending => advance_waits now _ member pending
  have answered : (∃ d, fold steps (now - w.job.createdAt) = .decided d) ∨ live steps = true := by
    by_cases alive : live steps = true
    · exact .inr alive
    · refine .inl (fold_of_terminal _ fun s member => ?_)
      have idle : ¬ (s.state = .ready ∨ s.state = .leased ∨ s.state = .running) := fun state =>
        alive (List.any_eq_true.mpr ⟨s, member, by simpa using state⟩)
      have moved : s.state ≠ .pending := fun pending => alive (waits s member pending).1
      cases state : s.state <;> simp_all [StepState.isTerminal]
  refine ⟨answered, before, clocked, nextStepDeadline_isSome _ clocked, fun deadline sleeps => ?_,
    waits⟩
  have undecided : fold steps (now - w.job.createdAt) = .undecided ∧
      ∀ clock, nextStepDeadline cfg.timeouts steps = some clock →
        deadline = min clock w.job.deadlineAt := by
    unfold passJob at sleeps
    dsimp only at sleeps
    split_ifs at sleeps
    split at sleeps
    · cases sleeps
    · rename_i undecided
      refine ⟨undecided, fun clock found => ?_⟩
      have found : nextStepDeadline cfg.timeouts (passSteps cfg.timeouts now w.job.steps) =
          some clock := found
      rw [found] at sleeps
      exact (Next.wait.inj sleeps).symm
  obtain ⟨undecided, same⟩ := undecided
  have alive : live steps = true := by
    refine answered.resolve_left ?_
    rintro ⟨d, decided⟩
    rw [undecided] at decided
    cases decided
  obtain ⟨clock, found⟩ := Option.isSome_iff_exists.mp (nextStepDeadline_isSome _ clocked alive)
  exact ⟨clock, found, same clock found⟩

end Run

/-! ### A cycle beside a live step -/

/-- The step is live, or waits, directly or through pending steps, on one that is. -/
inductive Reaches (steps : List Step) : Step → Prop
  | live {s : Step} (alive : live [s] = true) : Reaches steps s
  | waits {s dep : Step} {name : String} (needs : name ∈ s.spec.needs)
      (found : steps.find? (·.spec.name = name) = some dep) (reaches : Reaches steps dep) :
      Reaches steps s

/-- Two steps that need each other, and one on its own. -/
def cyclePlan : List StepSpec :=
  [{ name := "a", needs := ["b"] }, { name := "b", needs := ["a"] }, { name := "c" }]

/-- The steps of that plan after the first pass. -/
def cycleSteps : List Step :=
  (passJob {} 1 (after {} "job" ⟨"t/r", "", "tree", "", "", "", "cb", none⟩ .outsider 0 0
    (fun _ => 0) cyclePlan [] []).job).1.steps

/-- While a step beside the cycle is ready, the cycle stays pending and nothing it waits for can
run. -/
theorem stranded_step : ¬ ∀ s ∈ cycleSteps, s.state = .pending → Reaches cycleSteps s := by
  intro all
  have stuck : ∀ s ∈ cycleSteps, s.spec.name ≠ "c" → s.state = .pending := by decide +kernel
  have needs : ∀ s ∈ cycleSteps, s.spec.name ≠ "c" → ∀ name ∈ s.spec.needs,
      ∀ dep ∈ cycleSteps.find? (·.spec.name = name), dep ∈ cycleSteps ∧ dep.spec.name ≠ "c" := by
    decide +kernel
  have never : ∀ s, Reaches cycleSteps s → s ∈ cycleSteps → s.spec.name ≠ "c" → False := by
    intro s reaches
    induction reaches with
    | live alive =>
      intro member other
      simp [live, stuck _ member other] at alive
    | waits listed found _ ih =>
      intro member other
      obtain ⟨present, apart⟩ := needs _ member other _ listed _ found
      exact ih present apart
  have first : ∃ s ∈ cycleSteps, s.spec.name ≠ "c" := by decide +kernel
  obtain ⟨s, member, other⟩ := first
  exact never s (all s member (stuck s member other)) member other

end HullCi.Control
