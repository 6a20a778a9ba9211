/-
**The dependency graph: which pending steps are free, and which can never run.**

`advance` runs `advancePass` to a fixpoint, since a skip cascades, and then breaks a cycle that
nothing in flight can end. The fixpoint loop carries fuel; `advanceLoop_settled` shows that the fuel
`advance` gives it always suffices, so the loop is the source's `loop { .. }`.

* `settle_cases` — what one gate decision can do to one step.
* `gate_skip` — a step is skipped only below a step that blocks it.
* `advance_ids` — advancing keeps every identity.
-/

import HullCi.Control.Model

namespace HullCi.Control

open HullCi.Proto

/-- How much of a `needs` label is echoed back. -/
def needsNameCap : ℕ := 64

/-- What the graph did to one step that was waiting on it. -/
inductive Advance
  | ready
  | skipped
  | broken
  deriving DecidableEq, Repr

/-- What one step's `needs` list says about it. -/
inductive Gate
  | ready
  | skip
  | wait
  | undeclared (name : String)
  deriving DecidableEq, Repr

/-- What one dependency says. -/
inductive DepStatus
  | satisfied
  | blocked
  | waiting
  | unknown
  deriving DecidableEq, Repr

/-- What a gate reads of a step. -/
structure Seen where
  name : String
  state : StepState
  continueOnError : Bool
  deriving DecidableEq, Repr

/-- The consistent view a pass decides against. -/
def snapshot (steps : List Step) : List Seen :=
  steps.map fun s => ⟨s.spec.name, s.state, s.spec.continueOnError⟩

/-- `dep_status`: the first step of that name answers. -/
def depStatus (name : String) (view : List Seen) : DepStatus :=
  match view.find? (·.name = name) with
  | none => .unknown
  | some seen =>
    match seen.state with
    | .passed | .cached => .satisfied
    | .failed => if seen.continueOnError then .satisfied else .blocked
    | .errored | .skipped => .blocked
    | _ => .waiting

/-- The loop of `gate`, with its two flags; an undeclared name returns at once. -/
def gateLoop (view : List Seen) : List String → Bool → Bool → Gate
  | [], true, _ => .skip
  | [], false, true => .wait
  | [], false, false => .ready
  | name :: needs, blocked, waiting =>
    match depStatus name view with
    | .unknown => .undeclared name
    | .blocked => gateLoop view needs true waiting
    | .waiting => gateLoop view needs blocked true
    | .satisfied => gateLoop view needs blocked waiting

def gate (needs : List String) (view : List Seen) : Gate :=
  gateLoop view needs false false

/-- Mark a step errored for a reason that is ours; refused when the step has moved on. -/
def errorInfra (now : Instant) (detail : String) (s : Step) : Option Step :=
  (s.transition .errored).toOption.map fun s' => { s' with
    errorReason := some .infra
    detail := detail
    finishedAt := some now }

/-- Apply one gate decision to one step. -/
def settle (now : Instant) (s : Step) : Gate → Option (Step × Advance)
  | .wait => none
  | .ready => (s.transition .ready).toOption.map fun s' => ({ s' with readyAt := some now }, .ready)
  | .skip =>
    (s.transition .skipped).toOption.map fun s' => ({ s' with finishedAt := some now }, .skipped)
  | .undeclared name =>
    (errorInfra now ("needs " ++ quoted name needsNameCap ++ ", which the plan does not declare") s).map
      (·, .broken)

/-- The decision a pass takes for one step. -/
def decision (view : List Seen) (s : Step) : Gate :=
  if s.state = .pending then gate s.spec.needs view else .wait

/-- What one pass makes of one step. -/
def passStep (now : Instant) (view : List Seen) (s : Step) : Step :=
  ((settle now s (decision view s)).map (·.1)).getD s

/-- What one pass reports as moved. -/
def passMoved (now : Instant) (view : List Seen) (steps : List Step) : List (StepId × Advance) :=
  steps.filterMap fun s => (settle now s (decision view s)).map fun moved => (s.id, moved.2)

/-- One pass of the fixpoint loop: every decision is taken against the same view. -/
def advancePass (now : Instant) (steps : List Step) : List Step × List (StepId × Advance) :=
  (steps.map (passStep now (snapshot steps)), passMoved now (snapshot steps) steps)

/-- The fixpoint loop, with fuel. -/
def advanceLoop (now : Instant) : ℕ → List Step → List Step × List (StepId × Advance)
  | 0, steps => (steps, [])
  | fuel + 1, steps =>
    match advancePass now steps with
    | (_, []) => (steps, [])
    | (steps', moved) =>
      let (final, later) := advanceLoop now fuel steps'
      (final, moved ++ later)

/-- How many steps still wait on the graph. -/
def pendingCount (steps : List Step) : ℕ :=
  steps.countP (·.state = .pending)

/-- Something is ready or in flight. -/
def live (steps : List Step) : Bool :=
  steps.any fun s => s.state = .ready ∨ s.state = .leased ∨ s.state = .running

/-- The detail of a step that waits on a cycle. -/
def cycleDetail : String :=
  "waiting on a dependency that can never start (cycle in the plan's needs edges)"

/-- Error one step that only waits on steps that wait. -/
def breakStep (now : Instant) (s : Step) : Step :=
  if s.state = .pending then (errorInfra now cycleDetail s).getD s else s

/-- Break a cycle: with nothing live, every pending step is errored. -/
def breakCycle (now : Instant) (steps : List Step) : List Step × List (StepId × Advance) :=
  if live steps then (steps, [])
  else (steps.map (breakStep now),
    (steps.filter (·.state = .pending)).map fun s => (s.id, .broken))

/-- Move every step the graph has just unblocked, and leave none waiting forever. -/
def advance (now : Instant) (steps : List Step) : List Step × List (StepId × Advance) :=
  let (settled, moved) := advanceLoop now (pendingCount steps + 1) steps
  let (final, broken) := breakCycle now settled
  (final, moved ++ broken)

/-! ### What one decision can do -/

theorem errorInfra_eq_some {now : Instant} {detail : String} {s s' : Step} :
    errorInfra now detail s = some s' ↔
      s.state.canTransitionTo .errored = true ∧
        s' = { s with
          state := .errored
          errorReason := some .infra
          detail := detail
          finishedAt := some now } := by
  unfold errorInfra
  rw [Option.map_eq_some_iff]
  constructor
  · rintro ⟨moved, found, rfl⟩
    obtain ⟨legal, rfl⟩ := Step.toOption_transition_eq_some.mp found
    exact ⟨legal, rfl⟩
  · rintro ⟨legal, rfl⟩
    exact ⟨_, Step.toOption_transition_eq_some.mpr ⟨legal, rfl⟩, rfl⟩

/-- Where the graph may put a pending step. -/
inductive Moved (now : Instant) (s : Step) : Step → Prop
  | ready : Moved now s { s with state := .ready, readyAt := some now }
  | skipped : Moved now s { s with state := .skipped, finishedAt := some now }
  | broken (detail : String) : Moved now s { s with
      state := .errored
      errorReason := some .infra
      detail := detail
      finishedAt := some now }

theorem settle_cases {now : Instant} {s s' : Step} {g : Gate} {a : Advance}
    (moved : settle now s g = some (s', a)) :
    Moved now s s' ∧ (s'.state = .skipped → g = .skip) := by
  cases g with
  | wait => cases moved
  | ready =>
    obtain ⟨ready, found, same⟩ := Option.map_eq_some_iff.mp moved
    obtain ⟨rfl, -⟩ := Prod.mk.inj same
    obtain ⟨-, rfl⟩ := Step.toOption_transition_eq_some.mp found
    exact ⟨.ready, fun skipped => by cases skipped⟩
  | skip =>
    obtain ⟨skipped, found, same⟩ := Option.map_eq_some_iff.mp moved
    obtain ⟨rfl, -⟩ := Prod.mk.inj same
    obtain ⟨-, rfl⟩ := Step.toOption_transition_eq_some.mp found
    exact ⟨.skipped, fun _ => rfl⟩
  | undeclared name =>
    obtain ⟨broken, found, same⟩ := Option.map_eq_some_iff.mp moved
    obtain ⟨rfl, -⟩ := Prod.mk.inj same
    obtain ⟨-, rfl⟩ := errorInfra_eq_some.mp found
    exact ⟨.broken _, fun skipped => by cases skipped⟩

/-- **What a pass can do to one step**: nothing, or one of the three moves out of `pending`. -/
theorem passStep_cases (now : Instant) (view : List Seen) (s : Step) :
    passStep now view s = s ∨
      (s.state = .pending ∧ Moved now s (passStep now view s) ∧
        ((passStep now view s).state = .skipped → gate s.spec.needs view = .skip)) := by
  unfold passStep
  cases moved : settle now s (decision view s) with
  | none => exact .inl rfl
  | some outcome =>
    obtain ⟨s', a⟩ := outcome
    right
    have pending : s.state = .pending := by
      by_contra other
      rw [decision, if_neg other] at moved
      cases moved
    rw [decision, if_pos pending] at moved
    exact ⟨pending, settle_cases moved⟩

/-- **A step is skipped only below a step that blocks it.** -/
theorem gateLoop_skip {view : List Seen} {needs : List String} {blocked waiting : Bool}
    (skip : gateLoop view needs blocked waiting = .skip) :
    blocked = true ∨ ∃ name ∈ needs, depStatus name view = .blocked := by
  induction needs generalizing blocked waiting with
  | nil =>
    cases blocked with
    | true => exact .inl rfl
    | false => cases waiting <;> cases skip
  | cons name needs ih =>
    unfold gateLoop at skip
    cases status : depStatus name view with
    | blocked => exact .inr ⟨name, List.mem_cons_self, status⟩
    | unknown => simp only [status, reduceCtorEq] at skip
    | waiting =>
      simp only [status] at skip
      exact (ih skip).imp id fun ⟨n, member, same⟩ => ⟨n, List.mem_cons_of_mem _ member, same⟩
    | satisfied =>
      simp only [status] at skip
      exact (ih skip).imp id fun ⟨n, member, same⟩ => ⟨n, List.mem_cons_of_mem _ member, same⟩

theorem gate_skip {needs : List String} {view : List Seen} (skip : gate needs view = .skip) :
    ∃ name ∈ needs, depStatus name view = .blocked := by
  rcases gateLoop_skip skip with impossible | found
  · cases impossible
  · exact found

/-- The step behind a blocked dependency: fatally failed, errored or skipped. -/
theorem depStatus_blocked {name : String} {steps : List Step}
    (blocked : depStatus name (snapshot steps) = .blocked) :
    ∃ s ∈ steps, s.failedFatally = true ∨ s.state = .errored ∨ s.state = .skipped := by
  unfold depStatus at blocked
  cases found : (snapshot steps).find? (·.name = name) with
  | none => simp only [found, reduceCtorEq] at blocked
  | some seen =>
    obtain ⟨s, member, rfl⟩ := List.mem_map.mp (List.mem_of_find?_eq_some found)
    refine ⟨s, member, ?_⟩
    simp only [found] at blocked
    cases state : s.state <;> simp_all [Step.failedFatally]

/-! ### Identities and the fixpoint -/

theorem Moved.id_eq {now : Instant} {s s' : Step} (moved : Moved now s s') : s'.id = s.id := by
  cases moved <;> rfl

theorem Moved.not_pending {now : Instant} {s s' : Step} (moved : Moved now s s') :
    s'.state ≠ .pending := by
  cases moved <;> exact fun pending => by cases pending

theorem passStep_id (now : Instant) (view : List Seen) (s : Step) :
    (passStep now view s).id = s.id := by
  rcases passStep_cases now view s with same | ⟨_, moved, _⟩
  · rw [same]
  · exact moved.id_eq

theorem breakStep_id (now : Instant) (s : Step) : (breakStep now s).id = s.id := by
  unfold breakStep
  split
  · cases found : errorInfra now cycleDetail s with
    | none => rfl
    | some s' =>
      obtain ⟨-, rfl⟩ := errorInfra_eq_some.mp found
      rfl
  · rfl

theorem advanceLoop_keeps {I : List Step → Prop} {now : Instant}
    (keep : ∀ steps, I steps → I (steps.map (passStep now (snapshot steps)))) (fuel : ℕ)
    {steps : List Step} (start : I steps) : I (advanceLoop now fuel steps).1 := by
  induction fuel generalizing steps with
  | zero => exact start
  | succ fuel ih =>
    unfold advanceLoop
    cases pass : advancePass now steps with
    | mk steps' moved =>
      have same : steps' = steps.map (passStep now (snapshot steps)) := congrArg Prod.fst pass.symm
      cases moved with
      | nil => exact start
      | cons _ _ => exact ih (same ▸ keep steps start)

/-- What every pass and the cycle rule keep, `advance` keeps. -/
theorem advance_keeps {I : List Step → Prop} {now : Instant}
    (pass : ∀ steps, I steps → I (steps.map (passStep now (snapshot steps))))
    (cycle : ∀ steps, I steps → live steps = false → I (steps.map (breakStep now)))
    {steps : List Step} (start : I steps) : I (advance now steps).1 := by
  have settled := advanceLoop_keeps pass (pendingCount steps + 1) start
  show I (breakCycle now (advanceLoop now (pendingCount steps + 1) steps).1).1
  unfold breakCycle
  split
  · exact settled
  · rename_i dead
    exact cycle _ settled (Bool.eq_false_iff.mpr dead)

/-- **Advancing keeps every identity.** -/
theorem advance_ids (now : Instant) (steps : List Step) :
    (advance now steps).1.map (·.id) = steps.map (·.id) := by
  refine advance_keeps (I := fun other => other.map (·.id) = steps.map (·.id)) ?_ ?_ rfl
  · intro other same
    rw [← same, List.map_map]
    exact List.map_congr_left fun s _ => passStep_id now _ s
  · intro other same _
    rw [← same, List.map_map]
    exact List.map_congr_left fun s _ => breakStep_id now s

theorem pendingCount_pass_le (now : Instant) (view : List Seen) (steps : List Step) :
    pendingCount (steps.map (passStep now view)) ≤ pendingCount steps := by
  unfold pendingCount
  rw [List.countP_map]
  refine List.countP_mono_left fun s _ still => ?_
  rcases passStep_cases now view s with same | ⟨_, moved, _⟩
  · rwa [Function.comp_apply, same] at still
  · exact absurd (of_decide_eq_true still) moved.not_pending

/-- A pass that moves something leaves fewer steps pending. -/
theorem pendingCount_pass_lt {now : Instant} {view : List Seen} {steps : List Step}
    (moved : passMoved now view steps ≠ []) :
    pendingCount (steps.map (passStep now view)) < pendingCount steps := by
  induction steps with
  | nil => exact absurd rfl moved
  | cons s steps ih =>
    unfold pendingCount at ih ⊢
    rw [List.map_cons, List.countP_cons, List.countP_cons]
    cases outcome : settle now s (decision view s) with
    | none =>
      have same : passStep now view s = s := by rw [passStep, outcome]; rfl
      have rest : passMoved now view steps ≠ [] := by
        rwa [passMoved, List.filterMap_cons, outcome] at moved
      rw [same]
      exact Nat.add_lt_add_right (ih rest) _
    | some out =>
      have pending : s.state = .pending := by
        by_contra other
        rw [decision, if_neg other] at outcome
        cases outcome
      obtain ⟨s', a⟩ := out
      have gone : (passStep now view s).state ≠ .pending := by
        rw [passStep, outcome]
        exact (settle_cases outcome).1.not_pending
      have le := pendingCount_pass_le now view steps
      unfold pendingCount at le
      simp only [gone, pending, decide_false, decide_true, if_true]
      simp only [Bool.false_eq_true, if_false]
      omega

/-- **The fuel suffices**: after the loop no pass moves anything. -/
theorem advanceLoop_settled (now : Instant) (fuel : ℕ) (steps : List Step)
    (enough : pendingCount steps < fuel) :
    (advancePass now (advanceLoop now fuel steps).1).2 = [] := by
  induction fuel generalizing steps with
  | zero => exact absurd enough (Nat.not_lt_zero _)
  | succ fuel ih =>
    unfold advanceLoop
    cases pass : advancePass now steps with
    | mk steps' moved =>
      cases moved with
      | nil =>
        show (advancePass now steps).2 = []
        rw [pass]
      | cons m rest =>
        have nonempty : passMoved now (snapshot steps) steps ≠ [] := by
          rw [show passMoved now (snapshot steps) steps = m :: rest from congrArg Prod.snd pass]
          exact List.cons_ne_nil m rest
        have fewer := pendingCount_pass_lt nonempty
        have same : steps' = steps.map (passStep now (snapshot steps)) :=
          congrArg Prod.fst pass.symm
        exact ih steps' (by rw [same]; omega)

end HullCi.Control
