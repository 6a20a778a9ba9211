/-
**No step is served what no node reported.**

* `Turn.remembers` — no event of a job changes a step's key, or makes a step look as if it were
  served from memory.
* `Justified`, `Decided`, `Remembers` — what holds of a step, of a driver that is still asking the
  memo, and of everything.
* `provided_report` — what a report leaves for the memo was run by a node.
* `remembers_step` — every step of the world keeps the invariant.
* `memo_sound` — every run is honest.
-/

import HullCi.Control.LogKeys
import HullCi.Control.MemoWorld
import HullCi.Control.Renames

namespace HullCi.Control

open HullCi.Proto HullCi.Base

/-! ### Reports -/

/-- What an accepted report leaves on its step. -/
theorem reportStep_fields {report : StepReport} {fromNode logPrefix : String} {now : Instant}
    {s s' : Step} (accepted : reportStep report fromNode logPrefix now s = .ok s') :
    s'.memoKey = s.memoKey ∧ s'.nodeId = some fromNode ∧ s'.finishedAt = some now ∧
      s'.id = s.id := by
  unfold reportStep at accepted
  split_ifs at accepted with idle stranger expired errored
  all_goals
    cases moved : s.transition (outcomeState report.outcome) with
    | error _ =>
      rw [moved] at accepted
      cases accepted
    | ok m =>
      rw [moved] at accepted
      obtain rfl := Except.ok.inj accepted
      obtain ⟨-, rfl⟩ := Step.transition_eq_ok.mp moved
      exact ⟨rfl, not_not.mp stranger, rfl, rfl⟩

/-- An accepted report is about one step, which is then as the report has it. -/
theorem recordStepReport_ok {report : StepReport} {fromNode : String} {now : Instant}
    {job job' : Job} (accepted : recordStepReport report fromNode now job = .ok job') :
    job'.dispatch = job.dispatch ∧ ∃ s s' logPrefix, job'.step report.stepId = some s' ∧
      reportStep report fromNode logPrefix now s = .ok s' := by
  unfold recordStepReport onStep at accepted
  dsimp only at accepted
  cases found : job.step report.stepId with
  | none =>
    rw [found] at accepted
    cases accepted
  | some s =>
    rw [found] at accepted
    dsimp only at accepted
    split at accepted
    · cases accepted
    · next s' reported =>
      obtain rfl := Except.ok.inj accepted
      obtain ⟨-, -, -, same⟩ := reportStep_fields reported
      have own : s.id = report.stepId := by
        unfold Job.step at found
        simpa using List.find?_some found
      have keeps : ∀ t, job.step report.stepId = some t → s'.id = report.stepId :=
        fun _ _ => same.trans own
      refine ⟨rfl, s, s', _, ?_, reported⟩
      rw [Job.step_modifyStep keeps, if_pos rfl, found, Option.map_some]

theorem toMemoize_eq_some {job : Job} {id : StepId} {tenant : String} {key : StepKey}
    {outcome : MemoOutcome} (left : toMemoize job id = some (tenant, key, outcome)) :
    ∃ s, job.step id = some s ∧ s.memoKey = some key ∧
      MemoOutcome.fromState s.state = some outcome ∧ job.dispatch.tenant = tenant := by
  unfold toMemoize at left
  obtain ⟨s, found, left⟩ := Option.bind_eq_some_iff.mp left
  obtain ⟨key', named, left⟩ := Option.bind_eq_some_iff.mp left
  obtain ⟨outcome', state, left⟩ := Option.bind_eq_some_iff.mp left
  have parts : job.dispatch.tenant = tenant ∧ key' = key ∧ outcome' = outcome := by
    simpa using left
  exact ⟨s, found, parts.2.1 ▸ named, parts.2.2 ▸ state, parts.1⟩

/-! ### What the events of one job keep -/

/-- What a step looks to have been served: a pass if it is cached, a failure if it failed on no
node. -/
def served (s : Step) : Option MemoOutcome :=
  match s.state, s.nodeId with
  | .cached, _ => some .passed
  | .failed, none => some .failed
  | _, _ => none

theorem served_of_state {s : Step} (notCached : s.state ≠ .cached) (notFailed : s.state ≠ .failed) :
    served s = none := by
  unfold served
  split
  · next cached => exact absurd cached notCached
  · next failed _ => exact absurd failed notFailed
  · rfl

/-- No event changes a step's key; and none makes a step look as if it were served from memory. -/
theorem Turn.remembers {cfg : DriverConfig} {e : Event} {s s' : Step} (turn : Turn cfg e s s') :
    s'.memoKey = s.memoKey ∧ (served s' = none ∨ s' = s) := by
  induction turn with
  | stay e s => exact ⟨rfl, .inr rfl⟩
  | swept now s =>
    rcases sweepStep_cases cfg.timeouts now s with same | ⟨expiry, -, same⟩
    · rw [same]
      exact ⟨rfl, .inr rfl⟩
    · rw [same]
      exact ⟨rfl, .inl rfl⟩
  | graph pending moved =>
    cases moved with
    | ready => exact ⟨rfl, .inl rfl⟩
    | skipped => exact ⟨rfl, .inl rfl⟩
    | broken detail => exact ⟨rfl, .inl rfl⟩
  | cancelled now s =>
    rw [Step.tryTransition_eq]
    by_cases legal : s.state.canTransitionTo .skipped = true
    · rw [if_pos legal]
      exact ⟨rfl, .inl rfl⟩
    · rw [if_neg legal]
      exact ⟨rfl, .inr rfl⟩
  | @assigned id result now s s' settled =>
    have key : s'.memoKey = s.memoKey := by
      cases result with
      | ok node =>
        obtain ⟨moved, found, rfl⟩ := Option.map_eq_some_iff.mp settled
        obtain ⟨-, rfl⟩ := Step.toOption_transition_eq_some.mp found
        rfl
      | error e =>
        obtain ⟨moved, found, rfl⟩ := Option.map_eq_some_iff.mp settled
        obtain ⟨-, rfl⟩ := Step.toOption_transition_eq_some.mp found
        rfl
    refine ⟨key, .inl (served_of_state ?_ ?_)⟩
    · obtain ⟨-, -, -, ⟨state, -⟩ | ⟨state, -⟩⟩ := settleStep_cases settled <;> simp [state]
    · obtain ⟨-, -, -, ⟨state, -⟩ | ⟨state, -⟩⟩ := settleStep_cases settled <;> simp [state]
  | @renewed id fromNode now s s' accepted =>
    obtain ⟨-, -, -, state⟩ := renewStep_cases accepted
    have key : s'.memoKey = s.memoKey := by
      unfold renewStep at accepted
      split_ifs at accepted
      obtain rfl := Except.ok.inj accepted
      dsimp only
      rw [Step.tryTransition_eq]
      split_ifs <;> rfl
    exact ⟨key, .inl (served_of_state (by simp [state]) (by simp [state]))⟩
  | @reported report fromNode logPrefix now s s' accepted =>
    obtain ⟨key, node, -, -⟩ := reportStep_fields accepted
    obtain ⟨-, -, -, state, -⟩ := reportStep_cases accepted
    refine ⟨key, .inl ?_⟩
    unfold served
    rw [state, node]
    cases report.outcome <;> rfl
  | trans first next ih ih' =>
    refine ⟨ih'.1.trans ih.1, ?_⟩
    obtain none | rfl := ih'.2
    · exact .inl none
    · exact ih.2

theorem turns_getElem? {cfg : DriverConfig} {e : Event} {steps steps' : List Step}
    (turns : Turns cfg e steps steps') {p : ℕ} {s : Step} (here : steps[p]? = some s) :
    ∃ s', steps'[p]? = some s' ∧ Turn cfg e s s' := by
  induction turns generalizing p with
  | nil => cases here
  | @cons a b rest rest' first _ ih =>
    cases p with
    | zero =>
      obtain rfl := Option.some.inj here
      exact ⟨b, rfl, first⟩
    | succ p => exact ih here

theorem turns_getElem?_after {cfg : DriverConfig} {e : Event} {steps steps' : List Step}
    (turns : Turns cfg e steps steps') {p : ℕ} {s' : Step} (here : steps'[p]? = some s') :
    ∃ s, steps[p]? = some s ∧ Turn cfg e s s' := by
  obtain ⟨after, rfl⟩ := List.getElem?_eq_some_iff.mp here
  have inside : p < steps.length := turns.length_eq ▸ after
  obtain ⟨s', found, turn⟩ := turns_getElem? turns (List.getElem?_eq_getElem inside)
  rw [List.getElem?_eq_getElem after] at found
  exact ⟨_, List.getElem?_eq_getElem inside, Option.some.inj found ▸ turn⟩

/-! ### What a plan starts with -/

theorem seedSteps_getElem? (now : Instant) (noise : ℕ → BitVec 32) (i : ℕ)
    (plan : List (StepSpec × MemoDecision)) (p : ℕ) :
    (seedSteps now noise i plan)[p]? = plan[p]?.map fun planned =>
      seedStep now (newStepId (i + p) (noise (i + p))) planned.1 planned.2 := by
  induction plan generalizing i p with
  | nil => rfl
  | cons planned rest ih =>
    cases p with
    | zero => rfl
    | succ p =>
      show (seedSteps now noise (i + 1) rest)[p]? = _
      rw [ih, List.getElem?_cons_succ, Nat.add_right_comm, Nat.add_assoc]

/-- What a seeded step has of its decision. -/
theorem seedStep_decided (now : Instant) (id : StepId) (spec : StepSpec) (d : MemoDecision) :
    (seedStep now id spec d).memoKey = d.key ∧ served (seedStep now id spec d) = d.hit := by
  unfold seedStep
  cases hit : d.hit with
  | none => exact ⟨rfl, rfl⟩
  | some outcome =>
    cases outcome with
    | passed =>
      dsimp only
      rw [Step.tryTransition_eq]
      exact ⟨rfl, rfl⟩
    | failed =>
      dsimp only
      rw [Step.tryTransition_eq]
      exact ⟨rfl, rfl⟩

/-- A step of a new plan goes by a decision that was made for it, or by none. -/
theorem decisionsFor_getElem? {specs : List StepSpec} {decisions : List MemoDecision} {p : ℕ}
    {planned : StepSpec × MemoDecision} (found : (decisionsFor specs decisions)[p]? = some planned) :
    specs[p]? = some planned.1 ∧ (decisions[p]? = some planned.2 ∨ planned.2 = ⟨none, none⟩) := by
  unfold decisionsFor at found
  obtain ⟨spec, decision⟩ := planned
  obtain ⟨here, decided⟩ := List.getElem?_zip_eq_some.mp found
  refine ⟨here, ?_⟩
  by_cases inside : p < decisions.length
  · rw [List.getElem?_append_left inside] at decided
    exact .inl decided
  · rw [List.getElem?_append_right (Nat.le_of_not_lt inside), List.getElem?_replicate] at decided
    split_ifs at decided
    exact .inr (Option.some.inj decided).symm

/-! ### The invariant -/

section Invariant

variable {Tree : Type} (blake3 : List UInt8 → Vector UInt8 32) (keyed : MemoConfig Tree)
  (policy : MemoPolicy)

/-- The keys of a plan. -/
def KeyedPlan.keys (plan : KeyedPlan Tree) : List KeyResult :=
  planStepKeys blake3 keyed plan.ctx plan.tree plan.specs

/-- A node ran a step of the tenant under the key to the outcome, not too long before the memo was
asked for the plan. -/
def Backed (running : List (KeyedPlan Tree × Driver)) (plan : KeyedPlan Tree) (key : StepKey)
    (outcome : MemoOutcome) : Prop :=
  ∃ finished j p, Provided running plan.ctx.tenant key outcome finished j p ∧
    plan.lookedAt < finished + InMemoryStepMemo.ttl policy outcome

/-- A step has its own key, and was served from memory only with good reason. -/
structure Justified (running : List (KeyedPlan Tree × Driver)) (plan : KeyedPlan Tree) (p : ℕ)
    (s : Step) : Prop where
  key : ∀ key, s.memoKey = some key → (plan.keys blake3 keyed)[p]? = some (.ok key)
  backed : ∀ outcome, served s = some outcome →
    ∃ key, s.memoKey = some key ∧ Backed policy running plan key outcome

/-- The decisions of a driver in `phase_memo` so far, and the results it has still to look up. -/
structure Decided (running : List (KeyedPlan Tree × Driver)) (r : Resolving Tree) : Prop where
  tenant : r.dispatch.tenant = r.plan.ctx.tenant
  keys : ∀ (p : ℕ) (d : MemoDecision) (key : StepKey), r.decisions[p]? = some d →
    d.key = some key → (r.plan.keys blake3 keyed)[p]? = some (.ok key)
  hits : ∀ d ∈ r.decisions, ∀ outcome, d.hit = some outcome →
    ∃ key, d.key = some key ∧ Backed policy running r.plan key outcome
  left : ∀ (i : ℕ) (key : StepKey), r.left[i]? = some (.ok key) →
    (r.plan.keys blake3 keyed)[r.decisions.length + i]? = some (.ok key)

/-- What holds of the memo, of the writes to it, and of what was read from it. -/
structure Remembers (w : MemoWorld Tree) : Prop where
  rules : w.memo.policy = policy
  entries : ∀ tenant key entry, w.memo.entries.lookup (tenant, key) = some entry →
    ∃ finished j p, Provided w.running tenant key entry.outcome finished j p ∧
      entry.expiresAt = finished + InMemoryStepMemo.ttl policy entry.outcome
  writing : ∀ m ∈ w.writing, ∃ j p, Provided w.running m.tenant m.key m.outcome m.now j p
  resolving : ∀ r ∈ w.resolving, Decided blake3 keyed policy w.running r
  running : ∀ (j : ℕ) (plan : KeyedPlan Tree) (driver : Driver),
    w.running[j]? = some (plan, driver) → driver.job.dispatch.tenant = plan.ctx.tenant ∧
      ∀ (p : ℕ) (s : Step), driver.job.steps[p]? = some s →
        Justified blake3 keyed policy w.running plan p s

/-- The jobs that had a plan still have it, and their terminal steps are what they were. -/
def Grows (running running' : List (KeyedPlan Tree × Driver)) : Prop :=
  ∀ (j : ℕ) (plan : KeyedPlan Tree) (driver : Driver), running[j]? = some (plan, driver) →
    ∃ driver', running'[j]? = some (plan, driver') ∧
      driver'.job.dispatch.tenant = driver.job.dispatch.tenant ∧
      ∀ (p : ℕ) (s : Step), driver.job.steps[p]? = some s → s.state.isTerminal = true →
        driver'.job.steps[p]? = some s

variable {blake3 keyed policy} {running running' : List (KeyedPlan Tree × Driver)}

theorem fromState_terminal {state : StepState} {outcome : MemoOutcome}
    (remembered : MemoOutcome.fromState state = some outcome) : state.isTerminal = true := by
  cases state <;> first | rfl | cases remembered

theorem Provided.grows {tenant : String} {key : StepKey} {outcome : MemoOutcome}
    {finished : Instant} {j p : ℕ} (grows : Grows running running')
    (provided : Provided running tenant key outcome finished j p) :
    Provided running' tenant key outcome finished j p := by
  obtain ⟨plan, driver, s, here, step, ofTenant, keyed, state, node, done⟩ := provided
  obtain ⟨driver', here', same, frozen⟩ := grows j plan driver here
  exact ⟨plan, driver', s, here', frozen p s step (fromState_terminal state),
    same.trans ofTenant, keyed, state, node, done⟩

theorem Backed.grows {plan : KeyedPlan Tree} {key : StepKey} {outcome : MemoOutcome}
    (grows : Grows running running') (backed : Backed policy running plan key outcome) :
    Backed policy running' plan key outcome := by
  obtain ⟨finished, j, p, provided, fresh⟩ := backed
  exact ⟨finished, j, p, provided.grows grows, fresh⟩

theorem Justified.grows {plan : KeyedPlan Tree} {p : ℕ} {s : Step} (grows : Grows running running')
    (kept : Justified blake3 keyed policy running plan p s) :
    Justified blake3 keyed policy running' plan p s where
  key := kept.key
  backed := fun outcome looks =>
    let ⟨key, same, backed⟩ := kept.backed outcome looks
    ⟨key, same, backed.grows grows⟩

theorem Decided.grows {r : Resolving Tree} (grows : Grows running running')
    (decided : Decided blake3 keyed policy running r) :
    Decided blake3 keyed policy running' r where
  tenant := decided.tenant
  keys := decided.keys
  hits := fun d member outcome hit =>
    let ⟨key, same, backed⟩ := decided.hits d member outcome hit
    ⟨key, same, backed.grows grows⟩
  left := decided.left

theorem grows_push (running : List (KeyedPlan Tree × Driver)) (job : KeyedPlan Tree × Driver) :
    Grows running (running ++ [job]) := by
  intro j plan driver here
  have inside : j < running.length := (List.getElem?_eq_some_iff.mp here).1
  exact ⟨driver, (List.getElem?_append_left inside).trans here, rfl, fun _ _ step _ => step⟩

/-- An event of a job touches no terminal step. -/
theorem grows_event (cfg : DriverConfig) {j : ℕ} {plan : KeyedPlan Tree} {driver : Driver}
    (here : running[j]? = some (plan, driver)) (e : Event) :
    Grows running (running.set j (plan, eventStep cfg driver e)) := by
  intro i plan' driver' there
  have inside : j < running.length := (List.getElem?_eq_some_iff.mp here).1
  by_cases same : j = i
  · subst same
    obtain ⟨rfl, rfl⟩ := Prod.mk.inj (Option.some.inj (here.symm.trans there))
    refine ⟨eventStep cfg driver e, by rw [List.getElem?_set_self inside],
      by rw [eventStep_dispatch], fun p s step terminal => ?_⟩
    have turns := eventStep_turns cfg driver e
    obtain ⟨s', step', turn⟩ := turns_getElem? turns step
    rw [step', turn.legal.2.2 terminal]
  · exact ⟨driver', (List.getElem?_set_ne same).trans there, rfl, fun _ _ step _ => step⟩

end Invariant

/-! ### Steps of the world -/

namespace MemoWorld

variable {Tree : Type} {cfg : DriverConfig} {blake3 : List UInt8 → Vector UInt8 32}
  {keyed : MemoConfig Tree} {policy : MemoPolicy} {tier : IsolationTier} {enabled : Bool}

/-- A result to look up is the key of its step. -/
theorem results_getElem? {plan : KeyedPlan Tree} {derived : Bool} {i : ℕ} {key : StepKey}
    (found : (results blake3 keyed plan derived)[i]? = some (.ok key)) :
    (plan.keys blake3 keyed)[i]? = some (.ok key) := by
  unfold results at found
  cases derived with
  | false =>
    rw [if_neg Bool.false_ne_true, List.nil_append, List.getElem?_replicate] at found
    split_ifs at found
    cases found
  | true =>
    change (plan.keys blake3 keyed ++ List.replicate
      (plan.specs.length - (plan.keys blake3 keyed).length) (.error .noInputs))[i]? =
        some (.ok key) at found
    by_cases inside : i < (plan.keys blake3 keyed).length
    · exact (List.getElem?_append_left inside).symm.trans found
    · have outside : (plan.keys blake3 keyed).length ≤ i := Nat.le_of_not_lt inside
      rw [List.getElem?_append_right outside, List.getElem?_replicate] at found
      split_ifs at found
      cases found

theorem decided_begun (running : List (KeyedPlan Tree × Driver)) (id : JobId)
    {dispatch : Dispatch} (authorClass : AuthorClass) (created : Instant) {plan : KeyedPlan Tree}
    (ofTenant : dispatch.tenant = plan.ctx.tenant) (derived : Bool) :
    Decided blake3 keyed policy running
      (begun blake3 keyed enabled id dispatch authorClass created plan derived) := by
  cases enabled with
  | false =>
    refine ⟨ofTenant, ?_, ?_, fun i key found => ?_⟩
    · intro p d key found named
      have found' : (List.replicate plan.specs.length ({} : MemoDecision))[p]? = some d := found
      rw [List.getElem?_replicate] at found'
      split_ifs at found'
      obtain rfl := Option.some.inj found'
      cases named
    · intro d member outcome hit
      obtain rfl := List.eq_of_mem_replicate member
      cases hit
    · change ([] : List KeyResult)[i]? = some (.ok key) at found
      rw [List.getElem?_nil] at found
      cases found
  | true =>
    refine ⟨ofTenant, fun p d key found => ?_, fun d member => ?_, fun i key found => ?_⟩
    · change ([] : List MemoDecision)[p]? = some d at found
      simp at found
    · exact absurd member List.not_mem_nil
    · change (results blake3 keyed plan derived)[i]? = some (.ok key) at found
      show (plan.keys blake3 keyed)[0 + i]? = some (.ok key)
      rw [Nat.zero_add]
      exact results_getElem? found

/-- A lookup that hits has found an entry that is not overdue. -/
theorem backed_of_hit {w : MemoWorld Tree} (remembers : Remembers blake3 keyed policy w)
    {plan : KeyedPlan Tree} {key : StepKey} {outcome : MemoOutcome}
    (hit : (w.memo.lookup plan.ctx.tenant key plan.lookedAt).2 = some outcome) :
    Backed policy w.running plan key outcome := by
  rw [lookup_answer] at hit
  obtain ⟨entry, found, rfl⟩ := Option.map_eq_some_iff.mp hit
  obtain ⟨there, alive⟩ := Option.filter_eq_some_iff.mp found
  obtain ⟨finished, j, p, provided, expires⟩ := remembers.entries _ _ _ there
  exact ⟨finished, j, p, provided, expires ▸ of_decide_eq_true alive⟩

/-- What is left of the memo after one round of `phase_memo`. -/
theorem decide1_memo (memo : InMemoryStepMemo) (plan : KeyedPlan Tree) (result : KeyResult) :
    (decide1 memo plan result).1.policy = memo.policy ∧ ∀ k entry,
      (decide1 memo plan result).1.entries.lookup k = some entry →
        memo.entries.lookup k = some entry := by
  unfold decide1
  cases result with
  | error e => exact ⟨rfl, fun _ _ found => found⟩
  | ok key => exact ⟨lookup_policy _ _ _ _, fun _ _ found => (lookup_of_lookup found).1⟩

theorem decided_look {w : MemoWorld Tree} (remembers : Remembers blake3 keyed policy w)
    {r : Resolving Tree} (decided : Decided blake3 keyed policy w.running r) {result : KeyResult}
    {left : List KeyResult} (next : r.left = result :: left) :
    Decided blake3 keyed policy w.running { r with
      left := left
      decisions := r.decisions ++ [(decide1 w.memo r.plan result).2] } := by
  have first : ∀ key, result = .ok key →
      (r.plan.keys blake3 keyed)[r.decisions.length]? = some (.ok key) := by
    intro key same
    refine decided.left 0 key ?_
    rw [next, same]
    rfl
  refine ⟨decided.tenant, ?_, ?_, ?_⟩
  · intro p d key found named
    dsimp only at found
    rw [List.getElem?_append] at found
    split_ifs at found with inside
    · exact decided.keys p d key found named
    · rw [List.getElem?_singleton] at found
      split_ifs at found with last
      obtain rfl := Option.some.inj found
      have here : p = r.decisions.length := by omega
      rw [here]
      cases result with
      | error e => cases named
      | ok key' =>
        obtain rfl := Option.some.inj named
        exact first key' rfl
  · intro d member outcome hit
    obtain before | last := List.mem_append.mp member
    · exact decided.hits d before outcome hit
    · obtain rfl := List.mem_singleton.mp last
      cases result with
      | error e => cases hit
      | ok key => exact ⟨key, rfl, backed_of_hit remembers hit⟩
  · intro i key found
    show (r.plan.keys blake3 keyed)[(r.decisions ++ [_]).length + i]? = some (.ok key)
    rw [List.length_append, List.length_singleton, Nat.add_assoc, Nat.add_comm 1 i]
    refine decided.left (i + 1) key ?_
    rw [next]
    exact found

/-- The steps of a new plan. -/
theorem justified_launch {running : List (KeyedPlan Tree × Driver)} {r : Resolving Tree}
    (decided : Decided blake3 keyed policy running r) (start : Instant) (noise : ℕ → BitVec 32)
    {p : ℕ} {s : Step}
    (found : (launched r.id r.dispatch r.authorClass cfg.timeouts r.created start noise
      r.plan.specs r.decisions).job.steps[p]? = some s) :
    Justified blake3 keyed policy running r.plan p s := by
  rw [launched_steps, seedSteps_getElem?] at found
  obtain ⟨planned, here, rfl⟩ := Option.map_eq_some_iff.mp found
  obtain ⟨key, looks⟩ := seedStep_decided start (newStepId (0 + p) (noise (0 + p)))
    planned.1 planned.2
  obtain ⟨-, made | default⟩ := decisionsFor_getElem? here
  · refine ⟨fun k named => decided.keys p planned.2 k made (key.symm.trans named), ?_⟩
    intro outcome hit
    obtain ⟨k, named, backed⟩ := decided.hits _ (List.mem_of_getElem? made) outcome
      (looks.symm.trans hit)
    exact ⟨k, key.trans named, backed⟩
  · have noKey : planned.2.key = none := congrArg MemoDecision.key default
    have noHit : planned.2.hit = none := congrArg MemoDecision.hit default
    refine ⟨fun k named => ?_, fun outcome hit => ?_⟩
    · rw [key, noKey] at named
      cases named
    · rw [looks, noHit] at hit
      cases hit

/-- **What a report leaves for the memo was run by a node.** -/
theorem provided_report {running : List (KeyedPlan Tree × Driver)} {j : ℕ}
    {plan : KeyedPlan Tree} {driver : Driver} (here : running[j]? = some (plan, driver)) {e : Event}
    {m : MemoWrite} (member : m ∈ writesOf driver e) :
    ∃ p, Provided (running.set j (plan, eventStep cfg driver e)) m.tenant m.key m.outcome m.now
      j p := by
  have inside : j < running.length := (List.getElem?_eq_some_iff.mp here).1
  cases e with
  | reported report fromNode now =>
    unfold writesOf at member
    dsimp only at member
    cases accepted : recordStepReport report fromNode now driver.job with
    | error why =>
      rw [accepted] at member
      cases member
    | ok job =>
      rw [accepted] at member
      obtain ⟨⟨tenant, key, outcome⟩, left, rfl⟩ := List.mem_map.mp member
      have remembered := Option.mem_toList.mp left
      have after : (eventStep cfg driver (.reported report fromNode now)).job = job := by
        show (recordStepReport report fromNode now driver.job).toOption.getD driver.job = job
        rw [accepted]
        rfl
      obtain ⟨ofDispatch, s, s', logPrefix, found, reported⟩ := recordStepReport_ok accepted
      obtain ⟨s'', found', named, state, ofTenant⟩ := toMemoize_eq_some remembered
      obtain rfl := Option.some.inj (found.symm.trans found')
      obtain ⟨-, node, finished, -⟩ := reportStep_fields reported
      obtain ⟨p, step⟩ := List.getElem?_of_mem (List.mem_of_find?_eq_some found)
      refine ⟨p, plan, eventStep cfg driver (.reported report fromNode now), s',
        List.getElem?_set_self inside, ?_, ?_, named, state, by rw [node]; rfl, finished⟩
      · rw [after]
        exact step
      · rw [after]
        exact ofTenant
  | drive now => cases member
  | assigned id result now => cases member
  | renewed id fromNode now => cases member
  | delivered attempts landed now => cases member
  | late v now => cases member

end MemoWorld

/-! ### Runs of the world -/

namespace MemoWorld

variable {Tree : Type} {cfg : DriverConfig} {blake3 : List UInt8 → Vector UInt8 32}
  {keyed : MemoConfig Tree} {policy : MemoPolicy} {tier : IsolationTier} {enabled : Bool}

theorem remembers_new : Remembers blake3 keyed policy (new policy : MemoWorld Tree) where
  rules := rfl
  entries := fun _ _ _ found => by cases found
  writing := fun _ member => by cases member
  resolving := fun _ member => by cases member
  running := fun j plan driver here => by
    change ([] : List (KeyedPlan Tree × Driver))[j]? = some (plan, driver) at here
    rw [List.getElem?_nil] at here
    cases here

theorem remembers_look {w : MemoWorld Tree} (remembers : Remembers blake3 keyed policy w) {i : ℕ}
    {r : Resolving Tree} (here : w.resolving[i]? = some r) {result : KeyResult}
    {left : List KeyResult} (next : r.left = result :: left) :
    Remembers blake3 keyed policy { w with
      memo := (decide1 w.memo r.plan result).1
      resolving := w.resolving.set i { r with
        left := left
        decisions := r.decisions ++ [(decide1 w.memo r.plan result).2] } } := by
  obtain ⟨rules, before⟩ := decide1_memo w.memo r.plan result
  refine ⟨rules.trans remembers.rules, fun tenant key entry found =>
    remembers.entries tenant key entry (before _ _ found), remembers.writing, ?_,
    remembers.running⟩
  intro r' member
  obtain ⟨k, there⟩ := List.getElem?_of_mem member
  have inside : i < w.resolving.length := (List.getElem?_eq_some_iff.mp here).1
  rw [List.getElem?_set] at there
  by_cases same : i = k
  · rw [if_pos same, if_pos inside] at there
    obtain rfl := Option.some.inj there
    exact decided_look remembers (remembers.resolving r (List.mem_of_getElem? here)) next
  · rw [if_neg same] at there
    exact remembers.resolving r' (List.mem_of_getElem? there)

theorem remembers_launch {w : MemoWorld Tree} (remembers : Remembers blake3 keyed policy w) {i : ℕ}
    {r : Resolving Tree} (here : w.resolving[i]? = some r) (start : Instant)
    (noise : ℕ → BitVec 32) :
    Remembers blake3 keyed policy { w with
      resolving := w.resolving.eraseIdx i
      running := w.running ++ [(r.plan, launched r.id r.dispatch r.authorClass cfg.timeouts
        r.created start noise r.plan.specs r.decisions)] } := by
  have decided := remembers.resolving r (List.mem_of_getElem? here)
  have grows := grows_push w.running (r.plan, launched r.id r.dispatch r.authorClass cfg.timeouts
    r.created start noise r.plan.specs r.decisions)
  refine ⟨remembers.rules, ?_, ?_, ?_, ?_⟩
  · intro tenant key entry found
    obtain ⟨finished, j, p, provided, expires⟩ := remembers.entries tenant key entry found
    exact ⟨finished, j, p, provided.grows grows, expires⟩
  · intro m member
    obtain ⟨j, p, provided⟩ := remembers.writing m member
    exact ⟨j, p, provided.grows grows⟩
  · intro r' member
    exact (remembers.resolving r' (List.mem_of_mem_eraseIdx member)).grows grows
  · intro j plan driver there
    dsimp only at there
    rw [List.getElem?_append] at there
    split_ifs at there
    · obtain ⟨ofTenant, justified⟩ := remembers.running j plan driver there
      exact ⟨ofTenant, fun p s step => (justified p s step).grows grows⟩
    · rw [List.getElem?_singleton] at there
      split_ifs at there
      obtain ⟨rfl, rfl⟩ := Prod.mk.inj (Option.some.inj there)
      refine ⟨?_, fun p s step => (justified_launch decided start noise step).grows grows⟩
      rw [← decided.tenant]
      exact congrArg Dispatch.tenant (by simp [launched, installPlan, Job.new])

theorem remembers_event {w : MemoWorld Tree} (remembers : Remembers blake3 keyed policy w) {j : ℕ}
    {plan : KeyedPlan Tree} {driver : Driver} (here : w.running[j]? = some (plan, driver))
    (e : Event) :
    Remembers blake3 keyed policy { w with
      running := w.running.set j (plan, eventStep cfg driver e)
      writing := w.writing ++ writesOf driver e } := by
  have grows := grows_event cfg here e
  have inside : j < w.running.length := (List.getElem?_eq_some_iff.mp here).1
  refine ⟨remembers.rules, ?_, ?_, fun r member => (remembers.resolving r member).grows grows, ?_⟩
  · intro tenant key entry found
    obtain ⟨finished, i, p, provided, expires⟩ := remembers.entries tenant key entry found
    exact ⟨finished, i, p, provided.grows grows, expires⟩
  · intro m member
    obtain before | made := List.mem_append.mp member
    · obtain ⟨i, p, provided⟩ := remembers.writing m before
      exact ⟨i, p, provided.grows grows⟩
    · obtain ⟨p, provided⟩ := provided_report here made
      exact ⟨j, p, provided⟩
  · intro i plan' driver' there
    dsimp only at there
    rw [List.getElem?_set] at there
    by_cases same : j = i
    · rw [if_pos same, if_pos inside] at there
      obtain ⟨rfl, rfl⟩ := Prod.mk.inj (Option.some.inj there)
      obtain ⟨ofTenant, justified⟩ := remembers.running j plan driver here
      refine ⟨by rw [eventStep_dispatch, ofTenant], fun p s' step' => ?_⟩
      obtain ⟨s, step, turn⟩ := turns_getElem?_after (eventStep_turns cfg driver e) step'
      obtain ⟨key, looks⟩ := turn.remembers
      have old := (justified p s step).grows grows
      refine ⟨fun k named => old.key k (key.symm.trans named), fun outcome hit => ?_⟩
      obtain none | rfl := looks
      · rw [none] at hit
        cases hit
      · exact old.backed outcome hit
    · rw [if_neg same] at there
      obtain ⟨ofTenant, justified⟩ := remembers.running i plan' driver' there
      exact ⟨ofTenant, fun p s step => (justified p s step).grows grows⟩

theorem remembers_write {w : MemoWorld Tree} (remembers : Remembers blake3 keyed policy w) {k : ℕ}
    {m : MemoWrite} (here : w.writing[k]? = some m) :
    Remembers blake3 keyed policy { w with
      memo := w.memo.record m.tenant m.key m.outcome m.now
      writing := w.writing.eraseIdx k } := by
  refine ⟨remembers.rules, ?_, fun m' member =>
    remembers.writing m' (List.mem_of_mem_eraseIdx member), remembers.resolving,
    remembers.running⟩
  intro tenant key entry found
  obtain ⟨same, rfl⟩ | ⟨-, before⟩ := lookup_of_record (b := ⟨w.memo, fun _ => none⟩) found
  · obtain ⟨rfl, rfl⟩ := Prod.mk.inj same
    obtain ⟨j, p, provided⟩ := remembers.writing m (List.mem_of_getElem? here)
    refine ⟨m.now, j, p, provided, ?_⟩
    show m.now + InMemoryStepMemo.ttl w.memo.policy m.outcome = _
    rw [remembers.rules]
    rfl
  · exact remembers.entries tenant key entry before

theorem remembers_step {w : MemoWorld Tree} (remembers : Remembers blake3 keyed policy w)
    (l : Label Tree) : Remembers blake3 keyed policy (step cfg blake3 keyed tier enabled w l) := by
  cases l with
  | resolve id dispatch authorClass created tree specs derived now =>
    refine ⟨remembers.rules, remembers.entries, remembers.writing, ?_, remembers.running⟩
    intro r member
    obtain before | new := List.mem_append.mp member
    · exact remembers.resolving r before
    · obtain rfl := List.mem_singleton.mp new
      have ofTenant : dispatch.tenant = (KeyedPlan.mk (JobKeyContext.mk dispatch.tenant tier
          authorClass) tree specs now).ctx.tenant := by dsimp only
      exact decided_begun w.running id authorClass created ofTenant derived
  | look i =>
    unfold step
    dsimp only
    cases here : w.resolving[i]? with
    | none => exact remembers
    | some r =>
      dsimp only
      cases next : r.left with
      | nil => exact remembers
      | cons result left => exact remembers_look remembers here next
  | launch i start noise =>
    unfold step
    dsimp only
    cases here : w.resolving[i]? with
    | none => exact remembers
    | some r =>
      dsimp only
      split_ifs
      · exact remembers_launch remembers here start noise
      · exact remembers
  | event j e =>
    unfold step
    dsimp only
    cases here : w.running[j]? with
    | none => exact remembers
    | some job => exact remembers_event remembers here e
  | write k =>
    unfold step
    dsimp only
    cases here : w.writing[k]? with
    | none => exact remembers
    | some m => exact remembers_write remembers here

end MemoWorld

/-! ### From a key to what was hashed -/

section Keys

variable {Tree : Type} {blake3 : List UInt8 → Vector UInt8 32} {keyed : MemoConfig Tree}

/-- A key of a plan is the hash of what its step feeds. -/
theorem KeyedPlan.round {plan : KeyedPlan Tree} {p : ℕ} {key : StepKey}
    (found : (plan.keys blake3 keyed)[p]? = some (.ok key)) :
    ∃ spec deps, plan.specs[p]? = some spec ∧
      dependencyKeys plan.specs ((plan.keys blake3 keyed).take p) spec.needs = .ok deps ∧
      stepKey blake3 keyed plan.ctx plan.tree spec deps = .ok key := by
  unfold KeyedPlan.keys at found ⊢
  rw [planStepKeys_getElem?] at found
  obtain ⟨spec, here, made⟩ := Option.map_eq_some_iff.mp found
  unfold nextKey at made
  cases needed : dependencyKeys plan.specs
      ((planStepKeys blake3 keyed plan.ctx plan.tree plan.specs).take p) spec.needs with
  | error refusal =>
    rw [needed] at made
    cases made
  | ok deps =>
    rw [needed] at made
    exact ⟨spec, deps, here, needed, made⟩

theorem feeds_of_key {plan : KeyedPlan Tree} {p : ℕ} {key : StepKey}
    (found : (plan.keys blake3 keyed)[p]? = some (.ok key)) :
    ∃ spec deps bytes, Feeds keyed plan p spec deps bytes ∧ hex (blake3 bytes) = key := by
  obtain ⟨spec, deps, here, needed, made⟩ := plan.round found
  have sized : ∀ dep ∈ deps, Sized (utf8 dep) := by
    intro dep member
    obtain ⟨need, -, answered⟩ := (mem_dependencyKeys needed dep).mp member
    obtain ⟨k, -, taken⟩ := Option.bind_eq_some_iff.mp answered
    rw [List.getElem?_take] at taken
    split_ifs at taken
    obtain ⟨_, _, -, -, made'⟩ := plan.round taken
    exact key_hex made'
  unfold stepKey at made
  cases fed : keyInput keyed plan.ctx plan.tree spec deps with
  | error e =>
    rw [fed] at made
    cases made
  | ok bytes =>
    rw [fed] at made
    exact ⟨spec, deps, bytes, ⟨here, length_dependencyKeys needed, sized, fed⟩,
      Except.ok.inj made⟩

/-- Two steps that feed the same bytes agree in everything that is keyed. -/
theorem sameKeyed_of_feeds {plan plan' : KeyedPlan Tree} {p p' : ℕ} {spec spec' : StepSpec}
    {deps deps' : List StepKey} {bytes bytes' : List UInt8}
    (feeds : Feeds keyed plan p spec deps bytes)
    (feeds' : Feeds keyed plan' p' spec' deps' bytes') (same : bytes = bytes')
    (whole : WholeTimeout spec) (whole' : WholeTimeout spec')
    (sizes : Sizes keyed plan.ctx plan.tree spec) (sizes' : Sizes keyed plan'.ctx plan'.tree spec')
    (few : spec.needs.length < 256 ^ 8) (few' : spec'.needs.length < 256 ^ 8) :
    SameKeyed keyed keyed plan.ctx plan'.ctx plan.tree plan'.tree spec spec' deps deps' := by
  obtain ⟨-, count, texts, ok⟩ := feeds
  obtain ⟨-, count', texts', ok'⟩ := feeds'
  obtain ⟨digests, rfl, globs, listed⟩ := keyInput_ok ok
  obtain ⟨digests', rfl, globs', listed'⟩ := keyInput_ok ok'
  obtain ⟨⟨timeout, -⟩, rest⟩ := keyBytes_parts sizes sizes' ⟨count ▸ few, texts⟩
    ⟨count' ▸ few', texts'⟩ globs globs' listed listed' same
  exact rest (timeoutSecs_injective whole whole'
    (leBytes_injective (timeoutSecs_lt whole) (timeoutSecs_lt whole') timeout))

variable {policy : MemoPolicy}

theorem vouched_of_backed {w : MemoWorld Tree} (remembers : Remembers blake3 keyed policy w)
    {plan : KeyedPlan Tree} {p : ℕ} {key : StepKey} {outcome : MemoOutcome}
    (own : (plan.keys blake3 keyed)[p]? = some (.ok key))
    (backed : Backed policy w.running plan key outcome) :
    Vouched blake3 keyed policy w.running plan plan.ctx.tenant p outcome := by
  obtain ⟨finished, j', p', provided, fresh⟩ := backed
  obtain ⟨plan', driver', s', here, step, ofTenant, named, state, node, done⟩ := provided
  have other := ((remembers.running j' plan' driver' here).2 p' s' step).key key named
  obtain ⟨spec, deps, bytes, feeds, hashed⟩ := feeds_of_key own
  obtain ⟨spec', deps', bytes', feeds', hashed'⟩ := feeds_of_key other
  exact ⟨j', p', plan', driver', key, finished, spec, spec', deps, deps', bytes, bytes',
    ⟨plan', driver', s', here, step, ofTenant, named, state, node, done⟩, fresh, here, feeds,
    feeds', hex_injective (hashed.trans hashed'.symm), sameKeyed_of_feeds feeds feeds'⟩

/-- **Memory is sound.** However the jobs of all tenants are planned, looked up, run, reported and
remembered, and whatever the memo drops or lets expire: a step is only ever served a pass or a
failure that a node of this control plane reported for a step of the same tenant, within the time
that outcome is kept, whose key is a hash of the same inputs. -/
theorem memo_sound (cfg : DriverConfig) (blake3 : List UInt8 → Vector UInt8 32)
    (keyed : MemoConfig Tree) (tier : IsolationTier) (enabled : Bool) (policy : MemoPolicy)
    (labels : List (MemoWorld.Label Tree)) :
    Honest blake3 keyed policy
      (run (MemoWorld.step cfg blake3 keyed tier enabled) (.new policy) labels).running := by
  have steps : ∀ w l, Remembers blake3 keyed policy w →
      Remembers blake3 keyed policy (MemoWorld.step cfg blake3 keyed tier enabled w l) :=
    fun _ l remembers => MemoWorld.remembers_step remembers l
  have remembers := run_invariant steps MemoWorld.remembers_new labels
  generalize run (MemoWorld.step cfg blake3 keyed tier enabled) (.new policy) labels = w
    at remembers ⊢
  intro j p plan driver s here step
  obtain ⟨ofTenant, justified⟩ := remembers.running j plan driver here
  have kept := justified p s step
  rw [ofTenant]
  have vouched : ∀ outcome, served s = some outcome →
      Vouched blake3 keyed policy w.running plan plan.ctx.tenant p outcome := by
    intro outcome looks
    obtain ⟨key, named, backed⟩ := kept.backed outcome looks
    exact vouched_of_backed remembers (kept.key key named) backed
  refine ⟨fun cached => vouched _ ?_, fun failed none => vouched _ ?_⟩
  · unfold served
    rw [cached]
  · unfold served
    rw [failed, none]

end Keys

end HullCi.Control
