/-
**A node's accounting of its slots, and the map of its running steps.**

A step's task builds the workspace, runs inside `run_assignment_with`, reports and ends; a cancel
takes the handle out of the map and ends the task at the await it has reached. The counter of free
slots goes down when a run begins and up when it returns, and stops at both ends; only a cancel
removes from the map.

* `Fleet.step` — one act of a task or on it.
* `exact_step` — from an exact state one step leads to an exact one precisely when it `Keeps`.
* `accounting_exact_iff` — a run is exact in every state precisely when all its steps are such.
-/

import HullCi.Base.Run
import HullCi.Base.Table

namespace HullCi.Server.Accounting

open HullCi.Base

/-- The two ids of a step. -/
structure StepKey where
  jobId : String
  stepId : String
  deriving DecidableEq, Repr

/-- Where the task of a step is. -/
inductive Phase where
  /-- Building the workspace. -/
  | materializing
  /-- Inside `run_assignment_with`. -/
  | inside
  /-- Delivering the report and removing the workspace. -/
  | reporting
  | ended
  deriving DecidableEq, Repr

structure Task where
  key : StepKey
  phase : Phase
  deriving DecidableEq, Repr

/-- The agent's counter, the tasks that were spawned, and the handles of `running`. -/
structure Fleet where
  slotsTotal : ℕ
  slotsFree : ℕ
  tasks : List Task
  running : Table StepKey ℕ

inductive Event where
  /-- `assign`: the gate, the control plane and the broker admit it or not. -/
  | assign (key : StepKey) (admitted : Bool)
  | cancel (key : StepKey)
  /-- The workspace is there or could not be built. -/
  | materialized (i : ℕ) (ok : Bool)
  /-- `run_inner` returns. -/
  | returned (i : ℕ)
  /-- The report is delivered and the workspace removed. -/
  | finished (i : ℕ)
  deriving DecidableEq, Repr

namespace Fleet

/-- A node as it starts. -/
def start (slotsTotal : ℕ) : Fleet :=
  ⟨slotsTotal, slotsTotal, [], ∅⟩

/-- The task goes on to another phase. -/
def turn (f : Fleet) (i : ℕ) (key : StepKey) (phase : Phase) : Fleet :=
  { f with tasks := f.tasks.set i ⟨key, phase⟩ }

def step (f : Fleet) : Event → Fleet
  | .assign key admitted =>
    if admitted then
      { f with
        tasks := f.tasks ++ [⟨key, .materializing⟩]
        running := f.running.insert key f.tasks.length }
    else f
  | .cancel key =>
    match f.running.lookup key with
    | none => f
    | some i => { f.turn i key .ended with running := f.running.erase key }
  | .materialized i ok =>
    match f.tasks[i]? with
    | some ⟨key, .materializing⟩ =>
      if ok then { f.turn i key .inside with slotsFree := f.slotsFree - 1 }
      else f.turn i key .reporting
    | _ => f
  | .returned i =>
    match f.tasks[i]? with
    | some ⟨key, .inside⟩ =>
      { f.turn i key .reporting with slotsFree := min (f.slotsFree + 1) f.slotsTotal }
    | _ => f
  | .finished i =>
    match f.tasks[i]? with
    | some ⟨key, .reporting⟩ => f.turn i key .ended
    | _ => f

/-- How many assignments are inside `run_assignment_with`. -/
def inside (f : Fleet) : ℕ :=
  f.tasks.countP fun t => t.phase = .inside

/-- A task of this step other than the `i`-th has not ended. -/
def LiveBut (f : Fleet) (i : ℕ) (key : StepKey) : Prop :=
  ∃ (j : ℕ) (phase : Phase), j ≠ i ∧ f.tasks[j]? = some ⟨key, phase⟩ ∧ phase ≠ .ended

/-- A task of this step has not ended. -/
def Live (f : Fleet) (key : StepKey) : Prop :=
  ∃ (j : ℕ) (phase : Phase), f.tasks[j]? = some ⟨key, phase⟩ ∧ phase ≠ .ended

end Fleet

/-- The free slots are those that no run is in, and the map holds the steps that have not ended. -/
structure Exact (f : Fleet) : Prop where
  slots : f.slotsFree = f.slotsTotal - f.inside
  running : ∀ key, (f.running.lookup key).isSome = true ↔ f.Live key

/-- What a step must meet to keep the accounting: a run returns only when no more are under way than
there are slots, a task ends by itself only while another of its step goes on, and a cancel ends the
last task of its step, one that is inside a run only when more are under way than it has slots. -/
def Keeps (f : Fleet) : Event → Prop
  | .assign _ _ => True
  | .materialized _ _ => True
  | .returned i => ∀ key, f.tasks[i]? = some ⟨key, .inside⟩ →
      f.inside ≤ f.slotsTotal ∨ f.slotsTotal = 0
  | .finished i => ∀ key, f.tasks[i]? = some ⟨key, .reporting⟩ → f.LiveBut i key
  | .cancel key => ∀ i, f.running.lookup key = some i →
      ¬ f.LiveBut i key ∧ (f.tasks[i]? = some ⟨key, .inside⟩ → f.slotsTotal < f.inside)

/-- A handle is that of a task of its step. -/
def Held (f : Fleet) : Prop :=
  ∀ key i, f.running.lookup key = some i → ∃ phase, f.tasks[i]? = some ⟨key, phase⟩

namespace Fleet

variable {f : Fleet} {i : ℕ} {key : StepKey} {phase : Phase}

/-- One for a run. -/
def runs (phase : Phase) : ℕ :=
  if phase = .inside then 1 else 0

theorem inside_turn (held : f.tasks[i]? = some ⟨key, phase⟩) (phase' : Phase) :
    (f.turn i key phase').inside + runs phase = f.inside + runs phase' := by
  obtain ⟨less, here⟩ := List.getElem?_eq_some_iff.mp held
  unfold inside turn runs
  dsimp only
  rw [List.countP_set less, here]
  have member : (⟨key, phase⟩ : Task) ∈ f.tasks := here ▸ List.getElem_mem less
  by_cases now : phase = .inside
  · have some' : 0 < f.tasks.countP fun t => t.phase = .inside :=
      List.countP_pos_iff.mpr ⟨_, member, by simpa using now⟩
    simp only [now, decide_true, if_true, decide_eq_true_eq]
    omega
  · simp only [now, decide_false, decide_eq_true_eq, Bool.false_eq_true, if_false]
    omega

theorem getElem?_turn (held : f.tasks[i]? = some ⟨key, phase⟩) (phase' : Phase) (j : ℕ) :
    (f.turn i key phase').tasks[j]? = if j = i then some ⟨key, phase'⟩ else f.tasks[j]? := by
  obtain ⟨less, -⟩ := List.getElem?_eq_some_iff.mp held
  show (f.tasks.set i _)[j]? = _
  by_cases same : j = i
  · rw [same, if_pos rfl, List.getElem?_set_self less]
  · rw [if_neg same, List.getElem?_set_ne (Ne.symm same)]

/-- Which steps have a task that goes on, when one task has gone to another phase. -/
theorem live_turn (held : f.tasks[i]? = some ⟨key, phase⟩) (phase' : Phase) (k : StepKey) :
    (f.turn i key phase').Live k ↔ k = key ∧ phase' ≠ .ended ∨ f.LiveBut i k := by
  unfold Live LiveBut
  constructor
  · rintro ⟨j, p, at', goes⟩
    rw [getElem?_turn held _] at at'
    split_ifs at at' with same
    · cases at'
      exact .inl ⟨rfl, goes⟩
    · exact .inr ⟨j, p, same, at', goes⟩
  · rintro (⟨rfl, goes⟩ | ⟨j, p, other, at', goes⟩)
    · exact ⟨i, phase', by rw [getElem?_turn held _, if_pos rfl], goes⟩
    · exact ⟨j, p, by rw [getElem?_turn held _, if_neg other, at'], goes⟩

theorem live_iff (held : f.tasks[i]? = some ⟨key, phase⟩) (k : StepKey) :
    f.Live k ↔ k = key ∧ phase ≠ .ended ∨ f.LiveBut i k := by
  unfold Live LiveBut
  constructor
  · rintro ⟨j, p, at', goes⟩
    by_cases same : j = i
    · rw [same, held] at at'
      cases at'
      exact .inl ⟨rfl, goes⟩
    · exact .inr ⟨j, p, same, at', goes⟩
  · rintro (⟨rfl, goes⟩ | ⟨j, p, -, at', goes⟩)
    · exact ⟨i, phase, held, goes⟩
    · exact ⟨j, p, at', goes⟩

/-- A task that goes on keeps its step among those that do. -/
theorem live_turn_same (held : f.tasks[i]? = some ⟨key, phase⟩) (before : phase ≠ .ended)
    {phase' : Phase} (after : phase' ≠ .ended) (k : StepKey) :
    (f.turn i key phase').Live k ↔ f.Live k := by
  rw [live_turn held, live_iff held]
  exact or_congr (and_congr Iff.rfl (iff_of_true after before)) Iff.rfl

theorem inside_goes : Phase.inside ≠ .ended := by decide

theorem reporting_goes : Phase.reporting ≠ .ended := by decide

end Fleet

open Fleet

theorem held_turn {f : Fleet} {i : ℕ} {key : StepKey} {phase phase' : Phase} (valid : Held f)
    (held : f.tasks[i]? = some ⟨key, phase⟩) : Held (f.turn i key phase') := by
  intro k j found
  obtain ⟨p, at'⟩ := valid k j found
  by_cases same : j = i
  · rw [same, held] at at'
    cases at'
    exact ⟨phase', by rw [getElem?_turn held _, if_pos same]⟩
  · exact ⟨p, by rw [getElem?_turn held _, if_neg same, at']⟩

theorem held_step (f : Fleet) (e : Event) (valid : Held f) : Held (f.step e) := by
  cases e with
  | assign key admitted =>
    dsimp only [Fleet.step]
    split_ifs with yes
    · intro k j found
      dsimp only at found ⊢
      rw [Table.lookup_insert] at found
      split_ifs at found with same
      · cases found
        exact ⟨.materializing, by rw [same]; simp⟩
      · obtain ⟨p, at'⟩ := valid k j found
        exact ⟨p, by rw [List.getElem?_append_left (List.getElem?_eq_some_iff.mp at').1, at']⟩
    · exact valid
  | cancel key =>
    dsimp only [Fleet.step]
    cases found : f.running.lookup key with
    | none => exact valid
    | some i =>
      obtain ⟨phase, held⟩ := valid key i found
      intro k j there
      dsimp only at there ⊢
      rw [Table.lookup_erase] at there
      split_ifs at there with same
      exact held_turn valid held k j there
  | materialized i ok =>
    dsimp only [Fleet.step]
    split
    · rename_i key held
      split
      · exact held_turn valid held
      · exact held_turn valid held
    · exact valid
  | returned i =>
    dsimp only [Fleet.step]
    split
    · rename_i key held
      exact held_turn valid held
    · exact valid
  | finished i =>
    dsimp only [Fleet.step]
    split
    · rename_i key held
      exact held_turn valid held
    · exact valid

theorem exact_assign {f : Fleet} (exact : Exact f) (key : StepKey) (admitted : Bool) :
    Exact (f.step (.assign key admitted)) ↔ Keeps f (.assign key admitted) := by
  obtain ⟨slots, running⟩ := exact
  refine iff_of_true ?_ trivial
  dsimp only [Fleet.step]
  split_ifs with yes
  · refine ⟨?_, fun k => ?_⟩
    · rw [slots]
      unfold inside
      dsimp only
      rw [List.countP_append]
      rfl
    · dsimp only
      rw [Table.lookup_insert]
      by_cases same : k = key
      · rw [if_pos same]
        refine iff_of_true rfl ⟨f.tasks.length, .materializing, ?_, by decide⟩
        rw [same]
        simp
      · rw [if_neg same, running]
        constructor
        · rintro ⟨j, p, at', goes⟩
          exact ⟨j, p, by
            rw [List.getElem?_append_left (List.getElem?_eq_some_iff.mp at').1, at'], goes⟩
        · rintro ⟨j, p, at', goes⟩
          dsimp only at at'
          rw [List.getElem?_append] at at'
          split_ifs at at' with old
          · exact ⟨j, p, at', goes⟩
          · obtain ⟨less, last⟩ := List.getElem?_eq_some_iff.mp at'
            rw [List.getElem_singleton] at last
            cases last
            exact absurd rfl same
  · exact ⟨slots, running⟩

theorem exact_cancel {f : Fleet} (exact : Exact f) (valid : Held f) (key : StepKey) :
    Exact (f.step (.cancel key)) ↔ Keeps f (.cancel key) := by
  obtain ⟨slots, running⟩ := exact
  dsimp only [Fleet.step, Keeps]
  cases found : f.running.lookup key with
  | none => exact iff_of_true ⟨slots, running⟩ (fun i there => nomatch there)
  | some i =>
    obtain ⟨phase, held⟩ := valid key i found
    have live : f.Live key := (running key).mp (by rw [found]; rfl)
    have count := inside_turn held .ended
    change _ = _ + 0 at count
    have gone : (f.running.erase key).lookup key = none := by
      rw [Table.lookup_erase, if_pos rfl]
    constructor
    · rintro ⟨slots', running'⟩ i' same
      cases same
      refine ⟨fun other => ?_, fun run => ?_⟩
      · have there := (running' key).mpr ((live_turn held .ended key).mpr (.inr other))
        dsimp only at there
        rw [gone] at there
        cases there
      · rw [held] at run
        cases run
        change f.slotsFree = f.slotsTotal - (f.turn i key .ended).inside at slots'
        change _ + 1 = _ at count
        omega
    · intro keeps
      obtain ⟨alone, runs_over⟩ := keeps i rfl
      refine ⟨?_, fun k => ?_⟩
      · change f.slotsFree = f.slotsTotal - (f.turn i key .ended).inside
        by_cases run : phase = .inside
        · have more := runs_over (by rw [held, run])
          rw [run] at count
          change _ + 1 = _ at count
          omega
        · unfold runs at count
          rw [if_neg run] at count
          omega
      · show ((f.running.erase key).lookup k).isSome = true ↔ (f.turn i key .ended).Live k
        rw [live_turn held, Table.lookup_erase]
        by_cases same : k = key
        · rw [if_pos same, same]
          refine iff_of_false nofun ?_
          rintro (⟨-, never⟩ | other)
          · exact absurd rfl never
          · exact alone other
        · rw [if_neg same, running, live_iff held]
          exact or_congr (iff_of_false (fun own => same own.1) (fun own => same own.1)) Iff.rfl

theorem exact_materialized {f : Fleet} (exact : Exact f) (i : ℕ) (ok : Bool) :
    Exact (f.step (.materialized i ok)) ↔ Keeps f (.materialized i ok) := by
  obtain ⟨slots, running⟩ := exact
  refine iff_of_true ?_ trivial
  dsimp only [Fleet.step]
  split
  · rename_i key held
    split
    · have count := inside_turn held .inside
      refine ⟨?_, fun k => ?_⟩
      · change f.slotsFree - 1 = f.slotsTotal - (f.turn i key .inside).inside
        change _ + 0 = _ + 1 at count
        omega
      · exact (running k).trans (live_turn_same held (by decide) inside_goes k).symm
    · have count := inside_turn held .reporting
      refine ⟨?_, fun k => ?_⟩
      · change f.slotsFree = f.slotsTotal - (f.turn i key .reporting).inside
        change _ + 0 = _ + 0 at count
        omega
      · exact (running k).trans (live_turn_same held (by decide) reporting_goes k).symm
  · exact ⟨slots, running⟩

theorem exact_returned {f : Fleet} (exact : Exact f) (i : ℕ) :
    Exact (f.step (.returned i)) ↔ Keeps f (.returned i) := by
  obtain ⟨slots, running⟩ := exact
  dsimp only [Fleet.step, Keeps]
  split
  · rename_i key held
    have count := inside_turn held .reporting
    change _ + 1 = _ + 0 at count
    constructor
    · rintro ⟨slots', -⟩ _ _
      change min (f.slotsFree + 1) f.slotsTotal =
        f.slotsTotal - (f.turn i key .reporting).inside at slots'
      omega
    · intro keeps
      have enough := keeps key held
      refine ⟨?_, fun k => ?_⟩
      · change min (f.slotsFree + 1) f.slotsTotal =
          f.slotsTotal - (f.turn i key .reporting).inside
        omega
      · exact (running k).trans (live_turn_same held (by decide) reporting_goes k).symm
  · rename_i other
    exact iff_of_true ⟨slots, running⟩ fun key held => absurd held (other key)

theorem exact_finished {f : Fleet} (exact : Exact f) (i : ℕ) :
    Exact (f.step (.finished i)) ↔ Keeps f (.finished i) := by
  obtain ⟨slots, running⟩ := exact
  dsimp only [Fleet.step, Keeps]
  split
  · rename_i key held
    have count := inside_turn held .ended
    change _ + 0 = _ + 0 at count
    have live : (f.running.lookup key).isSome = true :=
      (running key).mpr ⟨i, .reporting, held, by decide⟩
    constructor
    · rintro ⟨-, running'⟩ k there
      rw [held] at there
      cases there
      rcases (live_turn held _ key).mp ((running' key).mp live) with ⟨-, never⟩ | other
      · exact absurd rfl never
      · exact other
    · intro keeps
      refine ⟨?_, fun k => ?_⟩
      · change f.slotsFree = f.slotsTotal - (f.turn i key .ended).inside
        omega
      · show (f.running.lookup k).isSome = true ↔ _
        rw [running, live_turn held _, live_iff held]
        constructor
        · rintro (⟨rfl, -⟩ | other)
          · exact .inr (keeps k held)
          · exact .inr other
        · rintro (⟨-, never⟩ | other)
          · exact absurd rfl never
          · exact .inr other
  · rename_i other
    exact iff_of_true ⟨slots, running⟩ fun key held => absurd held (other key)

/-- **From an exact state a step leads to an exact one precisely when it keeps the accounting.** -/
theorem exact_step {f : Fleet} (valid : Held f) (exact : Exact f) (e : Event) :
    Exact (f.step e) ↔ Keeps f e := by
  cases e with
  | assign key admitted => exact exact_assign exact key admitted
  | cancel key => exact exact_cancel exact valid key
  | materialized i ok => exact exact_materialized exact i ok
  | returned i => exact exact_returned exact i
  | finished i => exact exact_finished exact i

theorem held_start (slotsTotal : ℕ) : Held (start slotsTotal) := fun _ _ found => nomatch found

theorem exact_start (slotsTotal : ℕ) : Exact (start slotsTotal) where
  slots := rfl
  running _ := iff_of_false nofun fun ⟨_, _, at', _⟩ => nomatch at'

/-- **The accounting is exact in every state of a run precisely when every step keeps it.** -/
theorem accounting_exact_iff (slotsTotal : ℕ) (events : List Event) :
    (∀ n, Exact (run Fleet.step (start slotsTotal) (events.take n))) ↔
      Along Fleet.step Keeps (start slotsTotal) events :=
  always_iff_along (fun f e valid _ => held_step f e valid)
    (fun _ e valid exact _ => exact_step valid exact e) (held_start slotsTotal)
    (exact_start slotsTotal) (along_of_forall (P := fun _ => True) (fun _ _ => trivial) _)

/-- **A cancelled run never gives its slot back.** One slot, one step, cancelled inside its run. -/
theorem cancelled_slot_lost : ¬ Exact (run Fleet.step (start 1)
    [.assign ⟨"job", "step"⟩ true, .materialized 0 true, .cancel ⟨"job", "step"⟩]) := by
  intro exact
  exact absurd exact.slots (by decide)

end HullCi.Server.Accounting
