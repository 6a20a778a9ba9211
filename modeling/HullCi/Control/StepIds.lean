/-
**The ids of a job's steps, and what a pass leaves alone.**

* `newStepId_injective` — ids of one plan differ, whatever the noise.
* `nodup_seedSteps` — a plan's steps have different ids.
* `find?_passSteps` — a pass of the driver leaves a step alone that is not pending and whose clock has
  not run out.
* `cancel_complete` — what the fold cancels is every step that is not terminal.
-/

import HullCi.Control.Verdicts

namespace HullCi.Control

open HullCi.Proto HullCi.Base

/-! ### Ids -/

theorem zeroPad_digits (n : ℕ) :
    Nat.ofDigitChars 10 (zeroPad 2 (Nat.toDigits 10 n)) 0 = n := by
  unfold zeroPad
  rw [Nat.ofDigitChars_append, Nat.ofDigitChars_replicate_zero, Nat.mul_zero,
    Nat.ofDigitChars_ten_toDigits]

theorem underscore_zeroPad (n : ℕ) : '_' ∉ zeroPad 2 (Nat.toDigits 10 n) := by
  intro member
  rcases List.mem_append.mp member with zero | digit
  · have same := List.eq_of_mem_replicate zero
    exact absurd same (by decide)
  · exact Nat.underscore_not_in_toDigits digit

/-- **The index can be read off an id.** -/
theorem newStepId_injective {i j : ℕ} {noise noise' : BitVec 32}
    (same : newStepId i noise = newStepId j noise') : i = j := by
  have chars := congrArg String.toList same
  simp only [newStepId, String.toList_append, String.toList_ofList, List.append_assoc] at chars
  have rest := List.append_cancel_left chars
  -- What stands before the next underscore is the index.
  have digits := congrArg (fun l => l.takeWhile (· ≠ '_')) rest
  have reads : ∀ (n : ℕ) (tail : List Char), List.takeWhile (· ≠ '_')
      (zeroPad 2 (Nat.toDigits 10 n) ++ ("_".toList ++ tail)) = zeroPad 2 (Nat.toDigits 10 n) := by
    intro n tail
    have other : ∀ c ∈ zeroPad 2 (Nat.toDigits 10 n), decide (c ≠ '_') = true := by
      intro c member
      refine decide_eq_true ?_
      rintro rfl
      exact underscore_zeroPad n member
    rw [List.takeWhile_append_of_pos other]
    simp
  simp only [reads] at digits
  rw [← zeroPad_digits i, digits, zeroPad_digits]

theorem seedStep_id (now : Instant) (id : StepId) (spec : StepSpec) (decision : MemoDecision) :
    (seedStep now id spec decision).id = id := by
  unfold seedStep
  cases decision.hit with
  | none => rfl
  | some outcome => cases outcome <;> exact Step.tryTransition_id _ _

theorem mem_seedSteps_ids {now : Instant} {noise : ℕ → BitVec 32} {i : ℕ}
    {plan : List (StepSpec × MemoDecision)} {id : StepId}
    (member : id ∈ (seedSteps now noise i plan).map (·.id)) :
    ∃ j, i ≤ j ∧ id = newStepId j (noise j) := by
  induction plan generalizing i with
  | nil => cases member
  | cons planned rest ih =>
    rcases List.mem_cons.mp member with rfl | later
    · exact ⟨i, le_refl i, seedStep_id _ _ _ _⟩
    · obtain ⟨j, le, same⟩ := ih later
      exact ⟨j, Nat.le_of_succ_le le, same⟩

/-- **A plan's steps have different ids.** -/
theorem nodup_seedSteps (now : Instant) (noise : ℕ → BitVec 32) (i : ℕ)
    (plan : List (StepSpec × MemoDecision)) :
    ((seedSteps now noise i plan).map (·.id)).Nodup := by
  induction plan generalizing i with
  | nil => exact List.nodup_nil
  | cons planned rest ih =>
    refine List.nodup_cons.mpr ⟨fun member => ?_, ih (i + 1)⟩
    obtain ⟨j, le, same⟩ := mem_seedSteps_ids member
    have first : newStepId i (noise i) = newStepId j (noise j) :=
      (seedStep_id now _ planned.1 planned.2).symm.trans same
    have eq := newStepId_injective first
    omega

/-- With different ids, every step is the one its id finds. -/
theorem step_of_mem {job : Job} (distinct : (job.steps.map (·.id)).Nodup) {s : Step}
    (member : s ∈ job.steps) : job.step s.id = some s := by
  unfold Job.step
  generalize job.steps = steps at distinct member
  induction steps with
  | nil => cases member
  | cons first rest ih =>
    obtain ⟨apart, distinct⟩ := List.nodup_cons.mp distinct
    rcases List.mem_cons.mp member with rfl | later
    · exact List.find?_cons_of_pos (by simp)
    · rw [List.find?_cons_of_neg]
      · exact ih distinct later
      · intro same
        exact apart (List.mem_map.mpr ⟨s, later, (of_decide_eq_true same).symm⟩)

/-! ### What a pass leaves alone -/

theorem find?_map_id {f : Step → Step} (ids : ∀ s, (f s).id = s.id) (steps : List Step)
    (id : StepId) :
    (steps.map f).find? (·.id = id) = (steps.find? (·.id = id)).map f := by
  induction steps with
  | nil => rfl
  | cons s rest ih =>
    rw [List.map_cons]
    by_cases here : s.id = id
    · rw [List.find?_cons_of_pos (by simpa [ids] using here),
        List.find?_cons_of_pos (by simpa using here)]
      rfl
    · rw [List.find?_cons_of_neg (by simpa [ids] using here),
        List.find?_cons_of_neg (by simpa using here)]
      exact ih

/-- The clock of the step has run out. -/
def overdue (t : Timeouts) (now : Instant) (s : Step) : Bool :=
  (stepDeadline t s).any fun clock => clock.1 ≤ now

theorem sweepStep_still {t : Timeouts} {now : Instant} {s : Step}
    (still : overdue t now s = false) : (sweepStep t now s).1 = s := by
  unfold overdue at still
  unfold sweepStep
  cases clock : stepDeadline t s with
  | none => rfl
  | some deadline =>
    obtain ⟨at', expiry⟩ := deadline
    rw [clock] at still
    have early : now < at' := by simpa using still
    dsimp only
    rw [if_pos early]

/-- A step that is not pending and whose clock has not run out is left as it is. -/
theorem find?_passSteps {t : Timeouts} {now : Instant} {steps : List Step} {id : StepId} {s : Step}
    (found : steps.find? (·.id = id) = some s) (moving : s.state ≠ .pending)
    (still : overdue t now s = false) :
    (passSteps t now steps).find? (·.id = id) = some s := by
  have swept : (sweep t now steps).1.find? (·.id = id) = some s := by
    unfold sweep
    rw [find?_map_id (fun s => sweepStep_id t now s), found, Option.map_some, sweepStep_still still]
  refine advance_keeps (I := fun steps => steps.find? (·.id = id) = some s) ?_ ?_ swept
  · intro steps kept
    rw [find?_map_id (fun s => passStep_id now _ s), kept, Option.map_some]
    rcases passStep_cases now (snapshot steps) s with same | ⟨pending, -, -⟩
    · rw [same]
    · exact absurd pending moving
  · intro steps kept _
    rw [find?_map_id (fun s => breakStep_id now s), kept, Option.map_some]
    unfold breakStep
    rw [if_neg moving]

theorem passSteps_ids (t : Timeouts) (now : Instant) (steps : List Step) :
    (passSteps t now steps).map (·.id) = steps.map (·.id) :=
  (advance_ids now _).trans (sweep_ids t now steps)

/-- **What a fold that decides does not cancel is terminal.** -/
theorem cancel_complete {steps : List Step} (distinct : (steps.map (·.id)).Nodup)
    {elapsed : Duration} {d : Decision} (decided : fold steps elapsed = .decided d) {s : Step}
    (member : s ∈ steps) (moving : s.state.isTerminal = false) : s.id ∈ d.cancel := by
  cases fold_decided decided with
  | empty none =>
    rw [none] at member
    cases member
  | errored step sound terminal =>
    rw [terminal s member] at moving
    cases moving
  | green some sound terminal =>
    rw [terminal s member] at moving
    cases moving
  | red failed found =>
    refine List.mem_map.mpr ⟨s, List.mem_filter.mpr ⟨member, ?_⟩, rfl⟩
    refine decide_eq_true ⟨fun same => ?_, by simp [StepState.isInFlight, moving]⟩
    have apart : s = failed :=
      List.inj_on_of_nodup_map distinct member (List.mem_of_find?_eq_some found) same
    have fatal := List.find?_some found
    rw [← apart] at fatal
    rw [isTerminal_of_spoiled (.inl fatal)] at moving
    cases moving

end HullCi.Control
