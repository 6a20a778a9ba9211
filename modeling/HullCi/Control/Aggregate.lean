/-
**The aggregator: fail fast, report once.**

`fold` decides a job's one verdict from its steps. Summaries are constructed from sanitized parts
and never influence the status.

* `fold_red`, `fold_green`, `fold_errored` — what each status says about the steps.
* `fold_decided` — when the fold decides at all.
-/

import HullCi.Control.Model

namespace HullCi.Control

open HullCi.Proto

/-- How much of a step name is echoed. -/
def nameCap : ℕ := 48

/-- How much job-produced detail is echoed. -/
def detailCap : ℕ := 100

/-- A decided job: the one verdict, and the siblings to cancel. -/
structure Decision where
  verdict : Verdict
  cancel : List StepId
  deriving DecidableEq, Repr

/-- The aggregator's answer. -/
inductive Fold
  | undecided
  | decided (d : Decision)
  deriving DecidableEq, Repr

/-! ### Summaries -/

/-- Whole seconds, rounded half to even as `{:.0}` does. -/
def secs (d : Duration) : String :=
  let whole := d / 1000000000
  let rest := d % 1000000000
  let up := rest > 500000000 ∨ (rest = 500000000 ∧ whole % 2 = 1)
  toString (if up then whole + 1 else whole) ++ "s"

def greenSummary (steps : List Step) (elapsed : Duration) : String :=
  let cached := steps.countP (·.state = .cached)
  let tolerated := steps.countP (·.state = .failed)
  let skipped := steps.countP (·.state = .skipped)
  let line := toString steps.length ++ " step" ++ (if steps.length = 1 then "" else "s")
    ++ " (" ++ toString cached ++ " cached), 0 failed — " ++ secs elapsed
  let line := if tolerated > 0 then line ++ " (" ++ toString tolerated ++ " tolerated failure(s))"
    else line
  let line := if skipped > 0 then line ++ " (" ++ toString skipped ++ " skipped)" else line
  sanitizeSummary line summaryMaxChars

def redSummary (step : Step) (elapsed : Duration) : String :=
  let detail := sanitizeSummary step.detail detailCap
  let line := "step " ++ quoted step.spec.name nameCap ++ " failed"
  let line := match step.exitCode with
    | some code => line ++ " (exit " ++ toString code ++ ")"
    | none => line
  let line := if detail = "" then line else line ++ ": " ++ detail
  sanitizeSummary (line ++ " — " ++ secs elapsed) summaryMaxChars

def erroredSummary (step : Step) : String :=
  let detail := sanitizeSummary step.detail detailCap
  let line := "step " ++ quoted step.spec.name nameCap ++ " errored"
  let line := if detail = "" then line else line ++ ": " ++ detail
  sanitizeSummary (line ++ " — no verdict produced") summaryMaxChars

/-! ### The fold -/

/-- The siblings of the failed step that still occupy capacity. -/
def cancelled (steps : List Step) (failed : Step) : List StepId :=
  (steps.filter fun s => s.id ≠ failed.id ∧ s.state.isInFlight = true).map (·.id)

/-- Fold step outcomes into one verdict. -/
def fold (steps : List Step) (elapsed : Duration) : Fold :=
  if steps.isEmpty then
    .decided ⟨.errored .noTests "no steps to run — nothing detectable in the tree", []⟩
  else match steps.find? (·.failedFatally) with
    | some failed => .decided ⟨.red (redSummary failed elapsed), cancelled steps failed⟩
    | none =>
      if steps.any fun s => !s.state.isTerminal then .undecided
      else match steps.find? (·.state = .errored) with
        | some errored =>
          .decided ⟨.errored (errored.errorReason.getD .infra) (erroredSummary errored), []⟩
        | none => .decided ⟨.green (greenSummary steps elapsed), []⟩

/-- The four ways the fold decides, each with what it saw. -/
inductive FoldCase (steps : List Step) (elapsed : Duration) : Decision → Prop
  | empty (none : steps = []) :
      FoldCase steps elapsed
        ⟨.errored .noTests "no steps to run — nothing detectable in the tree", []⟩
  | red (failed : Step) (found : steps.find? (·.failedFatally) = some failed) :
      FoldCase steps elapsed ⟨.red (redSummary failed elapsed), cancelled steps failed⟩
  | errored (step : Step) (sound : ∀ s ∈ steps, s.failedFatally = false)
      (terminal : ∀ s ∈ steps, s.state.isTerminal = true)
      (found : steps.find? (·.state = .errored) = some step) :
      FoldCase steps elapsed
        ⟨.errored (step.errorReason.getD .infra) (erroredSummary step), []⟩
  | green (some : steps ≠ []) (sound : ∀ s ∈ steps, s.failedFatally = false)
      (terminal : ∀ s ∈ steps, s.state.isTerminal = true)
      (answered : ∀ s ∈ steps, s.state ≠ .errored) :
      FoldCase steps elapsed ⟨.green (greenSummary steps elapsed), []⟩

theorem fold_decided {steps : List Step} {elapsed : Duration} {d : Decision}
    (decided : fold steps elapsed = .decided d) : FoldCase steps elapsed d := by
  unfold fold at decided
  by_cases empty : steps.isEmpty
  · rw [if_pos empty] at decided
    obtain rfl := Fold.decided.inj decided
    exact .empty (List.isEmpty_iff.mp empty)
  · rw [if_neg empty] at decided
    cases failure : steps.find? (·.failedFatally) with
    | some failed =>
      simp only [failure, Fold.decided.injEq] at decided
      exact decided ▸ .red failed failure
    | none =>
      have sound : ∀ s ∈ steps, s.failedFatally = false := fun s member =>
        Bool.eq_false_iff.mpr (List.find?_eq_none.mp failure s member)
      by_cases waiting : steps.any fun s => !s.state.isTerminal
      · simp only [failure, if_pos waiting, reduceCtorEq] at decided
      simp only [failure, if_neg waiting] at decided
      have terminal : ∀ s ∈ steps, s.state.isTerminal = true := by
        simpa using waiting
      cases error : steps.find? (·.state = .errored) with
      | some step =>
        simp only [error, Fold.decided.injEq] at decided
        exact decided ▸ .errored step sound terminal error
      | none =>
        simp only [error, Fold.decided.injEq] at decided
        refine decided ▸ .green ?_ sound terminal fun s member => ?_
        · exact fun none => empty (List.isEmpty_iff.mpr none)
        · simpa using List.find?_eq_none.mp error s member

/-- **Red means a fatal failure, and a fatal failure means red.** -/
theorem fold_red {steps : List Step} {elapsed : Duration} {d : Decision}
    (decided : fold steps elapsed = .decided d) :
    d.verdict.status = .red ↔ ∃ s ∈ steps, s.failedFatally = true := by
  cases fold_decided decided with
  | empty none => simp [none]
  | red failed found =>
    refine ⟨fun _ => ⟨failed, List.mem_of_find?_eq_some found, ?_⟩, fun _ => rfl⟩
    exact List.find?_some found
  | errored step sound terminal found =>
    refine ⟨fun red => (by cases red), fun ⟨s, member, fatal⟩ => ?_⟩
    rw [sound s member] at fatal
    cases fatal
  | green some sound terminal answered =>
    refine ⟨fun red => (by cases red), fun ⟨s, member, fatal⟩ => ?_⟩
    rw [sound s member] at fatal
    cases fatal

/-- A green verdict is over terminal steps only, none of them errored or fatally failed. -/
theorem fold_green {steps : List Step} {elapsed : Duration} {d : Decision}
    (decided : fold steps elapsed = .decided d) (green : d.verdict.status = .green) :
    ∀ s ∈ steps, s.state.isTerminal = true ∧ s.state ≠ .errored ∧ s.failedFatally = false := by
  cases fold_decided decided with
  | empty | red | errored => cases green
  | green some sound terminal answered =>
    exact fun s member => ⟨terminal s member, answered s member, sound s member⟩

/-- An errored verdict names the first errored step, or an empty plan. -/
theorem fold_errored {steps : List Step} {elapsed : Duration} {d : Decision}
    (decided : fold steps elapsed = .decided d) (errored : d.verdict.status = .errored) :
    (steps = [] ∧ d.verdict.reason = some .noTests) ∨
      ∃ s, steps.find? (·.state = .errored) = some s ∧
        d.verdict.reason = some (s.errorReason.getD .infra) := by
  cases fold_decided decided with
  | empty none => exact .inl ⟨none, rfl⟩
  | red | green => cases errored
  | errored step sound terminal found => exact .inr ⟨step, found, rfl⟩

end HullCi.Control
