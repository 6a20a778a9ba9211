/-
**The summary of every verdict is one tidy line.**

The fold builds its summaries out of step names and details it does not trust, and sanitizes what it
built. The one summary that is not built is a constant.

* `fold_summary` — every decided fold carries a tidy line within the cap.
* `sanitize_summary_safe` — the sanitizer's whole contract, and the fold's summaries under it.
-/

import HullCi.Control.Aggregate
import HullCi.Proto.Lines

namespace HullCi.Control

open HullCi.Proto

/-- What a summary that was sanitized to the summary cap is. -/
theorem summary_tidy (raw : String) :
    Tidy (sanitizeSummary raw summaryMaxChars).toList ∧
      (sanitizeSummary raw summaryMaxChars).toList.length ≤ summaryMaxChars :=
  ⟨sanitizeSummary_tidy raw _, sanitizeSummary_length raw _⟩

/-- The constant summary of an empty plan is its own sanitized form. -/
theorem noSteps_sanitized :
    sanitizeSummary "no steps to run — nothing detectable in the tree" summaryMaxChars =
      "no steps to run — nothing detectable in the tree" := by
  decide +kernel

/-- **Every decided fold carries a tidy line within the cap**, whatever its steps are called and
whatever they said. -/
theorem fold_summary {steps : List Step} {elapsed : Duration} {d : Decision}
    (decided : fold steps elapsed = .decided d) :
    ∃ raw, d.verdict.summary = some (sanitizeSummary raw summaryMaxChars) := by
  cases fold_decided decided with
  | empty none => exact ⟨_, congrArg some noSteps_sanitized.symm⟩
  | red failed found => exact ⟨_, rfl⟩
  | errored step sound terminal found => exact ⟨_, rfl⟩
  | green some sound terminal answered => exact ⟨_, rfl⟩

/-- **Sanitizing is safe and idempotent.** The result is a tidy line within its cap, and is its own
sanitized form under that cap or a larger one; and so is the summary of every verdict the fold
decides. -/
theorem sanitize_summary_safe (raw : String) (maxChars : ℕ) :
    (sanitizeSummary raw maxChars).toList.length ≤ maxChars ∧
      Tidy (sanitizeSummary raw maxChars).toList ∧
      (∀ cap, maxChars ≤ cap →
        sanitizeSummary (sanitizeSummary raw maxChars) cap = sanitizeSummary raw maxChars) ∧
      ∀ (steps : List Step) (elapsed : Duration) (d : Decision),
        fold steps elapsed = .decided d →
          ∃ summary, d.verdict.summary = some summary ∧
            summary.toList.length ≤ summaryMaxChars ∧ Tidy summary.toList := by
  refine ⟨sanitizeSummary_length raw maxChars, sanitizeSummary_tidy raw maxChars,
    fun cap le => sanitizeSummary_again raw le, fun steps elapsed d decided => ?_⟩
  obtain ⟨built, summary⟩ := fold_summary decided
  exact ⟨_, summary, (summary_tidy built).2, (summary_tidy built).1⟩

end HullCi.Control
