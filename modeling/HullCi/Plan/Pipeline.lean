/-
**What an evaluated pipeline is: a list of steps whose `needs` point backwards.**

* `Pipeline.depth` — the source's own forward pass for the longest `needs` chain.
* `forward_append` — the pass reads one more step without going back.
-/

import Mathlib.Data.List.Basic

namespace HullCi.Plan

/-! ### The steps -/

/-- The isolation tier a pipeline asks for. -/
inductive Trust
  | trusted
  | untrusted
  deriving DecidableEq, Repr

inductive Shard
  | auto
  | fixed (count : ℕ)
  deriving DecidableEq, Repr

/-- What a step does. The `run` string is opaque. -/
inductive StepKind
  | run (command : String)
  | action (uses : String)
  deriving DecidableEq, Repr

/-- One node of the graph. A timeout is in seconds. -/
structure PlanStep where
  name : String
  kind : StepKind
  inputs : List String
  cache : List String
  secrets : List String
  needs : List String
  shard : Option Shard
  timeout : Option ℕ
  image : Option String
  continueOnError : Bool
  deriving DecidableEq, Repr

/-- A whole evaluated pipeline. -/
structure Pipeline where
  image : Option String
  trust : Option Trust
  cacheScope : Option String
  steps : List PlanStep
  deriving DecidableEq, Repr

/-- The evaluation bounds that are read before and during the recording. -/
structure Limits where
  maxSteps : ℕ
  maxDepth : ℕ
  maxSourceBytes : ℕ
  maxNesting : ℕ
  maxRawNesting : ℕ
  maxStatementWeight : ℕ
  maxIndentColumns : ℕ
  maxBlockChain : ℕ
  deriving DecidableEq, Repr

/-- `Limits::default`. -/
def Limits.default : Limits where
  maxSteps := 1000
  maxDepth := 64
  maxSourceBytes := 32 * 1024
  maxNesting := 32
  maxRawNesting := 512
  maxStatementWeight := 1024
  maxIndentColumns := 256
  maxBlockChain := 256

/-! ### Depth -/

/-- The depth a step has below the depths already found: each name's first entry counts. -/
def depthBelow (depths : List (String × ℕ)) (needs : List String) : ℕ :=
  1 + ((needs.filterMap fun n => depths.find? fun d => d.1 == n).map Prod.snd).foldl max 0

/-- One step of the forward pass: the depths found so far and their maximum. -/
def forwardStep (seen : List (String × ℕ) × ℕ) (step : PlanStep) : List (String × ℕ) × ℕ :=
  (seen.1 ++ [(step.name, depthBelow seen.1 step.needs)], max seen.2 (depthBelow seen.1 step.needs))

/-- The forward pass. -/
def forward (steps : List PlanStep) : List (String × ℕ) × ℕ :=
  steps.foldl forwardStep ([], 0)

/-- `Pipeline::depth`: the longest path, in nodes. -/
def Pipeline.depth (pipeline : Pipeline) : ℕ :=
  (forward pipeline.steps).2

theorem forward_append (steps : List PlanStep) (step : PlanStep) :
    forward (steps ++ [step]) = forwardStep (forward steps) step := by
  unfold forward
  rw [List.foldl_append]
  rfl

end HullCi.Plan
