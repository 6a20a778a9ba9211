/-
**The contract types: what Hull dispatches, what it is told, and what a node is handed.**

A `Verdict` is built by `green`, `red` and `errored` only, so a reason accompanies exactly the
errored case: the field `explained` carries that, and no later proof has to re-establish it.
-/

import HullCi.Proto.Text

namespace HullCi.Proto

/-! ### Inward contract: Hull to the runner -/

/-- The tenant half of `tenant/repo`; the whole trimmed text when that half is empty. -/
def tenantOf (repo : String) : String :=
  let repo := trim repo
  let first := trim (String.ofList (repo.toList.takeWhile (· ≠ '/')))
  if first = "" then repo else first

/-- The job Hull posts to the runner's endpoint. -/
structure Dispatch where
  repo : String
  change : String := ""
  treeId : String
  intent : String := ""
  author : String := ""
  sourceUrl : String := ""
  callbackUrl : String
  fetchToken : Option String := none
  deriving DecidableEq, Repr

def Dispatch.tenant (d : Dispatch) : String :=
  tenantOf d.repo

/-! ### Outward contract: the runner to Hull -/

/-- The three things a verdict can say. -/
inductive Status
  | green
  | red
  | errored
  deriving DecidableEq, Repr

/-- Why a verdict is errored. -/
inductive Reason
  | noTests
  | timeout
  | infra
  | capacity
  deriving DecidableEq, Repr

/-- What is posted to a callback. -/
structure Verdict where
  status : Status
  summary : Option String
  detailsUrl : Option String
  reason : Option Reason
  explained : reason.isSome = decide (status = .errored)
  deriving DecidableEq, Repr

namespace Verdict

def green (summary : String) : Verdict :=
  ⟨.green, some summary, none, none, rfl⟩

def red (summary : String) : Verdict :=
  ⟨.red, some summary, none, none, rfl⟩

/-- `Verdict::errored`: always with its reason. -/
def errored (reason : Reason) (summary : String) : Verdict :=
  ⟨.errored, some summary, none, some reason, rfl⟩

def withDetailsUrl (v : Verdict) (url : String) : Verdict :=
  { v with detailsUrl := some url }

@[simp] theorem green_status (summary : String) : (green summary).status = .green := rfl

@[simp] theorem red_status (summary : String) : (red summary).status = .red := rfl

@[simp] theorem errored_status (reason : Reason) (summary : String) :
    (errored reason summary).status = .errored := rfl

@[simp] theorem errored_reason (reason : Reason) (summary : String) :
    (errored reason summary).reason = some reason := rfl

end Verdict

/-! ### Tenancy and trust axes -/

/-- How strong the box is. -/
inductive IsolationTier
  | microVm
  | container
  deriving DecidableEq, Repr

/-- Whose authority the code carries. -/
inductive AuthorClass
  | member
  | outsider
  deriving DecidableEq, Repr

/-! ### Control plane and node -/

/-- A leased unit of work. -/
structure Assignment where
  jobId : String
  stepId : String
  stepName : String
  tenant : String
  repo : String
  treeId : String
  argv : List String
  secrets : List String
  image : String
  tier : IsolationTier
  authorClass : AuthorClass
  timeoutSecs : ℕ
  leaseSecs : ℕ
  deriving DecidableEq, Repr

/-- How a run of one step ended. -/
inductive StepOutcome
  | passed
  | failed
  | errored
  deriving DecidableEq, Repr

/-- A node's terminal report for one assignment. -/
structure StepReport where
  jobId : String
  stepId : String
  outcome : StepOutcome
  reason : Option Reason := none
  exitCode : Option ℤ := none
  logKey : Option String := none
  detail : String := ""
  deriving DecidableEq, Repr

end HullCi.Proto
