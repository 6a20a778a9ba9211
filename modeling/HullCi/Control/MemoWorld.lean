/-
**The step memo inside the drivers.**

Many jobs of many tenants share one memo. A driver asks it for every step of its plan before any is
scheduled, one lookup at a time; a node's report writes to it after its section on the record, when
the lock is already released. So lookups, reports and writes of different jobs come in any order.

* `MemoWorld.step` — one lookup, one plan installed, one event of one job, one write.
* `Provided` — a step that a node ran to an outcome, under a key of a tenant.
* `Honest` — no step is served from memory but on the strength of such a step.
-/

import HullCi.Control.Memo
import HullCi.Control.MemoStore
import HullCi.Control.Verdicts

namespace HullCi.Control

open HullCi.Proto HullCi.Base

/-! ### The world -/

/-- What the keys of one job's steps were computed from, and when the memo was asked for them. -/
structure KeyedPlan (Tree : Type) where
  ctx : JobKeyContext
  tree : Tree
  specs : List StepSpec
  lookedAt : Instant

/-- A driver in `phase_memo`: the results still to look up, and the decisions so far. -/
structure Resolving (Tree : Type) where
  id : JobId
  dispatch : Dispatch
  authorClass : AuthorClass
  created : Instant
  plan : KeyedPlan Tree
  left : List KeyResult
  decisions : List MemoDecision

/-- A record that a report has left for the memo. -/
structure MemoWrite where
  tenant : String
  key : StepKey
  outcome : MemoOutcome
  now : Instant
  deriving DecidableEq, Repr

/-- The memo, the drivers in `phase_memo`, the jobs with a plan, and the writes under way. -/
structure MemoWorld (Tree : Type) where
  memo : InMemoryStepMemo
  resolving : List (Resolving Tree)
  running : List (KeyedPlan Tree × Driver)
  writing : List MemoWrite

namespace MemoWorld

variable {Tree : Type}

def new (policy : MemoPolicy) : MemoWorld Tree :=
  ⟨.new policy, [], [], []⟩

/-- What an accepted report leaves for the memo. -/
def writesOf (driver : Driver) : Event → List MemoWrite
  | .reported report fromNode now =>
    match recordStepReport report fromNode now driver.job with
    | .ok job => (toMemoize job report.stepId).toList.map fun w => ⟨w.1, w.2.1, w.2.2, now⟩
    | .error _ => []
  | _ => []

/-- What happens next. -/
inductive Label (Tree : Type)
  | resolve (id : JobId) (dispatch : Dispatch) (authorClass : AuthorClass) (created : Instant)
      (tree : Tree) (specs : List StepSpec) (derived : Bool) (now : Instant)
  | look (i : ℕ)
  | launch (i : ℕ) (start : Instant) (noise : ℕ → BitVec 32)
  | event (j : ℕ) (e : Event)
  | write (k : ℕ)

section Model

variable (cfg : DriverConfig) (blake3 : List UInt8 → Vector UInt8 32) (keyed : MemoConfig Tree)
  (tier : IsolationTier) (enabled : Bool)

/-- The results `phase_memo` goes through: a missing one is a refusal, and all are missing when the
task that derives them did not come back (`derived`). -/
def results (plan : KeyedPlan Tree) (derived : Bool) : List KeyResult :=
  let keys := if derived then planStepKeys blake3 keyed plan.ctx plan.tree plan.specs else []
  keys ++ List.replicate (plan.specs.length - keys.length) (.error .noInputs)

/-- The start of `phase_memo`; without a memo there is nothing to ask it. -/
def begun (id : JobId) (dispatch : Dispatch) (authorClass : AuthorClass) (created : Instant)
    (plan : KeyedPlan Tree) (derived : Bool) : Resolving Tree where
  id := id
  dispatch := dispatch
  authorClass := authorClass
  created := created
  plan := plan
  left := if enabled then results blake3 keyed plan derived else []
  decisions := if enabled then [] else List.replicate plan.specs.length {}

/-- One round of the loop of `phase_memo`. -/
def decide1 (memo : InMemoryStepMemo) (plan : KeyedPlan Tree) (result : KeyResult) :
    InMemoryStepMemo × MemoDecision :=
  match result with
  | .ok key =>
    ((memo.lookup plan.ctx.tenant key plan.lookedAt).1,
      { key := some key, hit := (memo.lookup plan.ctx.tenant key plan.lookedAt).2 })
  | .error _ => (memo, {})

def step (w : MemoWorld Tree) : Label Tree → MemoWorld Tree
  | .resolve id dispatch authorClass created tree specs derived now =>
    { w with resolving := w.resolving ++ [begun blake3 keyed enabled id dispatch authorClass created
        ⟨⟨dispatch.tenant, tier, authorClass⟩, tree, specs, now⟩ derived] }
  | .look i =>
    match w.resolving[i]? with
    | some r =>
      match r.left with
      | result :: left =>
        { w with
          memo := (decide1 w.memo r.plan result).1
          resolving := w.resolving.set i { r with
            left := left
            decisions := r.decisions ++ [(decide1 w.memo r.plan result).2] } }
      | [] => w
    | none => w
  | .launch i start noise =>
    match w.resolving[i]? with
    | some r =>
      if r.left = [] then
        { w with
          resolving := w.resolving.eraseIdx i
          running := w.running ++ [(r.plan, launched r.id r.dispatch r.authorClass cfg.timeouts
            r.created start noise r.plan.specs r.decisions)] }
      else w
    | none => w
  | .event j e =>
    match w.running[j]? with
    | some (plan, driver) =>
      { w with
        running := w.running.set j (plan, eventStep cfg driver e)
        writing := w.writing ++ writesOf driver e }
    | none => w
  | .write k =>
    match w.writing[k]? with
    | some m =>
      { w with
        memo := w.memo.record m.tenant m.key m.outcome m.now
        writing := w.writing.eraseIdx k }
    | none => w

end Model

end MemoWorld

/-! ### Who vouches for what -/

section Honesty

variable {Tree : Type} (blake3 : List UInt8 → Vector UInt8 32) (keyed : MemoConfig Tree)

/-- A step of a job of the tenant, under the key, that a node was leased and ran to the outcome. -/
def Provided (running : List (KeyedPlan Tree × Driver)) (tenant : String) (key : StepKey)
    (outcome : MemoOutcome) (finished : Instant) (j p : ℕ) : Prop :=
  ∃ plan driver s, running[j]? = some (plan, driver) ∧ driver.job.steps[p]? = some s ∧
    driver.job.dispatch.tenant = tenant ∧ s.memoKey = some key ∧
    MemoOutcome.fromState s.state = some outcome ∧ s.nodeId.isSome = true ∧
    s.finishedAt = some finished

/-- The bytes hashed for one step of a plan, with what they were made of. -/
def Feeds (plan : KeyedPlan Tree) (p : ℕ) (spec : StepSpec) (deps : List StepKey)
    (bytes : List UInt8) : Prop :=
  plan.specs[p]? = some spec ∧ deps.length = spec.needs.length ∧ (∀ key ∈ deps, Sized (utf8 key)) ∧
    keyInput keyed plan.ctx plan.tree spec deps = .ok bytes

/-- A step served from memory: a node ran a step of the same tenant to that outcome, not too long
before the memo was asked; the two keys are hashes of two inputs; and unless these are a collision,
the two steps agree in everything that is keyed. -/
def Vouched (policy : MemoPolicy) (running : List (KeyedPlan Tree × Driver))
    (plan : KeyedPlan Tree) (tenant : String) (p : ℕ) (outcome : MemoOutcome) : Prop :=
  ∃ j' p' plan' driver' key finished spec spec' deps deps' bytes bytes',
    Provided running tenant key outcome finished j' p' ∧
    plan.lookedAt < finished + InMemoryStepMemo.ttl policy outcome ∧
    running[j']? = some (plan', driver') ∧
    Feeds keyed plan p spec deps bytes ∧ Feeds keyed plan' p' spec' deps' bytes' ∧
    blake3 bytes = blake3 bytes' ∧
    (bytes = bytes' → WholeTimeout spec → WholeTimeout spec' →
      Sizes keyed plan.ctx plan.tree spec → Sizes keyed plan'.ctx plan'.tree spec' →
      spec.needs.length < 256 ^ 8 → spec'.needs.length < 256 ^ 8 →
      SameKeyed keyed keyed plan.ctx plan'.ctx plan.tree plan'.tree spec spec' deps deps')

/-- No step is served from memory but on the strength of one that ran. A failure without a node is
one that was remembered. -/
def Honest (policy : MemoPolicy) (running : List (KeyedPlan Tree × Driver)) : Prop :=
  ∀ (j p : ℕ) (plan : KeyedPlan Tree) (driver : Driver) (s : Step),
    running[j]? = some (plan, driver) → driver.job.steps[p]? = some s →
    (s.state = .cached →
      Vouched blake3 keyed policy running plan driver.job.dispatch.tenant p .passed) ∧
    (s.state = .failed → s.nodeId = none →
      Vouched blake3 keyed policy running plan driver.job.dispatch.tenant p .failed)

end Honesty

end HullCi.Control
