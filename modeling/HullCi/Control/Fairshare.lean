/-
**The multi-tenant scheduler: weighted fair queueing with a clamped virtual clock.**

Every step is tagged when it is chosen: `start = max(vft_last, virtual_now − ε)` and
`vft = start + cost / weight`; the smallest finish tag goes next. Completion trues the charge up
against what the step took. Floating-point numbers are read as exact rationals.

A tenant's two class queues are the two fields of `Tenant`; ordered maps iterate by key and hashed
maps in table order. The scheduler has no clock of its own: every operation is handed one.
-/

import Mathlib.Data.Rat.Defs
import Mathlib.Algebra.Order.Field.Rat
import HullCi.Control.Model

namespace HullCi.Control

open HullCi.Proto HullCi.Base

/-! ### Configuration -/

/-- `Duration::as_secs_f64`, exactly. -/
def asSecs (d : Duration) : ℚ := d / 1000000000

/-- The window the node-minute quota is measured over. -/
def rollingWindow : Duration := fromSecs 3600

/-- How many recent runs of one step key the estimate is taken over. -/
def costSamples : ℕ := 16

/-- How many distinct step names one tenant may hold cost history for. -/
def costKeysPerTenant : ℕ := 1024

/-- Floor on a step's estimated cost, in seconds. -/
def minCostSecs : ℚ := 1 / 1000

/-- Which of a tenant's steps is served first. -/
inductive Priority
  | interactive
  | background
  deriving DecidableEq, Repr

/-- One tenant's slice of the fleet. -/
structure TenantPlan where
  weight : ℚ := 1
  maxRunningSteps : ℕ := 16
  nodeMinutesPerHour : ℚ := 1200
  deriving DecidableEq

/-- The weight, made safe to divide by. -/
def TenantPlan.safeWeight (p : TenantPlan) : ℚ :=
  if 0 < p.weight then p.weight else 1

/-- How this control plane divides its fleet. -/
structure FairShare where
  defaultPlan : TenantPlan := {}
  plans : Table String TenantPlan := ∅
  fleetSlots : Option ℕ := none
  defaultCost : Duration := fromSecs 60
  idleCredit : Duration := fromSecs 60
  prioritizer : Dispatch → Priority := fun _ => .interactive

def FairShare.plan (cfg : FairShare) (tenant : String) : TenantPlan :=
  (cfg.plans.lookup tenant).getD cfg.defaultPlan

def FairShare.weight (cfg : FairShare) (tenant : String) : ℚ :=
  (cfg.plan tenant).safeWeight

/-! ### State -/

/-- A step the scheduler has chosen. -/
structure Grant where
  jobId : JobId
  stepId : StepId
  tenant : String
  deriving DecidableEq, Repr

/-- One tenant's view of its own queue. -/
structure Depth where
  queued : ℕ
  running : ℕ
  deriving DecidableEq, Repr

/-- Which plan caps a tenant is over. -/
structure Admission where
  overConcurrency : Bool := false
  overNodeMinutes : Bool := false
  deriving DecidableEq, Repr

def Admission.blocked (a : Admission) : Bool :=
  a.overConcurrency || a.overNodeMinutes

/-- What the control plane saw when it last looked at one step. -/
structure StepView where
  stepId : StepId
  name : String
  state : StepState
  startedAt : Option Instant
  finishedAt : Option Instant
  deriving DecidableEq, Repr

/-- One job's steps, as observed. -/
structure JobView where
  jobId : JobId
  tenant : String
  priority : Priority
  steps : List StepView
  deriving DecidableEq, Repr

/-- A step waiting for its turn, with its estimated cost. -/
structure Waiting where
  jobId : JobId
  stepId : StepId
  cost : ℚ
  deriving DecidableEq

/-- Where one step sits: queued without `since`, running from that instant with one. -/
structure Placement where
  name : String
  since : Option Instant
  charged : Option ℚ
  deriving DecidableEq

/-- What the scheduler holds for one job. -/
structure JobMeta where
  tenant : String
  priority : Priority
  steps : Table StepId Placement
  deriving DecidableEq

/-- One tenant's position in the fair order, its class queues and its consumption. -/
structure Tenant where
  vftLast : ℚ := 0
  interactive : List Waiting := []
  background : List Waiting := []
  running : Table (JobId × StepId) Instant := ∅
  ledger : List (Instant × Duration) := []
  deriving DecidableEq

/-- The scheduler. -/
structure FairQueue where
  cfg : FairShare
  virtualNow : ℚ
  tenants : Table String Tenant
  jobs : Table JobId JobMeta
  costs : Table (String × String) (List ℚ)
  costKeys : Table String (List String)

def FairQueue.new (cfg : FairShare) : FairQueue where
  cfg := cfg
  virtualNow := 0
  tenants := ∅
  jobs := ∅
  costs := ∅
  costKeys := ∅

namespace Tenant

/-- `push_back` on the queue of a class. -/
def push (t : Tenant) (w : Waiting) : Priority → Tenant
  | .interactive => { t with interactive := t.interactive ++ [w] }
  | .background => { t with background := t.background ++ [w] }

/-- Which class a tenant's next step comes from. -/
def headClass (t : Tenant) : Option Priority :=
  if t.interactive ≠ [] then some .interactive
  else if t.background ≠ [] then some .background
  else none

/-- A tenant's next step: the oldest interactive one, else the oldest background one. -/
def head (t : Tenant) : Option Waiting :=
  match t.headClass with
  | some .interactive => t.interactive.head?
  | some .background => t.background.head?
  | none => none

/-- `pop_front` on the queue of the head's class. -/
def pop (t : Tenant) : Tenant :=
  match t.headClass with
  | some .interactive => { t with interactive := t.interactive.tail }
  | some .background => { t with background := t.background.tail }
  | none => t

/-- Node-seconds spent inside the rolling window, finished work plus work in flight. -/
def nodeSeconds (t : Tenant) (now : Instant) : ℚ :=
  ((t.ledger.filter fun e => now - e.1 < rollingWindow).map fun e => asSecs e.2).sum
    + (t.running.values.map fun since => asSecs (now - since)).sum

def overConcurrency (t : Tenant) (plan : TenantPlan) : Bool :=
  plan.maxRunningSteps ≤ t.running.size

def overNodeMinutes (t : Tenant) (plan : TenantPlan) (now : Instant) : Bool :=
  plan.nodeMinutesPerHour * 60 ≤ t.nodeSeconds now

end Tenant

namespace FairQueue

/-- Where a step sits, if the scheduler accounts for it. -/
def placement (q : FairQueue) (jobId : JobId) (stepId : StepId) : Option Placement :=
  (q.jobs.lookup jobId).bind fun m => m.steps.lookup stepId

/-- A step is queued: accounted for and not running. -/
def isWaiting (q : FairQueue) (jobId : JobId) (stepId : StepId) : Bool :=
  (q.placement jobId stepId).any (·.since.isNone)

/-! ### Bookkeeping primitives -/

/-- The median of what a step key has cost its tenant, or the configured default. -/
def estimate (q : FairQueue) (tenant stepName : String) : ℚ :=
  let samples := (q.costs.lookup (tenant, stepName)).getD []
  let sorted := samples.insertionSort (· ≤ ·)
  max (sorted[sorted.length / 2]?.getD (asSecs q.cfg.defaultCost)) minCostSecs

/-- Drop the oldest names, with their histories, until the bound holds. -/
def boundNames (tenant : String) (names : List String) (costs : Table (String × String) (List ℚ)) :
    List String × Table (String × String) (List ℚ) :=
  let extra := names.length - costKeysPerTenant
  (names.drop extra, (names.take extra).foldl (fun costs name => costs.erase (tenant, name)) costs)

def observeCost (q : FairQueue) (tenant stepName : String) (ran : Duration) : FairQueue :=
  let q := if (q.costs.lookup (tenant, stepName)).isSome then q
    else
      let names := (q.costKeys.lookup tenant).getD [] ++ [stepName]
      let (names, costs) := boundNames tenant names q.costs
      { q with costKeys := q.costKeys.insert tenant names, costs := costs }
  let samples := (q.costs.lookup (tenant, stepName)).getD [] ++ [asSecs ran]
  { q with costs :=
      q.costs.insert (tenant, stepName) (samples.drop (samples.length - costSamples)) }

/-- Record which tenant and class a job's steps belong to; the tenant is never re-read. -/
def admitJob (q : FairQueue) (jobId : JobId) (tenant : String) (priority : Priority) : FairQueue :=
  { q with
    tenants := q.tenants.insertNew tenant {}
    jobs := (q.jobs.insertNew jobId ⟨tenant, priority, ∅⟩).modify jobId
      fun m => { m with priority := priority } }

/-- Put a schedulable step in its tenant's queue; a step already accounted for is left alone. -/
def enqueue (q : FairQueue) (jobId : JobId) (stepId : StepId) (stepName : String) : FairQueue :=
  match q.jobs.lookup jobId with
  | none => q
  | some m =>
    if (m.steps.lookup stepId).isSome then q
    else
      let waiting : Waiting := ⟨jobId, stepId, q.estimate m.tenant stepName⟩
      { q with
        jobs := q.jobs.insert jobId { m with steps := m.steps.insert stepId ⟨stepName, none, none⟩ }
        tenants := (q.tenants.insertNew m.tenant {}).modify m.tenant (·.push waiting m.priority) }

/-- What completion does to the tenant: free the slot, pay, and true the charge up. -/
def settleUp (jobId : JobId) (stepId : StepId) (at' : Instant) (ran : Duration)
    (charged : Option ℚ) (weight : ℚ) (t : Tenant) : Tenant :=
  { t with
    running := t.running.erase (jobId, stepId)
    ledger := t.ledger ++ [(at', ran)]
    vftLast := match charged with
      | none => t.vftLast
      | some charged => t.vftLast + (asSecs ran - charged) / weight }

def unplace (q : FairQueue) (jobId : JobId) (stepId : StepId) (at' : Instant) (learn : Bool) :
    FairQueue :=
  match q.jobs.lookup jobId with
  | none => q
  | some m =>
    match m.steps.lookup stepId with
    | none => q
    | some placement =>
      let q := { q with jobs := q.jobs.insert jobId { m with steps := m.steps.erase stepId } }
      match placement.since with
      | none => q
      | some since =>
        let ran := at' - since
        let settled := settleUp jobId stepId at' ran placement.charged (q.cfg.weight m.tenant)
        let q := { q with tenants := q.tenants.modify m.tenant settled }
        if learn then q.observeCost m.tenant placement.name ran else q

/-- Stop accounting for a step that did not run to completion: it pays, and teaches nothing. -/
def release (q : FairQueue) (jobId : JobId) (stepId : StepId) (at' : Instant) : FairQueue :=
  q.unplace jobId stepId at' false

/-- The same for a step that ran to completion: it teaches the estimator what it cost. -/
def finish (q : FairQueue) (jobId : JobId) (stepId : StepId) (at' : Instant) : FairQueue :=
  q.unplace jobId stepId at' true

/-- Hand a granted step back to the tail of its class, without a refund. -/
def requeue (q : FairQueue) (jobId : JobId) (stepId : StepId) (stepName : String)
    (at' : Instant) : FairQueue :=
  (q.release jobId stepId at').enqueue jobId stepId stepName

/-- Drop everything held for a job that has reached a verdict. -/
def forgetJob (q : FairQueue) (jobId : JobId) (at' : Instant) : FairQueue :=
  match q.jobs.lookup jobId with
  | none => q
  | some m =>
    let q := m.steps.keys.foldl (fun q stepId => q.release jobId stepId at') q
    { q with jobs := q.jobs.erase jobId }

/-- Adopt a step the fleet is already running. -/
def adopt (q : FairQueue) (jobId : JobId) (stepId : StepId) (name : String) (since : Instant) :
    FairQueue :=
  match q.jobs.lookup jobId with
  | none => q
  | some m =>
    { q with
      jobs := q.jobs.insert jobId { m with
        steps := m.steps.insert stepId ⟨name, some since, none⟩ }
      tenants := (q.tenants.insertNew m.tenant {}).modify m.tenant fun t =>
        { t with running := t.running.insert (jobId, stepId) since } }

/-- Whether the scheduler holds the step, and whether it holds it as running. -/
def held (q : FairQueue) (jobId : JobId) (stepId : StepId) : Option Bool :=
  (q.placement jobId stepId).map (·.since.isSome)

/-- One observed step of `reconcile`. -/
def reconcileStep (jobId : JobId) (now : Instant) (q : FairQueue) (step : StepView) : FairQueue :=
  match step.state, q.held jobId step.stepId with
  | .ready, none => q.enqueue jobId step.stepId step.name
  | .ready, some true => q.requeue jobId step.stepId step.name now
  | .leased, some true | .running, some true => q
  | .leased, _ | .running, _ =>
    (q.release jobId step.stepId now).adopt jobId step.stepId step.name (step.startedAt.getD now)
  | .passed, some _ | .failed, some _ => q.finish jobId step.stepId (step.finishedAt.getD now)
  | .errored, some _ | .cached, some _ | .skipped, some _ =>
    q.release jobId step.stepId (step.finishedAt.getD now)
  | _, _ => q

/-- Bring the accounting in line with what one job's steps actually are. -/
def reconcile (q : FairQueue) (view : JobView) (now : Instant) : FairQueue :=
  view.steps.foldl (reconcileStep view.jobId now)
    (q.admitJob view.jobId view.tenant view.priority)

/-! ### Selection -/

def inFlight (q : FairQueue) : ℕ :=
  (q.tenants.values.map fun t => t.running.size).sum

/-- Forget ledger entries older than the window, from the front. -/
def pruneLedgers (q : FairQueue) (now : Instant) : FairQueue :=
  { q with tenants := q.tenants.mapValues fun t =>
    { t with ledger := t.ledger.dropWhile fun e => !decide (now - e.1 < rollingWindow) } }

/-- Discard queue entries at the front whose step is no longer waiting. -/
def dropStaleHeads (q : FairQueue) : FairQueue :=
  let stale := fun w : Waiting => !q.isWaiting w.jobId w.stepId
  { q with tenants := q.tenants.mapValues fun t =>
    { t with
      interactive := t.interactive.dropWhile stale
      background := t.background.dropWhile stale } }

def admissible (q : FairQueue) (name : String) (t : Tenant) (now : Instant) : Bool :=
  !t.overConcurrency (q.cfg.plan name) && !t.overNodeMinutes (q.cfg.plan name) now

/-- The idle-credit clamp: no start tag lies below this. -/
def floor (q : FairQueue) : ℚ :=
  q.virtualNow - asSecs q.cfg.idleCredit

/-- A tenant's bid: its start and finish tags, when it has a head and is admissible. -/
def bid (q : FairQueue) (now : Instant) (name : String) (t : Tenant) : Option (ℚ × ℚ) :=
  match t.head with
  | none => none
  | some w =>
    if q.admissible name t now then
      let start := max t.vftLast q.floor
      some (start, start + w.cost / q.cfg.weight name)
    else none

/-- Keep the better of two bids; ties go to the earlier tenant. -/
def better (now : Instant) (q : FairQueue) (best : Option (String × ℚ × ℚ))
    (e : Sigma fun _ : String => Tenant) : Option (String × ℚ × ℚ) :=
  match q.bid now e.1 e.2, best with
  | none, best => best
  | some (start, vft), none => some (e.1, start, vft)
  | some (start, vft), some (name, start', vft') =>
    if vft < vft' then some (e.1, start, vft) else some (name, start', vft')

/-- The admissible tenant whose head tags smallest: its name, start tag and finish tag. -/
def best (q : FairQueue) (now : Instant) : Option (String × ℚ × ℚ) :=
  q.tenants.sorted.foldl (q.better now) none

/-- `pop_head`: the head of a tenant's queue, and the queue without it. -/
def popHead (q : FairQueue) (name : String) : Option (Waiting × FairQueue) :=
  match q.tenants.lookup name with
  | none => none
  | some t => t.head.map fun w => (w, { q with tenants := q.tenants.insert name t.pop })

/-- Charge a tenant for the step it was granted and start the step's clock. -/
def charge (q : FairQueue) (now : Instant) (tenant : String) (start vft : ℚ) (w : Waiting) :
    FairQueue :=
  let charged := (vft - start) * q.cfg.weight tenant
  { q with
    tenants := q.tenants.modify tenant fun t =>
      { t with vftLast := vft, running := t.running.insert (w.jobId, w.stepId) now }
    virtualNow := max q.virtualNow start
    jobs := q.jobs.modify w.jobId fun m => { m with
      steps := m.steps.modify w.stepId fun p =>
        { p with since := some now, charged := some charged } } }

/-- One turn of the selection loop. -/
def selectOne (q : FairQueue) (now : Instant) : FairQueue × Option Grant :=
  let q := q.dropStaleHeads
  match q.best now with
  | none => (q, none)
  | some (tenant, start, vft) =>
    match q.popHead tenant with
    | none => (q, none)
    | some (w, q) => (q.charge now tenant start vft w, some ⟨w.jobId, w.stepId, tenant⟩)

/-- The selection loop, on its remaining budget. -/
def selectLoop (now : Instant) : ℕ → FairQueue → FairQueue × List Grant
  | 0, q => (q, [])
  | budget + 1, q =>
    match q.selectOne now with
    | (q, none) => (q, [])
    | (q, some grant) =>
      let (q, grants) := selectLoop now budget q
      (q, grant :: grants)

/-- How many steps one call may grant: the free slots, or `usize::MAX`. -/
def budget (q : FairQueue) : ℕ :=
  match q.cfg.fleetSlots with
  | some total => total - q.inFlight
  | none => 2 ^ 64 - 1

/-- Choose the steps to dispatch now, smallest finish tag first. -/
def select (q : FairQueue) (now : Instant) : FairQueue × List Grant :=
  let q := q.pruneLedgers now
  selectLoop now q.budget q

/-! ### Introspection -/

/-- How much work one tenant has waiting and in flight. -/
def depth (q : FairQueue) (tenant : String) : Depth :=
  match q.tenants.lookup tenant with
  | none => ⟨0, 0⟩
  | some t =>
    ⟨(t.interactive ++ t.background).countP fun w => q.isWaiting w.jobId w.stepId, t.running.size⟩

/-- Which caps a tenant is currently over. -/
def admission (q : FairQueue) (tenant : String) (now : Instant) : Admission :=
  match q.tenants.lookup tenant with
  | none => {}
  | some t =>
    ⟨t.overConcurrency (q.cfg.plan tenant), t.overNodeMinutes (q.cfg.plan tenant) now⟩

end FairQueue

end HullCi.Control
