/-
**The control plane, section by section.**

Every method of the control plane is cut at its locks: one step runs one lock-protected section, or
waits for one answer from outside. A `Frame` is a method at one of these points, with the values it
holds there. What the outside answers at a step, clocks included, is the step's `Env`; clocks are not
assumed to agree with each other.

The process runs on the process-local claim store, so no heartbeat is spawned and no fence moves.
Wakers, log lines and the progress of a delivery in flight decide nothing here and are left out: a
driver may fold again at any time.
-/

import HullCi.Control.Phases
import HullCi.Control.Fairshare
import HullCi.Control.Claims
import HullCi.Control.Store
import HullCi.Control.Journal

namespace HullCi.System

open HullCi.Proto HullCi.Base HullCi.Control

/-! ### State -/

structure ControlConfig where
  secret : Option String := none
  timeouts : Timeouts := {}
  retry : RetryPolicy := {}
  tier : IsolationTier := .container
  leaseTtl : Duration := fromSecs 30
  detailsBaseUrl : Option String := none
  jobRetention : Duration := fromSecs 3600
  maxJobs : ℕ := 10000
  redeliverMaxPerAccept : ℕ := 2
  redeliverInterval : Duration := fromSecs 60
  fairShare : FairShare := {}

/-- A tree the fetch broker has materialized. -/
structure VerifiedTree where
  treeId : String
  path : String := ""
  deriving DecidableEq, Repr

structure Control where
  config : ControlConfig
  jobs : JobStore
  queue : FairQueue
  trees : Table JobId VerifiedTree
  leases : Leases
  claims : LocalClaims
  journal : Journal

def Control.new (config : ControlConfig) : Control where
  config := config
  jobs := .new
  queue := .new config.fairShare
  trees := ∅
  leases := .new
  claims := .new
  journal := .new

/-- What is posted to one destination. -/
structure CallbackRequest where
  url : String
  secret : Option String
  verdict : Verdict
  jobId : JobId
  deriving DecidableEq

/-- What the outside answers at one step. A fetch that answers `none` timed out. -/
structure Env where
  now : Instant := 0
  nowMs : ℤ := 0
  nowUnix : ℕ := 0
  proposed : JobId
  journaled : Bool := true
  fetched : Option (Except String VerifiedTree) := none
  planned : Except String (List StepSpec) := .ok []
  decisions : List MemoDecision := []
  noise : ℕ → BitVec 32 := fun _ => 0
  assigned : Except NodeError String := .error .noCapacity
  posted : Option ℕ := none

/-- How an accepted dispatch continues, once the claim has spoken. -/
inductive AcceptNext
  | drive
  | attachedHere
  | attachedElsewhere
  | reReport
  deriving DecidableEq, Repr

/-- What a step lets an observer see. -/
inductive Obs
  | attached (jobId : JobId) (url : String)
  | acked (jobId : JobId) (url : String) (next : AcceptNext)
  | refused (url : String)
  | decided (jobId : JobId) (verdict : Verdict)
  | surveyed (jobId : JobId) (urls : List String)
  | posted (req : CallbackRequest) (success : Bool)
  | journaled (intent : JobIntent)
  | forgot (jobId : JobId)
  | offered (jobId : JobId) (stepId : StepId)
  | assigned (jobId : JobId) (stepId : StepId)
  | leased (jobId : JobId) (stepId : StepId)
  | cancelled (jobId : JobId) (stepId : StepId)
  | reported (jobId : JobId) (stepId : StepId)
  deriving DecidableEq

/-! ### Frames -/

/-- `accept`, between two of its sections. -/
inductive AcceptAt
  | evict
  | forgetEvicted (ids : List JobId)
  | admission
  | insertLease (lease : DriveLease)
  | insertRecord (jobId : JobId)
  | attach (jobId : JobId) (verdict : Option Verdict)
  | foreign (jobId : JobId) (verdict : Verdict)
  | snapshot (jobId : JobId) (next : AcceptNext)
  | record (intent : JobIntent) (next : AcceptNext)
  | rollbackRecord (jobId : JobId)
  | rollbackLease (jobId : JobId)
  | rollbackClaim (jobId : JobId)
  | start (jobId : JobId) (next : AcceptNext)
  | scan (jobId : JobId) (next : AcceptNext)
  | drain (jobId : JobId) (next : AcceptNext) (now : Instant) (due : List JobId)
  deriving DecidableEq

structure Accept where
  dispatch : Dispatch
  authorClass : AuthorClass
  now : Instant
  pc : AcceptAt
  deriving DecidableEq

/-- `report`, between two of its sections. -/
inductive ReportAt
  | destinations
  | merge (urls : List String)
  | read
  | post (req : CallbackRequest) (attempt : ℕ) (rest : List CallbackRequest)
  | settle
  | forget
  | release
  deriving DecidableEq

structure Report where
  attempted : List String := []
  attemptsTotal : ℕ := 0
  anyDelivered : Bool := false
  pc : ReportAt := .destinations
  deriving DecidableEq

/-- `finish`, between two of its sections. -/
inductive FinishAt
  | record (verdict : Verdict)
  | decided
  | lease (decided : Option Verdict)
  | settle (lease : DriveLease) (verdict : Verdict)
  | snapshot (decided : Option Verdict)
  | journal (intent : JobIntent)
  | retire
  | claim
  deriving DecidableEq

/-- `retire`, between two of its sections. -/
inductive RetireAt
  | tree
  | lease
  | queue
  deriving DecidableEq

/-- `cancel_steps`, between two of its sections. -/
inductive CancelAt
  | check (ids : List StepId)
  | send (id : StepId) (rest : List StepId)
  | skip (id : StepId) (rest : List StepId)
  deriving DecidableEq

/-- `drive` and the phases it calls, between two of their sections. -/
inductive DriveAt
  | start
  | fetching (dispatch : Dispatch)
  | fetch (dispatch : Dispatch)
  | planning (tree : VerifiedTree)
  | plan (tree : VerifiedTree)
  | publish (tree : VerifiedTree) (specs : List StepSpec)
  | context (specs : List StepSpec)
  | install (specs : List StepSpec)
  | pass
  | timedOut
  | cancel (cancelling : CancelAt) (verdict : Verdict)
  | retire
  deriving DecidableEq

/-- A grant with what the fleet needs to run it. -/
structure Ticket where
  grant : Grant
  assignment : Assignment
  tree : VerifiedTree
  deriving DecidableEq

/-- Which of `pump`'s calls to `FairQueue::release` is next. -/
inductive ReleaseSite
  | unrunnable
  | noLease
  | taken
  | fenced
  | settled
  deriving DecidableEq, Repr

/-- `pump`, between two of its sections. -/
inductive PumpAt
  | select
  | next (grants : List Grant)
  | assignment (grant : Grant) (tree : VerifiedTree) (rest : List Grant)
  | lease (ticket : Ticket) (rest : List Grant)
  | claim (ticket : Ticket) (lease : DriveLease) (rest : List Grant)
  | fence (grant : Grant) (rest : List Grant)
  | assign (ticket : Ticket) (lease : DriveLease) (rest : List Grant)
  | releaseStep (ticket : Ticket) (lease : DriveLease) (rest : List Grant)
  | requeue (ticket : Ticket) (rest : List Grant)
  | settle (ticket : Ticket) (result : Except NodeError String) (rest : List Grant)
  | release (grant : Grant) (site : ReleaseSite) (at' : Instant) (rest : List Grant)

structure Pump where
  onBehalfOf : Option JobId
  now : Instant := 0
  pc : PumpAt := .select

/-- A method of the control plane in progress. -/
inductive Frame
  | accept (a : Accept)
  | drive (jobId : JobId) (pc : DriveAt)
  | finish (jobId : JobId) (pc : FinishAt)
  | retire (jobId : JobId) (pc : RetireAt)
  | report (jobId : JobId) (r : Report)
  | pump (p : Pump)
  | recordStepReport (report : StepReport) (fromNode : String)
  | renewLease (jobId : JobId) (stepId : StepId) (fromNode : String)

/-- What one step leaves: the state, the frames that replace the one that ran, the tasks it spawned,
and what could be seen of it. -/
structure Outcome where
  control : Control
  push : List Frame := []
  spawned : List Frame := []
  observed : List Obs := []

/-! ### The small sections -/

/-- `Duration::as_millis() as i64`. -/
def asMillis (d : Duration) : ℤ :=
  Int.bmod ((d / 1000000 : ℕ) : ℤ) (2 ^ 64)

/-- `str::eq_ignore_ascii_case`. -/
def eqIgnoreAsciiCase (a b : String) : Bool :=
  a.toList.map Char.toLower = b.toList.map Char.toLower

/-- `trim_end_matches('/')`. -/
def trimEndSlashes (s : String) : String :=
  String.ofList (s.toList.reverse.dropWhile (· = '/')).reverse

/-- The link to a job's page, when the deployment has a base for it. -/
def detailsUrl (config : ControlConfig) (jobId : JobId) : Option String :=
  config.detailsBaseUrl.map fun base => trimEndSlashes base ++ "/jobs/" ++ jobId

/-- `job_view`. -/
def jobView (job : Job) (cfg : FairShare) : JobView where
  jobId := job.id
  tenant := job.dispatch.tenant
  priority := cfg.prioritizer job.dispatch
  steps := job.steps.map fun s => ⟨s.id, s.spec.name, s.state, s.startedAt, s.finishedAt⟩

/-- A delivery claim taken on the record. -/
def deliveringSince (now : Instant) (job : Job) : Job :=
  { job with delivering := true, lastDeliveryAt := some now }

/-- A delivery claim given back. -/
def deliveredAt (now : Instant) (job : Job) : Job :=
  { job with delivering := false, lastDeliveryAt := some now }

/-- What `record_foreign_verdict` writes on the record. -/
def foreignVerdict (v : Verdict) (now : Instant) (job : Job) : Job :=
  { job with state := .fromStatus v.status, verdict := some v, settledAt := some now }

/-- Record every destination of a list. -/
def addCallbackUrls (urls : List String) (job : Job) : Job :=
  urls.foldl Job.addCallbackUrl job

theorem deliveringSince_id (now : Instant) (job : Job) : (deliveringSince now job).id = job.id := rfl

theorem deliveredAt_id (now : Instant) (job : Job) : (deliveredAt now job).id = job.id := rfl

theorem foreignVerdict_id (v : Verdict) (now : Instant) (job : Job) :
    (foreignVerdict v now job).id = job.id := rfl

theorem passJob_id (t : Timeouts) (now : Instant) (job : Job) :
    (passJob t now job).1.id = job.id := rfl

theorem skipStep_id (id : StepId) (job : Job) : (skipStep id job).id = job.id := rfl

theorem addCallbackUrl_id (job : Job) (url : String) : (job.addCallbackUrl url).id = job.id := by
  unfold Job.addCallbackUrl
  split <;> rfl

theorem addCallbackUrls_id (urls : List String) (job : Job) :
    (addCallbackUrls urls job).id = job.id := by
  unfold addCallbackUrls
  induction urls generalizing job with
  | nil => rfl
  | cons url rest ih => rw [List.foldl_cons, ih, addCallbackUrl_id]

theorem addCallbackUrls_eq (urls : List String) (job : Job) :
    addCallbackUrls urls job =
      { job with callbackUrls := (addCallbackUrls urls job).callbackUrls } := by
  unfold addCallbackUrls
  induction urls generalizing job with
  | nil => rfl
  | cons url rest ih =>
    rw [List.foldl_cons, ih]
    unfold Job.addCallbackUrl
    split <;> rfl

theorem mem_addCallbackUrls {urls : List String} {job : Job} {u : String} :
    u ∈ (addCallbackUrls urls job).callbackUrls ↔ u ∈ job.callbackUrls ∨ u ∈ urls := by
  unfold addCallbackUrls
  induction urls generalizing job with
  | nil => simp
  | cons url rest ih =>
    rw [List.foldl_cons, ih, Job.mem_addCallbackUrl, List.mem_cons, or_assoc]

theorem recordVerdict_id (v : Verdict) (now : Instant) (job : Job) :
    (recordVerdict v now job).1.id = job.id := by
  unfold recordVerdict
  split
  · rfl
  · exact job.tryTransitionAt_id _ _

theorem settleAssignment_id (t : Timeouts) (ttl : Duration) (now : Instant) (id : StepId)
    (result : Except NodeError String) (job : Job) :
    (settleAssignment t ttl now id result job).1.id = job.id := by
  rcases settleAssignment_cases t ttl now id result job with same | ⟨s, s', -, -, -, same⟩
  · rw [same]
  · rw [same]
    rfl

theorem installPlan_id (now : Instant) (noise : ℕ → BitVec 32) (specs : List StepSpec)
    (decisions : List MemoDecision) (job : Job) :
    (installPlan now noise specs decisions job).id = job.id :=
  job.tryTransitionAt_id _ _

theorem settleReport_id (attempts : ℕ) (delivered : Bool) (now : Instant) (job : Job) :
    (settleReport attempts delivered now job).id = job.id :=
  Job.tryTransitionAt_id _ _ _

namespace Control

/-- `with_job_mut`: a section on one record, if it is held. -/
def withJobMut (c : Control) (jobId : JobId) (f : Job → Job)
    (keeps : ∀ job, (f job).id = job.id) : Control :=
  { c with jobs := c.jobs.modify jobId f keeps }

/-- `claim_delivery`: whether the record was there and nobody delivers it. -/
def claimDelivery (c : Control) (jobId : JobId) (now : Instant) : Control × Bool :=
  match c.jobs.get jobId with
  | none => (c, false)
  | some job =>
    if job.delivering then (c, false)
    else (c.withJobMut jobId (deliveringSince now) (deliveringSince_id now), true)

/-- `claim_delivery_if_parked`. -/
def claimDeliveryIfParked (c : Control) (jobId : JobId) (now : Instant) : Control × Bool :=
  match c.jobs.get jobId with
  | none => (c, false)
  | some job =>
    if job.awaitsRedelivery now c.config.redeliverInterval then
      (c.withJobMut jobId (deliveringSince now) (deliveringSince_id now), true)
    else (c, false)

/-- The snapshot `journal_record` takes of the record as it stands. -/
def intentOf (c : Control) (jobId : JobId) (verdict : Option Verdict) (nowUnix : ℕ) :
    Option JobIntent :=
  (c.jobs.get jobId).map fun job =>
    ⟨job.id, job.dispatch.repo, job.dispatch.treeId, job.callbackUrls, nowUnix, verdict⟩

/-- `set_state`: an illegal transition is logged and ignored. -/
def setState (c : Control) (jobId : JobId) (next : JobState) (now : Instant) : Control :=
  c.withJobMut jobId (·.tryTransitionAt next now) fun job => job.tryTransitionAt_id next now

/-- What the fleet needs to run one step of a job. -/
def assignmentFor (c : Control) (grant : Grant) : Option Assignment :=
  (c.jobs.get grant.jobId).bind fun job => (job.step grant.stepId).map fun step =>
    { jobId := job.id
      stepId := step.id
      stepName := step.spec.name
      tenant := job.dispatch.tenant
      repo := job.dispatch.repo
      treeId := job.dispatch.treeId
      argv := step.spec.argv
      secrets := step.spec.secrets
      image := step.spec.image
      tier := c.config.tier
      authorClass := job.authorClass
      timeoutSecs := c.config.timeouts.stepTimeout step.spec.timeout / 1000000000
      leaseSecs := c.config.leaseTtl / 1000000000 }

/-- The jobs `drain_undelivered` may retry, oldest debt first, up to the bound. -/
def undelivered (c : Control) (justAdmitted : JobId) (now : Instant) : List JobId :=
  let due := ((c.jobs.iter.filter fun job =>
      job.id ≠ justAdmitted ∧ job.awaitsRedelivery now c.config.redeliverInterval = true).map
    fun job => (job.lastDeliveryAt.getD job.createdAt, job.id)).insertionSort fun a b => a.1 ≤ b.1
  (due.take c.config.redeliverMaxPerAccept).map (·.2)

end Control

/-! ### The methods -/

/-- `accept` at another of its points. -/
def Accept.goto (a : Accept) (pc : AcceptAt) : List Frame :=
  [.accept { a with pc := pc }]

/-- `Control::accept`, with `record_foreign_verdict`, `journal_record` and `drain_undelivered`. -/
def Accept.step (env : Env) (c : Control) (a : Accept) : Outcome :=
  match a.pc with
  | .evict =>
    let (jobs, evicted) := c.jobs.evict a.now c.config.jobRetention c.config.maxJobs
    { control := { c with jobs := jobs }, push := a.goto (.forgetEvicted evicted) }
  | .forgetEvicted [] => { control := c, push := a.goto .admission }
  | .forgetEvicted (id :: ids) =>
    { control := { c with claims := c.claims.forget id }, push := a.goto (.forgetEvicted ids) }
  | .admission =>
    let (claims, admission) := c.claims.admitDispatch ⟨a.dispatch.repo, a.dispatch.treeId⟩ env.proposed
      a.dispatch.callbackUrl env.nowMs (asMillis c.config.jobRetention)
    let c := { c with claims := claims }
    match admission with
    | .created lease => { control := c, push := a.goto (.insertLease lease) }
    | .attached jobId _ verdict => { control := c, push := a.goto (.attach jobId verdict) }
  | .insertLease lease =>
    { control := { c with leases := c.leases.insert lease }
      push := a.goto (.insertRecord lease.jobId) }
  | .insertRecord jobId =>
    let jobs := c.jobs.insert jobId a.dispatch a.authorClass a.now c.config.timeouts.job
    { control := { c with jobs := jobs }, push := a.goto (.snapshot jobId .drive) }
  | .attach jobId verdict =>
    let url := a.dispatch.callbackUrl
    let attached := c.withJobMut jobId (·.addCallbackUrl url) fun job => addCallbackUrl_id job url
    let seen := [Obs.attached jobId url]
    match c.jobs.get jobId, verdict with
    | some job, _ =>
      let next := if job.state.isFinished ∧ job.verdict.isSome then AcceptAt.start jobId .reReport
        else .snapshot jobId .attachedHere
      { control := attached, push := a.goto next, observed := seen }
    | none, some v => { control := c, push := a.goto (.foreign jobId v), observed := seen }
    | none, none =>
      { control := c, push := a.goto (.start jobId .attachedElsewhere), observed := seen }
  | .foreign jobId v =>
    let jobs := c.jobs.insert jobId a.dispatch a.authorClass a.now c.config.timeouts.job
    { control := { c with jobs := jobs.modify jobId (foreignVerdict v a.now) (foreignVerdict_id v a.now) }
      push := a.goto (.start jobId .reReport) }
  | .snapshot jobId next =>
    match c.intentOf jobId none env.nowUnix with
    -- A job that is no longer in the store is not an error.
    | none => { control := c, push := a.goto (.start jobId next) }
    | some intent => { control := c, push := a.goto (.record intent next) }
  | .record intent next =>
    if env.journaled then
      { control := { c with journal := c.journal.record intent }
        push := a.goto (.start intent.jobId next), observed := [.journaled intent] }
    else if next = .drive then { control := c, push := a.goto (.rollbackRecord intent.jobId) }
    else { control := c, observed := [.refused a.dispatch.callbackUrl] }
  | .rollbackRecord jobId =>
    { control := { c with jobs := c.jobs.remove jobId }, push := a.goto (.rollbackLease jobId) }
  | .rollbackLease jobId =>
    { control := { c with leases := c.leases.remove jobId }, push := a.goto (.rollbackClaim jobId) }
  | .rollbackClaim jobId =>
    { control := { c with claims := c.claims.forget jobId }
      observed := [.refused a.dispatch.callbackUrl] }
  | .start jobId .drive =>
    { control := c, push := a.goto (.scan jobId .drive), spawned := [.drive jobId .start] }
  | .start jobId .reReport =>
    let (c, claimed) := c.claimDelivery jobId env.now
    { control := c, push := a.goto (.scan jobId .reReport)
      spawned := if claimed then [.report jobId {}] else [] }
  | .start jobId next => { control := c, push := a.goto (.scan jobId next) }
  | .scan jobId next =>
    { control := c, push := a.goto (.drain jobId next env.now (c.undelivered jobId env.now)) }
  | .drain jobId next _ [] =>
    { control := c, observed := [.acked jobId a.dispatch.callbackUrl next] }
  | .drain jobId next now (id :: due) =>
    let (c, claimed) := c.claimDeliveryIfParked id now
    { control := c, push := a.goto (.drain jobId next now due)
      spawned := if claimed then [.report id {}] else [] }

/-- `Control::report`, with `deliver_reporting`. -/
def Report.step (env : Env) (c : Control) (jobId : JobId) (r : Report) : Outcome :=
  match r.pc with
  | .destinations =>
    { control := c, push := [.report jobId { r with pc := .merge (c.claims.destinations jobId) }] }
  | .merge urls =>
    { control := c.withJobMut jobId (addCallbackUrls urls) fun job => addCallbackUrls_id urls job
      push := [.report jobId { r with pc := .read }] }
  | .read =>
    let done : Report := { r with pc := if r.attempted = [] then .release else .settle }
    match c.jobs.get jobId with
    | none => { control := c, push := [.report jobId done] }
    | some job =>
      match job.verdict with
      | none => { control := c, push := [.report jobId done] }
      | some verdict =>
        let reqs := (job.callbackUrls.filter (· ∉ r.attempted)).map fun url =>
          (⟨url, c.config.secret, verdict, job.id⟩ : CallbackRequest)
        let r := match reqs with
          | [] => done
          | req :: rest => { r with
              pc := .post req 1 rest, attempted := r.attempted ++ [req.url] }
        { control := c, push := [.report jobId r], observed := [.surveyed jobId job.callbackUrls] }
  | .post req attempt rest =>
    let seen := [Obs.posted req (env.posted.any isSuccess)]
    match afterPost c.config.retry attempt env.posted with
    | none => { control := c, push := [.report jobId { r with pc := .post req (attempt + 1) rest }]
                observed := seen }
    | some outcome =>
      let r := { r with
        attemptsTotal := r.attemptsTotal + outcome.attempts
        anyDelivered := r.anyDelivered || outcome.isDelivered }
      let r := match rest with
        | [] => { r with pc := .destinations }
        | req :: rest => { r with
            pc := .post req 1 rest, attempted := r.attempted ++ [req.url] }
      { control := c, push := [.report jobId r], observed := seen }
  | .settle =>
    { control := c.withJobMut jobId (settleReport r.attemptsTotal r.anyDelivered env.now)
        fun job => settleReport_id _ _ _ job
      push := [.report jobId { r with pc := if r.anyDelivered then .forget else .release }] }
  | .forget =>
    { control := { c with journal := c.journal.forget jobId }
      push := [.report jobId { r with pc := .release }], observed := [.forgot jobId] }
  | .release => { control := c.withJobMut jobId (deliveredAt env.now) (deliveredAt_id env.now) }

/-- `Control::finish`. -/
def finishStep (env : Env) (c : Control) (jobId : JobId) (pc : FinishAt) : Outcome :=
  match pc with
  | .record v =>
    let v := linked (detailsUrl c.config jobId) v
    match c.jobs.get jobId with
    | none => { control := c }
    | some job =>
      if (recordVerdict v env.now job).2 then
        { control := c.withJobMut jobId (fun job => (recordVerdict v env.now job).1)
            fun job => recordVerdict_id v env.now job
          push := [.finish jobId .decided], observed := [.decided jobId v] }
      else { control := c }
  | .decided =>
    { control := c, push := [.finish jobId (.lease ((c.jobs.get jobId).bind (·.verdict)))] }
  | .lease decided =>
    match c.leases.get jobId, decided with
    | some lease, some v => { control := c, push := [.finish jobId (.settle lease v)] }
    | _, decided => { control := c, push := [.finish jobId (.snapshot decided)] }
  | .settle lease v =>
    { control := { c with claims := c.claims.settle lease v env.nowMs }
      push := [.finish jobId (.snapshot (some v))] }
  | .snapshot decided =>
    match c.intentOf jobId decided env.nowUnix with
    | none => { control := c, push := [.finish jobId .retire] }
    | some intent => { control := c, push := [.finish jobId (.journal intent)] }
  | .journal intent =>
    if env.journaled then
      { control := { c with journal := c.journal.record intent }
        push := [.finish jobId .retire], observed := [.journaled intent] }
    else { control := c, push := [.finish jobId .retire] }
  | .retire => { control := c, push := [.retire jobId .tree, .finish jobId .claim] }
  | .claim =>
    let (c, claimed) := c.claimDelivery jobId env.now
    { control := c, push := if claimed then [.report jobId {}] else [] }

/-- `Control::retire`. -/
def retireStep (env : Env) (c : Control) (jobId : JobId) : RetireAt → Outcome
  | .tree =>
    { control := { c with trees := c.trees.erase jobId }, push := [.retire jobId .lease] }
  | .lease =>
    { control := { c with leases := c.leases.remove jobId }, push := [.retire jobId .queue] }
  | .queue =>
    { control := { c with queue := c.queue.forgetJob jobId env.now }
      push := [.pump { onBehalfOf := none }] }

/-- `Control::cancel_steps`; no frame is left when every step of the list was dealt with. -/
def cancelStep (c : Control) (jobId : JobId) : CancelAt → Control × Option CancelAt × List Obs
  | .check [] => (c, none, [])
  | .check (id :: rest) =>
    let inFlight := (c.jobs.get jobId).any fun job => (job.step id).any fun s => isLeased s.state
    (c, some (if inFlight then .send id rest else .skip id rest), [])
  | .send id rest => (c, some (.skip id rest), [.cancelled jobId id])
  | .skip id rest =>
    (c.withJobMut jobId (skipStep id) (skipStep_id id), some (.check rest), [])

/-- `drive`, with `phase_fetch`, `phase_plan` and `phase_run`. -/
def driveStep (env : Env) (c : Control) (jobId : JobId) (pc : DriveAt) : Outcome :=
  match pc with
  | .start =>
    match c.jobs.get jobId with
    | none => { control := c }
    | some job => { control := c, push := [.drive jobId (.fetching job.dispatch)] }
  | .fetching dispatch =>
    { control := c.setState jobId .fetching env.now, push := [.drive jobId (.fetch dispatch)] }
  | .fetch dispatch =>
    match env.fetched with
    | none =>
      { control := c, push := [.finish jobId (.record (expiryVerdict .fetch c.config.timeouts.fetch))] }
    | some (.error e) =>
      { control := c, push := [.finish jobId (.record (.errored .infra
          (sanitizeSummary ("could not fetch the source tree: " ++ e) summaryMaxChars)))] }
    | some (.ok tree) =>
      if eqIgnoreAsciiCase tree.treeId (trim dispatch.treeId) then
        { control := c, push := [.drive jobId (.planning tree)] }
      else
        { control := c, push := [.finish jobId (.record (.errored .infra
            "the fetch broker materialized a different tree than the one dispatched"))] }
  | .planning tree =>
    { control := c.setState jobId .planning env.now, push := [.drive jobId (.plan tree)] }
  | .plan tree =>
    match env.planned with
    | .ok [] =>
      match fold [] 0 with
      | .decided d => { control := c, push := [.finish jobId (.record d.verdict)] }
      | .undecided => { control := c }
    | .ok specs => { control := c, push := [.drive jobId (.publish tree specs)] }
    | .error e =>
      { control := c, push := [.finish jobId (.record (.errored .infra
          (sanitizeSummary ("could not plan the job: " ++ e) summaryMaxChars)))] }
  | .publish tree specs =>
    { control := { c with trees := c.trees.insert jobId tree }, push := [.drive jobId (.context specs)] }
  | .context specs =>
    match c.jobs.get jobId with
    | none => { control := c, push := [.drive jobId .retire] }
    | some _ => { control := c, push := [.drive jobId (.install specs)] }
  | .install specs =>
    { control := c.withJobMut jobId (installPlan env.now env.noise specs env.decisions)
        fun job => installPlan_id _ _ _ _ job
      push := [.drive jobId .pass] }
  | .pass =>
    match c.jobs.get jobId with
    | none => { control := c, push := [.drive jobId .retire] }
    | some job =>
      { control := c.withJobMut jobId (fun job => (passJob c.config.timeouts env.now job).1)
          (passJob_id c.config.timeouts env.now)
        push := match (passJob c.config.timeouts env.now job).2 with
          | .decided d => [.drive jobId (.cancel (.check d.cancel) d.verdict)]
          | .jobTimeout => [.drive jobId .timedOut]
          | .wait _ => [.pump { onBehalfOf := some jobId }, .drive jobId .pass] }
  | .timedOut =>
    let ids := ((c.jobs.get jobId).map inFlightSteps).getD []
    { control := c
      push := [.drive jobId (.cancel (.check ids) (expiryVerdict .job c.config.timeouts.job))] }
  | .cancel cancelling v =>
    match cancelStep c jobId cancelling with
    | (c, some cancelling, seen) =>
      { control := c, push := [.drive jobId (.cancel cancelling v)], observed := seen }
    | (c, none, seen) =>
      { control := c, push := [.finish jobId (.record v), .drive jobId .retire], observed := seen }
  | .retire => { control := c, push := [.retire jobId .tree] }

/-- `pump` at another of its points. -/
def Pump.goto (p : Pump) (pc : PumpAt) : List Frame :=
  [.pump { p with pc := pc }]

/-- `Control::pump`, with `assignment_for` and `settle_assignment`. -/
def Pump.step (env : Env) (c : Control) (p : Pump) : Outcome :=
  match p.pc with
  | .select =>
    let job := p.onBehalfOf.bind c.jobs.get
    let queue := match job with
      | some job => c.queue.reconcile (jobView job c.config.fairShare) env.now
      | none => c.queue
    let (queue, grants) := queue.select env.now
    { control := { c with queue := queue }
      push := [.pump { p with now := env.now, pc := .next grants }]
      observed := (job.map fun job =>
        (job.steps.filter (·.state = .ready)).map fun s => Obs.offered job.id s.id).getD [] }
  | .next [] => { control := c }
  | .next (grant :: rest) =>
    match c.trees.lookup grant.jobId with
    | none => { control := c, push := p.goto (.release grant .unrunnable p.now rest) }
    | some tree => { control := c, push := p.goto (.assignment grant tree rest) }
  | .assignment grant tree rest =>
    match c.assignmentFor grant with
    | none => { control := c, push := p.goto (.release grant .unrunnable p.now rest) }
    | some assignment => { control := c, push := p.goto (.lease ⟨grant, assignment, tree⟩ rest) }
  | .lease ticket rest =>
    match c.leases.get ticket.grant.jobId with
    | none => { control := c, push := p.goto (.release ticket.grant .noLease p.now rest) }
    | some lease => { control := c, push := p.goto (.claim ticket lease rest) }
  | .claim ticket lease rest =>
    let (claims, answer) := c.claims.claimStep lease ticket.grant.stepId
    let c := { c with claims := claims }
    match answer with
    | .granted => { control := c, push := p.goto (.assign ticket lease rest) }
    | .taken _ => { control := c, push := p.goto (.release ticket.grant .taken p.now rest) }
    | .fenced _ => { control := c, push := p.goto (.fence ticket.grant rest) }
  | .fence grant rest =>
    { control := { c with leases := c.leases.remove grant.jobId }
      push := p.goto (.release grant .fenced p.now rest) }
  | .assign ticket lease rest =>
    match env.assigned with
    | .error .noCapacity => { control := c, push := p.goto (.releaseStep ticket lease rest) }
    | .ok node =>
      { control := c, push := p.goto (.settle ticket (.ok node) rest)
        observed := [.assigned ticket.grant.jobId ticket.grant.stepId] }
    | result => { control := c, push := p.goto (.settle ticket result rest) }
  | .releaseStep ticket lease rest =>
    { control := { c with claims := c.claims.releaseStep lease ticket.grant.stepId }
      push := p.goto (.requeue ticket rest) }
  | .requeue ticket rest =>
    let queue := c.queue.requeue ticket.grant.jobId ticket.grant.stepId
      ticket.assignment.stepName env.now
    { control := { c with queue := queue }, push := p.goto (.next rest) }
  | .settle ticket result rest =>
    let settled := settleAssignment c.config.timeouts c.config.leaseTtl env.now
      ticket.grant.stepId result
    let moved := (c.jobs.get ticket.grant.jobId).any fun job => (settled job).2
    let rejected := match result with | .error _ => true | .ok _ => false
    { control := c.withJobMut ticket.grant.jobId (fun job => (settled job).1)
        fun job => settleAssignment_id _ _ _ _ _ job
      push := if rejected || !moved then p.goto (.release ticket.grant .settled env.now rest)
        else p.goto (.next rest)
      observed := if moved && !rejected then [.leased ticket.grant.jobId ticket.grant.stepId]
        else [] }
  | .release grant _ at' rest =>
    { control := { c with queue := c.queue.release grant.jobId grant.stepId at' }
      push := p.goto (.next rest) }

/-! ### The node-facing sections -/

/-- A report on the record; a refused one changes nothing. -/
def reported (report : StepReport) (fromNode : String) (now : Instant) (job : Job) : Job :=
  (recordStepReport report fromNode now job).toOption.getD job

/-- A renewal on the record; a refused one changes nothing. -/
def renewed (leaseTtl : Duration) (stepId : StepId) (fromNode : String) (now : Instant)
    (job : Job) : Job :=
  (renewLease leaseTtl stepId fromNode now job).toOption.getD job

theorem reported_id (report : StepReport) (fromNode : String) (now : Instant) (job : Job) :
    (reported report fromNode now job).id = job.id := by
  rcases onStep_cases job report.stepId _ with same | ⟨s, s', -, -, same⟩
  · exact congrArg Job.id same
  · exact (congrArg Job.id same).trans rfl

theorem renewed_id (leaseTtl : Duration) (stepId : StepId) (fromNode : String) (now : Instant)
    (job : Job) : (renewed leaseTtl stepId fromNode now job).id = job.id := by
  rcases onStep_cases job stepId _ with same | ⟨s, s', -, -, same⟩
  · exact congrArg Job.id same
  · exact (congrArg Job.id same).trans rfl

/-- `record_step_report`. -/
def reportStepOn (env : Env) (c : Control) (report : StepReport) (fromNode : String) : Outcome :=
  let accepted := match (c.jobs.get report.jobId).map (recordStepReport report fromNode env.now) with
    | some (.ok _) => true
    | _ => false
  { control := c.withJobMut report.jobId (reported report fromNode env.now)
      fun job => reported_id report fromNode env.now job
    observed := if accepted then [.reported report.jobId report.stepId] else [] }

/-- `renew_lease`. -/
def renewLeaseOn (env : Env) (c : Control) (jobId : JobId) (stepId : StepId)
    (fromNode : String) : Outcome :=
  { control := c.withJobMut jobId (renewed c.config.leaseTtl stepId fromNode env.now)
      fun job => renewed_id c.config.leaseTtl stepId fromNode env.now job }

/-- One step of a frame. -/
def Frame.step (env : Env) (c : Control) : Frame → Outcome
  | .accept a => a.step env c
  | .drive jobId pc => driveStep env c jobId pc
  | .finish jobId pc => finishStep env c jobId pc
  | .retire jobId pc => retireStep env c jobId pc
  | .report jobId r => r.step env c jobId
  | .pump p => p.step env c
  | .recordStepReport stepReport fromNode => reportStepOn env c stepReport fromNode
  | .renewLease jobId stepId fromNode => renewLeaseOn env c jobId stepId fromNode

end HullCi.System
