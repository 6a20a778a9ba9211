/-
**What one section of each method can do.**

For every method one inductive relation lists the branches of its sections, each with its guard and
its exact outcome. The proofs about the system take cases on these and never unfold a method.
-/

import HullCi.System.World

namespace HullCi.System

open HullCi.Proto HullCi.Base HullCi.Control

/-! ### Taking a delivery claim -/

/-- `claim_delivery`: taken from a record nobody delivers, or nothing. -/
inductive Claims (c : Control) (jobId : JobId) (now : Instant) : Control × Bool → Prop
  | taken {job : Job} (found : c.jobs.get jobId = some job) (free : job.delivering = false) :
      Claims c jobId now (c.withJobMut jobId (deliveringSince now) (deliveringSince_id now), true)
  | busy {job : Job} (found : c.jobs.get jobId = some job) (held : job.delivering = true) :
      Claims c jobId now (c, false)
  | gone (absent : c.jobs.get jobId = none) : Claims c jobId now (c, false)

theorem Claims.frame {c : Control} {jobId : JobId} {now : Instant} {out : Control × Bool}
    (claims : Claims c jobId now out) : out.1 = { c with jobs := out.1.jobs } := by
  cases claims <;> rfl

theorem claimDelivery_claims (c : Control) (jobId : JobId) (now : Instant) :
    Claims c jobId now (c.claimDelivery jobId now) := by
  unfold Control.claimDelivery
  cases found : c.jobs.get jobId with
  | none => exact .gone found
  | some job =>
    dsimp only
    cases free : job.delivering with
    | true => exact .busy found free
    | false => exact .taken found free

/-- `claim_delivery_if_parked`: taken from a parked record, or nothing. -/
inductive ClaimsParked (c : Control) (jobId : JobId) (now : Instant) : Control × Bool → Prop
  | taken {job : Job} (found : c.jobs.get jobId = some job)
      (parked : job.state = .reportFailed) (free : job.delivering = false) :
      ClaimsParked c jobId now (c.withJobMut jobId (deliveringSince now) (deliveringSince_id now), true)
  | skipped : ClaimsParked c jobId now (c, false)

theorem ClaimsParked.frame {c : Control} {jobId : JobId} {now : Instant} {out : Control × Bool}
    (claims : ClaimsParked c jobId now out) : out.1 = { c with jobs := out.1.jobs } := by
  cases claims <;> rfl

theorem claimDeliveryIfParked_claims (c : Control) (jobId : JobId) (now : Instant) :
    ClaimsParked c jobId now (c.claimDeliveryIfParked jobId now) := by
  unfold Control.claimDeliveryIfParked
  cases found : c.jobs.get jobId with
  | none => exact .skipped
  | some job =>
    dsimp only
    by_cases waits : job.awaitsRedelivery now c.config.redeliverInterval = true
    · rw [if_pos waits]
      unfold Job.awaitsRedelivery at waits
      simp only [decide_eq_true_eq] at waits
      exact .taken found waits.1 waits.2.1
    · rw [if_neg waits]
      exact .skipped

/-! ### Accept -/

/-- The intent a snapshot of the record makes. -/
def intentFrom (job : Job) (verdict : Option Verdict) (nowUnix : ℕ) : JobIntent :=
  ⟨job.id, job.dispatch.repo, job.dispatch.treeId, job.callbackUrls, nowUnix, verdict⟩

/-- The sections of `accept`. -/
inductive AcceptMove (env : Env) (c : Control) (a : Accept) : Outcome → Prop
  | evict {out : JobStore × List JobId} (pc : a.pc = .evict)
      (evicts : c.jobs.evict a.now c.config.jobRetention c.config.maxJobs = out) :
      AcceptMove env c a
        { control := { c with jobs := out.1 }, push := a.goto (.forgetEvicted out.2) }
  | evicted (pc : a.pc = .forgetEvicted []) :
      AcceptMove env c a { control := c, push := a.goto .admission }
  | forget {id : JobId} {ids : List JobId} (pc : a.pc = .forgetEvicted (id :: ids)) :
      AcceptMove env c a
        { control := { c with claims := c.claims.forget id }
          push := a.goto (.forgetEvicted ids) }
  | created {claims : LocalClaims} {lease : DriveLease} (pc : a.pc = .admission)
      (admits : c.claims.admitDispatch ⟨a.dispatch.repo, a.dispatch.treeId⟩ env.proposed
        a.dispatch.callbackUrl env.nowMs (asMillis c.config.jobRetention)
          = (claims, .created lease)) :
      AcceptMove env c a
        { control := { c with claims := claims }, push := a.goto (.insertLease lease) }
  | attached {claims : LocalClaims} {jobId : JobId} {owner : String} {verdict : Option Verdict}
      (pc : a.pc = .admission)
      (admits : c.claims.admitDispatch ⟨a.dispatch.repo, a.dispatch.treeId⟩ env.proposed
        a.dispatch.callbackUrl env.nowMs (asMillis c.config.jobRetention)
          = (claims, .attached jobId owner verdict)) :
      AcceptMove env c a
        { control := { c with claims := claims }, push := a.goto (.attach jobId verdict) }
  | insertLease {lease : DriveLease} (pc : a.pc = .insertLease lease) :
      AcceptMove env c a
        { control := { c with leases := c.leases.insert lease }
          push := a.goto (.insertRecord lease.jobId) }
  | insertRecord {jobId : JobId} (pc : a.pc = .insertRecord jobId) :
      AcceptMove env c a
        { control := { c with
            jobs := c.jobs.insert jobId a.dispatch a.authorClass a.now c.config.timeouts.job }
          push := a.goto (.snapshot jobId .drive) }
  | attachDecided {jobId : JobId} {verdict : Option Verdict} {job : Job}
      (pc : a.pc = .attach jobId verdict) (found : c.jobs.get jobId = some job)
      (finished : job.state.isFinished = true) (decided : job.verdict.isSome = true) :
      AcceptMove env c a
        { control := c.withJobMut jobId (·.addCallbackUrl a.dispatch.callbackUrl)
            fun job => addCallbackUrl_id job a.dispatch.callbackUrl
          push := a.goto (.start jobId .reReport)
          observed := [.attached jobId a.dispatch.callbackUrl] }
  | attachLive {jobId : JobId} {verdict : Option Verdict} {job : Job}
      (pc : a.pc = .attach jobId verdict) (found : c.jobs.get jobId = some job)
      (live : ¬ (job.state.isFinished = true ∧ job.verdict.isSome = true)) :
      AcceptMove env c a
        { control := c.withJobMut jobId (·.addCallbackUrl a.dispatch.callbackUrl)
            fun job => addCallbackUrl_id job a.dispatch.callbackUrl
          push := a.goto (.snapshot jobId .attachedHere)
          observed := [.attached jobId a.dispatch.callbackUrl] }
  | attachForeign {jobId : JobId} {v : Verdict} (pc : a.pc = .attach jobId (some v))
      (absent : c.jobs.get jobId = none) :
      AcceptMove env c a
        { control := c, push := a.goto (.foreign jobId v)
          observed := [.attached jobId a.dispatch.callbackUrl] }
  | attachElsewhere {jobId : JobId} (pc : a.pc = .attach jobId none)
      (absent : c.jobs.get jobId = none) :
      AcceptMove env c a
        { control := c, push := a.goto (.start jobId .attachedElsewhere)
          observed := [.attached jobId a.dispatch.callbackUrl] }
  | foreign {jobId : JobId} {v : Verdict} (pc : a.pc = .foreign jobId v) :
      AcceptMove env c a
        { control := { c with
            jobs := (c.jobs.insert jobId a.dispatch a.authorClass a.now c.config.timeouts.job).modify
              jobId (foreignVerdict v a.now) (foreignVerdict_id v a.now) }
          push := a.goto (.start jobId .reReport) }
  | snapshotGone {jobId : JobId} {next : AcceptNext} (pc : a.pc = .snapshot jobId next)
      (absent : c.jobs.get jobId = none) :
      AcceptMove env c a { control := c, push := a.goto (.start jobId next) }
  | snapshot {jobId : JobId} {next : AcceptNext} {job : Job} (pc : a.pc = .snapshot jobId next)
      (found : c.jobs.get jobId = some job) :
      AcceptMove env c a
        { control := c, push := a.goto (.record (intentFrom job none env.nowUnix) next) }
  | recorded {intent : JobIntent} {next : AcceptNext} (pc : a.pc = .record intent next)
      (durable : env.journaled = true) :
      AcceptMove env c a
        { control := { c with journal := c.journal.record intent }
          push := a.goto (.start intent.jobId next), observed := [.journaled intent] }
  | recordRefused {intent : JobIntent} (pc : a.pc = .record intent .drive)
      (refused : env.journaled = false) :
      AcceptMove env c a { control := c, push := a.goto (.rollbackRecord intent.jobId) }
  | attachRefused {intent : JobIntent} {next : AcceptNext} (pc : a.pc = .record intent next)
      (refused : env.journaled = false) (other : next ≠ .drive) :
      AcceptMove env c a { control := c, observed := [.refused a.dispatch.callbackUrl] }
  | rollbackRecord {jobId : JobId} (pc : a.pc = .rollbackRecord jobId) :
      AcceptMove env c a
        { control := { c with jobs := c.jobs.remove jobId }
          push := a.goto (.rollbackLease jobId) }
  | rollbackLease {jobId : JobId} (pc : a.pc = .rollbackLease jobId) :
      AcceptMove env c a
        { control := { c with leases := c.leases.remove jobId }
          push := a.goto (.rollbackClaim jobId) }
  | rollbackClaim {jobId : JobId} (pc : a.pc = .rollbackClaim jobId) :
      AcceptMove env c a
        { control := { c with claims := c.claims.forget jobId }
          observed := [.refused a.dispatch.callbackUrl] }
  | startDrive {jobId : JobId} (pc : a.pc = .start jobId .drive) :
      AcceptMove env c a
        { control := c, push := a.goto (.scan jobId .drive), spawned := [.drive jobId .start] }
  | startReport {jobId : JobId} {out : Control × Bool} (pc : a.pc = .start jobId .reReport)
      (claims : Claims c jobId env.now out) :
      AcceptMove env c a
        { control := out.1, push := a.goto (.scan jobId .reReport)
          spawned := if out.2 then [.report jobId {}] else [] }
  | startAttached {jobId : JobId} {next : AcceptNext} (pc : a.pc = .start jobId next)
      (notDrive : next ≠ .drive) (notReport : next ≠ .reReport) :
      AcceptMove env c a { control := c, push := a.goto (.scan jobId next) }
  | scan {jobId : JobId} {next : AcceptNext} (pc : a.pc = .scan jobId next) :
      AcceptMove env c a
        { control := c
          push := a.goto (.drain jobId next env.now (c.undelivered jobId env.now)) }
  | drained {jobId : JobId} {next : AcceptNext} {now : Instant}
      (pc : a.pc = .drain jobId next now []) :
      AcceptMove env c a
        { control := c, observed := [.acked jobId a.dispatch.callbackUrl next] }
  | drain {jobId id : JobId} {next : AcceptNext} {now : Instant} {due : List JobId}
      {out : Control × Bool} (pc : a.pc = .drain jobId next now (id :: due))
      (claims : ClaimsParked c id now out) :
      AcceptMove env c a
        { control := out.1, push := a.goto (.drain jobId next now due)
          spawned := if out.2 then [.report id {}] else [] }

theorem accept_moves (env : Env) (c : Control) (a : Accept) :
    AcceptMove env c a (a.step env c) := by
  unfold Accept.step
  cases pc : a.pc with
  | evict => exact .evict pc rfl
  | forgetEvicted ids =>
    cases ids with
    | nil => exact .evicted pc
    | cons id ids => exact .forget pc
  | admission =>
    dsimp only
    cases admits : c.claims.admitDispatch ⟨a.dispatch.repo, a.dispatch.treeId⟩ env.proposed
        a.dispatch.callbackUrl env.nowMs (asMillis c.config.jobRetention) with
    | mk claims admission =>
      cases admission with
      | created lease => exact .created pc admits
      | attached jobId owner verdict => exact .attached pc admits
  | insertLease lease => exact .insertLease pc
  | insertRecord jobId => exact .insertRecord pc
  | attach jobId verdict =>
    dsimp only
    cases found : c.jobs.get jobId with
    | some job =>
      dsimp only
      by_cases done : job.state.isFinished = true ∧ job.verdict.isSome = true
      · rw [if_pos done]
        exact .attachDecided pc found done.1 done.2
      · rw [if_neg done]
        exact .attachLive pc found done
    | none =>
      cases verdict with
      | some v => exact .attachForeign pc found
      | none => exact .attachElsewhere pc found
  | foreign jobId v => exact .foreign pc
  | snapshot jobId next =>
    dsimp only
    unfold Control.intentOf
    cases found : c.jobs.get jobId with
    | none => exact .snapshotGone pc found
    | some job => exact .snapshot pc found
  | record intent next =>
    dsimp only
    cases durable : env.journaled with
    | true => exact .recorded pc durable
    | false =>
      by_cases drive : next = .drive
      · subst drive
        exact .recordRefused pc durable
      · simp only [if_neg drive]
        exact .attachRefused pc durable drive
  | rollbackRecord jobId => exact .rollbackRecord pc
  | rollbackLease jobId => exact .rollbackLease pc
  | rollbackClaim jobId => exact .rollbackClaim pc
  | start jobId next =>
    cases next with
    | drive => exact .startDrive pc
    | reReport => exact .startReport pc (claimDelivery_claims c jobId env.now)
    | attachedHere => exact .startAttached pc (by decide) (by decide)
    | attachedElsewhere => exact .startAttached pc (by decide) (by decide)
  | scan jobId next => exact .scan pc
  | drain jobId next now due =>
    cases due with
    | nil => exact .drained pc
    | cons id due => exact .drain pc (claimDeliveryIfParked_claims c id now)

/-! ### Report -/

/-- What an attempt adds to a report. -/
def Report.tally (r : Report) (outcome : Delivery) : Report :=
  { r with
    attemptsTotal := r.attemptsTotal + outcome.attempts
    anyDelivered := r.anyDelivered || outcome.isDelivered }

/-- The report about to post to a destination. -/
def Report.posting (r : Report) (req : CallbackRequest) (rest : List CallbackRequest) : Report :=
  { r with pc := .post req 1 rest, attempted := r.attempted ++ [req.url] }

/-- The requests a read makes. -/
def requests (c : Control) (job : Job) (v : Verdict) (attempted : List String) :
    List CallbackRequest :=
  (job.callbackUrls.filter (· ∉ attempted)).map fun url => ⟨url, c.config.secret, v, job.id⟩

/-- Where a report goes when it has read nothing more to send. -/
def Report.done (r : Report) : Report :=
  { r with pc := if r.attempted = [] then .release else .settle }

/-- The sections of `report`. -/
inductive ReportMove (env : Env) (c : Control) (j : JobId) (r : Report) : Outcome → Prop
  | destinations (pc : r.pc = .destinations) :
      ReportMove env c j r
        { control := c, push := [.report j { r with pc := .merge (c.claims.destinations j) }] }
  | merge {urls : List String} (pc : r.pc = .merge urls) :
      ReportMove env c j r
        { control := c.withJobMut j (addCallbackUrls urls) fun job => addCallbackUrls_id urls job
          push := [.report j { r with pc := .read }] }
  | readNothing (pc : r.pc = .read)
      (nothing : ∀ job, c.jobs.get j = some job → job.verdict = none) :
      ReportMove env c j r { control := c, push := [.report j r.done] }
  | readDone {job : Job} {v : Verdict} (pc : r.pc = .read) (found : c.jobs.get j = some job)
      (decided : job.verdict = some v) (empty : requests c job v r.attempted = []) :
      ReportMove env c j r
        { control := c, push := [.report j r.done], observed := [.surveyed j job.callbackUrls] }
  | read {job : Job} {v : Verdict} {req : CallbackRequest} {rest : List CallbackRequest}
      (pc : r.pc = .read) (found : c.jobs.get j = some job) (decided : job.verdict = some v)
      (some : requests c job v r.attempted = req :: rest) :
      ReportMove env c j r
        { control := c, push := [.report j (r.posting req rest)]
          observed := [.surveyed j job.callbackUrls] }
  | retry {req : CallbackRequest} {attempt : ℕ} {rest : List CallbackRequest}
      (pc : r.pc = .post req attempt rest)
      (again : afterPost c.config.retry attempt env.posted = none) :
      ReportMove env c j r
        { control := c, push := [.report j { r with pc := .post req (attempt + 1) rest }]
          observed := [.posted req (env.posted.any isSuccess)] }
  | postedLast {req : CallbackRequest} {attempt : ℕ} {outcome : Delivery}
      (pc : r.pc = .post req attempt [])
      (settled : afterPost c.config.retry attempt env.posted = some outcome) :
      ReportMove env c j r
        { control := c, push := [.report j { r.tally outcome with pc := .destinations }]
          observed := [.posted req (env.posted.any isSuccess)] }
  | posted {req next : CallbackRequest} {attempt : ℕ} {rest : List CallbackRequest}
      {outcome : Delivery} (pc : r.pc = .post req attempt (next :: rest))
      (settled : afterPost c.config.retry attempt env.posted = some outcome) :
      ReportMove env c j r
        { control := c, push := [.report j ((r.tally outcome).posting next rest)]
          observed := [.posted req (env.posted.any isSuccess)] }
  | settle (pc : r.pc = .settle) :
      ReportMove env c j r
        { control := c.withJobMut j (settleReport r.attemptsTotal r.anyDelivered env.now)
            fun job => settleReport_id r.attemptsTotal r.anyDelivered env.now job
          push := [.report j { r with pc := if r.anyDelivered then .forget else .release }] }
  | forget (pc : r.pc = .forget) :
      ReportMove env c j r
        { control := { c with journal := c.journal.forget j }
          push := [.report j { r with pc := .release }], observed := [.forgot j] }
  | release (pc : r.pc = .release) :
      ReportMove env c j r { control := c.withJobMut j (deliveredAt env.now) (deliveredAt_id env.now) }

theorem report_moves (env : Env) (c : Control) (j : JobId) (r : Report) :
    ReportMove env c j r (r.step env c j) := by
  unfold Report.step
  cases pc : r.pc with
  | destinations => exact .destinations pc
  | merge urls => exact .merge pc
  | read =>
    dsimp only
    cases found : c.jobs.get j with
    | none => exact .readNothing pc (fun job known => by rw [found] at known; cases known)
    | some job =>
      dsimp only
      cases decided : job.verdict with
      | none =>
        refine .readNothing pc fun job' known => ?_
        rw [found, Option.some.injEq] at known
        rw [← known]
        exact decided
      | some v =>
        dsimp only
        cases reqs : (job.callbackUrls.filter (· ∉ r.attempted)).map fun url =>
            (⟨url, c.config.secret, v, job.id⟩ : CallbackRequest) with
        | nil => exact .readDone pc found decided reqs
        | cons req rest => exact .read pc found decided reqs
  | post req attempt rest =>
    dsimp only
    cases settled : afterPost c.config.retry attempt env.posted with
    | none => exact .retry pc settled
    | some outcome =>
      cases rest with
      | nil => exact .postedLast pc settled
      | cons next rest => exact .posted pc settled
  | settle => exact .settle pc
  | forget => exact .forget pc
  | release => exact .release pc

/-! ### Finish and retire -/

/-- The sections of `finish`. -/
inductive FinishMove (env : Env) (c : Control) (j : JobId) : FinishAt → Outcome → Prop
  | gone {v : Verdict} (absent : c.jobs.get j = none) :
      FinishMove env c j (.record v) { control := c }
  | late {v : Verdict} {job : Job} (found : c.jobs.get j = some job)
      (decided : job.state.hasVerdict = true) : FinishMove env c j (.record v) { control := c }
  | record {v : Verdict} {job : Job} (found : c.jobs.get j = some job)
      (live : job.state.hasVerdict = false) :
      FinishMove env c j (.record v)
        { control := c.withJobMut j
            (fun job => (recordVerdict (linked (detailsUrl c.config j) v) env.now job).1)
            fun job => recordVerdict_id (linked (detailsUrl c.config j) v) env.now job
          push := [.finish j .decided]
          observed := [.decided j (linked (detailsUrl c.config j) v)] }
  | decided :
      FinishMove env c j .decided
        { control := c, push := [.finish j (.lease ((c.jobs.get j).bind (·.verdict)))] }
  | leased {lease : DriveLease} {v : Verdict} (held : c.leases.get j = some lease) :
      FinishMove env c j (.lease (some v))
        { control := c, push := [.finish j (.settle lease v)] }
  | unleased {decided : Option Verdict} (free : c.leases.get j = none ∨ decided = none) :
      FinishMove env c j (.lease decided)
        { control := c, push := [.finish j (.snapshot decided)] }
  | settle {lease : DriveLease} {v : Verdict} :
      FinishMove env c j (.settle lease v)
        { control := { c with claims := c.claims.settle lease v env.nowMs }
          push := [.finish j (.snapshot (some v))] }
  | snapshotGone {decided : Option Verdict} (absent : c.jobs.get j = none) :
      FinishMove env c j (.snapshot decided) { control := c, push := [.finish j .retire] }
  | snapshot {decided : Option Verdict} {job : Job} (found : c.jobs.get j = some job) :
      FinishMove env c j (.snapshot decided)
        { control := c, push := [.finish j (.journal (intentFrom job decided env.nowUnix))] }
  | journaled {intent : JobIntent} (durable : env.journaled = true) :
      FinishMove env c j (.journal intent)
        { control := { c with journal := c.journal.record intent }
          push := [.finish j .retire], observed := [.journaled intent] }
  | unjournaled {intent : JobIntent} (refused : env.journaled = false) :
      FinishMove env c j (.journal intent) { control := c, push := [.finish j .retire] }
  | retire :
      FinishMove env c j .retire { control := c, push := [.retire j .tree, .finish j .claim] }
  | claim {out : Control × Bool} (claims : Claims c j env.now out) :
      FinishMove env c j .claim
        { control := out.1, push := if out.2 then [.report j {}] else [] }

theorem finish_moves (env : Env) (c : Control) (j : JobId) (pc : FinishAt) :
    FinishMove env c j pc (finishStep env c j pc) := by
  unfold finishStep
  cases pc with
  | record v =>
    dsimp only
    cases found : c.jobs.get j with
    | none => exact .gone found
    | some job =>
      dsimp only
      cases decided : job.state.hasVerdict with
      | true =>
        rw [recordVerdict_once decided]
        exact .late found decided
      | false =>
        rw [recordVerdict_first decided]
        exact .record found decided
  | decided => exact .decided
  | lease decided =>
    dsimp only
    cases held : c.leases.get j with
    | none => exact .unleased (.inl held)
    | some lease =>
      cases decided with
      | none => exact .unleased (.inr rfl)
      | some v => exact .leased held
  | settle lease v => exact .settle
  | snapshot decided =>
    dsimp only
    unfold Control.intentOf
    cases found : c.jobs.get j with
    | none => exact .snapshotGone found
    | some job => exact .snapshot found
  | journal intent =>
    dsimp only
    cases durable : env.journaled with
    | true => exact .journaled durable
    | false => exact .unjournaled durable
  | retire => exact .retire
  | claim => exact .claim (claimDelivery_claims c j env.now)

/-- The sections of `retire`. -/
inductive RetireMove (env : Env) (c : Control) (j : JobId) : RetireAt → Outcome → Prop
  | tree :
      RetireMove env c j .tree
        { control := { c with trees := c.trees.erase j }, push := [.retire j .lease] }
  | lease :
      RetireMove env c j .lease
        { control := { c with leases := c.leases.remove j }, push := [.retire j .queue] }
  | queue :
      RetireMove env c j .queue
        { control := { c with queue := c.queue.forgetJob j env.now }
          push := [.pump { onBehalfOf := none }] }

theorem retire_moves (env : Env) (c : Control) (j : JobId) (pc : RetireAt) :
    RetireMove env c j pc (retireStep env c j pc) := by
  cases pc with
  | tree => exact .tree
  | lease => exact .lease
  | queue => exact .queue

/-! ### Drive -/

/-- Why a job fails before it has steps, when it is its own decision. -/
def Early (v : Verdict) : Prop :=
  v.status = .errored

/-- The sections of `drive` and of the phases it calls. -/
inductive DriveMove (env : Env) (c : Control) (j : JobId) : DriveAt → Outcome → Prop
  | gone (absent : c.jobs.get j = none) : DriveMove env c j .start { control := c }
  | start {job : Job} (found : c.jobs.get j = some job) :
      DriveMove env c j .start { control := c, push := [.drive j (.fetching job.dispatch)] }
  | fetching {d : Dispatch} :
      DriveMove env c j (.fetching d)
        { control := c.setState j .fetching env.now, push := [.drive j (.fetch d)] }
  | unfetched {d : Dispatch} {v : Verdict} (early : Early v) :
      DriveMove env c j (.fetch d) { control := c, push := [.finish j (.record v)] }
  | fetched {d : Dispatch} {tree : VerifiedTree} :
      DriveMove env c j (.fetch d) { control := c, push := [.drive j (.planning tree)] }
  | planning {tree : VerifiedTree} :
      DriveMove env c j (.planning tree)
        { control := c.setState j .planning env.now, push := [.drive j (.plan tree)] }
  | unplanned {tree : VerifiedTree} {v : Verdict} (early : Early v) :
      DriveMove env c j (.plan tree) { control := c, push := [.finish j (.record v)] }
  | planned {tree : VerifiedTree} {specs : List StepSpec} :
      DriveMove env c j (.plan tree) { control := c, push := [.drive j (.publish tree specs)] }
  | publish {tree : VerifiedTree} {specs : List StepSpec} :
      DriveMove env c j (.publish tree specs)
        { control := { c with trees := c.trees.insert j tree }
          push := [.drive j (.context specs)] }
  | contextGone {specs : List StepSpec} (absent : c.jobs.get j = none) :
      DriveMove env c j (.context specs) { control := c, push := [.drive j .retire] }
  | context {specs : List StepSpec} {job : Job} (found : c.jobs.get j = some job) :
      DriveMove env c j (.context specs) { control := c, push := [.drive j (.install specs)] }
  | install {specs : List StepSpec} :
      DriveMove env c j (.install specs)
        { control := c.withJobMut j (installPlan env.now env.noise specs env.decisions)
            fun job => installPlan_id env.now env.noise specs env.decisions job
          push := [.drive j .pass] }
  | passGone (absent : c.jobs.get j = none) :
      DriveMove env c j .pass { control := c, push := [.drive j .retire] }
  | decided {job : Job} {d : Decision} (found : c.jobs.get j = some job)
      (passed : (passJob c.config.timeouts env.now job).2 = .decided d) :
      DriveMove env c j .pass
        { control := c.withJobMut j (fun job => (passJob c.config.timeouts env.now job).1)
            (passJob_id c.config.timeouts env.now)
          push := [.drive j (.cancel (.check d.cancel) d.verdict)] }
  | late {job : Job} (found : c.jobs.get j = some job)
      (passed : (passJob c.config.timeouts env.now job).2 = .jobTimeout) :
      DriveMove env c j .pass
        { control := c.withJobMut j (fun job => (passJob c.config.timeouts env.now job).1)
            (passJob_id c.config.timeouts env.now)
          push := [.drive j .timedOut] }
  | waits {job : Job} {deadline : Instant} (found : c.jobs.get j = some job)
      (passed : (passJob c.config.timeouts env.now job).2 = .wait deadline) :
      DriveMove env c j .pass
        { control := c.withJobMut j (fun job => (passJob c.config.timeouts env.now job).1)
            (passJob_id c.config.timeouts env.now)
          push := [.pump { onBehalfOf := some j }, .drive j .pass] }
  | timedOut :
      DriveMove env c j .timedOut
        { control := c
          push := [.drive j (.cancel (.check (((c.jobs.get j).map inFlightSteps).getD []))
            (expiryVerdict .job c.config.timeouts.job))] }
  | cancelled {v : Verdict} :
      DriveMove env c j (.cancel (.check []) v)
        { control := c, push := [.finish j (.record v), .drive j .retire] }
  | inFlight {v : Verdict} {job : Job} {s : Step} {id : StepId} {rest : List StepId}
      (found : c.jobs.get j = some job) (known : job.step id = some s)
      (leased : isLeased s.state = true) :
      DriveMove env c j (.cancel (.check (id :: rest)) v)
        { control := c, push := [.drive j (.cancel (.send id rest) v)] }
  | notInFlight {v : Verdict} {id : StepId} {rest : List StepId}
      (idle : ∀ job s, c.jobs.get j = some job → job.step id = some s →
        isLeased s.state = false) :
      DriveMove env c j (.cancel (.check (id :: rest)) v)
        { control := c, push := [.drive j (.cancel (.skip id rest) v)] }
  | send {v : Verdict} {id : StepId} {rest : List StepId} :
      DriveMove env c j (.cancel (.send id rest) v)
        { control := c, push := [.drive j (.cancel (.skip id rest) v)]
          observed := [.cancelled j id] }
  | skip {v : Verdict} {id : StepId} {rest : List StepId} :
      DriveMove env c j (.cancel (.skip id rest) v)
        { control := c.withJobMut j (skipStep id) (skipStep_id id)
          push := [.drive j (.cancel (.check rest) v)] }
  | retire : DriveMove env c j .retire { control := c, push := [.retire j .tree] }

theorem drive_moves (env : Env) (c : Control) (j : JobId) (pc : DriveAt) :
    DriveMove env c j pc (driveStep env c j pc) := by
  unfold driveStep
  cases pc with
  | start =>
    dsimp only
    cases found : c.jobs.get j with
    | none => exact .gone found
    | some job => exact .start found
  | fetching d => exact .fetching
  | fetch d =>
    dsimp only
    cases env.fetched with
    | none => exact .unfetched rfl
    | some answer =>
      cases answer with
      | error e => exact .unfetched rfl
      | ok tree =>
        dsimp only
        by_cases same : eqIgnoreAsciiCase tree.treeId (trim d.treeId) = true
        · rw [if_pos same]
          exact .fetched
        · rw [if_neg same]
          exact .unfetched rfl
  | planning tree => exact .planning
  | plan tree =>
    dsimp only
    cases env.planned with
    | error e => exact .unplanned rfl
    | ok specs =>
      cases specs with
      | nil => exact .unplanned rfl
      | cons spec specs => exact .planned
  | publish tree specs => exact .publish
  | context specs =>
    dsimp only
    cases found : c.jobs.get j with
    | none => exact .contextGone found
    | some job => exact .context found
  | install specs => exact .install
  | pass =>
    dsimp only
    cases found : c.jobs.get j with
    | none => exact .passGone found
    | some job =>
      dsimp only
      cases passed : (passJob c.config.timeouts env.now job).2 with
      | decided d => exact .decided found passed
      | jobTimeout => exact .late found passed
      | wait deadline => exact .waits found passed
  | timedOut => exact .timedOut
  | cancel cancelling v =>
    dsimp only
    unfold cancelStep
    cases cancelling with
    | check ids =>
      cases ids with
      | nil => exact .cancelled
      | cons id rest =>
        dsimp only
        cases found : c.jobs.get j with
        | none => exact .notInFlight fun job s known => (by rw [found] at known; cases known)
        | some job =>
          cases known : job.step id with
          | none =>
            simp only [Option.any_some, known, Option.any_none]
            refine .notInFlight fun job' s found' known' => ?_
            rw [found, Option.some.injEq] at found'
            rw [← found', known] at known'
            cases known'
          | some s =>
            cases leased : isLeased s.state with
            | true =>
              simp only [Option.any_some, known, leased]
              exact .inFlight found known leased
            | false =>
              simp only [Option.any_some, known, leased]
              refine .notInFlight fun job' s' found' known' => ?_
              rw [found, Option.some.injEq] at found'
              rw [← found', known, Option.some.injEq] at known'
              rw [← known']
              exact leased
    | send id rest => exact .send
    | skip id rest => exact .skip
  | retire => exact .retire

/-! ### Pump -/

/-- The queue a selection starts from. -/
def reconciled (env : Env) (c : Control) (onBehalfOf : Option JobId) : FairQueue :=
  match onBehalfOf.bind c.jobs.get with
  | some job => c.queue.reconcile (jobView job c.config.fairShare) env.now
  | none => c.queue

/-- The ready steps a selection was shown. -/
def offers (c : Control) (onBehalfOf : Option JobId) : List Obs :=
  ((onBehalfOf.bind c.jobs.get).map fun job =>
    (job.steps.filter (·.state = .ready)).map fun s => Obs.offered job.id s.id).getD []

/-- A selection shows ready steps of the job it runs for, and nothing else. -/
theorem mem_offers {c : Control} {onBehalfOf : Option JobId} {seen : Obs}
    (member : seen ∈ offers c onBehalfOf) :
    ∃ j job s, onBehalfOf = some j ∧ c.jobs.get j = some job ∧ s ∈ job.steps ∧
      s.state = .ready ∧ seen = .offered j s.id := by
  unfold offers at member
  cases asked : onBehalfOf with
  | none =>
    rw [asked] at member
    cases member
  | some j =>
    rw [asked, Option.bind_some] at member
    cases found : c.jobs.get j with
    | none =>
      rw [found] at member
      cases member
    | some job =>
      rw [found, Option.map_some, Option.getD_some] at member
      obtain ⟨s, listed, shown⟩ := List.mem_map.mp member
      obtain ⟨held, ready⟩ := List.mem_filter.mp listed
      refine ⟨j, job, s, rfl, found, held, by simpa using ready, ?_⟩
      rw [← shown, JobStore.id_of_get found]

/-- What the fleet's answer does to a record. -/
def assignmentSettled (env : Env) (c : Control) (stepId : StepId)
    (result : Except NodeError String) (job : Job) : Job × Bool :=
  settleAssignment c.config.timeouts c.config.leaseTtl env.now stepId result job

/-- The queue with a granted step handed back. -/
def requeued (env : Env) (c : Control) (ticket : Ticket) : FairQueue :=
  c.queue.requeue ticket.grant.jobId ticket.grant.stepId ticket.assignment.stepName env.now

/-- The sections of `pump`. -/
inductive PumpMove (env : Env) (c : Control) (p : Pump) : Outcome → Prop
  | select (pc : p.pc = .select) :
      PumpMove env c p
        { control := { c with queue := ((reconciled env c p.onBehalfOf).select env.now).1 }
          push := [.pump ⟨p.onBehalfOf, env.now,
            .next ((reconciled env c p.onBehalfOf).select env.now).2⟩]
          observed := offers c p.onBehalfOf }
  | ended (pc : p.pc = .next []) : PumpMove env c p { control := c }
  | unpublished {grant : Grant} {rest : List Grant} (pc : p.pc = .next (grant :: rest))
      (absent : c.trees.lookup grant.jobId = none) :
      PumpMove env c p
        { control := c, push := p.goto (.release grant .unrunnable p.now rest) }
  | published {grant : Grant} {rest : List Grant} {tree : VerifiedTree}
      (pc : p.pc = .next (grant :: rest)) :
      PumpMove env c p { control := c, push := p.goto (.assignment grant tree rest) }
  | unassignable {grant : Grant} {rest : List Grant} {tree : VerifiedTree}
      (pc : p.pc = .assignment grant tree rest) (absent : c.assignmentFor grant = none) :
      PumpMove env c p
        { control := c, push := p.goto (.release grant .unrunnable p.now rest) }
  | assignable {grant : Grant} {rest : List Grant} {tree : VerifiedTree} {a : Assignment}
      (pc : p.pc = .assignment grant tree rest) :
      PumpMove env c p { control := c, push := p.goto (.lease ⟨grant, a, tree⟩ rest) }
  | unleased {ticket : Ticket} {rest : List Grant} (pc : p.pc = .lease ticket rest)
      (absent : c.leases.get ticket.grant.jobId = none) :
      PumpMove env c p
        { control := c, push := p.goto (.release ticket.grant .noLease p.now rest) }
  | leased {ticket : Ticket} {rest : List Grant} {lease : DriveLease}
      (pc : p.pc = .lease ticket rest) (held : c.leases.get ticket.grant.jobId = some lease) :
      PumpMove env c p { control := c, push := p.goto (.claim ticket lease rest) }
  | granted {ticket : Ticket} {rest : List Grant} {lease : DriveLease} {claim : LocalClaim}
      (pc : p.pc = .claim ticket lease rest)
      (found : c.claims.claims.lookup lease.jobId = some claim)
      (free : ticket.grant.stepId ∉ claim.steps) :
      PumpMove env c p
        { control := { c with claims := ⟨c.claims.byKey, c.claims.claims.insert lease.jobId
            { claim with steps := insert ticket.grant.stepId claim.steps }⟩ }
          push := p.goto (.assign ticket lease rest) }
  | taken {ticket : Ticket} {rest : List Grant} {lease : DriveLease} {claim : LocalClaim}
      (pc : p.pc = .claim ticket lease rest)
      (found : c.claims.claims.lookup lease.jobId = some claim)
      (held : ticket.grant.stepId ∈ claim.steps) :
      PumpMove env c p
        { control := c, push := p.goto (.release ticket.grant .taken p.now rest) }
  | fenced {ticket : Ticket} {rest : List Grant} {lease : DriveLease}
      (pc : p.pc = .claim ticket lease rest)
      (absent : c.claims.claims.lookup lease.jobId = none) :
      PumpMove env c p { control := c, push := p.goto (.fence ticket.grant rest) }
  | fence {grant : Grant} {rest : List Grant} (pc : p.pc = .fence grant rest) :
      PumpMove env c p
        { control := { c with leases := c.leases.remove grant.jobId }
          push := p.goto (.release grant .fenced p.now rest) }
  | noCapacity {ticket : Ticket} {rest : List Grant} {lease : DriveLease}
      (pc : p.pc = .assign ticket lease rest) (full : env.assigned = .error .noCapacity) :
      PumpMove env c p { control := c, push := p.goto (.releaseStep ticket lease rest) }
  | accepted {ticket : Ticket} {rest : List Grant} {lease : DriveLease} {node : String}
      (pc : p.pc = .assign ticket lease rest) (answer : env.assigned = .ok node) :
      PumpMove env c p
        { control := c, push := p.goto (.settle ticket (.ok node) rest)
          observed := [.assigned ticket.grant.jobId ticket.grant.stepId] }
  | rejected {ticket : Ticket} {rest : List Grant} {lease : DriveLease} {e : NodeError}
      (pc : p.pc = .assign ticket lease rest) (answer : env.assigned = .error e)
      (other : e ≠ .noCapacity) :
      PumpMove env c p { control := c, push := p.goto (.settle ticket (.error e) rest) }
  | releaseStep {ticket : Ticket} {rest : List Grant} {lease : DriveLease}
      (pc : p.pc = .releaseStep ticket lease rest) :
      PumpMove env c p
        { control := { c with claims := c.claims.releaseStep lease ticket.grant.stepId }
          push := p.goto (.requeue ticket rest) }
  | requeue {ticket : Ticket} {rest : List Grant} (pc : p.pc = .requeue ticket rest) :
      PumpMove env c p
        { control := { c with queue := requeued env c ticket }, push := p.goto (.next rest) }
  | settled {ticket : Ticket} {rest : List Grant} {node : String} {job : Job}
      (pc : p.pc = .settle ticket (.ok node) rest)
      (found : c.jobs.get ticket.grant.jobId = some job)
      (moved : (assignmentSettled env c ticket.grant.stepId (.ok node) job).2 = true) :
      PumpMove env c p
        { control := c.withJobMut ticket.grant.jobId
            (fun job => (assignmentSettled env c ticket.grant.stepId (.ok node) job).1)
            fun job => settleAssignment_id _ _ _ _ _ job
          push := p.goto (.next rest)
          observed := [.leased ticket.grant.jobId ticket.grant.stepId] }
  | discarded {ticket : Ticket} {rest : List Grant} {result : Except NodeError String}
      (pc : p.pc = .settle ticket result rest)
      (stuck : (∃ e, result = .error e) ∨ ∀ job, c.jobs.get ticket.grant.jobId = some job →
        (assignmentSettled env c ticket.grant.stepId result job).2 = false) :
      PumpMove env c p
        { control := c.withJobMut ticket.grant.jobId
            (fun job => (assignmentSettled env c ticket.grant.stepId result job).1)
            fun job => settleAssignment_id _ _ _ _ _ job
          push := p.goto (.release ticket.grant .settled env.now rest) }
  | release {grant : Grant} {site : ReleaseSite} {at' : Instant} {rest : List Grant}
      (pc : p.pc = .release grant site at' rest) :
      PumpMove env c p
        { control := { c with queue := c.queue.release grant.jobId grant.stepId at' }
          push := p.goto (.next rest) }

theorem pump_moves (env : Env) (c : Control) (p : Pump) : PumpMove env c p (p.step env c) := by
  unfold Pump.step
  cases pc : p.pc with
  | select => exact .select pc
  | next grants =>
    cases grants with
    | nil => exact .ended pc
    | cons grant rest =>
      dsimp only
      cases published : c.trees.lookup grant.jobId with
      | none => exact .unpublished pc published
      | some tree => exact .published pc
  | assignment grant tree rest =>
    dsimp only
    cases runnable : c.assignmentFor grant with
    | none => exact .unassignable pc runnable
    | some a => exact .assignable pc
  | lease ticket rest =>
    dsimp only
    cases held : c.leases.get ticket.grant.jobId with
    | none => exact .unleased pc held
    | some lease => exact .leased pc held
  | claim ticket lease rest =>
    dsimp only
    have claims := LocalClaims.claimStep_cases c.claims lease ticket.grant.stepId
    revert claims
    cases c.claims.claimStep lease ticket.grant.stepId with
    | mk claims answer =>
      intro claims
      cases claims with
      | fenced absent => exact .fenced pc absent
      | taken found held => exact .taken pc found held
      | granted found free => exact .granted pc found free
  | fence grant rest => exact .fence pc
  | assign ticket lease rest =>
    dsimp only
    cases answer : env.assigned with
    | ok node => exact .accepted pc answer
    | error e =>
      cases e with
      | noCapacity => exact .noCapacity pc answer
      | unwired => exact .rejected pc answer (by decide)
      | rejected why => exact .rejected pc answer (fun same => by cases same)
  | releaseStep ticket lease rest => exact .releaseStep pc
  | requeue ticket rest => exact .requeue pc
  | settle ticket result rest =>
    dsimp only
    cases result with
    | error e =>
      simp only [Bool.true_or, if_true, Bool.not_true, Bool.and_false]
      exact .discarded pc (.inl ⟨e, rfl⟩)
    | ok node =>
      cases found : c.jobs.get ticket.grant.jobId with
      | none =>
        exact .discarded pc (.inr fun job known => (by rw [found] at known; cases known))
      | some job =>
        cases moved : (assignmentSettled env c ticket.grant.stepId (.ok node) job).2 with
        | true =>
          have flag : (settleAssignment c.config.timeouts c.config.leaseTtl env.now
              ticket.grant.stepId (.ok node) job).2 = true := moved
          simp only [Option.any_some, flag]
          exact .settled pc found moved
        | false =>
          have flag : (settleAssignment c.config.timeouts c.config.leaseTtl env.now
              ticket.grant.stepId (.ok node) job).2 = false := moved
          simp only [Option.any_some, flag]
          refine .discarded pc (.inr fun job' known => ?_)
          rw [found, Option.some.injEq] at known
          rw [← known]
          exact moved
  | release grant site at' rest => exact .release pc

/-! ### The node's messages -/

/-- The sections of a node's message: each rewrites the one step it names, or changes nothing. -/
inductive MessageMove (env : Env) (c : Control) : Frame → Outcome → Prop
  | reported {report : StepReport} {fromNode logPrefix : String} {job : Job} {s s' : Step}
      (found : c.jobs.get report.jobId = some job) (known : job.step report.stepId = some s)
      (accepted : reportStep report fromNode logPrefix env.now s = .ok s')
      (rewritten : reported report fromNode env.now job = job.modifyStep report.stepId fun _ => s') :
      MessageMove env c (.recordStepReport report fromNode)
        { control := c.withJobMut report.jobId (HullCi.System.reported report fromNode env.now)
            fun job => reported_id report fromNode env.now job
          observed := [.reported report.jobId report.stepId] }
  | unreported {report : StepReport} {fromNode : String}
      (same : ∀ job, c.jobs.get report.jobId = some job →
        HullCi.System.reported report fromNode env.now job = job) :
      MessageMove env c (.recordStepReport report fromNode)
        { control := c.withJobMut report.jobId (HullCi.System.reported report fromNode env.now)
            fun job => reported_id report fromNode env.now job }
  | renewed {jobId : JobId} {stepId : StepId} {fromNode : String}
      (moved : ∀ job, c.jobs.get jobId = some job →
        HullCi.System.renewed c.config.leaseTtl stepId fromNode env.now job = job ∨
          ∃ s s', job.step stepId = some s ∧
            renewStep c.config.leaseTtl fromNode env.now s = .ok s' ∧
            HullCi.System.renewed c.config.leaseTtl stepId fromNode env.now job
              = job.modifyStep stepId fun _ => s') :
      MessageMove env c (.renewLease jobId stepId fromNode)
        { control := c.withJobMut jobId
            (HullCi.System.renewed c.config.leaseTtl stepId fromNode env.now)
            fun job => renewed_id c.config.leaseTtl stepId fromNode env.now job }

theorem report_message_moves (env : Env) (c : Control) (report : StepReport)
    (fromNode : String) :
    MessageMove env c (.recordStepReport report fromNode)
      (reportStepOn env c report fromNode) := by
  unfold reportStepOn
  cases found : c.jobs.get report.jobId with
  | none => exact .unreported fun job known => (by rw [found] at known; cases known)
  | some job =>
    dsimp only
    rw [Option.map_some]
    cases answer : recordStepReport report fromNode env.now job with
    | error why =>
      refine .unreported fun job' known => ?_
      rw [found, Option.some.injEq] at known
      rw [← known]
      unfold reported
      rw [answer]
      rfl
    | ok job' =>
      have rewritten : reported report fromNode env.now job = job' := by
        unfold reported
        rw [answer]
        rfl
      unfold recordStepReport onStep at answer
      cases known : job.step report.stepId with
      | none =>
        rw [known] at answer
        cases answer
      | some s =>
        simp only [known] at answer
        cases accepted : reportStep report fromNode (job.dispatch.tenant ++ "/" ++
            job.dispatch.repo ++ "/" ++ job.dispatch.treeId ++ "/") env.now s with
        | error why =>
          rw [accepted] at answer
          cases answer
        | ok s' =>
          rw [accepted] at answer
          exact .reported found known accepted
            (rewritten.trans (Except.ok.inj answer).symm)

theorem renew_message_moves (env : Env) (c : Control) (jobId : JobId) (stepId : StepId)
    (fromNode : String) :
    MessageMove env c (.renewLease jobId stepId fromNode)
      (renewLeaseOn env c jobId stepId fromNode) :=
  .renewed fun job _ => onStep_cases job stepId _

/-! ### Any frame -/

/-- What the step of a frame can do. -/
inductive FrameMove (env : Env) (c : Control) : Frame → Outcome → Prop
  | accept {a : Accept} {o : Outcome} (move : AcceptMove env c a o) :
      FrameMove env c (.accept a) o
  | drive {j : JobId} {pc : DriveAt} {o : Outcome} (move : DriveMove env c j pc o) :
      FrameMove env c (.drive j pc) o
  | finish {j : JobId} {pc : FinishAt} {o : Outcome} (move : FinishMove env c j pc o) :
      FrameMove env c (.finish j pc) o
  | retire {j : JobId} {pc : RetireAt} {o : Outcome} (move : RetireMove env c j pc o) :
      FrameMove env c (.retire j pc) o
  | report {j : JobId} {r : Report} {o : Outcome} (move : ReportMove env c j r o) :
      FrameMove env c (.report j r) o
  | pump {p : Pump} {o : Outcome} (move : PumpMove env c p o) : FrameMove env c (.pump p) o
  | message {f : Frame} {o : Outcome} (move : MessageMove env c f o) : FrameMove env c f o

theorem frame_moves (env : Env) (c : Control) (f : Frame) :
    FrameMove env c f (f.step env c) := by
  cases f with
  | accept a => exact .accept (accept_moves env c a)
  | drive j pc => exact .drive (drive_moves env c j pc)
  | finish j pc => exact .finish (finish_moves env c j pc)
  | retire j pc => exact .retire (retire_moves env c j pc)
  | report j r => exact .report (report_moves env c j r)
  | pump p => exact .pump (pump_moves env c p)
  | recordStepReport report fromNode =>
    exact .message (report_message_moves env c report fromNode)
  | renewLease j s fromNode => exact .message (renew_message_moves env c j s fromNode)

namespace World.Fires

variable {w w' : World} {env : Env} {o : Outcome} {others : List Frame}

/-! A fired frame takes one of the sections of its kind. -/

theorem accept_move {a : Accept} (fires : Fires w env (.accept a) o others w') :
    AcceptMove env w.control a o :=
  fires.stepped ▸ accept_moves env w.control a

theorem drive_move {j : JobId} {pc : DriveAt} (fires : Fires w env (.drive j pc) o others w') :
    DriveMove env w.control j pc o :=
  fires.stepped ▸ drive_moves env w.control j pc

theorem finish_move {j : JobId} {pc : FinishAt} (fires : Fires w env (.finish j pc) o others w') :
    FinishMove env w.control j pc o :=
  fires.stepped ▸ finish_moves env w.control j pc

theorem report_move {j : JobId} {r : Report} (fires : Fires w env (.report j r) o others w') :
    ReportMove env w.control j r o :=
  fires.stepped ▸ report_moves env w.control j r

theorem pump_move {p : Pump} (fires : Fires w env (.pump p) o others w') :
    PumpMove env w.control p o :=
  fires.stepped ▸ pump_moves env w.control p

end World.Fires

end HullCi.System
