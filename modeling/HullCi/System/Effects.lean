/-
**What one step does to one job's record, claim and journal entry.**

The sections of every method, seen from one job: most steps leave it alone, and each of the others
is listed once, with the frame that runs and what it spawns.

* `record_move` — the record of a job.
* `claim_move` — the claim of a job.
* `entry_move` — its journal entry.
* `seen_move` — what an observer sees, and of which frame.
-/

import HullCi.System.Sections

namespace HullCi.System

open HullCi.Proto HullCi.Base HullCi.Control

/-! ### The record -/

/-- A section that runs `g` on the record of the job `j`, if it is held. -/
inductive Touches (env : Env) (c : Control) : Frame → Outcome → JobId → (Job → Job) → Prop
  | attach {a : Accept} {o : Outcome} {j : JobId} {verdict : Option Verdict}
      (pc : a.pc = .attach j verdict) :
      Touches env c (.accept a) o j (·.addCallbackUrl a.dispatch.callbackUrl)
  | startReport {a : Accept} {o : Outcome} {j : JobId} {job : Job}
      (pc : a.pc = .start j .reReport) (found : c.jobs.get j = some job)
      (free : job.delivering = false) (spawned : o.spawned = [.report j {}])
      (push : o.push = a.goto (.scan j .reReport)) :
      Touches env c (.accept a) o j (deliveringSince env.now)
  | drain {a : Accept} {o : Outcome} {k j : JobId} {next : AcceptNext} {now : Instant}
      {due : List JobId} {job : Job} (pc : a.pc = .drain k next now (j :: due))
      (found : c.jobs.get j = some job) (parked : job.state = .reportFailed)
      (free : job.delivering = false) (spawned : o.spawned = [.report j {}])
      (push : o.push = a.goto (.drain k next now due)) :
      Touches env c (.accept a) o j (deliveringSince now)
  | merge {r : Report} {o : Outcome} {j : JobId} {urls : List String} (pc : r.pc = .merge urls) :
      Touches env c (.report j r) o j (addCallbackUrls urls)
  | settle {r : Report} {o : Outcome} {j : JobId} (pc : r.pc = .settle) :
      Touches env c (.report j r) o j (settleReport r.attemptsTotal r.anyDelivered env.now)
  | release {r : Report} {o : Outcome} {j : JobId} (pc : r.pc = .release) (push : o.push = [])
      (spawned : o.spawned = []) : Touches env c (.report j r) o j (deliveredAt env.now)
  | decide {o : Outcome} {j : JobId} {v : Verdict} {job : Job} (found : c.jobs.get j = some job)
      (live : job.state.hasVerdict = false)
      (seen : o.observed = [.decided j (linked (detailsUrl c.config j) v)]) :
      Touches env c (.finish j (.record v)) o j
        fun job => (recordVerdict (linked (detailsUrl c.config j) v) env.now job).1
  | claim {o : Outcome} {j : JobId} {job : Job} (found : c.jobs.get j = some job)
      (free : job.delivering = false) (push : o.push = [.report j {}])
      (spawned : o.spawned = []) :
      Touches env c (.finish j .claim) o j (deliveringSince env.now)
  | fetching {o : Outcome} {j : JobId} {d : Dispatch} :
      Touches env c (.drive j (.fetching d)) o j (·.tryTransitionAt .fetching env.now)
  | planning {o : Outcome} {j : JobId} {tree : VerifiedTree} :
      Touches env c (.drive j (.planning tree)) o j (·.tryTransitionAt .planning env.now)
  | install {o : Outcome} {j : JobId} {specs : List StepSpec} :
      Touches env c (.drive j (.install specs)) o j
        (installPlan env.now env.noise specs env.decisions)
  | pass {o : Outcome} {j : JobId} :
      Touches env c (.drive j .pass) o j fun job => (passJob c.config.timeouts env.now job).1
  | skip {o : Outcome} {j : JobId} {v : Verdict} {id : StepId} {rest : List StepId} :
      Touches env c (.drive j (.cancel (.skip id rest) v)) o j (skipStep id)
  | settled {p : Pump} {o : Outcome} {ticket : Ticket} {rest : List Grant}
      {result : Except NodeError String} (pc : p.pc = .settle ticket result rest) :
      Touches env c (.pump p) o ticket.grant.jobId
        fun job => (assignmentSettled env c ticket.grant.stepId result job).1
  | reported {report : StepReport} {fromNode : String} {o : Outcome} :
      Touches env c (.recordStepReport report fromNode) o report.jobId
        (HullCi.System.reported report fromNode env.now)
  | renewed {j : JobId} {stepId : StepId} {fromNode : String} {o : Outcome} :
      Touches env c (.renewLease j stepId fromNode) o j
        (HullCi.System.renewed c.config.leaseTtl stepId fromNode env.now)

/-- A section that works on the steps or the phase of a job, and on nothing it owes. -/
structure Quiet (job job' : Job) : Prop where
  verdict : job'.verdict = job.verdict
  callbackUrls : job'.callbackUrls = job.callbackUrls
  delivering : job'.delivering = job.delivering
  settledAt : job'.settledAt = job.settledAt
  state : job'.state = job.state ∨ job.state.hasVerdict = false ∧ job'.state.hasVerdict = false

theorem quiet_tryTransitionAt (job : Job) {next : JobState} (now : Instant)
    (live : next.hasVerdict = false) : Quiet job (job.tryTransitionAt next now) := by
  refine ⟨job.tryTransitionAt_verdict _ _, job.tryTransitionAt_callbackUrls _ _,
    job.tryTransitionAt_delivering _ _, ?_, ?_⟩
  · rw [Job.tryTransitionAt_eq]
    split
    · simp [JobState.isFinished, live]
    · rfl
  · rw [Job.tryTransitionAt_state]
    by_cases legal : job.state.canTransitionTo next = true
    · rw [if_pos legal]
      refine .inr ⟨?_, live⟩
      by_contra decided
      rw [Bool.not_eq_false] at decided
      rw [JobState.hasVerdict_of_canTransitionTo decided legal] at live
      cases live
    · rw [if_neg legal]
      exact .inl rfl

theorem quiet_steps (job : Job) (steps : List Step) : Quiet job { job with steps := steps } :=
  ⟨rfl, rfl, rfl, rfl, .inl rfl⟩

theorem quiet_installPlan (now : Instant) (noise : ℕ → BitVec 32) (specs : List StepSpec)
    (decisions : List MemoDecision) (job : Job) :
    Quiet job (installPlan now noise specs decisions job) := by
  have moved := quiet_tryTransitionAt job now (show JobState.running.hasVerdict = false from rfl)
  exact ⟨moved.verdict, moved.callbackUrls, moved.delivering, moved.settledAt, moved.state⟩

theorem quiet_assignmentSettled (env : Env) (c : Control) (stepId : StepId)
    (result : Except NodeError String) (job : Job) :
    Quiet job (assignmentSettled env c stepId result job).1 := by
  unfold assignmentSettled
  rcases settleAssignment_cases c.config.timeouts c.config.leaseTtl env.now stepId result job with
    same | ⟨_, _, -, -, -, same⟩
  · rw [same]
    exact quiet_steps job job.steps
  · rw [same]
    exact quiet_steps job _

theorem quiet_reported (report : StepReport) (fromNode : String) (now : Instant) (job : Job) :
    Quiet job (reported report fromNode now job) := by
  unfold reported recordStepReport
  rcases onStep_cases job report.stepId (reportStep report fromNode (job.dispatch.tenant ++ "/" ++
    job.dispatch.repo ++ "/" ++ job.dispatch.treeId ++ "/") now) with same | ⟨_, _, -, -, same⟩
  · rw [same]
    exact quiet_steps job job.steps
  · rw [same]
    exact quiet_steps job _

theorem quiet_renewed (ttl : Duration) (stepId : StepId) (fromNode : String) (now : Instant)
    (job : Job) : Quiet job (renewed ttl stepId fromNode now job) := by
  unfold renewed renewLease
  rcases onStep_cases job stepId (renewStep ttl fromNode now) with same | ⟨_, _, -, -, same⟩
  · rw [same]
    exact quiet_steps job job.steps
  · rw [same]
    exact quiet_steps job _

/-- What a section on the record of `j` does to what the job owes. -/
inductive Edit (c : Control) (f : Frame) (o : Outcome) (j : JobId) (g : Job → Job) : Prop
  | quiet (quiet : ∀ job, Quiet job (g job)) : Edit c f o j g
  | attached {urls : List String} (grows : g = addCallbackUrls urls) : Edit c f o j g
  | taken {now : Instant} (sets : g = deliveringSince now) : Edit c f o j g
  | released {now : Instant} (clears : g = deliveredAt now) : Edit c f o j g
  | settled {r : Report} {now : Instant} (own : f = .report j r) (pc : r.pc = .settle)
      (settles : g = settleReport r.attemptsTotal r.anyDelivered now) : Edit c f o j g
  | decided {v : Verdict} {now : Instant} (seen : o.observed = [.decided j v])
      (records : g = fun job => (recordVerdict v now job).1) : Edit c f o j g

theorem Touches.edit {env : Env} {c : Control} {f : Frame} {o : Outcome} {j : JobId} {g : Job → Job}
    (touches : Touches env c f o j g) : Edit c f o j g := by
  cases touches with
  | @attach a _ _ _ pc =>
    have grows : (fun job : Job => job.addCallbackUrl a.dispatch.callbackUrl) =
        addCallbackUrls [a.dispatch.callbackUrl] := rfl
    exact .attached grows
  | startReport => exact .taken rfl
  | drain => exact .taken rfl
  | merge => exact .attached rfl
  | settle pc => exact .settled rfl pc rfl
  | release => exact .released rfl
  | decide found live seen => exact .decided seen rfl
  | claim => exact .taken rfl
  | fetching => exact .quiet fun job => quiet_tryTransitionAt job _ rfl
  | planning => exact .quiet fun job => quiet_tryTransitionAt job _ rfl
  | install => exact .quiet fun job => quiet_installPlan _ _ _ _ job
  | pass => exact .quiet fun job => quiet_steps job _
  | skip => exact .quiet fun job => quiet_steps job _
  | settled => exact .quiet fun job => quiet_assignmentSettled _ _ _ _ job
  | reported => exact .quiet fun job => quiet_reported _ _ _ job
  | renewed => exact .quiet fun job => quiet_renewed _ _ _ _ job

/-- What a step does to the record of the job `j`. -/
inductive RecordMove (env : Env) (c : Control) (o : Outcome) (j : JobId) : Frame → Prop
  | same {f : Frame} (kept : o.control.jobs.get j = c.jobs.get j) : RecordMove env c o j f
  | touched {f : Frame} {g : Job → Job} (touches : Touches env c f o j g)
      (mapped : o.control.jobs.get j = (c.jobs.get j).map g) : RecordMove env c o j f
  | evicted {a : Accept} {job : Job} {t : Instant} (pc : a.pc = .evict)
      (found : c.jobs.get j = some job) (settled : job.settledAt = some t)
      (listed : j ∈ (c.jobs.evict a.now c.config.jobRetention c.config.maxJobs).2)
      (gone : o.control.jobs.get j = none) : RecordMove env c o j (.accept a)
  | rolledBack {a : Accept} (pc : a.pc = .rollbackRecord j)
      (gone : o.control.jobs.get j = none) : RecordMove env c o j (.accept a)
  | inserted {a : Accept} (pc : a.pc = .insertRecord j) (absent : c.jobs.get j = none)
      (fresh : o.control.jobs.get j =
        some (Job.new j a.dispatch a.authorClass a.now c.config.timeouts.job)) :
      RecordMove env c o j (.accept a)
  | foreign {a : Accept} {v : Verdict} (pc : a.pc = .foreign j v)
      (written : o.control.jobs.get j = some (foreignVerdict v a.now ((c.jobs.get j).getD
        (Job.new j a.dispatch a.authorClass a.now c.config.timeouts.job)))) :
      RecordMove env c o j (.accept a)

section Record

variable {env : Env} {c : Control} {o : Outcome}

/-- A section on the record of `k`, seen from `j`. -/
theorem recordMove_touch {f : Frame} {k : JobId} {g : Job → Job} {keeps : ∀ job, (g job).id = job.id}
    (touches : Touches env c f o k g) (control : o.control.jobs = (c.withJobMut k g keeps).jobs)
    (j : JobId) : RecordMove env c o j f := by
  have got : o.control.jobs.get j = if j = k then (c.jobs.get k).map g else c.jobs.get j := by
    rw [control]
    exact JobStore.get_modify c.jobs k g keeps j
  by_cases same : j = k
  · subst same
    rw [if_pos rfl] at got
    exact .touched touches got
  · rw [if_neg same] at got
    exact .same got

theorem accept_record {a : Accept} (move : AcceptMove env c a o) (j : JobId) :
    RecordMove env c o j (.accept a) := by
  cases move with
  | evict pc evicts =>
    subst evicts
    rcases JobStore.get_evict c.jobs a.now c.config.jobRetention c.config.maxJobs j with
      ⟨kept, -⟩ | ⟨⟨job, t, found, settled⟩, gone, listed⟩
    · exact .same kept
    · exact .evicted pc found settled listed gone
  | insertRecord pc =>
    rename_i k
    have got := JobStore.get_insert c.jobs k a.dispatch a.authorClass a.now c.config.timeouts.job j
    by_cases same : j = k
    · subst same
      rw [if_pos rfl] at got
      cases found : c.jobs.get j with
      | none =>
        rw [found, Option.getD_none] at got
        exact .inserted pc found got
      | some job =>
        rw [found, Option.getD_some] at got
        exact .same (got.trans found.symm)
    · rw [if_neg same] at got
      exact .same got
  | foreign pc =>
    rename_i k v
    have got := JobStore.get_modify
      (c.jobs.insert k a.dispatch a.authorClass a.now c.config.timeouts.job) k
      (foreignVerdict v a.now) (foreignVerdict_id v a.now) j
    rw [JobStore.get_insert, JobStore.get_insert, if_pos rfl] at got
    by_cases same : j = k
    · subst same
      rw [if_pos rfl, Option.map_some] at got
      exact .foreign pc got
    · rw [if_neg same, if_neg same] at got
      exact .same got
  | rollbackRecord pc =>
    rename_i k
    have got := JobStore.get_remove c.jobs k j
    by_cases same : j = k
    · subst same
      rw [if_pos rfl] at got
      exact .rolledBack pc got
    · rw [if_neg same] at got
      exact .same got
  | attachDecided pc => exact recordMove_touch (.attach pc) rfl j
  | attachLive pc => exact recordMove_touch (.attach pc) rfl j
  | startReport pc claims =>
    cases claims with
    | taken found free => exact recordMove_touch (.startReport pc found free rfl rfl) rfl j
    | busy => exact .same rfl
    | gone => exact .same rfl
  | drain pc claims =>
    cases claims with
    | taken found parked free => exact recordMove_touch (.drain pc found parked free rfl rfl) rfl j
    | skipped => exact .same rfl
  | _ => exact .same rfl

theorem report_record {k : JobId} {r : Report} (move : ReportMove env c k r o) (j : JobId) :
    RecordMove env c o j (.report k r) := by
  cases move with
  | merge pc => exact recordMove_touch (.merge pc) rfl j
  | settle pc => exact recordMove_touch (.settle pc) rfl j
  | release pc => exact recordMove_touch (.release pc rfl rfl) rfl j
  | _ => exact .same rfl

theorem finish_record {k : JobId} {pc : FinishAt} (move : FinishMove env c k pc o) (j : JobId) :
    RecordMove env c o j (.finish k pc) := by
  cases move with
  | record found live => exact recordMove_touch (.decide found live rfl) rfl j
  | claim claims =>
    cases claims with
    | taken found free => exact recordMove_touch (.claim found free rfl rfl) rfl j
    | busy => exact .same rfl
    | gone => exact .same rfl
  | _ => exact .same rfl

theorem drive_record {k : JobId} {pc : DriveAt} (move : DriveMove env c k pc o) (j : JobId) :
    RecordMove env c o j (.drive k pc) := by
  cases move with
  | fetching => exact recordMove_touch .fetching rfl j
  | planning => exact recordMove_touch .planning rfl j
  | install => exact recordMove_touch .install rfl j
  | decided => exact recordMove_touch .pass rfl j
  | late => exact recordMove_touch .pass rfl j
  | waits => exact recordMove_touch .pass rfl j
  | skip => exact recordMove_touch .skip rfl j
  | _ => exact .same rfl

theorem pump_record {p : Pump} (move : PumpMove env c p o) (j : JobId) :
    RecordMove env c o j (.pump p) := by
  cases move with
  | settled pc => exact recordMove_touch (.settled pc) rfl j
  | discarded pc => exact recordMove_touch (.settled pc) rfl j
  | _ => exact .same rfl

theorem message_record {f : Frame} (move : MessageMove env c f o) (j : JobId) :
    RecordMove env c o j f := by
  cases move with
  | reported => exact recordMove_touch .reported rfl j
  | unreported => exact recordMove_touch .reported rfl j
  | renewed => exact recordMove_touch .renewed rfl j

/-- **What the step of a frame does to the record of a job.** -/
theorem record_move {f : Frame} (stepped : f.step env c = o) (j : JobId) :
    RecordMove env c o j f := by
  have move : FrameMove env c f o := stepped ▸ frame_moves env c f
  cases move with
  | accept move => exact accept_record move j
  | drive move => exact drive_record move j
  | finish move => exact finish_record move j
  | retire move => cases move <;> exact .same rfl
  | report move => exact report_record move j
  | pump move => exact pump_record move j
  | message move => exact message_record move j

end Record

/-! ### The claim -/

/-- What a step does to the claim of the job `j`. -/
inductive ClaimMove (env : Env) (c : Control) (o : Outcome) (j : JobId) : Frame → Prop
  | same {f : Frame} (kept : o.control.claims.claims.lookup j = c.claims.claims.lookup j) :
      ClaimMove env c o j f
  | evicted {a : Accept} {ids : List JobId} (pc : a.pc = .forgetEvicted (j :: ids))
      (gone : o.control.claims.claims.lookup j = none) : ClaimMove env c o j (.accept a)
  | rolledBack {a : Accept} (pc : a.pc = .rollbackClaim j)
      (gone : o.control.claims.claims.lookup j = none) : ClaimMove env c o j (.accept a)
  | stale {a : Accept} {claim : LocalClaim} {t : ℤ} (pc : a.pc = .admission)
      (old : c.claims.stale ⟨a.dispatch.repo, a.dispatch.treeId⟩ env.nowMs
        (asMillis c.config.jobRetention) = true)
      (found : c.claims.claims.lookup j = some claim) (settled : claim.settledAtMs = some t)
      (gone : o.control.claims.claims.lookup j = none) : ClaimMove env c o j (.accept a)
  | attached {a : Accept} {claim : LocalClaim} (pc : a.pc = .admission)
      (found : c.claims.claims.lookup j = some claim)
      (grown : o.control.claims.claims.lookup j = some (claim.attach a.dispatch.callbackUrl))
      (push : o.push = a.goto (.attach j claim.verdict)) : ClaimMove env c o j (.accept a)
  | created {a : Accept} (pc : a.pc = .admission) (mine : j = env.proposed)
      (fresh : o.control.claims.claims.lookup j =
        some ⟨⟨a.dispatch.repo, a.dispatch.treeId⟩, [a.dispatch.callbackUrl], none, none, ∅⟩)
      (push : o.push = a.goto (.insertLease ⟨env.proposed, localOwner, 0⟩)) :
      ClaimMove env c o j (.accept a)
  | settled {k : JobId} {lease : DriveLease} {v : Verdict} (own : lease.jobId = j)
      (published : o.control.claims.claims.lookup j = (c.claims.claims.lookup j).map fun claim =>
        { claim with verdict := some v, settledAtMs := some env.nowMs }) :
      ClaimMove env c o j (.finish k (.settle lease v))
  | granted {p : Pump} {ticket : Ticket} {lease : DriveLease} {rest : List Grant}
      {claim : LocalClaim} (pc : p.pc = .claim ticket lease rest) (own : lease.jobId = j)
      (found : c.claims.claims.lookup j = some claim) (free : ticket.grant.stepId ∉ claim.steps)
      (taken : o.control.claims.claims.lookup j =
        some { claim with steps := insert ticket.grant.stepId claim.steps }) :
      ClaimMove env c o j (.pump p)
  | released {p : Pump} {ticket : Ticket} {lease : DriveLease} {rest : List Grant}
      (pc : p.pc = .releaseStep ticket lease rest) (own : lease.jobId = j)
      (freed : o.control.claims.claims.lookup j = (c.claims.claims.lookup j).map fun claim =>
        { claim with steps := claim.steps.erase ticket.grant.stepId }) :
      ClaimMove env c o j (.pump p)

section Claim

variable {env : Env} {c : Control} {o : Outcome}

theorem accept_claim {a : Accept} (move : AcceptMove env c a o) (j : JobId) :
    ClaimMove env c o j (.accept a) := by
  have admission := LocalClaims.admit_lookup c.claims ⟨a.dispatch.repo, a.dispatch.treeId⟩
    env.proposed a.dispatch.callbackUrl env.nowMs (asMillis c.config.jobRetention) j
  cases move with
  | forget pc =>
    rename_i id ids
    have got := LocalClaims.lookup_forget c.claims id j
    by_cases same : j = id
    · subst same
      rw [if_pos rfl] at got
      exact .evicted pc got
    · rw [if_neg same] at got
      exact .same got
  | rollbackClaim pc =>
    rename_i id
    have got := LocalClaims.lookup_forget c.claims id j
    by_cases same : j = id
    · subst same
      rw [if_pos rfl] at got
      exact .rolledBack pc got
    · rw [if_neg same] at got
      exact .same got
  | created pc admits =>
    rw [admits] at admission
    cases admission with
    | same other kept => exact .same kept
    | dropped old other found settled gone => exact .stale pc old found settled gone
    | created mine fresh => exact .created pc mine fresh rfl
  | attached pc admits =>
    rw [admits] at admission
    cases admission with
    | same other kept => exact .same kept
    | attached found grown => exact .attached pc found grown rfl
    | dropped old other found settled gone => exact .stale pc old found settled gone
  | startReport pc claims => exact .same (by rw [claims.frame])
  | drain pc claims => exact .same (by rw [claims.frame])
  | _ => exact .same rfl

theorem finish_claim {k : JobId} {pc : FinishAt} (move : FinishMove env c k pc o) (j : JobId) :
    ClaimMove env c o j (.finish k pc) := by
  cases move with
  | settle =>
    rename_i lease v
    have got := LocalClaims.lookup_settle c.claims lease v env.nowMs j
    by_cases same : j = lease.jobId
    · subst same
      rw [if_pos rfl] at got
      exact .settled rfl got
    · rw [if_neg same] at got
      exact .same got
  | claim claims => exact .same (by rw [claims.frame])
  | _ => exact .same rfl

theorem pump_claim {p : Pump} (move : PumpMove env c p o) (j : JobId) :
    ClaimMove env c o j (.pump p) := by
  cases move with
  | granted pc found free =>
    rename_i ticket rest lease claim
    have got := Table.lookup_insert c.claims.claims lease.jobId
      { claim with steps := insert ticket.grant.stepId claim.steps } j
    by_cases same : j = lease.jobId
    · subst same
      rw [if_pos rfl] at got
      exact .granted pc rfl found free got
    · rw [if_neg same] at got
      exact .same got
  | releaseStep pc =>
    rename_i ticket rest lease
    have got := LocalClaims.lookup_releaseStep c.claims lease ticket.grant.stepId j
    by_cases same : j = lease.jobId
    · subst same
      rw [if_pos rfl] at got
      exact .released pc rfl got
    · rw [if_neg same] at got
      exact .same got
  | _ => exact .same rfl

/-- **What the step of a frame does to the claim of a job.** -/
theorem claim_move {f : Frame} (stepped : f.step env c = o) (j : JobId) :
    ClaimMove env c o j f := by
  have move : FrameMove env c f o := stepped ▸ frame_moves env c f
  cases move with
  | accept move => exact accept_claim move j
  | drive move => cases move <;> exact .same rfl
  | finish move => exact finish_claim move j
  | retire move => cases move <;> exact .same rfl
  | report move => cases move <;> exact .same rfl
  | pump move => exact pump_claim move j
  | message move => cases move <;> exact .same rfl

end Claim

/-! ### The journal entry -/

/-- What a step does to the journal entry of the job `j`. -/
inductive EntryMove (env : Env) (c : Control) (o : Outcome) (j : JobId) : Frame → Prop
  | same {f : Frame} (kept : o.control.journal.get j = c.journal.get j)
      (silent : ∀ intent : JobIntent, intent.jobId = j → .journaled intent ∉ o.observed)
      (unforgotten : .forgot j ∉ o.observed) : EntryMove env c o j f
  | accepted {a : Accept} {intent : JobIntent} {next : AcceptNext}
      (pc : a.pc = .record intent next) (own : intent.jobId = j) (durable : env.journaled = true)
      (written : o.control.journal.get j = some intent)
      (push : o.push = a.goto (.start j next)) (seen : o.observed = [.journaled intent]) :
      EntryMove env c o j (.accept a)
  | decided {k : JobId} {intent : JobIntent} (own : intent.jobId = j)
      (durable : env.journaled = true) (written : o.control.journal.get j = some intent)
      (push : o.push = [.finish k .retire]) (seen : o.observed = [.journaled intent]) :
      EntryMove env c o j (.finish k (.journal intent))
  | forgotten {r : Report} (pc : r.pc = .forget) (gone : o.control.journal.get j = none)
      (seen : o.observed = [.forgot j]) : EntryMove env c o j (.report j r)

section Entry

variable {env : Env} {c : Control} {o : Outcome}

theorem accept_entry {a : Accept} (move : AcceptMove env c a o) (j : JobId) :
    EntryMove env c o j (.accept a) := by
  cases move with
  | recorded pc durable =>
    rename_i intent next
    have got := Journal.get_record c.journal intent j
    by_cases same : j = intent.jobId
    · subst same
      rw [if_pos rfl] at got
      exact .accepted pc rfl durable got rfl rfl
    · rw [if_neg same] at got
      refine .same got (fun other own seen => ?_) (by simp)
      rw [List.mem_singleton, Obs.journaled.injEq] at seen
      exact same (seen ▸ own.symm)
  | startReport pc claims =>
    exact .same (by rw [claims.frame]) (by simp) (by simp)
  | drain pc claims =>
    exact .same (by rw [claims.frame]) (by simp) (by simp)
  | _ => exact .same rfl (by simp) (by simp)

theorem finish_entry {k : JobId} {pc : FinishAt} (move : FinishMove env c k pc o) (j : JobId) :
    EntryMove env c o j (.finish k pc) := by
  cases move with
  | journaled durable =>
    rename_i intent
    have got := Journal.get_record c.journal intent j
    by_cases same : j = intent.jobId
    · subst same
      rw [if_pos rfl] at got
      exact .decided rfl durable got rfl rfl
    · rw [if_neg same] at got
      refine .same got (fun other own seen => ?_) (by simp)
      rw [List.mem_singleton, Obs.journaled.injEq] at seen
      exact same (seen ▸ own.symm)
  | claim claims =>
    exact .same (by rw [claims.frame]) (by simp) (by simp)
  | _ => exact .same rfl (by simp) (by simp)

theorem report_entry {k : JobId} {r : Report} (move : ReportMove env c k r o) (j : JobId) :
    EntryMove env c o j (.report k r) := by
  cases move with
  | forget pc =>
    have got := Journal.get_forget c.journal k j
    by_cases same : j = k
    · subst same
      rw [if_pos rfl] at got
      exact .forgotten pc got rfl
    · rw [if_neg same] at got
      refine .same got (by simp) fun seen => ?_
      rw [List.mem_singleton, Obs.forgot.injEq] at seen
      exact same seen
  | _ => exact .same rfl (by simp) (by simp)

theorem pump_entry {p : Pump} (move : PumpMove env c p o) (j : JobId) :
    EntryMove env c o j (.pump p) := by
  cases move with
  | select =>
    refine .same rfl (fun intent own seen => ?_) fun seen => ?_
    · obtain ⟨_, _, _, -, -, -, -, shown⟩ := mem_offers seen
      cases shown
    · obtain ⟨_, _, _, -, -, -, -, shown⟩ := mem_offers seen
      cases shown
  | _ => exact .same rfl (by simp) (by simp)

/-- **What the step of a frame does to the journal entry of a job.** -/
theorem entry_move {f : Frame} (stepped : f.step env c = o) (j : JobId) :
    EntryMove env c o j f := by
  have move : FrameMove env c f o := stepped ▸ frame_moves env c f
  cases move with
  | accept move => exact accept_entry move j
  | drive move => cases move <;> exact .same rfl (by simp) (by simp)
  | finish move => exact finish_entry move j
  | retire move => cases move <;> exact .same rfl (by simp) (by simp)
  | report move => exact report_entry move j
  | pump move => exact pump_entry move j
  | message move => cases move <;> exact .same rfl (by simp) (by simp)

end Entry

/-! ### What accept leaves -/

/-- A step of an accept leaves the accept, a report it claimed, or the drive it starts. -/
theorem accept_leaves {env : Env} {c : Control} {a : Accept} {o : Outcome}
    (move : AcceptMove env c a o) {g : Frame} (member : g ∈ o.push ++ o.spawned) :
    (∃ pc, g = .accept { a with pc := pc }) ∨ (∃ k, g = .report k {}) ∨
      ∃ k, g = .drive k .start ∧ a.pc = .start k .drive := by
  have reports : ∀ {claimed : Bool} {k : JobId},
      g ∈ (if claimed then [Frame.report k {}] else []) → ∃ k, g = .report k {} := by
    intro claimed k spawned
    cases claimed with
    | false => cases spawned
    | true => exact ⟨k, List.mem_singleton.mp spawned⟩
  cases move with
  | startDrive pc =>
    rcases List.mem_append.mp member with own | spawned
    · exact .inl ⟨_, List.mem_singleton.mp own⟩
    · exact .inr (.inr ⟨_, List.mem_singleton.mp spawned, pc⟩)
  | startReport pc claims =>
    rcases List.mem_append.mp member with own | spawned
    · exact .inl ⟨_, List.mem_singleton.mp own⟩
    · exact .inr (.inl (reports spawned))
  | drain pc claims =>
    rcases List.mem_append.mp member with own | spawned
    · exact .inl ⟨_, List.mem_singleton.mp own⟩
    · exact .inr (.inl (reports spawned))
  | attachRefused => cases member
  | rollbackClaim => cases member
  | drained => cases member
  | _ => exact .inl ⟨_, List.mem_singleton.mp member⟩

/-- Only an accept leaves an accept: itself, at another point. -/
theorem leaves_accept {env : Env} {c : Control} {f : Frame} {o : Outcome}
    (stepped : f.step env c = o) {a' : Accept} (member : Frame.accept a' ∈ o.push ++ o.spawned) :
    ∃ a, f = .accept a ∧ AcceptMove env c a o ∧ a' = { a with pc := a'.pc } ∧
      .accept a' ∈ o.push := by
  have move : FrameMove env c f o := stepped ▸ frame_moves env c f
  cases move with
  | accept move =>
    rename_i a
    refine ⟨a, rfl, move, ?_⟩
    cases move with
    | startReport pc claims => cases claims <;> simp_all [Accept.goto]
    | drain pc claims => cases claims <;> simp_all [Accept.goto]
    | _ => simp_all [Accept.goto]
  | finish move =>
    cases move with
    | claim claims => cases claims <;> simp at member
    | _ => simp at member
  | drive move => cases move <;> simp at member
  | retire move => cases move <;> simp at member
  | report move => cases move <;> simp at member
  | pump move => cases move <;> simp [Pump.goto] at member
  | message move => cases move <;> simp at member

/-! ### What is seen -/

/-- What can be seen of a step, by the frame that runs. -/
inductive Seen (env : Env) (c : Control) (o : Outcome) : Frame → Obs → Prop
  | attached {a : Accept} {j : JobId} {verdict : Option Verdict} (pc : a.pc = .attach j verdict) :
      Seen env c o (.accept a) (.attached j a.dispatch.callbackUrl)
  | acked {a : Accept} {j : JobId} {next : AcceptNext} {now : Instant}
      (pc : a.pc = .drain j next now []) :
      Seen env c o (.accept a) (.acked j a.dispatch.callbackUrl next)
  | refused {a : Accept} : Seen env c o (.accept a) (.refused a.dispatch.callbackUrl)
  | decided {j : JobId} {v : Verdict} {job : Job} (found : c.jobs.get j = some job)
      (live : job.state.hasVerdict = false) (push : o.push = [.finish j .decided]) :
      Seen env c o (.finish j (.record v)) (.decided j (linked (detailsUrl c.config j) v))
  | surveyed {j : JobId} {r : Report} {job : Job} {v : Verdict} (pc : r.pc = .read)
      (found : c.jobs.get j = some job) (decided : job.verdict = some v)
      (push : o.push = [.report j r.done] ∧ requests c job v r.attempted = [] ∨
        ∃ req rest, o.push = [.report j (r.posting req rest)] ∧
          requests c job v r.attempted = req :: rest) :
      Seen env c o (.report j r) (.surveyed j job.callbackUrls)
  | posted {j : JobId} {r : Report} {req : CallbackRequest} {attempt : ℕ}
      {rest : List CallbackRequest} (pc : r.pc = .post req attempt rest) :
      Seen env c o (.report j r) (.posted req (env.posted.any isSuccess))
  | accepted {a : Accept} {intent : JobIntent} {next : AcceptNext}
      (pc : a.pc = .record intent next) : Seen env c o (.accept a) (.journaled intent)
  | finished {j : JobId} {intent : JobIntent} (push : o.push = [.finish j .retire]) :
      Seen env c o (.finish j (.journal intent)) (.journaled intent)
  | forgot {j : JobId} {r : Report} (pc : r.pc = .forget) : Seen env c o (.report j r) (.forgot j)
  | offered {p : Pump} {j : JobId} {job : Job} {s : Step} (pc : p.pc = .select)
      (asked : p.onBehalfOf = some j) (found : c.jobs.get j = some job) (held : s ∈ job.steps)
      (ready : s.state = .ready) : Seen env c o (.pump p) (.offered j s.id)
  | assigned {p : Pump} {ticket : Ticket} {lease : DriveLease} {rest : List Grant} {node : String}
      (pc : p.pc = .assign ticket lease rest) (answer : env.assigned = .ok node)
      (push : o.push = p.goto (.settle ticket (.ok node) rest)) :
      Seen env c o (.pump p) (.assigned ticket.grant.jobId ticket.grant.stepId)
  | leased {p : Pump} {ticket : Ticket} {rest : List Grant} {node : String} {job : Job}
      (pc : p.pc = .settle ticket (.ok node) rest)
      (found : c.jobs.get ticket.grant.jobId = some job)
      (moved : (assignmentSettled env c ticket.grant.stepId (.ok node) job).2 = true) :
      Seen env c o (.pump p) (.leased ticket.grant.jobId ticket.grant.stepId)
  | cancelled {j : JobId} {id : StepId} {rest : List StepId} {v : Verdict} :
      Seen env c o (.drive j (.cancel (.send id rest) v)) (.cancelled j id)
  | reported {report : StepReport} {fromNode : String} :
      Seen env c o (.recordStepReport report fromNode) (.reported report.jobId report.stepId)

theorem Seen.single {env : Env} {c : Control} {o : Outcome} {f : Frame} {x y : Obs}
    (is : Seen env c o f y) (seen : x ∈ [y]) : Seen env c o f x := by
  rw [List.mem_singleton.mp seen]
  exact is

/-- **What is seen of the step of a frame.** -/
theorem seen_move {env : Env} {c : Control} {o : Outcome} {f : Frame} (stepped : f.step env c = o)
    {x : Obs} (seen : x ∈ o.observed) : Seen env c o f x := by
  have move : FrameMove env c f o := stepped ▸ frame_moves env c f
  cases move with
  | accept move =>
    cases move with
    | attachDecided pc => exact Seen.single (.attached pc) seen
    | attachLive pc => exact Seen.single (.attached pc) seen
    | attachForeign pc => exact Seen.single (.attached pc) seen
    | attachElsewhere pc => exact Seen.single (.attached pc) seen
    | recorded pc => exact Seen.single (.accepted pc) seen
    | attachRefused => exact Seen.single .refused seen
    | rollbackClaim => exact Seen.single .refused seen
    | drained pc => exact Seen.single (.acked pc) seen
    | _ => cases seen
  | drive move =>
    cases move with
    | send => exact Seen.single .cancelled seen
    | _ => cases seen
  | finish move =>
    cases move with
    | record found live => exact Seen.single (.decided found live rfl) seen
    | journaled => exact Seen.single (.finished rfl) seen
    | _ => cases seen
  | retire move => cases move <;> cases seen
  | report move =>
    cases move with
    | readDone pc found decided empty =>
      exact Seen.single (.surveyed pc found decided (.inl ⟨rfl, empty⟩)) seen
    | read pc found decided some =>
      exact Seen.single (.surveyed pc found decided (.inr ⟨_, _, rfl, some⟩)) seen
    | retry pc => exact Seen.single (.posted pc) seen
    | postedLast pc => exact Seen.single (.posted pc) seen
    | posted pc => exact Seen.single (.posted pc) seen
    | forget pc => exact Seen.single (.forgot pc) seen
    | _ => cases seen
  | pump move =>
    cases move with
    | select pc =>
      obtain ⟨j, job, s, asked, found, held, ready, rfl⟩ := mem_offers seen
      exact .offered pc asked found held ready
    | accepted pc answer => exact Seen.single (.assigned pc answer rfl) seen
    | settled pc found moved => exact Seen.single (.leased pc found moved) seen
    | _ => cases seen
  | message move =>
    cases move with
    | reported => exact Seen.single .reported seen
    | _ => cases seen

end HullCi.System
