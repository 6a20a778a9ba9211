/-
**A job in the making is known to its creator only.**

The accept that creates a job claims it, files its record and journals it before it starts the
drive. Until then nobody works for the job, its record is blank and its claim unsettled; and since
ids are drawn once, a job has one creator.

* `kin_move` — which frames of a job a step can leave.
* `born_fires` — every step keeps new jobs blank.
* `born` — so they are in every state of every run.
-/

import HullCi.System.Effects

namespace HullCi.System

open HullCi.Proto HullCi.Base HullCi.Control

/-! ### Creators and followers -/

/-- The point of an accept that has created `j` and not started its drive. -/
def creatingAt (j : JobId) : AcceptAt → Bool
  | .insertLease lease => lease.jobId = j
  | .insertRecord k => k = j
  | .snapshot k .drive => k = j
  | .record intent .drive => intent.jobId = j
  | .rollbackRecord k => k = j
  | .rollbackLease k => k = j
  | .rollbackClaim k => k = j
  | .start k .drive => k = j
  | _ => false

/-- The point of an accept that holds the verdict of `j`, or is to send it again. -/
def answeringAt (j : JobId) : AcceptAt → Bool
  | .attach k (some _) => k = j
  | .foreign k _ => k = j
  | .snapshot k .reReport => k = j
  | .record intent .reReport => intent.jobId = j
  | .start k .reReport => k = j
  | _ => false

def creating (j : JobId) : Frame → Bool
  | .accept a => creatingAt j a.pc
  | _ => false

/-- The frame works for a job that was started. -/
def following (j : JobId) : Frame → Bool
  | .accept a => answeringAt j a.pc
  | .drive k _ => k = j
  | .finish k (.settle lease _) => k = j ∨ lease.jobId = j
  | .finish k _ => k = j
  | .retire k _ => k = j
  | .report k _ => k = j
  | _ => false

/-- The job an accept has created and not filed. -/
def unfiledAt : AcceptAt → Option JobId
  | .insertLease lease => some lease.jobId
  | .insertRecord k => some k
  | _ => none

theorem unfiled_creating {j : JobId} {pc : AcceptAt} (unfiled : unfiledAt pc = some j) :
    creatingAt j pc = true := by
  unfold unfiledAt at unfiled
  split at unfiled <;> simp_all [creatingAt]

def creators (w : World) (j : JobId) : ℕ :=
  w.frames.countP (creating j)

def followers (w : World) (j : JobId) : ℕ :=
  w.frames.countP (following j)

theorem following_finish {j : JobId} {pc : FinishAt} : following j (.finish j pc) = true := by
  cases pc <;> simp [following]

/-! ### Which frames of a job a step can leave -/

/-- The frames of `j` among those a step leaves. -/
inductive KinMove (env : Env) (c : Control) (j : JobId) (f : Frame) (new : List Frame) : Prop
  | none (uncreated : new.countP (creating j) = 0) (unfollowed : new.countP (following j) = 0)
  | creates (creator : creating j f = true) (single : new.countP (creating j) = 1)
      (unfollowed : new.countP (following j) = 0)
  | follows (follower : following j f = true) (uncreated : new.countP (creating j) = 0)
  | starts (creator : creating j f = true) (uncreated : new.countP (creating j) = 0)
  | mints (mine : j = env.proposed) (idle : creating j f = false)
      (single : new.countP (creating j) = 1) (unfollowed : new.countP (following j) = 0)
  | answers {claim : LocalClaim} {v : Verdict} (found : c.claims.claims.lookup j = some claim)
      (settled : claim.verdict = some v) (uncreated : new.countP (creating j) = 0)
  | resends {job : Job} (found : c.jobs.get j = some job) (finished : job.state.hasVerdict = true)
      (uncreated : new.countP (creating j) = 0)

section Kin

variable {env : Env} {c : Control} {j : JobId} {f : Frame}

/-- One frame in the place of another, of the same kind or of none. -/
theorem KinMove.one {g : Frame} (creates : creating j g = true → creating j f = true)
    (follows : following j g = true → following j f = true)
    (apart : creating j g = true → following j g = false) : KinMove env c j f [g] := by
  by_cases creator : creating j g = true
  · exact .creates (creates creator) (by simp [creator]) (by simp [apart creator])
  · by_cases follower : following j g = true
    · exact .follows (follows follower) (by simp [creator])
    · exact .none (by simp [creator]) (by simp [follower])

theorem apart_accept (a : Accept) (creator : creating j (.accept a) = true) :
    following j (.accept a) = false := by
  unfold creating creatingAt at creator
  unfold following answeringAt
  dsimp only at creator ⊢
  split at creator <;> simp_all

theorem KinMove.goto {a : Accept} {pc : AcceptAt} {new : List Frame} (left : new = a.goto pc)
    (creates : creatingAt j pc = true → creatingAt j a.pc = true)
    (answers : answeringAt j pc = true → answeringAt j a.pc = true) :
    KinMove env c j (.accept a) new := by
  subst left
  exact .one (g := .accept { a with pc := pc }) creates answers (apart_accept _)

theorem accept_kin {a : Accept} {o : Outcome} (move : AcceptMove env c a o) :
    KinMove env c j (.accept a) (o.push ++ o.spawned) := by
  cases move with
  | created pc admits =>
    rename_i claims lease
    obtain same := LocalClaims.admit_created admits
    by_cases mine : j = env.proposed
    · refine .mints mine ?_ ?_ ?_
      · simp [creating, pc, creatingAt]
      · simp [Accept.goto, creating, creatingAt, same, mine]
      · simp [Accept.goto, following, answeringAt]
    · refine .none ?_ ?_
      · simp [Accept.goto, creating, creatingAt, same, Ne.symm mine]
      · simp [Accept.goto, following, answeringAt]
  | attached pc admits =>
    rename_i claims k owner verdict
    obtain ⟨claim, found, settled, -⟩ := LocalClaims.admit_attached admits
    have uncreated : (a.goto (.attach k verdict) ++ []).countP (creating j) = 0 := by
      simp [Accept.goto, creating, creatingAt]
    cases verdict with
    | none => exact .none uncreated (by simp [Accept.goto, following, answeringAt])
    | some v =>
      by_cases same : k = j
      · subst same
        exact .answers found settled uncreated
      · exact .none uncreated (by simp [Accept.goto, following, answeringAt, same])
  | attachDecided pc found finished =>
    rename_i k verdict job decided
    have uncreated : (a.goto (.start k .reReport) ++ []).countP (creating j) = 0 := by
      simp [Accept.goto, creating, creatingAt]
    by_cases same : k = j
    · subst same
      exact .resends found finished uncreated
    · exact .none uncreated (by simp [Accept.goto, following, answeringAt, same])
  | snapshotGone pc =>
    rename_i k next absent
    refine .goto (by rw [List.append_nil]) ?_ ?_ <;>
      cases next <;> simp [creatingAt, answeringAt, pc]
  | snapshot pc found =>
    rename_i k next job
    have own : job.id = k := JobStore.id_of_get found
    refine .goto (by rw [List.append_nil]) ?_ ?_ <;>
      cases next <;> simp [creatingAt, answeringAt, pc, intentFrom, own]
  | recorded pc =>
    rename_i intent next durable
    refine .goto (by rw [List.append_nil]) ?_ ?_ <;>
      cases next <;> simp [creatingAt, answeringAt, pc]
  | startDrive pc =>
    rename_i k
    by_cases same : k = j
    · subst same
      exact .starts (by simp [creating, pc, creatingAt]) (by
        simp [Accept.goto, creating, creatingAt])
    · exact .none (by simp [Accept.goto, creating, creatingAt])
        (by simp [Accept.goto, following, answeringAt, same])
  | startReport pc claims =>
    rename_i k out
    by_cases same : k = j
    · subst same
      refine .follows (by simp [following, pc, answeringAt]) ?_
      cases out.2 <;> simp [Accept.goto, creating, creatingAt]
    · refine .none ?_ ?_ <;>
        cases out.2 <;> simp [Accept.goto, creating, creatingAt, following, answeringAt, same]
  | drain pc claims =>
    rename_i _ id _ _ _ _
    cases claims with
    | taken found parked free =>
      by_cases same : id = j
      · subst same
        exact .resends found (by rw [parked]; rfl) (by simp [Accept.goto, creating, creatingAt])
      · refine .none ?_ ?_ <;>
          simp [Accept.goto, creating, creatingAt, following, answeringAt, same]
    | skipped => exact .goto rfl (by simp [creatingAt]) (by simp [answeringAt])
  | attachRefused => exact .none rfl rfl
  | rollbackClaim => exact .none rfl rfl
  | drained => exact .none rfl rfl
  | _ => exact .goto (by rw [List.append_nil]) (by simp [creatingAt, *]) (by simp [answeringAt, *])

theorem finish_kin {k : JobId} {pc : FinishAt} {o : Outcome} (move : FinishMove env c k pc o) :
    KinMove env c j (.finish k pc) (o.push ++ o.spawned) := by
  have uncreated : (o.push ++ o.spawned).countP (creating j) = 0 := by
    cases move with
    | claim claims => cases claims <;> simp [creating]
    | _ => simp [creating]
  by_cases same : k = j
  · subst same
    exact .follows following_finish uncreated
  · refine .none uncreated ?_
    cases move with
    | leased held => simp [following, same, Leases.jobId_of_get held]
    | claim claims => cases claims <;> simp [following, same]
    | _ => simp [following, same]

theorem drive_kin {k : JobId} {pc : DriveAt} {o : Outcome} (move : DriveMove env c k pc o) :
    KinMove env c j (.drive k pc) (o.push ++ o.spawned) := by
  have uncreated : (o.push ++ o.spawned).countP (creating j) = 0 := by
    cases move <;> simp [creating]
  by_cases same : k = j
  · subst same
    exact .follows (by simp [following]) uncreated
  · exact .none uncreated (by cases move <;> simp [following, same])

theorem retire_kin {k : JobId} {pc : RetireAt} {o : Outcome} (move : RetireMove env c k pc o) :
    KinMove env c j (.retire k pc) (o.push ++ o.spawned) := by
  have uncreated : (o.push ++ o.spawned).countP (creating j) = 0 := by
    cases move <;> simp [creating]
  by_cases same : k = j
  · subst same
    exact .follows (by simp [following]) uncreated
  · exact .none uncreated (by cases move <;> simp [following, same])

theorem report_kin {k : JobId} {r : Report} {o : Outcome} (move : ReportMove env c k r o) :
    KinMove env c j (.report k r) (o.push ++ o.spawned) := by
  have uncreated : (o.push ++ o.spawned).countP (creating j) = 0 := by
    cases move <;> simp [creating]
  by_cases same : k = j
  · subst same
    exact .follows (by simp [following]) uncreated
  · exact .none uncreated (by cases move <;> simp [following, same])

/-- **Which frames of a job a step can leave.** -/
theorem kin_move {o : Outcome} (stepped : f.step env c = o) (j : JobId) :
    KinMove env c j f (o.push ++ o.spawned) := by
  have move : FrameMove env c f o := stepped ▸ frame_moves env c f
  cases move with
  | accept move => exact accept_kin move
  | drive move => exact drive_kin move
  | finish move => exact finish_kin move
  | retire move => exact retire_kin move
  | report move => exact report_kin move
  | pump move =>
    refine .none ?_ ?_ <;> cases move <;> simp [Pump.goto, creating, following]
  | message move => refine .none ?_ ?_ <;> cases move <;> rfl

end Kin

/-! ### What a new job looks like -/

/-- A record nobody has worked on. -/
structure Unstarted (job : Job) : Prop where
  queued : job.state = .queued
  stepless : job.steps = []
  undecided : job.verdict = none
  idle : job.delivering = false
  unsettled : job.settledAt = none

theorem unstarted_new (id : JobId) (d : Dispatch) (a : AuthorClass) (now : Instant)
    (timeout : Duration) : Unstarted (Job.new id d a now timeout) :=
  ⟨rfl, rfl, rfl, rfl, rfl⟩

theorem Unstarted.step_eq_none {job : Job} (blank : Unstarted job) (id : StepId) :
    job.step id = none := by
  unfold Job.step
  rw [blank.stepless]
  rfl

theorem Unstarted.addCallbackUrl {job : Job} (blank : Unstarted job) (url : String) :
    Unstarted (job.addCallbackUrl url) := by
  unfold Job.addCallbackUrl
  split
  · exact blank
  · exact ⟨blank.queued, blank.stepless, blank.undecided, blank.idle, blank.unsettled⟩

theorem Unstarted.touched {env : Env} {c : Control} {f : Frame} {o : Outcome} {j : JobId}
    {g : Job → Job} {job : Job} (blank : Unstarted job) (found : c.jobs.get j = some job)
    (stranger : following j f = false) (touches : Touches env c f o j g) :
    Unstarted (g job) := by
  cases touches with
  | attach => exact blank.addCallbackUrl _
  | startReport pc => simp [following, pc, answeringAt] at stranger
  | drain pc found' parked =>
    rw [found, Option.some.injEq] at found'
    rw [← found', blank.queued] at parked
    cases parked
  | merge => simp [following] at stranger
  | settle => simp [following] at stranger
  | release => simp [following] at stranger
  | decide => simp [following] at stranger
  | claim => simp [following] at stranger
  | fetching => simp [following] at stranger
  | planning => simp [following] at stranger
  | install => simp [following] at stranger
  | pass => simp [following] at stranger
  | skip => simp [following] at stranger
  | settled pc =>
    rename_i p ticket rest result
    have same : (assignmentSettled env c ticket.grant.stepId result job).1 = job := by
      rcases settleAssignment_cases c.config.timeouts c.config.leaseTtl env.now
        ticket.grant.stepId result job with same | ⟨s, _, known, -⟩
      · exact congrArg Prod.fst same
      · rw [blank.step_eq_none] at known
        cases known
    show Unstarted (assignmentSettled env c ticket.grant.stepId result job).1
    rw [same]
    exact blank
  | reported =>
    rename_i report fromNode
    rcases onStep_cases job report.stepId _ with same | ⟨s, _, known, -⟩
    · show Unstarted ((recordStepReport report fromNode env.now job).toOption.getD job)
      rw [show (recordStepReport report fromNode env.now job).toOption.getD job = job from same]
      exact blank
    · rw [blank.step_eq_none] at known
      cases known
  | renewed =>
    rename_i stepId fromNode
    rcases onStep_cases job stepId _ with same | ⟨s, _, known, -⟩
    · show Unstarted ((renewLease c.config.leaseTtl stepId fromNode env.now job).toOption.getD job)
      rw [show (renewLease c.config.leaseTtl stepId fromNode env.now job).toOption.getD job = job
        from same]
      exact blank
    · rw [blank.step_eq_none] at known
      cases known

/-! ### The invariant -/

/-- **A job in the making is known to its creator only.** -/
structure Born (w : World) (j : JobId) : Prop where
  unheard : j ∉ w.minted → creators w j = 0 ∧ followers w j = 0 ∧
    w.control.jobs.get j = none ∧ w.control.claims.claims.lookup j = none
  single : creators w j ≤ 1
  alone : 0 < creators w j → followers w j = 0
  unfiled : ∀ a, .accept a ∈ w.frames → unfiledAt a.pc = some j → w.control.jobs.get j = none
  blank : 0 < creators w j → ∀ job, w.control.jobs.get j = some job → Unstarted job
  unsettled : 0 < creators w j → ∀ claim, w.control.claims.claims.lookup j = some claim →
    claim.verdict = none ∧ claim.settledAtMs = none

theorem born_init (config : ControlConfig) (j : JobId) : Born (.init config) j where
  unheard := fun _ => ⟨rfl, rfl, rfl, rfl⟩
  single := Nat.zero_le 1
  alone := fun some => absurd some (Nat.lt_irrefl 0)
  unfiled := fun _ member => by cases member
  blank := fun some => absurd some (Nat.lt_irrefl 0)
  unsettled := fun some => absurd some (Nat.lt_irrefl 0)

theorem born_call {w : World} {j : JobId} (call : Call) (born : Born w j) :
    Born (w.step (.call call)) j := by
  have same : creators (w.step (.call call)) j = creators w j ∧
      followers (w.step (.call call)) j = followers w j := by
    unfold creators followers
    rw [World.frames_call, List.countP_append, List.countP_append]
    cases call <;> exact ⟨rfl, rfl⟩
  obtain ⟨created, followed⟩ := same
  constructor
  · rw [created, followed]
    exact born.unheard
  · rw [created]
    exact born.single
  · rw [created, followed]
    exact born.alone
  · intro a member unfiled
    rw [World.frames_call] at member
    rcases List.mem_append.mp member with old | new
    · exact born.unfiled a old unfiled
    · cases call with
      | accept dispatch authorClass now =>
        obtain rfl := Frame.accept.inj (List.mem_singleton.mp new)
        cases unfiled
      | _ => cases List.mem_singleton.mp new
  · rw [created]
    exact born.blank
  · rw [created]
    exact born.unsettled

section Step

variable {w w' : World} {env : Env} {f : Frame} {o : Outcome} {others : List Frame} {j : JobId}

theorem creators_fires (fires : World.Fires w env f o others w') :
    creators w' j + [f].countP (creating j) =
      creators w j + (o.push ++ o.spawned).countP (creating j) :=
  fires.frames.count _

theorem followers_fires (fires : World.Fires w env f o others w') :
    followers w' j + [f].countP (following j) =
      followers w j + (o.push ++ o.spawned).countP (following j) :=
  fires.frames.count _

theorem creators_pos (fires : World.Fires w env f o others w') (creator : creating j f = true) :
    0 < creators w j :=
  List.countP_pos_iff.mpr ⟨f, fires.frames.mem_before, creator⟩

theorem followers_pos (fires : World.Fires w env f o others w')
    (follower : following j f = true) : 0 < followers w j :=
  List.countP_pos_iff.mpr ⟨f, fires.frames.mem_before, follower⟩

/-- The frame of a stranger neither creates `j` nor follows it. -/
theorem Born.stranger (born : Born w j) (fires : World.Fires w env f o others w')
    (some : 0 < creators w j) : following j f = false := by
  have none := born.alone some
  by_contra follower
  have some := followers_pos fires (by simpa using follower)
  omega

theorem Born.blank_record (born : Born w j) (fires : World.Fires w env f o others w')
    (making : 0 < creators w j) {job : Job} (found : w'.control.jobs.get j = some job) :
    Unstarted job := by
  have stranger := born.stranger fires making
  rw [fires.control] at found
  cases record_move fires.stepped j with
  | same kept => exact born.blank making job (kept ▸ found)
  | touched touches mapped =>
    rw [mapped] at found
    obtain ⟨before, known, rfl⟩ := Option.map_eq_some_iff.mp found
    exact (born.blank making before known).touched known stranger touches
  | evicted _ _ _ _ gone =>
    rw [gone] at found
    cases found
  | rolledBack _ gone =>
    rw [gone] at found
    cases found
  | inserted _ _ fresh =>
    rw [fresh, Option.some.injEq] at found
    rw [← found]
    exact unstarted_new _ _ _ _ _
  | foreign pc => simp [following, pc, answeringAt] at stranger

theorem Born.open_claim (born : Born w j) (fires : World.Fires w env f o others w')
    (making : 0 < creators w j) {claim : LocalClaim}
    (found : w'.control.claims.claims.lookup j = some claim) :
    claim.verdict = none ∧ claim.settledAtMs = none := by
  have stranger := born.stranger fires making
  have unsettled := born.unsettled making
  rw [fires.control] at found
  cases claim_move fires.stepped j with
  | same kept => exact unsettled claim (kept ▸ found)
  | evicted _ gone =>
    rw [gone] at found
    cases found
  | rolledBack _ gone =>
    rw [gone] at found
    cases found
  | stale _ _ _ _ gone =>
    rw [gone] at found
    cases found
  | attached _ known grown =>
    rw [grown, Option.some.injEq] at found
    rw [← found, LocalClaim.attach_verdict, LocalClaim.attach_settledAtMs]
    exact unsettled _ known
  | created _ _ fresh =>
    rw [fresh, Option.some.injEq] at found
    rw [← found]
    exact ⟨rfl, rfl⟩
  | settled own => simp [following, own] at stranger
  | @granted _ _ _ _ before _ _ known _ taken =>
    rw [taken, Option.some.injEq] at found
    rw [← found]
    exact unsettled before known
  | released _ _ freed =>
    rw [freed] at found
    obtain ⟨before, known, rfl⟩ := Option.map_eq_some_iff.mp found
    exact unsettled before known

/-- Without a creator or a follower, a record that is not there stays away. -/
theorem stays_unrecorded (fires : World.Fires w env f o others w') (uncreated : creators w j = 0)
    (unfollowed : followers w j = 0) (unrecorded : w.control.jobs.get j = none) :
    w'.control.jobs.get j = none := by
  rw [fires.control]
  cases record_move fires.stepped j with
  | same kept => exact kept.trans unrecorded
  | touched _ mapped => rw [mapped, unrecorded, Option.map_none]
  | evicted _ _ _ _ gone => exact gone
  | rolledBack _ gone => exact gone
  | inserted pc =>
    have creator := creators_pos (j := j) fires (by simp [creating, pc, creatingAt])
    omega
  | foreign pc =>
    have follower := followers_pos (j := j) fires (by simp [following, pc, answeringAt])
    omega

/-- A claim that was not there is not there after the step, or it is new. -/
theorem stays_unclaimed (fires : World.Fires w env f o others w')
    (unclaimed : w.control.claims.claims.lookup j = none) {claim : LocalClaim}
    (found : w'.control.claims.claims.lookup j = some claim) :
    j = env.proposed ∧ claim.verdict = none ∧ claim.settledAtMs = none := by
  rw [fires.control] at found
  cases claim_move fires.stepped j with
  | same kept => simp [kept, unclaimed] at found
  | evicted _ gone => simp [gone] at found
  | rolledBack _ gone => simp [gone] at found
  | stale _ _ known => simp [unclaimed] at known
  | attached _ known => simp [unclaimed] at known
  | created _ mine fresh =>
    rw [fresh, Option.some.injEq] at found
    rw [← found]
    exact ⟨mine, rfl, rfl⟩
  | settled _ published => simp [published, unclaimed] at found
  | granted _ _ known => simp [unclaimed] at known
  | released _ _ freed => simp [freed, unclaimed] at found

/-- The creators after a step were there before it, or the id is drawn by it; none is followed. -/
theorem Born.creators_after (born : Born w j) (fires : World.Fires w env f o others w') :
    creators w' j ≤ 1 ∧ (0 < creators w' j → followers w' j = 0 ∧
      (0 < creators w j ∨ j = env.proposed)) := by
  have created := creators_fires fires (j := j)
  have followed := followers_fires fires (j := j)
  have single := born.single
  have alone := born.alone
  cases kin_move fires.stepped j with
  | none uncreated unfollowed =>
    refine ⟨by omega, fun some => ⟨?_, .inl (by omega)⟩⟩
    have nobody := alone (by omega)
    omega
  | creates creator one unfollowed =>
    have mine : [f].countP (creating j) = 1 := by simp [creator]
    have making := creators_pos fires creator
    refine ⟨by omega, fun _ => ⟨?_, .inl making⟩⟩
    have nobody := alone making
    omega
  | follows follower uncreated =>
    have some := followers_pos fires follower
    have none : creators w j = 0 := by
      by_contra making
      have nobody := alone (by omega)
      omega
    exact ⟨by omega, fun making => by omega⟩
  | starts creator uncreated =>
    have mine : [f].countP (creating j) = 1 := by simp [creator]
    exact ⟨by omega, fun making => by omega⟩
  | mints mine idle one unfollowed =>
    obtain ⟨none, nobody, -⟩ := born.unheard (mine ▸ fires.fresh)
    exact ⟨by omega, fun _ => ⟨by omega, .inr mine⟩⟩
  | answers found settled uncreated =>
    have none : creators w j = 0 := by
      by_contra making
      have open' := born.unsettled (by omega) _ found
      simp [settled] at open'
    exact ⟨by omega, fun making => by omega⟩
  | resends found finished uncreated =>
    have none : creators w j = 0 := by
      by_contra making
      have blank := born.blank (by omega) _ found
      simp [blank.queued, JobState.hasVerdict] at finished
    exact ⟨by omega, fun making => by omega⟩

theorem Born.unfiled_after (born : Born w j) (fires : World.Fires w env f o others w')
    {a : Accept} (member : .accept a ∈ w'.frames) (unfiled : unfiledAt a.pc = some j) :
    w'.control.jobs.get j = none := by
  rw [fires.control]
  rcases fires.frames.mem.mp member with new | old
  · obtain ⟨a', rfl, move, -, pushed⟩ := leaves_accept fires.stepped new
    have before := born.unfiled a' fires.frames.mem_before
    cases move with
    | created pc admits =>
      obtain rfl := Frame.accept.inj (List.mem_singleton.mp pushed)
      obtain rfl := Option.some.inj unfiled
      exact (born.unheard (LocalClaims.admit_created admits ▸ fires.fresh)).2.2.1
    | insertLease pc =>
      obtain rfl := Frame.accept.inj (List.mem_singleton.mp pushed)
      obtain rfl := Option.some.inj unfiled
      exact before (by rw [pc]; rfl)
    | attachRefused => cases pushed
    | rollbackClaim => cases pushed
    | drained => cases pushed
    | _ =>
      obtain rfl := Frame.accept.inj (List.mem_singleton.mp pushed)
      cases unfiled
  · have creator : creating j (.accept a) = true := unfiled_creating unfiled
    have known := fires.frames.mem_others old
    have stranger : creating j f = false :=
      fires.frames.none_of_other born.single old creator
    have unfollowed := born.stranger fires (List.countP_pos_iff.mpr ⟨_, known, creator⟩)
    have before := born.unfiled a known unfiled
    cases record_move fires.stepped j with
    | same kept => exact kept.trans before
    | touched _ mapped => rw [mapped, before, Option.map_none]
    | evicted _ _ _ _ gone => exact gone
    | rolledBack _ gone => exact gone
    | inserted pc => simp [creating, pc, creatingAt] at stranger
    | foreign pc => simp [following, pc, answeringAt] at unfollowed

/-- **Every step keeps new jobs blank.** -/
theorem born_fires (born : Born w j) (fires : World.Fires w env f o others w') : Born w' j := by
  obtain ⟨single, after⟩ := born.creators_after fires
  refine ⟨fun undrawn => ?_, single, fun making => (after making).1,
    fun a member => born.unfiled_after fires member, fun making job found => ?_,
    fun making claim found => ?_⟩
  · rw [fires.minted, List.mem_cons, not_or] at undrawn
    obtain ⟨uncreated, unfollowed, unrecorded, unclaimed⟩ := born.unheard undrawn.2
    have followed := followers_fires fires (j := j)
    have none : creators w' j = 0 := by
      by_contra making
      rcases (after (by omega)).2 with before | mine
      · omega
      · exact undrawn.1 mine
    have nobody : (o.push ++ o.spawned).countP (following j) = 0 := by
      cases kin_move fires.stepped j with
      | none _ unfollowed => exact unfollowed
      | creates _ _ unfollowed => exact unfollowed
      | follows follower => exact absurd (followers_pos fires follower) (by omega)
      | starts creator => exact absurd (creators_pos fires creator) (by omega)
      | mints mine => exact absurd mine undrawn.1
      | answers found => simp [unclaimed] at found
      | resends found => simp [unrecorded] at found
    refine ⟨none, by omega, stays_unrecorded fires uncreated unfollowed unrecorded, ?_⟩
    by_contra some
    obtain ⟨claim, found⟩ := Option.ne_none_iff_exists'.mp some
    exact undrawn.1 (stays_unclaimed fires unclaimed found).1
  · rcases (after making).2 with before | mine
    · exact born.blank_record fires before found
    · obtain ⟨uncreated, unfollowed, unrecorded, -⟩ := born.unheard (mine ▸ fires.fresh)
      rw [stays_unrecorded fires uncreated unfollowed unrecorded] at found
      cases found
  · rcases (after making).2 with before | mine
    · exact born.open_claim fires before found
    · obtain ⟨-, -, -, unclaimed⟩ := born.unheard (mine ▸ fires.fresh)
      exact (stays_unclaimed fires unclaimed found).2

end Step

/-- In every state of every run, a job in the making is known to its creator only. -/
theorem born (config : ControlConfig) (labels : List Label) (j : JobId) :
    Born (run World.step (.init config) labels) j := by
  have all : ∀ j, Born (run World.step (.init config) labels) j :=
    World.invariant_always (I := fun w => ∀ j, Born w j)
      (fun _ call born j => born_call call (born j))
      (fun _ _ _ _ _ _ born fires j => born_fires (born j) fires)
      (fun j => born_init config j) labels
  exact all j

end HullCi.System
