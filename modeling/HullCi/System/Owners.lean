/-
**A job has one owner until its verdict, and one verdict.**

The accept that creates a job, its drive and the `finish` that is to record its verdict follow each
other: at any time one frame owns the job, and the record is there, undecided, in the phase of the
owner's point. Recording the verdict ends the ownership.

* `own_move` — an owner is replaced by one owner or none.
* `owned_fires` — every step keeps the owner and the record together.
* `owned` — in every state of every run a job has at most one owner, and was decided at most once.
-/

import HullCi.System.Birth
import HullCi.System.Truth

namespace HullCi.System

open HullCi.Proto HullCi.Base HullCi.Control

/-! ### Owners -/

/-- The phase of the record while its drive stands at a point before `retire`. -/
def driveState : DriveAt → JobState
  | .start => .queued
  | .fetching _ => .queued
  | .fetch _ => .fetching
  | .planning _ => .fetching
  | .plan _ => .planning
  | .publish _ _ => .planning
  | .context _ => .planning
  | .install _ => .planning
  | _ => .running

/-- The frame is to bring `j` to its verdict. -/
def owning (j : JobId) : Frame → Bool
  | .accept a => creatingAt j a.pc
  | .drive _ .retire => false
  | .drive k _ => k = j
  | .finish k (.record _) => k = j
  | _ => false

def owners (w : World) (j : JobId) : ℕ :=
  w.frames.countP (owning j)

/-- The record of an undecided job. -/
structure Undecided (job : Job) : Prop where
  live : job.state.hasVerdict = false
  verdict : job.verdict = none
  settledAt : job.settledAt = none

/-- The point of an accept that has filed the record of the job it creates. -/
def filedAt : AcceptAt → Option JobId
  | .snapshot k .drive => some k
  | .record intent .drive => some intent.jobId
  | .start k .drive => some k
  | _ => none

/-- Where an owner stands, its record is held, undecided, and in the phase of the point. -/
def InPhase (c : Control) : Frame → Prop
  | .accept a => ∀ k, filedAt a.pc = some k → ∃ job, c.jobs.get k = some job ∧ Undecided job
  | .drive k pc => ∃ job, c.jobs.get k = some job ∧ Undecided job ∧ job.state = driveState pc
  | .finish k (.record v) => ∃ job, c.jobs.get k = some job ∧ Undecided job ∧
      (job.state = .running ∨ v.status = .errored)
  | _ => True

theorem filed_creating {j k : JobId} {pc : AcceptAt} (filed : filedAt pc = some k)
    (creator : creatingAt j pc = true) : k = j := by
  unfold filedAt at filed
  split at filed <;> simp_all [creatingAt]

/-- The observation that `j` was decided. -/
def decides (j : JobId) : Obs → Bool
  | .decided k _ => k = j
  | _ => false

theorem owning_of_creating {j : JobId} {f : Frame} (creator : creating j f = true) :
    owning j f = true := by
  cases f with
  | accept a => exact creator
  | _ => cases creator

theorem kin_of_owning {j : JobId} {f : Frame} (owner : owning j f = true) :
    creating j f = true ∨ following j f = true := by
  unfold owning at owner
  split at owner
  · exact .inl owner
  · cases owner
  · exact .inr (by simpa [following] using owner)
  · exact .inr (by simpa [following] using owner)
  · cases owner

/-! ### An owner is replaced by one owner or none -/

/-- The owners of `j` among the frames a step leaves. -/
inductive OwnMove (env : Env) (j : JobId) (f : Frame) (new : List Frame) : Prop
  | none (unowned : new.countP (owning j) = 0)
  | keeps (owner : owning j f = true) (one : new.countP (owning j) = 1)
  | mints {a : Accept} (own : f = .accept a) (mine : j = env.proposed)
      (one : new.countP (owning j) = 1)

section Own

variable {env : Env} {c : Control} {j : JobId} {f : Frame} {o : Outcome}

theorem accept_own {a : Accept} (move : AcceptMove env c a o)
    (kin : KinMove env c j (.accept a) (o.push ++ o.spawned)) :
    OwnMove env j (.accept a) (o.push ++ o.spawned) := by
  by_cases starts : ∃ k, a.pc = .start k .drive
  · obtain ⟨k, at'⟩ := starts
    cases move with
    | startDrive pc =>
      obtain ⟨rfl, -⟩ := AcceptAt.start.inj (at'.symm.trans pc)
      by_cases same : k = j
      · subst same
        exact .keeps (by simp [owning, at', creatingAt]) (by
          simp [Accept.goto, owning, creatingAt])
      · exact .none (by simp [Accept.goto, owning, creatingAt, same])
    | _ => simp_all
  · have same : (o.push ++ o.spawned).countP (owning j) =
        (o.push ++ o.spawned).countP (creating j) := by
      refine List.countP_congr fun g member => ?_
      rcases accept_leaves move member with ⟨pc, rfl⟩ | ⟨k, rfl⟩ | ⟨k, -, at'⟩
      · rfl
      · rfl
      · exact absurd ⟨k, at'⟩ starts
    cases kin with
    | none uncreated => exact .none (same.trans uncreated)
    | creates creator single => exact .keeps creator (same.trans single)
    | follows _ uncreated => exact .none (same.trans uncreated)
    | starts _ uncreated => exact .none (same.trans uncreated)
    | mints mine _ single => exact .mints rfl mine (same.trans single)
    | answers _ _ uncreated => exact .none (same.trans uncreated)
    | resends _ _ uncreated => exact .none (same.trans uncreated)

theorem drive_own {k : JobId} {pc : DriveAt} (move : DriveMove env c k pc o) :
    OwnMove env j (.drive k pc) (o.push ++ o.spawned) := by
  by_cases same : k = j
  · subst same
    cases move with
    | gone => exact .none rfl
    | contextGone => exact .none rfl
    | passGone => exact .none rfl
    | retire => exact .none rfl
    | _ => exact .keeps (by simp [owning]) (by simp [owning])
  · refine .none ?_
    cases move <;> simp [owning, same]

theorem finish_unowned {k : JobId} {pc : FinishAt} (move : FinishMove env c k pc o) :
    (o.push ++ o.spawned).countP (owning j) = 0 := by
  cases move with
  | claim claims => cases claims <;> simp [owning]
  | _ => simp [owning]

/-- **An owner is replaced by one owner or none.** -/
theorem own_move (stepped : f.step env c = o) (j : JobId) :
    OwnMove env j f (o.push ++ o.spawned) := by
  have move : FrameMove env c f o := stepped ▸ frame_moves env c f
  cases move with
  | accept move => exact accept_own move (accept_kin move)
  | drive move => exact drive_own move
  | finish move => exact .none (finish_unowned move)
  | retire move => exact .none (by cases move <;> simp [owning])
  | report move => exact .none (by cases move <;> simp [owning])
  | pump move => exact .none (by cases move <;> simp [Pump.goto, owning])
  | message move => exact .none (by cases move <;> simp)

end Own

/-! ### The record of an owned job -/

theorem Unstarted.undecided' {job : Job} (blank : Unstarted job) : Undecided job :=
  ⟨by rw [blank.queued]; rfl, blank.undecided, blank.unsettled⟩

theorem Undecided.unreported {job : Job} (open' : Undecided job) (landed : Bool) :
    job.state.canTransitionTo (if landed then .reported else .reportFailed) = false := by
  have live := open'.live
  cases landed <;> cases state : job.state <;>
    simp_all [JobState.canTransitionTo, JobState.hasVerdict]

section Record

variable {env : Env} {c : Control} {j : JobId} {f : Frame} {o : Outcome}

/-- A section of a frame that does not own the job leaves an undecided record in its phase. -/
theorem Touches.stranger {g : Job → Job} (touches : Touches env c f o j g)
    (stranger : owning j f = false) {job : Job} (open' : Undecided job) :
    Undecided (g job) ∧ (g job).state = job.state := by
  have quiet : Quiet job (g job) → (g job).state = job.state → Undecided (g job) ∧
      (g job).state = job.state := by
    intro quiet same
    exact ⟨⟨same ▸ open'.live, quiet.verdict.trans open'.verdict,
      quiet.settledAt.trans open'.settledAt⟩, same⟩
  have attached : ∀ urls, g = addCallbackUrls urls → Undecided (g job) ∧
      (g job).state = job.state := by
    rintro urls rfl
    rw [addCallbackUrls_eq]
    exact ⟨⟨open'.live, open'.verdict, open'.settledAt⟩, rfl⟩
  cases touches with
  | attach => exact attached [_] rfl
  | merge => exact attached _ rfl
  | startReport => exact ⟨⟨open'.live, open'.verdict, open'.settledAt⟩, rfl⟩
  | drain => exact ⟨⟨open'.live, open'.verdict, open'.settledAt⟩, rfl⟩
  | claim => exact ⟨⟨open'.live, open'.verdict, open'.settledAt⟩, rfl⟩
  | release => exact ⟨⟨open'.live, open'.verdict, open'.settledAt⟩, rfl⟩
  | settle =>
    rename_i r pc
    have same : settleReport r.attemptsTotal r.anyDelivered env.now job =
        { job with reportAttempts := job.reportAttempts + r.attemptsTotal } := by
      unfold settleReport
      rw [Job.tryTransitionAt_eq, if_neg]
      rw [Bool.not_eq_true]
      exact open'.unreported r.anyDelivered
    rw [same]
    exact ⟨⟨open'.live, open'.verdict, open'.settledAt⟩, rfl⟩
  | settled =>
    rename_i p ticket rest result pc
    refine quiet (quiet_assignmentSettled env c _ _ job) ?_
    rcases settleAssignment_cases c.config.timeouts c.config.leaseTtl env.now ticket.grant.stepId
      result job with same | ⟨_, _, -, -, -, same⟩
    · exact congrArg (fun out => out.1.state) same
    · exact (congrArg (fun out => out.1.state) same).trans rfl
  | reported =>
    rename_i report fromNode
    refine quiet (quiet_reported _ _ _ job) ?_
    rcases onStep_cases job report.stepId _ with same | ⟨_, _, -, -, same⟩
    · exact congrArg Job.state same
    · exact (congrArg Job.state same).trans rfl
  | renewed =>
    rename_i stepId fromNode
    refine quiet (quiet_renewed _ _ _ _ job) ?_
    rcases onStep_cases job stepId _ with same | ⟨_, _, -, -, same⟩
    · exact congrArg Job.state same
    · exact (congrArg Job.state same).trans rfl
  | decide => simp [owning] at stranger
  | fetching => simp [owning] at stranger
  | planning => simp [owning] at stranger
  | install => simp [owning] at stranger
  | pass => simp [owning] at stranger
  | skip => simp [owning] at stranger

/-- So does its whole step, unless it files a foreign verdict. -/
theorem record_stranger (stepped : f.step env c = o) (stranger : owning j f = false)
    (domestic : ∀ a v, f = .accept a → a.pc ≠ .foreign j v) {job : Job}
    (found : c.jobs.get j = some job) (open' : Undecided job) :
    ∃ job', o.control.jobs.get j = some job' ∧ Undecided job' ∧ job'.state = job.state := by
  cases record_move stepped j with
  | same kept => exact ⟨job, kept.trans found, open', rfl⟩
  | touched touches mapped =>
    rw [found, Option.map_some] at mapped
    obtain ⟨kept, same⟩ := touches.stranger stranger open'
    exact ⟨_, mapped, kept, same⟩
  | evicted _ found' settled =>
    rw [found, Option.some.injEq] at found'
    rw [← found', open'.settledAt] at settled
    cases settled
  | rolledBack pc => simp [owning, pc, creatingAt] at stranger
  | inserted pc => simp [owning, pc, creatingAt] at stranger
  | foreign pc => exact absurd pc (domestic _ _ rfl)

theorem Undecided.moved {job : Job} (open' : Undecided job) (next : JobState) (now : Instant)
    (live : next.hasVerdict = false) (legal : job.state.canTransitionTo next = true) :
    Undecided (job.tryTransitionAt next now) ∧ (job.tryTransitionAt next now).state = next := by
  have quiet := quiet_tryTransitionAt job now live
  have there : (job.tryTransitionAt next now).state = next := by
    rw [Job.tryTransitionAt_state, if_pos legal]
  exact ⟨⟨there.symm ▸ live, quiet.verdict.trans open'.verdict,
    quiet.settledAt.trans open'.settledAt⟩, there⟩

theorem get_withJobMut {k : JobId} {g : Job → Job} {keeps : ∀ job, (g job).id = job.id} {job : Job}
    (found : c.jobs.get k = some job) : (c.withJobMut k g keeps).jobs.get k = some (g job) := by
  have got := JobStore.get_modify c.jobs k g keeps k
  rw [if_pos rfl, found, Option.map_some] at got
  exact got

/-- An owning drive hands the record on in the phase of where it goes. -/
theorem drive_phase {k : JobId} {pc : DriveAt} (phase : InPhase c (.drive k pc))
    (move : DriveMove env c k pc o) {g : Frame} (member : g ∈ o.push ++ o.spawned)
    (owner : owning j g = true) : InPhase o.control g := by
  obtain ⟨job, found, open', state⟩ := phase
  cases move with
  | gone => cases member
  | start =>
    obtain rfl := List.mem_singleton.mp member
    exact ⟨job, found, open', state⟩
  | fetching =>
    obtain rfl := List.mem_singleton.mp member
    obtain ⟨moved, there⟩ := open'.moved .fetching env.now rfl (by rw [state]; rfl)
    exact ⟨_, get_withJobMut found, moved, there⟩
  | unfetched early =>
    obtain rfl := List.mem_singleton.mp member
    exact ⟨job, found, open', .inr early⟩
  | fetched =>
    obtain rfl := List.mem_singleton.mp member
    exact ⟨job, found, open', state⟩
  | planning =>
    obtain rfl := List.mem_singleton.mp member
    obtain ⟨moved, there⟩ := open'.moved .planning env.now rfl (by rw [state]; rfl)
    exact ⟨_, get_withJobMut found, moved, there⟩
  | unplanned early =>
    obtain rfl := List.mem_singleton.mp member
    exact ⟨job, found, open', .inr early⟩
  | planned =>
    obtain rfl := List.mem_singleton.mp member
    exact ⟨job, found, open', state⟩
  | publish =>
    obtain rfl := List.mem_singleton.mp member
    exact ⟨job, found, open', state⟩
  | contextGone absent => simp [absent] at found
  | context =>
    obtain rfl := List.mem_singleton.mp member
    exact ⟨job, found, open', state⟩
  | install =>
    obtain rfl := List.mem_singleton.mp member
    obtain ⟨moved, there⟩ := open'.moved .running env.now rfl (by rw [state]; rfl)
    exact ⟨_, get_withJobMut found, ⟨moved.live, moved.verdict, moved.settledAt⟩, there⟩
  | passGone absent => simp [absent] at found
  | decided =>
    obtain rfl := List.mem_singleton.mp member
    exact ⟨_, get_withJobMut found, ⟨open'.live, open'.verdict, open'.settledAt⟩, state⟩
  | late =>
    obtain rfl := List.mem_singleton.mp member
    exact ⟨_, get_withJobMut found, ⟨open'.live, open'.verdict, open'.settledAt⟩, state⟩
  | waits =>
    rcases List.mem_cons.mp member with rfl | last
    · cases owner
    · obtain rfl := List.mem_singleton.mp last
      exact ⟨_, get_withJobMut found, ⟨open'.live, open'.verdict, open'.settledAt⟩, state⟩
  | timedOut =>
    obtain rfl := List.mem_singleton.mp member
    exact ⟨job, found, open', state⟩
  | cancelled =>
    rcases List.mem_cons.mp member with rfl | last
    · exact ⟨job, found, open', .inl state⟩
    · obtain rfl := List.mem_singleton.mp last
      cases owner
  | inFlight =>
    obtain rfl := List.mem_singleton.mp member
    exact ⟨job, found, open', state⟩
  | notInFlight =>
    obtain rfl := List.mem_singleton.mp member
    exact ⟨job, found, open', state⟩
  | send =>
    obtain rfl := List.mem_singleton.mp member
    exact ⟨job, found, open', state⟩
  | skip =>
    obtain rfl := List.mem_singleton.mp member
    exact ⟨_, get_withJobMut found, ⟨open'.live, open'.verdict, open'.settledAt⟩, state⟩
  | retire =>
    obtain rfl := List.mem_singleton.mp member
    cases owner

/-- An accept that creates the job hands a filed, blank record on. -/
theorem accept_phase {a : Accept}
    (phase : creating j (.accept a) = true → InPhase c (.accept a))
    (blank : creating j (.accept a) = true → ∀ job, c.jobs.get j = some job → Unstarted job)
    (move : AcceptMove env c a o) {g : Frame} (member : g ∈ o.push ++ o.spawned)
    (owner : owning j g = true) : InPhase o.control g := by
  cases move with
  | insertRecord pc =>
    rename_i k
    obtain rfl := List.mem_singleton.mp member
    obtain rfl : k = j := by simpa [owning, creatingAt] using owner
    intro k' filed
    obtain rfl : k = k' := by simpa [filedAt] using filed
    have got := JobStore.get_insert c.jobs k a.dispatch a.authorClass a.now c.config.timeouts.job k
    rw [if_pos rfl] at got
    refine ⟨_, got, ?_⟩
    cases found : c.jobs.get k with
    | none => exact (unstarted_new _ _ _ _ _).undecided'
    | some job => exact (blank (by simp [creating, pc, creatingAt]) job found).undecided'
  | snapshotGone pc absent =>
    rename_i k next
    obtain rfl := List.mem_singleton.mp member
    intro k' filed
    cases next with
    | drive =>
      obtain rfl : k = j := by simpa [owning, creatingAt] using owner
      obtain ⟨job, found, -⟩ := phase (by simp [creating, pc, creatingAt]) k (by rw [pc]; rfl)
      simp [absent] at found
    | _ => cases filed
  | snapshot pc found =>
    rename_i k next job
    obtain rfl := List.mem_singleton.mp member
    intro k' filed
    cases next with
    | drive =>
      obtain rfl : job.id = k' := by simpa [filedAt, intentFrom] using filed
      have own : job.id = k := JobStore.id_of_get found
      obtain rfl : k = j := by simpa [owning, creatingAt, intentFrom, own] using owner
      rw [own]
      exact phase (by simp [creating, pc, creatingAt]) k (by rw [pc]; rfl)
    | _ => cases filed
  | recorded pc =>
    rename_i intent next durable
    obtain rfl := List.mem_singleton.mp member
    intro k' filed
    cases next with
    | drive =>
      obtain rfl : intent.jobId = k' := by simpa [filedAt] using filed
      obtain rfl : intent.jobId = j := by simpa [owning, creatingAt] using owner
      exact phase (by simp [creating, pc, creatingAt]) intent.jobId (by rw [pc]; rfl)
    | _ => cases filed
  | startDrive pc =>
    rename_i k
    rcases List.mem_append.mp member with own | spawned
    · obtain rfl := List.mem_singleton.mp own
      cases owner
    · obtain rfl := List.mem_singleton.mp spawned
      obtain rfl : k = j := by simpa [owning] using owner
      obtain ⟨job, found, open'⟩ :=
        phase (by simp [creating, pc, creatingAt]) k (by rw [pc]; rfl)
      have queued := (blank (by simp [creating, pc, creatingAt]) job found).queued
      exact ⟨job, found, open', queued⟩
  | startReport pc claims =>
    rcases List.mem_append.mp member with own | spawned
    · obtain rfl := List.mem_singleton.mp own
      cases owner
    · cases claims with
      | taken => obtain rfl := List.mem_singleton.mp spawned; cases owner
      | busy => cases spawned
      | gone => cases spawned
  | drain pc claims =>
    rcases List.mem_append.mp member with own | spawned
    · obtain rfl := List.mem_singleton.mp own
      cases owner
    · cases claims with
      | taken => obtain rfl := List.mem_singleton.mp spawned; cases owner
      | skipped => cases spawned
  | attachRefused => cases member
  | rollbackClaim => cases member
  | drained => cases member
  | startAttached pc notDrive notReport =>
    obtain rfl := List.mem_singleton.mp member
    cases owner
  | _ =>
    obtain rfl := List.mem_singleton.mp member
    intro k' filed
    cases filed

end Record

/-! ### The invariant -/

/-- **One owner until the verdict, and one verdict.** -/
structure Owned (w : World) (j : JobId) : Prop where
  single : owners w j ≤ 1
  phase : ∀ f ∈ w.frames, owning j f = true → InPhase w.control f
  once : w.history.countP (decides j) ≤ 1
  settled : 0 < w.history.countP (decides j) → j ∈ w.minted ∧ owners w j = 0 ∧
    ∀ job, w.control.jobs.get j = some job →
      job.state.hasVerdict = true ∧ job.verdict.isSome = true

theorem decides_pos {h : List Obs} {j : JobId} {v : Verdict} (seen : .decided j v ∈ h) :
    0 < h.countP (decides j) :=
  List.countP_pos_iff.mpr ⟨_, seen, by simp [decides]⟩

section Step

variable {w w' : World} {env : Env} {f : Frame} {o : Outcome} {others : List Frame} {j : JobId}

theorem owners_fires (fires : World.Fires w env f o others w') :
    owners w' j + [f].countP (owning j) = owners w j + (o.push ++ o.spawned).countP (owning j) :=
  fires.frames.count _

theorem owners_pos (fires : World.Fires w env f o others w') (owner : owning j f = true) :
    0 < owners w j :=
  List.countP_pos_iff.mpr ⟨f, fires.frames.mem_before, owner⟩

theorem Born.unowned (born : Born w j) (undrawn : j ∉ w.minted) : owners w j = 0 := by
  obtain ⟨uncreated, unfollowed, -⟩ := born.unheard undrawn
  refine List.countP_eq_zero.mpr fun g member owner => ?_
  rcases kin_of_owning owner with creator | follower
  · exact List.countP_eq_zero.mp uncreated g member creator
  · exact List.countP_eq_zero.mp unfollowed g member follower

theorem decision_seen (fires : World.Fires w env f o others w') :
    o.observed.countP (decides j) = 0 ∨ o.observed.countP (decides j) = 1 ∧
      ∃ v job, f = .finish j (.record v) ∧ w.control.jobs.get j = some job ∧
        o.control.jobs.get j =
          some (recordVerdict (linked (detailsUrl w.control.config j) v) env.now job).1 ∧
        o.push = [.finish j .decided] ∧ o.spawned = [] := by
  have move : FrameMove env w.control f o := fires.stepped ▸ frame_moves env w.control f
  cases move with
  | finish move =>
    cases move with
    | record found live =>
      rename_i k v job
      by_cases same : k = j
      · subst same
        exact .inr ⟨by simp [decides], v, job, rfl, found, get_withJobMut found, rfl, rfl⟩
      · exact .inl (by simp [decides, same])
    | _ => exact .inl (by simp [decides])
  | accept move => exact .inl (by cases move <;> simp [decides])
  | drive move => exact .inl (by cases move <;> simp [decides])
  | retire move => exact .inl (by cases move <;> simp)
  | report move => exact .inl (by cases move <;> simp [decides])
  | pump move =>
    refine .inl ?_
    cases move with
    | select =>
      refine List.countP_eq_zero.mpr fun x member => ?_
      obtain ⟨_, _, _, -, -, -, -, rfl⟩ := mem_offers member
      simp [decides]
    | _ => simp [decides]
  | message move => exact .inl (by cases move <;> simp [decides])

theorem Owned.single_after (owned : Owned w j) (born : Born w j)
    (fires : World.Fires w env f o others w') : owners w' j ≤ 1 ∧
      (j ≠ env.proposed → owners w' j ≤ owners w j) := by
  have balance := owners_fires fires (j := j)
  have single := owned.single
  cases own_move fires.stepped j with
  | none unowned => exact ⟨by omega, fun _ => by omega⟩
  | keeps owner one =>
    have mine : [f].countP (owning j) = 1 := by simp [owner]
    exact ⟨by omega, fun _ => by omega⟩
  | mints _ mine one =>
    have none := born.unowned (mine ▸ fires.fresh)
    exact ⟨by omega, fun other => absurd mine other⟩

/-- The frames that own the job after a step stand in the phase of its record. -/
theorem Owned.phase_after (owned : Owned w j) (born : Born w j) (truth : Truth w)
    (fires : World.Fires w env f o others w') :
    ∀ g ∈ w'.frames, owning j g = true → InPhase w'.control g := by
  intro g member owner
  rw [fires.control]
  have present := fires.frames.mem_before
  have balance := owners_fires fires (j := j)
  have single := owned.single
  have move : FrameMove env w.control f o := fires.stepped ▸ frame_moves env w.control f
  rcases fires.frames.mem.mp member with new | old
  · -- The owner is what the frame that ran has become.
    cases move with
    | accept move =>
      refine accept_phase (fun creator => ?_) (fun creator job found => ?_) move new owner
      · exact owned.phase _ present (owning_of_creating creator)
      · exact born.blank (creators_pos fires creator) job found
    | drive move =>
      cases own_move fires.stepped j with
      | none unowned => exact absurd owner (List.countP_eq_zero.mp unowned g new)
      | keeps owner' one => exact drive_phase (owned.phase _ present owner') move new owner
      | mints own => cases own
    | finish move => exact absurd owner (List.countP_eq_zero.mp (finish_unowned move) g new)
    | retire move => cases move <;> simp_all [owning]
    | report move => cases move <;> simp_all [owning]
    | pump move => cases move <;> simp_all [Pump.goto, owning]
    | message move => cases move <;> simp_all
  · -- The owner is another frame, and the frame that ran is none.
    have before := fires.frames.mem_others old
    have phase := owned.phase g before owner
    have stranger : owning j f = false := fires.frames.none_of_other single old owner
    have domestic : ∀ a v, f = .accept a → a.pc ≠ .foreign j v := by
      rintro a v rfl pc
      have carried : TruthfulAccept w.history a.pc := truth.frames _ present
      rw [pc] at carried
      have none := (owned.settled (decides_pos carried)).2.1
      have some : 0 < owners w j := List.countP_pos_iff.mpr ⟨g, before, owner⟩
      omega
    have keeps : ∀ {job}, w.control.jobs.get j = some job → Undecided job → ∃ job',
        o.control.jobs.get j = some job' ∧ Undecided job' ∧ job'.state = job.state :=
      fun found open' => record_stranger fires.stepped stranger domestic found open'
    cases g with
    | accept a =>
      intro k filed
      obtain ⟨job, found, open'⟩ := phase k filed
      obtain rfl : k = j := filed_creating filed owner
      obtain ⟨job', found', open'', -⟩ := keeps found open'
      exact ⟨job', found', open''⟩
    | drive k pc =>
      obtain ⟨job, found, open', state⟩ := phase
      obtain rfl : k = j := by cases pc <;> simp_all [owning]
      obtain ⟨job', found', open'', same⟩ := keeps found open'
      exact ⟨job', found', open'', same.trans state⟩
    | finish k pc =>
      cases pc with
      | record v =>
        obtain ⟨job, found, open', ready⟩ := phase
        obtain rfl : k = j := by simpa [owning] using owner
        obtain ⟨job', found', open'', same⟩ := keeps found open'
        exact ⟨job', found', open'', same ▸ ready⟩
      | _ => trivial
    | _ => trivial

theorem Edit.keeps_verdict {c : Control} {g : Job → Job} (edit : Edit c f o j g) {job : Job}
    (decided : job.state.hasVerdict = true) (known : job.verdict.isSome = true) :
    (g job).state.hasVerdict = true ∧ (g job).verdict.isSome = true := by
  cases edit with
  | quiet quiet =>
    rcases (quiet job).state with same | ⟨live, -⟩
    · exact ⟨same ▸ decided, (quiet job).verdict ▸ known⟩
    · simp [decided] at live
  | attached grows =>
    rw [grows, addCallbackUrls_eq]
    exact ⟨decided, known⟩
  | taken sets =>
    rw [sets]
    exact ⟨decided, known⟩
  | released clears =>
    rw [clears]
    exact ⟨decided, known⟩
  | settled own pc settles =>
    rw [settles]
    refine ⟨Job.hasVerdict_tryTransitionAt (by exact decided) _ _, ?_⟩
    unfold settleReport
    rw [Job.tryTransitionAt_verdict]
    exact known
  | decided seen records =>
    rw [records]
    dsimp only
    rw [recordVerdict_once decided]
    exact ⟨decided, known⟩

/-- The verdict is recorded on an undecided record in the right phase, and sticks. -/
theorem recordVerdict_sticks {job : Job} (open' : Undecided job) {v v' : Verdict} (now : Instant)
    (ready : job.state = .running ∨ v.status = .errored) (same : v'.status = v.status) :
    (recordVerdict v' now job).1.state.hasVerdict = true ∧
      (recordVerdict v' now job).1.verdict.isSome = true := by
  have legal : job.state.canTransitionTo (.fromStatus v'.status) = true := by
    rcases ready with running | errored
    · rw [running]
      cases v'.status <;> rfl
    · have live := open'.live
      rw [same, errored]
      cases state : job.state <;> simp_all [JobState.hasVerdict] <;> rfl
  rw [recordVerdict_first open'.live]
  refine ⟨?_, rfl⟩
  dsimp only
  rw [Job.tryTransitionAt_state, if_pos legal]
  exact JobState.hasVerdict_fromStatus _

theorem linked_status (url : Option String) (v : Verdict) : (linked url v).status = v.status := by
  cases url <;> rfl

/-- A decided job stays decided: nobody owns it, and its record keeps a verdict. -/
theorem Owned.over_after (owned : Owned w j) (born : Born w j)
    (fires : World.Fires w env f o others w') (before : 0 < w.history.countP (decides j)) :
    o.observed.countP (decides j) = 0 ∧ j ∈ w'.minted ∧ owners w' j = 0 ∧
      ∀ job, w'.control.jobs.get j = some job →
        job.state.hasVerdict = true ∧ job.verdict.isSome = true := by
  obtain ⟨drawn, none, kept⟩ := owned.settled before
  have old : j ≠ env.proposed := fun mine => fires.fresh (mine ▸ drawn)
  have fewer := (owned.single_after born fires).2 old
  have stranger : owning j f = false := by
    by_contra owner
    have some := owners_pos fires (by simpa using owner)
    omega
  refine ⟨?_, fires.drawn drawn, by omega, fun job found => ?_⟩
  · rcases decision_seen (j := j) fires with silent | ⟨-, v, -, rfl, -⟩
    · exact silent
    · simp [owning] at stranger
  · rw [fires.control] at found
    cases record_move fires.stepped j with
    | same kept' => exact kept job (kept' ▸ found)
    | touched touches mapped =>
      rw [mapped] at found
      obtain ⟨job, known, rfl⟩ := Option.map_eq_some_iff.mp found
      obtain ⟨decided, verdict⟩ := kept job known
      exact touches.edit.keeps_verdict decided verdict
    | evicted _ _ _ _ gone => simp [gone] at found
    | rolledBack _ gone => simp [gone] at found
    | inserted pc => simp [owning, pc, creatingAt] at stranger
    | foreign _ written =>
      rw [written, Option.some.injEq] at found
      rw [← found]
      exact ⟨JobState.hasVerdict_fromStatus _, rfl⟩

/-- **Every step keeps one owner, and one verdict.** -/
theorem owned_fires (owned : Owned w j) (born : Born w j) (truth : Truth w)
    (fires : World.Fires w env f o others w') : Owned w' j := by
  have count : w'.history.countP (decides j) =
      w.history.countP (decides j) + o.observed.countP (decides j) := by
    rw [fires.history, List.countP_append]
  refine ⟨(owned.single_after born fires).1, owned.phase_after born truth fires, ?_, fun some => ?_⟩
  · have once := owned.once
    by_cases before : 0 < w.history.countP (decides j)
    · have silent := (owned.over_after born fires before).1
      omega
    · rcases decision_seen (j := j) fires with silent | ⟨one, -⟩ <;> omega
  · by_cases before : 0 < w.history.countP (decides j)
    · exact (owned.over_after born fires before).2
    · rcases decision_seen (j := j) fires with silent | ⟨one, v, job, rfl, found, recorded, push,
        spawned⟩
      · omega
      · -- The step that decides: its frame was the owner, and leaves none.
        have owner : owning j (.finish j (.record v)) = true := by simp [owning]
        have balance := owners_fires fires (j := j)
        have single := owned.single
        have mine : [Frame.finish j (.record v)].countP (owning j) = 1 := by simp [owning]
        have left : (o.push ++ o.spawned).countP (owning j) = 0 := by
          rw [push, spawned]
          rfl
        have drawn : j ∈ w.minted := by
          by_contra undrawn
          have none := born.unowned undrawn
          have some := owners_pos fires owner
          omega
        refine ⟨fires.drawn drawn, by omega, fun job' found' => ?_⟩
        rw [fires.control, recorded, Option.some.injEq] at found'
        obtain ⟨job'', known, open', ready⟩ := owned.phase _ fires.frames.mem_before owner
        obtain rfl : job'' = job := Option.some.inj (known.symm.trans found)
        rw [← found']
        exact recordVerdict_sticks open' env.now ready (linked_status _ v)

end Step

theorem owned_init (config : ControlConfig) (j : JobId) : Owned (.init config) j where
  single := Nat.zero_le 1
  phase := fun _ member => by cases member
  once := Nat.zero_le 1
  settled := fun some => absurd some (Nat.lt_irrefl 0)

theorem owned_call {w : World} {j : JobId} (call : Call) (owned : Owned w j) :
    Owned (w.step (.call call)) j := by
  have frames := World.frames_call w call
  have stranger : owning j call.frame = false := by cases call <;> rfl
  have same : owners (w.step (.call call)) j = owners w j := by
    unfold owners
    rw [frames, List.countP_append, List.countP_singleton, stranger]
    rfl
  refine ⟨same ▸ owned.single, fun f member owner => ?_, owned.once, fun some => ?_⟩
  · rw [frames] at member
    rcases List.mem_append.mp member with old | new
    · exact owned.phase f old owner
    · rw [List.mem_singleton.mp new, stranger] at owner
      cases owner
  · rw [same]
    exact owned.settled some

/-- What is known of every state of every run. -/
structure Sound (w : World) : Prop where
  born : ∀ j, Born w j
  truth : Truth w
  owned : ∀ j, Owned w j

/-- In every state of every run a job has one owner until its verdict, and one verdict. -/
theorem sound (config : ControlConfig) (labels : List Label) :
    Sound (run World.step (.init config) labels) := by
  refine ⟨born config labels, truth config labels, ?_⟩
  exact World.invariant_over (B := fun w => (∀ j, Born w j) ∧ Truth w)
    (C := fun _ _ _ => True) (I := fun w => ∀ j, Owned w j)
    (fun _ call owned j => owned_call call (owned j))
    (fun _ _ _ _ _ _ known owned _ fires j =>
      owned_fires (owned j) (known.1 j) known.2 fires)
    (fun labels => ⟨born config labels, truth config labels⟩) (owned_init config)
    (along_iff.mpr fun _ _ _ _ _ => trivial)

theorem Owned.agree {w : World} {j : JobId} (owned : Owned w j) {v v' : Verdict}
    (one : .decided j v ∈ w.history) (other : .decided j v' ∈ w.history) : v = v' := by
  have same := eq_of_countP_le_one owned.once one (by simp [decides]) other (by simp [decides])
  exact (Obs.decided.inj same).2

end HullCi.System
