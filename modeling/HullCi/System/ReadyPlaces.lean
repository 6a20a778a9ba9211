/-
**A ready step waits, or a pump holds it.**

Each driver's pump reconciles the places of its own job, selects among the places of all jobs, and
then settles its grants one by one. Two pumps can hold a grant of one step: the driver of a job puts
its ready steps back in line while the pump of another job still has them.

* `lined` — in every state of every run, each step that waits has an entry in a queue.
* `covered_fires` — a ready step of a job with a lease waits or is held by a pump, as long as no pump
  lets go of a step that nobody else holds.
* `none_lost` — once no pump is in progress, every ready step that its own driver has pumped waits.
* `refused_twice` — a pump refused with `Taken` releases the place that another has just requeued.
-/

import HullCi.Control.FairPlaces
import HullCi.System.Orphans

namespace HullCi.System

open HullCi.Proto HullCi.Base HullCi.Control

/-! ### Grants in hand -/

/-- The grants a pump has still to settle. -/
def PumpAt.inHand : PumpAt → List Grant
  | .select => []
  | .next grants => grants
  | .assignment grant _ rest => grant :: rest
  | .lease ticket rest => ticket.grant :: rest
  | .claim ticket _ rest => ticket.grant :: rest
  | .fence grant rest => grant :: rest
  | .assign ticket _ rest => ticket.grant :: rest
  | .releaseStep ticket _ rest => ticket.grant :: rest
  | .requeue ticket rest => ticket.grant :: rest
  | .settle ticket _ rest => ticket.grant :: rest
  | .release grant _ _ rest => grant :: rest

/-- The grant is of the step `i` of `j`. -/
def grants (j : JobId) (i : StepId) (g : Grant) : Bool :=
  g.jobId = j && g.stepId = i

/-- The frame is a pump with a grant of the step `i` of `j`. -/
def holding (j : JobId) (i : StepId) : Frame → Bool
  | .pump p => p.pc.inHand.any (grants j i)
  | _ => false

/-- A pump that has not selected yet. -/
def PumpAt.starts : PumpAt → Bool
  | .select => true
  | _ => false

/-- A pump that has selected, and has not ended. -/
def inProgress : Frame → Bool
  | .pump p => !p.pc.starts
  | _ => false

/-- The grant a frame is about to release. -/
def letsGo : Frame → Option Grant
  | .pump p => match p.pc with
    | .release grant _ _ _ => some grant
    | _ => none
  | _ => none

/-- The step is Ready, and its job's drive lease is held. -/
structure ReadyHeld (c : Control) (j : JobId) (i : StepId) : Prop where
  ready : stateOf c j i = some .ready
  leased : (c.leases.get j).isSome = true

instance (c : Control) (j : JobId) (i : StepId) : Decidable (ReadyHeld c j i) :=
  decidable_of_iff (stateOf c j i = some .ready ∧ (c.leases.get j).isSome = true)
    ⟨fun ⟨ready, leased⟩ => ⟨ready, leased⟩, fun held => ⟨held.ready, held.leased⟩⟩

/-- A step that releases no ready step which no other pump holds. -/
def Retains (w : World) (f : Frame) (_ : Env) : Prop :=
  ∀ g ∈ letsGo f, ReadyHeld w.control g.jobId g.stepId →
    2 ≤ w.frames.countP (holding g.jobId g.stepId)

instance (w : World) (f : Frame) (env : Env) : Decidable (Retains w f env) :=
  inferInstanceAs (Decidable (∀ g ∈ letsGo f, _))

/-- The step waits, or a pump holds it. -/
structure Covered (w : World) (j : JobId) (i : StepId) : Prop where
  known : w.control.queue.knows j = true
  placed : w.control.queue.isWaiting j i = true ∨ 0 < w.frames.countP (holding j i)

/-! ### What a step does to the queue -/

section Step

variable {w w' : World} {env : Env} {c : Control} {f : Frame} {o : Outcome} {others : List Frame}
  {j : JobId} {i : StepId}

theorem queue_still (stepped : f.step env c = o) (other : ∀ p, f ≠ .pump p)
    (stays : ∀ k, f ≠ .retire k .queue) : o.control.queue = c.queue := by
  have move : FrameMove env c f o := stepped ▸ frame_moves env c f
  cases move with
  | accept move =>
    cases move with
    | startReport pc claims => rw [claims.frame]
    | drain pc claims => rw [claims.frame]
    | _ => rfl
  | drive move => cases move <;> rfl
  | finish move =>
    cases move with
    | claim claims => rw [claims.frame]
    | _ => rfl
  | retire move =>
    cases move with
    | queue => exact absurd rfl (stays _)
    | _ => rfl
  | report move => cases move <;> rfl
  | pump => exact absurd rfl (other _)
  | message move => cases move <;> rfl

theorem lined_selected (lined : c.queue.Lined) (onBehalfOf : Option JobId) :
    ((reconciled env c onBehalfOf).select env.now).1.Lined := by
  refine (FairQueue.select_places _ _).lined ?_
  unfold reconciled
  split
  · exact (FairQueue.reconcile_places _ _ _).2.2.1 lined
  · exact lined

theorem lined_step (lined : c.queue.Lined) (stepped : f.step env c = o) :
    o.control.queue.Lined := by
  have move : FrameMove env c f o := stepped ▸ frame_moves env c f
  cases move with
  | pump move =>
    cases move with
    | select => exact lined_selected lined _
    | requeue => exact FairQueue.lined_requeue lined _ _ _ _
    | release => exact FairQueue.lined_unplace lined _ _ _ _
    | _ => exact lined
  | retire move =>
    cases move with
    | queue => exact (FairQueue.forgetJob_places _ _ _).2.2.2 lined
    | _ => exact lined
  | accept move =>
    rw [queue_still stepped (by simp) (by simp)]
    exact lined
  | drive move =>
    rw [queue_still stepped (by simp) (by simp)]
    exact lined
  | finish move =>
    rw [queue_still stepped (by simp) (by simp)]
    exact lined
  | report move =>
    rw [queue_still stepped (by simp) (by simp)]
    exact lined
  | message move => cases move <;> exact lined

/-- What a step does to the drive lease of `j`. -/
theorem lease_move (stepped : f.step env c = o) (j : JobId) :
    o.control.leases.get j = c.leases.get j ∨ o.control.leases.get j = none ∨
      ∃ a lease, f = .accept a ∧ a.pc = .insertLease lease ∧ lease.jobId = j := by
  have removed : ∀ k, (c.leases.remove k).get j = c.leases.get j ∨
      (c.leases.remove k).get j = none := by
    intro k
    rw [Leases.get_remove]
    split
    · exact .inr rfl
    · exact .inl rfl
  have move : FrameMove env c f o := stepped ▸ frame_moves env c f
  cases move with
  | accept move =>
    cases move with
    | @insertLease lease pc =>
      by_cases own : lease.jobId = j
      · exact .inr (.inr ⟨_, lease, rfl, pc, own⟩)
      · refine .inl ?_
        dsimp only
        rw [Leases.get_insert, if_neg (Ne.symm own)]
    | rollbackLease => exact (removed _).imp id .inl
    | startReport pc claims => exact .inl (by rw [claims.frame])
    | drain pc claims => exact .inl (by rw [claims.frame])
    | _ => exact .inl rfl
  | drive move => exact .inl (by cases move <;> rfl)
  | finish move =>
    cases move with
    | claim claims => exact .inl (by rw [claims.frame])
    | _ => exact .inl rfl
  | retire move =>
    cases move with
    | lease => exact (removed _).imp id .inl
    | _ => exact .inl rfl
  | report move => exact .inl (by cases move <;> rfl)
  | pump move =>
    cases move with
    | fence => exact (removed _).imp id .inl
    | _ => exact .inl rfl
  | message move => exact .inl (by cases move <;> rfl)

/-- A job whose places are about to be forgotten has no lease. -/
def Unleased (w : World) : Prop :=
  ∀ j, .retire j .queue ∈ w.frames → w.control.leases.get j = none

theorem unleased_fires (sound : Sound w) (unleased : Unleased w)
    (fires : World.Fires w env f o others w') : Unleased w' := by
  intro j member
  rw [fires.control]
  rcases fires.frames.mem_after member with new | old
  · have move : FrameMove env w.control f o := fires.stepped ▸ frame_moves env w.control f
    cases move with
    | retire move =>
      cases move with
      | tree => simp at new
      | queue => simp at new
      | lease =>
        obtain ⟨rfl, -⟩ := Frame.retire.inj (List.mem_singleton.mp new)
        dsimp only
        rw [Leases.get_remove, if_pos rfl]
    | accept move =>
      rcases accept_leaves move new with ⟨_, same⟩ | ⟨_, same⟩ | ⟨_, same, -⟩ <;> cases same
    | drive move => cases move <;> simp at new
    | finish move =>
      cases move with
      | claim claims => cases claims <;> simp at new
      | _ => simp at new
    | report move => cases move <;> simp at new
    | pump move => cases move <;> simp [Pump.goto] at new
    | message move => cases move <;> simp at new
  · have before := unleased j old
    rcases lease_move fires.stepped j with same | gone | ⟨a, lease, rfl, pc, own⟩
    · exact same.trans before
    · exact gone
    · -- The creator inserts the lease, and nobody follows a job in the making.
      have making : 0 < creators w j :=
        creators_pos fires (by simp [creating, pc, creatingAt, own])
      have some : 0 < followers w j :=
        List.countP_pos_iff.mpr ⟨_, old, by simp [following]⟩
      have none := (sound.born j).alone making
      omega

end Step

theorem lined (config : ControlConfig) (labels : List Label) :
    (run World.step (.init config) labels).control.queue.Lined := by
  refine World.invariant_always (I := fun w => w.control.queue.Lined) (fun _ _ lined => lined)
    (fun _ _ _ _ _ _ lined fires => ?_) ?_ labels
  · rw [fires.control]
    exact lined_step lined fires.stepped
  · intro j i waits
    cases waits

theorem unleased (config : ControlConfig) (labels : List Label) :
    Unleased (run World.step (.init config) labels) := by
  refine World.invariant_over (B := Sound) (C := fun _ _ _ => True) (fun w call unleased j member => ?_)
    (fun _ _ _ _ _ _ sound unleased _ fires => unleased_fires sound unleased fires)
    (fun labels => sound config labels) (fun _ member => by cases member)
    (along_iff.mpr fun _ _ _ _ _ => trivial)
  rw [World.frames_call] at member
  rcases List.mem_append.mp member with old | new
  · exact unleased j old
  · cases call <;> cases List.mem_singleton.mp new

/-! ### What covers a step goes on to cover it -/

section Cover

variable {w w' : World} {env : Env} {f : Frame} {o : Outcome} {others : List Frame}
  {j : JobId} {i : StepId}

theorem grants_iff {g : Grant} : grants j i g = true ↔ g.jobId = j ∧ g.stepId = i := by
  unfold grants
  rw [Bool.and_eq_true, decide_eq_true_eq, decide_eq_true_eq]

/-- A step keeps cover when it puts nothing out of line and hands on the grants it had. -/
theorem Covered.next (covered : Covered w j i) (fires : World.Fires w env f o others w')
    (known : o.control.queue.knows j = w.control.queue.knows j)
    (waits : w.control.queue.isWaiting j i = true →
      o.control.queue.isWaiting j i = true ∨ 0 < (o.push ++ o.spawned).countP (holding j i))
    (held : holding j i f = true →
      o.control.queue.isWaiting j i = true ∨ 0 < (o.push ++ o.spawned).countP (holding j i)) :
    Covered w' j i := by
  have balance := fires.frames.count (holding j i)
  have few : [f].countP (holding j i) ≤ 1 := List.countP_le_length
  have placed : o.control.queue.isWaiting j i = true ∨
      0 < (o.push ++ o.spawned).countP (holding j i) → w'.control.queue.isWaiting j i = true ∨
        0 < w'.frames.countP (holding j i) := by
    rintro (here | new)
    · rw [fires.control]
      exact .inl here
    · obtain ⟨g, member, holds⟩ := List.countP_pos_iff.mp new
      exact .inr (List.countP_pos_iff.mpr ⟨g, fires.frames.mem_new member, holds⟩)
  refine ⟨by rw [fires.control, known]; exact covered.known, ?_⟩
  rcases covered.placed with here | some
  · exact placed (waits here)
  · by_cases mine : holding j i f = true
    · exact placed (held mine)
    · have none : [f].countP (holding j i) = 0 := by simp [mine]
      exact .inr (by omega)

theorem Covered.goto {p : Pump} {pc : PumpAt} (covered : Covered w j i)
    (fires : World.Fires w env (.pump p) o others w') (queue : o.control.queue = w.control.queue)
    (push : o.push = p.goto pc) (hand : pc.inHand = p.pc.inHand) : Covered w' j i := by
  refine covered.next fires (by rw [queue]) (fun here => .inl (by rw [queue]; exact here))
    fun held => .inr ?_
  rw [push]
  refine List.countP_pos_iff.mpr ⟨_, List.mem_append_left _ (List.mem_singleton_self _), ?_⟩
  have same : holding j i (.pump { p with pc := pc }) = holding j i (.pump p) := by
    unfold holding
    dsimp only
    rw [hand]
  exact same.trans held

/-- A pump that has settled its first grant still holds the others. -/
theorem holds_rest {p : Pump} {g : Grant} {rest : List Grant} (hand : p.pc.inHand = g :: rest)
    (other : grants j i g ≠ true) (held : holding j i (.pump p) = true) :
    0 < (p.goto (.next rest)).countP (holding j i) := by
  unfold holding at held
  dsimp only at held
  rw [hand, List.any_cons, Bool.or_eq_true] at held
  exact List.countP_pos_iff.mpr ⟨_, List.mem_singleton_self _, held.resolve_left other⟩

/-- The fleet's acceptance takes a ready step out of Ready. -/
theorem settled_unready {ticket : Ticket} {node : String} {keeps : ∀ job,
      (assignmentSettled env w.control ticket.grant.stepId (.ok node) job).1.id = job.id}
    (mine : ticket.grant.jobId = j ∧ ticket.grant.stepId = i)
    (ready : stateOf w.control j i = some .ready) :
    stateOf (w.control.withJobMut ticket.grant.jobId
      (fun job => (assignmentSettled env w.control ticket.grant.stepId (.ok node) job).1) keeps) j i
        = some .leased := by
  obtain ⟨rfl, rfl⟩ := mine
  obtain ⟨job, s, found, known, at'⟩ := stateOf_eq_some.mp ready
  obtain ⟨s', id, leased, moved⟩ := settleAssignment_ready w.control.config.timeouts
    w.control.config.leaseTtl env.now node known at'
  rw [stateOf_found (get_withJobMut found)]
  unfold assignmentSettled
  rw [moved, state_modifyStep known id, leased]

/-- The driver's own reconciliation puts a ready step in line. -/
theorem waits_reconciled (env : Env) {job : Job} (found : w.control.jobs.get j = some job)
    (planned : Planned job) (ready : stateOf w.control j i = some .ready) :
    (reconciled env w.control (some j)).knows j = true ∧
      (reconciled env w.control (some j)).isWaiting j i = true := by
  have own : job.id = j := JobStore.id_of_get found
  obtain ⟨job', s, found', known, at'⟩ := stateOf_eq_some.mp ready
  obtain rfl := Option.some.inj (found.symm.trans found')
  obtain ⟨member, same⟩ := Job.mem_of_step known
  have places := FairQueue.reconcile_places w.control.queue
    (jobView job w.control.config.fairShare) env.now
  unfold reconciled
  rw [Option.bind_some, found]
  dsimp only
  constructor
  · rw [places.1]
    simp [jobView, own]
  · have waits := places.2.2.2.2 i ?_ ?_
    · rw [show (jobView job w.control.config.fairShare).jobId = j from own] at waits
      exact waits
    · intro step listed here
      obtain ⟨s', member', rfl⟩ := List.mem_map.mp listed
      have alike : s' = s := List.inj_on_of_nodup_map planned.distinct member' member
        (here.trans same.symm)
      rw [alike]
      exact at'
    · exact ⟨_, List.mem_map_of_mem member, same⟩

/-- What a selection starts from knows what the queue knows, and what waits goes on waiting. -/
theorem reconciled_keeps (env : Env)
    (planned : ∀ j job, w.control.jobs.get j = some job → Planned job)
    (ready : stateOf w.control j i = some .ready) (onBehalfOf : Option JobId) :
    (w.control.queue.knows j = true → (reconciled env w.control onBehalfOf).knows j = true) ∧
      (w.control.queue.isWaiting j i = true →
        (reconciled env w.control onBehalfOf).isWaiting j i = true) := by
  cases asked : onBehalfOf with
  | none => exact ⟨id, id⟩
  | some k =>
    cases found : w.control.jobs.get k with
    | none =>
      unfold reconciled
      rw [Option.bind_some, found]
      exact ⟨id, id⟩
    | some job =>
      by_cases mine : k = j
      · subst mine
        have both := waits_reconciled env found (planned k job found) ready
        exact ⟨fun _ => both.1, fun _ => both.2⟩
      · have own : job.id = k := JobStore.id_of_get found
        have places := FairQueue.reconcile_places w.control.queue
          (jobView job w.control.config.fairShare) env.now
        unfold reconciled
        rw [Option.bind_some, found]
        dsimp only
        constructor
        · intro known
          rw [places.1, known]
          rfl
        · intro waits
          rw [FairQueue.isWaiting_eq (places.2.1 j i fun same => mine (own.symm.trans same.symm))]
          exact waits

/-- A selection covers what waits in the queue it starts from. -/
theorem Covered.selected {p : Pump} (pc : p.pc = .select)
    (fires : World.Fires w env (.pump p) o others w')
    (known : (reconciled env w.control p.onBehalfOf).knows j = true)
    (placed : (reconciled env w.control p.onBehalfOf).isWaiting j i = true ∨
      0 < w.frames.countP (holding j i)) : Covered w' j i := by
  have places := FairQueue.select_places (reconciled env w.control p.onBehalfOf) env.now
  have balance := fires.frames.count (holding j i)
  have empty : [Frame.pump p].countP (holding j i) = 0 := by simp [holding, pc, PumpAt.inHand]
  cases fires.pump_move with
  | select =>
    refine ⟨by rw [fires.control]; exact (places.knows j).trans known, ?_⟩
    rcases placed with waits | some
    · rw [fires.control]
      rcases places.kept j i waits with waits | ⟨g, granted, mine⟩
      · exact .inl waits
      · refine .inr (List.countP_pos_iff.mpr ⟨_, fires.frames.mem_new (List.mem_append_left _
          (List.mem_singleton_self _)), ?_⟩)
        exact List.any_eq_true.mpr ⟨g, granted, grants_iff.mpr mine⟩
    · exact .inr (by omega)
  | _ => simp_all

/-- **A ready step stays covered by every step that retains.** -/
theorem covered_fires (planned : ∀ j job, w.control.jobs.get j = some job → Planned job)
    (unleased : Unleased w) (retains : Retains w f env) (fires : World.Fires w env f o others w')
    (before : ReadyHeld w.control j i) (after : ReadyHeld w'.control j i)
    (covered : Covered w j i) : Covered w' j i := by
  have move : FrameMove env w.control f o := fires.stepped ▸ frame_moves env w.control f
  have idle : (∀ p, f ≠ .pump p) → (∀ k, f ≠ .retire k .queue) → Covered w' j i := by
    intro other stays
    have queue := queue_still fires.stepped other stays
    refine covered.next fires (by rw [queue]) (fun here => .inl (by rw [queue]; exact here))
      fun held => ?_
    cases f with
    | pump p => exact absurd rfl (other p)
    | _ => cases held
  cases move with
  | accept => exact idle (by simp) (by simp)
  | drive => exact idle (by simp) (by simp)
  | finish => exact idle (by simp) (by simp)
  | report => exact idle (by simp) (by simp)
  | message move => exact idle (by cases move <;> simp) (by cases move <;> simp)
  | @retire k pc _ move =>
    cases move with
    | tree => exact idle (by simp) (by simp)
    | lease => exact idle (by simp) (by simp)
    | queue =>
      -- The places of a job are forgotten when its lease is gone, so these are another job's.
      have other : j ≠ k := by
        rintro rfl
        have none := unleased j fires.frames.mem_before
        have some := before.leased
        rw [none] at some
        cases some
      have places := FairQueue.forgetJob_places w.control.queue k env.now
      refine covered.next fires (places.1 j other) (fun here => .inl ?_) fun held => by cases held
      rw [FairQueue.isWaiting_eq (places.2.1 j i other)]
      exact here
  | @pump p _ move =>
    cases move with
    | select pc =>
      have keeps := reconciled_keeps env planned before.ready p.onBehalfOf
      exact .selected pc fires (keeps.1 covered.known) (covered.placed.imp keeps.2 id)
    | ended pc =>
      exact covered.next fires rfl .inl fun held => by simp [holding, pc, PumpAt.inHand] at held
    | unpublished pc => exact covered.goto fires rfl rfl (by rw [pc]; rfl)
    | published pc => exact covered.goto fires rfl rfl (by rw [pc]; rfl)
    | unassignable pc => exact covered.goto fires rfl rfl (by rw [pc]; rfl)
    | assignable pc => exact covered.goto fires rfl rfl (by rw [pc]; rfl)
    | unleased pc => exact covered.goto fires rfl rfl (by rw [pc]; rfl)
    | leased pc => exact covered.goto fires rfl rfl (by rw [pc]; rfl)
    | granted pc => exact covered.goto fires rfl rfl (by rw [pc]; rfl)
    | taken pc => exact covered.goto fires rfl rfl (by rw [pc]; rfl)
    | fenced pc => exact covered.goto fires rfl rfl (by rw [pc]; rfl)
    | fence pc => exact covered.goto fires rfl rfl (by rw [pc]; rfl)
    | noCapacity pc => exact covered.goto fires rfl rfl (by rw [pc]; rfl)
    | accepted pc => exact covered.goto fires rfl rfl (by rw [pc]; rfl)
    | rejected pc => exact covered.goto fires rfl rfl (by rw [pc]; rfl)
    | releaseStep pc => exact covered.goto fires rfl rfl (by rw [pc]; rfl)
    | discarded pc => exact covered.goto fires rfl rfl (by rw [pc]; rfl)
    | requeue pc =>
      rename_i ticket rest
      have moves := FairQueue.moves_requeue w.control.queue ticket.grant.jobId ticket.grant.stepId
        ticket.assignment.stepName env.now
      by_cases mine : grants j i ticket.grant = true
      · obtain ⟨rfl, rfl⟩ := grants_iff.mp mine
        have waits := FairQueue.waits_requeue covered.known ticket.grant.stepId
          ticket.assignment.stepName env.now
        exact covered.next fires (moves.knows _) (fun _ => .inl waits) fun _ => .inl waits
      · refine covered.next fires (moves.knows j) (fun here => .inl ?_) fun held => .inr ?_
        · exact (FairQueue.isWaiting_eq (moves.others j i fun same =>
            mine (grants_iff.mpr ⟨same.1.symm, same.2.symm⟩))).trans here
        · rw [List.append_nil]
          exact holds_rest (by rw [pc]; rfl) mine held
    | settled pc =>
      rename_i ticket rest node job found moved
      by_cases mine : grants j i ticket.grant = true
      · have ready := after.ready
        rw [fires.control] at ready
        dsimp only at ready
        have clash : some StepState.ready = some StepState.leased :=
          ready.symm.trans (settled_unready (grants_iff.mp mine) before.ready)
        cases clash
      · refine covered.next fires rfl .inl fun held => .inr ?_
        rw [List.append_nil]
        exact holds_rest (by rw [pc]; rfl) mine held
    | release pc =>
      rename_i grant site at' rest
      have moves := FairQueue.moves_unplace w.control.queue grant.jobId grant.stepId at' false
      by_cases mine : grants j i grant = true
      · obtain ⟨rfl, rfl⟩ := grants_iff.mp mine
        have two := retains grant (by simp [letsGo, pc]) before
        have balance := fires.frames.count (holding grant.jobId grant.stepId)
        have few : [Frame.pump p].countP (holding grant.jobId grant.stepId) ≤ 1 :=
          List.countP_le_length
        refine ⟨?_, .inr (by omega)⟩
        rw [fires.control]
        exact (moves.knows _).trans covered.known
      · refine covered.next fires (moves.knows j) (fun here => .inl ?_) fun held => .inr ?_
        · exact (FairQueue.isWaiting_eq (moves.others j i fun same =>
            mine (grants_iff.mpr ⟨same.1.symm, same.2.symm⟩))).trans here
        · rw [List.append_nil]
          exact holds_rest (by rw [pc]; rfl) mine held

end Cover

/-! ### Runs -/

/-- A pump of the driver of `j` that is to select. -/
def selects (j : JobId) : Frame → Bool
  | .pump p => p.onBehalfOf = some j && p.pc.starts
  | _ => false

/-- The label at `m` lets a pump of the driver of `j` select. -/
def PumpsAt (config : ControlConfig) (labels : List Label) (m : ℕ) (j : JobId) : Prop :=
  ((labels[m]?).bind (run World.step (.init config) (labels.take m)).running).any
    (fun fired => selects j fired.1) = true

/-- **No ready step is lost**: while a step stays Ready and its job's lease is held, from a pump of
its own driver on, it waits in a queue whenever no pump is in progress. -/
def NoneLost (config : ControlConfig) (labels : List Label) : Prop :=
  ∀ m n j i, m < n → PumpsAt config labels m j →
    (∀ k, m ≤ k → k ≤ n →
      ReadyHeld (run World.step (.init config) (labels.take k)).control j i) →
    (∀ f ∈ (run World.step (.init config) (labels.take n)).frames, inProgress f = false) →
    (run World.step (.init config) (labels.take n)).control.queue.isWaiting j i = true ∧
      (run World.step (.init config) (labels.take n)).control.queue.Listed j i

theorem covered_pumped {config : ControlConfig} {labels : List Label} {m : ℕ} {j : JobId}
    {i : StepId} (pumps : PumpsAt config labels m j)
    (ready : ReadyHeld (run World.step (.init config) (labels.take m)).control j i) :
    Covered (run World.step (.init config) (labels.take (m + 1))) j i := by
  obtain ⟨⟨f, env⟩, fired, chosen⟩ := (Option.any_eq_true _ _).mp pumps
  obtain ⟨l, next, enabled⟩ := Option.bind_eq_some_iff.mp fired
  obtain ⟨o, others, fires⟩ := World.fires_at next enabled
  obtain ⟨job, -, found, -, -⟩ := stateOf_eq_some.mp ready.ready
  have both := waits_reconciled env found (planned config _ j job found) ready.ready
  cases f with
  | pump p =>
    simp only [selects, Bool.and_eq_true, decide_eq_true_eq] at chosen
    obtain ⟨own, starts⟩ := chosen
    rw [← own] at both
    cases pc : p.pc with
    | select => exact .selected pc fires both.1 (.inl both.2)
    | _ => simp [pc, PumpAt.starts] at starts
  | _ => cases chosen

theorem covered_label {config : ControlConfig} {labels : List Label} {n : ℕ} {j : JobId}
    {i : StepId} (retains : Along World.step (World.Meets Retains) (.init config) labels)
    (before : ReadyHeld (run World.step (.init config) (labels.take n)).control j i)
    (after : ReadyHeld (run World.step (.init config) (labels.take (n + 1))).control j i)
    (covered : Covered (run World.step (.init config) (labels.take n)) j i) :
    Covered (run World.step (.init config) (labels.take (n + 1))) j i := by
  cases next : labels[n]? with
  | none =>
    have short := List.getElem?_eq_none_iff.mp next
    rw [List.take_of_length_le short] at covered
    rw [List.take_of_length_le (by omega)]
    exact covered
  | some l =>
    cases enabled : (run World.step (.init config) (labels.take n)).running l with
    | some fired =>
      obtain ⟨f, env⟩ := fired
      obtain ⟨o, others, fires⟩ := World.fires_at next enabled
      exact covered_fires (planned config _) (unleased config _)
        (along_iff.mp retains n l next (f, env) enabled) fires before after covered
    | none =>
      rw [run_take_succ next] at after ⊢
      cases l with
      | run task env =>
        rw [World.step_still enabled]
        exact covered
      | call call =>
        refine ⟨covered.known, covered.placed.imp id fun some => ?_⟩
        rw [World.frames_call, List.countP_append]
        omega

/-- **No ready step is lost in a run that retains.** -/
theorem none_lost {config : ControlConfig} {labels : List Label}
    (retains : Along World.step (World.Meets Retains) (.init config) labels) :
    NoneLost config labels := by
  intro m n j i before pumps ready quiet
  have all : ∀ k, m + 1 ≤ k → k ≤ n →
      Covered (run World.step (.init config) (labels.take k)) j i := by
    intro k later
    induction k, later using Nat.le_induction with
    | base => exact fun _ => covered_pumped pumps (ready m le_rfl before.le)
    | succ k later ih =>
      exact fun le => covered_label retains (ready k (by omega) (by omega))
        (ready (k + 1) (by omega) le) (ih (by omega))
  have waits : (run World.step (.init config) (labels.take n)).control.queue.isWaiting j i = true := by
    refine (all n before le_rfl).placed.resolve_right fun some => ?_
    obtain ⟨g, member, holds⟩ := List.countP_pos_iff.mp some
    have ended := quiet g member
    cases g with
    | pump p => cases pc : p.pc <;> simp_all [inProgress, PumpAt.starts, holding, PumpAt.inHand]
    | _ => cases holds
  exact ⟨waits, lined config _ j i waits⟩

/-- Two jobs with a plan of one step each, and a fleet without room. The pump of the second job holds
the step of the first when the driver of the first puts it back in line and gets it granted too. -/
def twiceGranted : List Label :=
  let planned := fun env : Env => { env with
    fetched := some (.ok ⟨"tree", ""⟩)
    planned := .ok [{ name := "build" }] }
  [.call (.accept (dispatchTo "u1") .member 0)] ++ Label.steps 0 0 8
    ++ Label.steps 1 10 18 planned
    ++ [.call (.accept { dispatchTo "u2" with treeId := "other" } .member 0)]
    ++ Label.steps 2 30 8 ++ Label.steps 3 40 14 (fun env => { planned env with
      fetched := some (.ok ⟨"other", ""⟩) })
    ++ Label.steps 1 60 6

/-- The pump that was refused the claim releases first; the other then puts the step back in line. -/
def releasedFirst : List Label :=
  twiceGranted ++ Label.steps 1 70 2 ++ Label.steps 3 80 11

/-- The step that was granted twice is Ready from the pump of its driver on. -/
def ReadyFrom (labels : List Label) : Prop :=
  ∀ k ∈ List.range 19, ReadyHeld
    (run World.step (.init {}) (labels.take (51 + k))).control "2" "step_00_00000000"

instance (labels : List Label) : Decidable (ReadyFrom labels) :=
  inferInstanceAs (Decidable (∀ k ∈ List.range 19, _))

theorem ReadyFrom.held {labels : List Label} (ready : ReadyFrom labels) (k : ℕ) (after : 51 ≤ k)
    (before : k ≤ 69) : ReadyHeld
      (run World.step (.init {}) (labels.take k)).control "2" "step_00_00000000" := by
  have here := ready (k - 51) (List.mem_range.mpr (by omega))
  rw [Nat.add_sub_cancel' after] at here
  exact here

theorem none_lost_released :
    Along World.step (World.Meets Retains) (.init {}) releasedFirst ∧
      (run World.step (.init {}) releasedFirst).control.queue.isWaiting "2" "step_00_00000000"
        = true := by
  have retains : Along World.step (World.Meets Retains) (.init {}) releasedFirst := by
    decide +kernel
  have ready : ReadyFrom releasedFirst := by decide +kernel
  have pumps : PumpsAt {} releasedFirst 51 "2" := by
    unfold PumpsAt
    decide +kernel
  have quiet : ∀ f ∈ (run World.step (.init {}) (releasedFirst.take 69)).frames,
      inProgress f = false := by decide +kernel
  have waits := (none_lost retains 51 69 "2" "step_00_00000000" (by decide) pumps ready.held
    quiet).1
  rw [List.take_of_length_le (by decide +kernel)] at waits
  exact ⟨retains, waits⟩

/-- The other pump puts the step back in line; then the pump that was refused the claim releases. -/
def releasedLast : List Label :=
  twiceGranted ++ Label.steps 3 70 3 ++ Label.steps 1 80 2 ++ Label.steps 3 90 8

/-- A pump refused with `Taken` takes the place of a ready step that another has just put back. -/
theorem refused_twice : ¬ NoneLost {} releasedLast := by
  intro kept
  have ready : ReadyFrom releasedLast := by decide +kernel
  have pumps : PumpsAt {} releasedLast 51 "2" := by
    unfold PumpsAt
    decide +kernel
  have quiet : ∀ f ∈ (run World.step (.init {}) (releasedLast.take 69)).frames,
      inProgress f = false := by decide +kernel
  have gone : (run World.step (.init {}) (releasedLast.take 69)).control.queue.isWaiting "2"
      "step_00_00000000" = false := by decide +kernel
  have waits := (kept 51 69 "2" "step_00_00000000" (by decide) pumps ready.held quiet).1
  rw [gone] at waits
  cases waits

end HullCi.System
