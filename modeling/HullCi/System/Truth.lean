/-
**Every verdict held anywhere was decided.**

A verdict is recorded once, by a `finish`, and copied: to the claim, to the journal, to the accepts
that attach to a settled claim and to the requests of a report.

* `truth_fires` — no step makes up a verdict.
* `truth` — in every state of every run, each copy is of a verdict the job was seen to decide.
-/

import HullCi.System.Effects

namespace HullCi.System

open HullCi.Proto HullCi.Base HullCi.Control

def TruthfulAccept (history : List Obs) : AcceptAt → Prop
  | .attach j (some v) => .decided j v ∈ history
  | .foreign j v => .decided j v ∈ history
  | _ => True

def TruthfulReport (history : List Obs) (j : JobId) : ReportAt → Prop
  | .post req _ rest => ∀ q ∈ req :: rest, q.jobId = j ∧ .decided j q.verdict ∈ history
  | _ => True

/-- The verdicts a frame carries were decided for the job it carries them for. -/
def Truthful (history : List Obs) : Frame → Prop
  | .accept a => TruthfulAccept history a.pc
  | .finish j (.lease (some v)) => .decided j v ∈ history
  | .finish j (.settle lease v) => lease.jobId = j ∧ .decided j v ∈ history
  | .finish j (.snapshot (some v)) => .decided j v ∈ history
  | .finish j (.journal intent) =>
    intent.jobId = j ∧ ∀ v, intent.verdict = some v → .decided j v ∈ history
  | .report j r => TruthfulReport history j r.pc
  | _ => True

/-- **Every copy of a verdict is of one that was decided.** -/
structure Truth (w : World) : Prop where
  record : ∀ j job v, w.control.jobs.get j = some job → job.verdict = some v →
    .decided j v ∈ w.history
  claim : ∀ j claim v, w.control.claims.claims.lookup j = some claim → claim.verdict = some v →
    .decided j v ∈ w.history
  frames : ∀ f ∈ w.frames, Truthful w.history f

theorem truthful_mono {h h' : List Obs} (grows : ∀ x ∈ h, x ∈ h') {f : Frame}
    (truthful : Truthful h f) : Truthful h' f := by
  unfold Truthful TruthfulAccept TruthfulReport at truthful ⊢
  split at truthful
  · split at truthful
    · exact grows _ truthful
    · exact grows _ truthful
    · trivial
  · exact grows _ truthful
  · exact ⟨truthful.1, grows _ truthful.2⟩
  · exact grows _ truthful
  · exact ⟨truthful.1, fun v carried => grows _ (truthful.2 v carried)⟩
  · split at truthful
    · exact fun q member => ⟨(truthful q member).1, grows _ (truthful q member).2⟩
    · trivial
  · trivial

/-- The requests of a read are for the job, with the verdict its record holds. -/
theorem mem_requests {c : Control} {job : Job} {v : Verdict} {attempted : List String}
    {q : CallbackRequest} (member : q ∈ requests c job v attempted) :
    q.url ∈ job.callbackUrls ∧ q.url ∉ attempted ∧ q.verdict = v ∧ q.jobId = job.id := by
  obtain ⟨url, listed, rfl⟩ := List.mem_map.mp member
  obtain ⟨held, fresh⟩ := List.mem_filter.mp listed
  exact ⟨held, by simpa using fresh, rfl, rfl⟩

section Step

variable {w w' : World} {env : Env} {f : Frame} {o : Outcome} {others : List Frame}

theorem accept_truthful (truth : Truth w) {a : Accept} (present : Truthful w.history (.accept a))
    (move : AcceptMove env w.control a o) :
    ∀ g ∈ o.push ++ o.spawned, Truthful w.history g := by
  intro g member
  cases move with
  | attached pc admits =>
    rename_i claims k owner verdict
    obtain rfl := List.mem_singleton.mp member
    cases verdict with
    | none => trivial
    | some v =>
      obtain ⟨claim, found, settled, -⟩ := LocalClaims.admit_attached admits
      exact truth.claim k claim v found settled
  | attachForeign pc =>
    obtain rfl := List.mem_singleton.mp member
    have carried : TruthfulAccept w.history a.pc := present
    rw [pc] at carried
    exact carried
  | startDrive pc =>
    rcases List.mem_append.mp member with own | spawned
    · obtain rfl := List.mem_singleton.mp own
      trivial
    · obtain rfl := List.mem_singleton.mp spawned
      trivial
  | startReport pc claims =>
    rcases List.mem_append.mp member with own | spawned
    · obtain rfl := List.mem_singleton.mp own
      trivial
    · cases claims with
      | taken => obtain rfl := List.mem_singleton.mp spawned; trivial
      | busy => cases spawned
      | gone => cases spawned
  | drain pc claims =>
    rcases List.mem_append.mp member with own | spawned
    · obtain rfl := List.mem_singleton.mp own
      trivial
    · cases claims with
      | taken => obtain rfl := List.mem_singleton.mp spawned; trivial
      | skipped => cases spawned
  | attachRefused => cases member
  | rollbackClaim => cases member
  | drained => cases member
  | _ =>
    obtain rfl := List.mem_singleton.mp member
    trivial

theorem finish_truthful (truth : Truth w) {j : JobId} {pc : FinishAt}
    (present : Truthful w.history (.finish j pc)) (move : FinishMove env w.control j pc o) :
    ∀ g ∈ o.push ++ o.spawned, Truthful w.history g := by
  intro g member
  cases move with
  | decided =>
    obtain rfl := List.mem_singleton.mp member
    cases found : w.control.jobs.get j with
    | none => trivial
    | some job =>
      cases held : job.verdict with
      | none =>
        rw [Option.bind_some, held]
        trivial
      | some v =>
        rw [Option.bind_some, held]
        exact truth.record j job v found held
  | leased held =>
    obtain rfl := List.mem_singleton.mp member
    exact ⟨Leases.jobId_of_get held, present⟩
  | unleased =>
    rename_i decided free
    obtain rfl := List.mem_singleton.mp member
    cases decided with
    | none => trivial
    | some v => exact present
  | settle =>
    obtain rfl := List.mem_singleton.mp member
    exact present.2
  | snapshot found =>
    rename_i decided job
    obtain rfl := List.mem_singleton.mp member
    refine ⟨JobStore.id_of_get found, fun v carried => ?_⟩
    obtain rfl : decided = some v := carried
    exact present
  | retire =>
    rcases List.mem_cons.mp member with rfl | last
    · trivial
    · obtain rfl := List.mem_singleton.mp last
      trivial
  | claim claims =>
    cases claims with
    | taken => obtain rfl := List.mem_singleton.mp member; trivial
    | busy => cases member
    | gone => cases member
  | gone => cases member
  | late => cases member
  | _ =>
    obtain rfl := List.mem_singleton.mp member
    trivial

theorem report_truthful (truth : Truth w) {j : JobId} {r : Report}
    (present : Truthful w.history (.report j r)) (move : ReportMove env w.control j r o) :
    ∀ g ∈ o.push ++ o.spawned, Truthful w.history g := by
  intro g member
  have carried : TruthfulReport w.history j r.pc := present
  cases move with
  | read pc found decided some =>
    rename_i job v req rest
    obtain rfl := List.mem_singleton.mp member
    intro q listed
    rw [← some] at listed
    obtain ⟨-, -, same, own⟩ := mem_requests listed
    exact ⟨own.trans (JobStore.id_of_get found), same ▸ truth.record j job v found decided⟩
  | retry pc =>
    obtain rfl := List.mem_singleton.mp member
    rw [pc] at carried
    exact carried
  | posted pc =>
    obtain rfl := List.mem_singleton.mp member
    rw [pc] at carried
    exact fun q listed => carried q (List.mem_cons_of_mem _ listed)
  | readNothing =>
    obtain rfl := List.mem_singleton.mp member
    show TruthfulReport w.history j (if r.attempted = [] then _ else _)
    split_ifs <;> trivial
  | readDone =>
    obtain rfl := List.mem_singleton.mp member
    show TruthfulReport w.history j (if r.attempted = [] then _ else _)
    split_ifs <;> trivial
  | settle =>
    obtain rfl := List.mem_singleton.mp member
    show TruthfulReport w.history j (if r.anyDelivered then _ else _)
    split_ifs <;> trivial
  | release => cases member
  | _ =>
    obtain rfl := List.mem_singleton.mp member
    trivial

/-- The frames a step leaves carry verdicts that were decided before it. -/
theorem truthful_new (truth : Truth w) (fires : World.Fires w env f o others w') :
    ∀ g ∈ o.push ++ o.spawned, Truthful w.history g := by
  have present := truth.frames f fires.frames.mem_before
  have move : FrameMove env w.control f o := fires.stepped ▸ frame_moves env w.control f
  cases move with
  | accept move => exact accept_truthful truth present move
  | finish move => exact finish_truthful truth present move
  | report move => exact report_truthful truth present move
  | drive move => cases move <;> simp [Truthful]
  | retire move => cases move <;> simp [Truthful]
  | pump move => cases move <;> simp [Pump.goto, Truthful]
  | message move => cases move <;> simp

/-- A section on a record keeps its verdict, or is seen to decide it. -/
theorem Edit.verdict {c : Control} {j : JobId} {g : Job → Job} (edit : Edit c f o j g) {job : Job}
    {v : Verdict} (held : (g job).verdict = some v) :
    job.verdict = some v ∨ .decided j v ∈ o.observed := by
  cases edit with
  | quiet quiet => exact .inl ((quiet job).verdict ▸ held)
  | attached grows =>
    rename_i urls
    rw [grows] at held
    exact .inl ((congrArg Job.verdict (addCallbackUrls_eq urls job)).symm.trans held)
  | taken sets => exact .inl (by rw [sets] at held; exact held)
  | released clears => exact .inl (by rw [clears] at held; exact held)
  | settled own pc settles =>
    rename_i r now
    rw [settles] at held
    have same : (settleReport r.attemptsTotal r.anyDelivered now job).verdict = job.verdict :=
      Job.tryTransitionAt_verdict _ _ _
    exact .inl (same.symm.trans held)
  | decided seen records =>
    rename_i v' now
    have recorded : (recordVerdict v' now job).1.verdict = some v := by
      rw [records] at held
      exact held
    cases decided : job.state.hasVerdict with
    | true =>
      rw [recordVerdict_once decided] at recorded
      exact .inl recorded
    | false =>
      rw [recordVerdict_first decided] at recorded
      obtain rfl := Option.some.inj recorded
      exact .inr (seen ▸ List.mem_singleton_self _)

/-- **No step makes up a verdict.** -/
theorem truth_fires (truth : Truth w) (fires : World.Fires w env f o others w') : Truth w' := by
  have grows : ∀ x ∈ w.history, x ∈ w'.history := fun x member => fires.seen.mpr (.inl member)
  have present := truth.frames f fires.frames.mem_before
  refine ⟨fun j job v found held => ?_, fun j claim v found held => ?_, ?_⟩
  · rw [fires.control] at found
    cases record_move fires.stepped j with
    | same kept => exact grows _ (truth.record j job v (kept ▸ found) held)
    | touched touches mapped =>
      rw [mapped] at found
      obtain ⟨before, known, rfl⟩ := Option.map_eq_some_iff.mp found
      rcases touches.edit.verdict held with old | new
      · exact grows _ (truth.record j before v known old)
      · exact fires.seen.mpr (.inr new)
    | evicted _ _ _ _ gone => simp [gone] at found
    | rolledBack _ gone => simp [gone] at found
    | inserted _ _ fresh =>
      rw [fresh, Option.some.injEq] at found
      rw [← found] at held
      cases held
    | foreign pc written =>
      rw [written, Option.some.injEq] at found
      rw [← found] at held
      obtain rfl := Option.some.inj held
      have carried : TruthfulAccept w.history _ := present
      rw [pc] at carried
      exact grows _ carried
  · rw [fires.control] at found
    cases claim_move fires.stepped j with
    | same kept => exact grows _ (truth.claim j claim v (kept ▸ found) held)
    | evicted _ gone => simp [gone] at found
    | rolledBack _ gone => simp [gone] at found
    | stale _ _ _ _ gone => simp [gone] at found
    | attached _ known grown =>
      rw [grown, Option.some.injEq] at found
      rw [← found, LocalClaim.attach_verdict] at held
      exact grows _ (truth.claim j _ v known held)
    | created _ _ fresh =>
      rw [fresh, Option.some.injEq] at found
      rw [← found] at held
      cases held
    | settled own published =>
      rw [published] at found
      obtain ⟨before, known, rfl⟩ := Option.map_eq_some_iff.mp found
      obtain rfl := Option.some.inj held
      obtain ⟨same, decided⟩ := present
      rw [← own, same]
      exact grows _ decided
    | @granted _ _ _ _ before _ _ known _ taken =>
      rw [taken, Option.some.injEq] at found
      rw [← found] at held
      exact grows _ (truth.claim j before v known held)
    | released _ _ freed =>
      rw [freed] at found
      obtain ⟨before, known, rfl⟩ := Option.map_eq_some_iff.mp found
      exact grows _ (truth.claim j before v known held)
  · exact fires.all_frames truth.frames (fun g => truthful_mono grows)
      fun g member => truthful_mono grows (truthful_new truth fires g member)

end Step

theorem truth_init (config : ControlConfig) : Truth (.init config) where
  record := fun _ _ _ found => by cases found
  claim := fun _ _ _ found => by cases found
  frames := fun _ member => by cases member

theorem truth_call {w : World} (call : Call) (truth : Truth w) : Truth (w.step (.call call)) := by
  refine ⟨truth.record, truth.claim, fun f member => ?_⟩
  rw [World.frames_call] at member
  rcases List.mem_append.mp member with old | new
  · exact truth.frames f old
  · rw [List.mem_singleton.mp new]
    cases call <;> trivial

/-- In every state of every run, each copy of a verdict is of one that was decided. -/
theorem truth (config : ControlConfig) (labels : List Label) :
    Truth (run World.step (.init config) labels) :=
  World.invariant_always (fun _ call => truth_call call)
    (fun _ _ _ _ _ _ truth fires => truth_fires truth fires) (truth_init config) labels

end HullCi.System
