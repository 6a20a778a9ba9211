/-
**A debt stays visible until a delivery lands.**

Several destinations share one job, one journal entry and one `any_delivered`. A report posts to every
destination it has read, and pays the debt of the job when one of them answered with a success.

* `debt_fires` — no step pays without a delivery, or drops a destination that was read.
* `debt_visible` — in every run: no entry is forgotten and no job `Reported` before a delivery of the
  job's verdict has landed, every destination read is posted to, and recovery forgets only entries one
  of whose destinations was delivered to.
* `unpaid_destination` — the debt of one destination is not kept on its own.
-/

import HullCi.System.Truth

namespace HullCi.System

open HullCi.Proto HullCi.Base HullCi.Control

/-! ### Deliveries -/

/-- A delivery of the job's verdict landed. -/
def Landed (history : List Obs) (j : JobId) : Prop :=
  ∃ req, .posted req true ∈ history ∧ req.jobId = j ∧ .decided j req.verdict ∈ history

/-- The job's verdict was posted to a destination at least once. -/
def PostedTo (history : List Obs) (j : JobId) (url : String) : Prop :=
  ∃ req success, .posted req success ∈ history ∧ req.jobId = j ∧ req.url = url ∧
    .decided j req.verdict ∈ history

/-- The destinations a report has yet to post to, the one it is posting to included. -/
def pending : ReportAt → List String
  | .post req _ rest => (req :: rest).map (·.url)
  | _ => []

/-- What a report says of its deliveries is so. -/
structure Honest (history : List Obs) (j : JobId) (r : Report) : Prop where
  landed : r.anyDelivered = true → Landed history j
  forgets : r.pc = .forget → r.anyDelivered = true
  posted : ∀ url ∈ r.attempted, PostedTo history j url ∨ url ∈ pending r.pc

/-- **Debts are paid by deliveries.** -/
structure Debt (w : World) : Prop where
  honest : ∀ j r, Frame.report j r ∈ w.frames → Honest w.history j r
  reported : ∀ j job, w.control.jobs.get j = some job → job.state = .reported →
    Landed w.history j
  forgot : ∀ j, .forgot j ∈ w.history → Landed w.history j
  surveyed : ∀ j urls url, .surveyed j urls ∈ w.history → url ∈ urls →
    PostedTo w.history j url ∨ ∃ r, Frame.report j r ∈ w.frames ∧ url ∈ pending r.pc

section History

variable {h h' : List Obs} {j : JobId}

theorem Landed.mono (grows : ∀ x ∈ h, x ∈ h') (landed : Landed h j) : Landed h' j := by
  obtain ⟨req, posted, own, decided⟩ := landed
  exact ⟨req, grows _ posted, own, grows _ decided⟩

theorem PostedTo.mono (grows : ∀ x ∈ h, x ∈ h') {url : String} (posted : PostedTo h j url) :
    PostedTo h' j url := by
  obtain ⟨req, success, sent, own, there, decided⟩ := posted
  exact ⟨req, success, grows _ sent, own, there, grows _ decided⟩

theorem Honest.mono (grows : ∀ x ∈ h, x ∈ h') {r : Report} (honest : Honest h j r) :
    Honest h' j r where
  landed := fun any => (honest.landed any).mono grows
  forgets := honest.forgets
  posted := fun url member => (honest.posted url member).imp (·.mono grows) id

end History

/-! ### Steps -/

section Step

variable {w w' : World} {env : Env} {f : Frame} {o : Outcome} {others : List Frame}

theorem posted_seen {j : JobId} {r : Report} {req : CallbackRequest} {attempt : ℕ}
    {rest : List CallbackRequest} (truth : Truth w)
    (fires : World.Fires w env (.report j r) o others w') (pc : r.pc = .post req attempt rest)
    (seen : o.observed = [.posted req (env.posted.any isSuccess)]) :
    PostedTo w'.history j req.url ∧
      (env.posted.any isSuccess = true → Landed w'.history j) := by
  have carried : TruthfulReport w.history j r.pc := truth.frames _ fires.frames.mem_before
  rw [pc] at carried
  obtain ⟨own, decided⟩ := carried req List.mem_cons_self
  have posted : .posted req (env.posted.any isSuccess) ∈ w'.history :=
    fires.seen.mpr (.inr (seen ▸ List.mem_singleton_self _))
  have known : .decided j req.verdict ∈ w'.history := fires.seen.mpr (.inl decided)
  exact ⟨⟨req, _, posted, own, rfl, known⟩, fun success => ⟨req, success ▸ posted, own, known⟩⟩

theorem honest_tally {j : JobId} {r : Report} {req : CallbackRequest} {attempt : ℕ}
    {rest : List CallbackRequest} {outcome : Delivery} {policy : RetryPolicy} (truth : Truth w)
    (honest : Honest w'.history j r) (fires : World.Fires w env (.report j r) o others w')
    (pc : r.pc = .post req attempt rest)
    (settled : afterPost policy attempt env.posted = some outcome)
    (seen : o.observed = [.posted req (env.posted.any isSuccess)]) :
    ((r.tally outcome).anyDelivered = true → Landed w'.history j) ∧
      ∀ url ∈ r.attempted, PostedTo w'.history j url ∨ url ∈ rest.map (·.url) := by
  obtain ⟨here, lands⟩ := posted_seen truth fires pc seen
  constructor
  · intro any
    rcases Bool.or_eq_true_iff.mp any with before | now
    · exact honest.landed before
    · exact lands ((afterPost_delivered settled).symm.trans now)
  · intro url member
    rcases honest.posted url member with old | still
    · exact .inl old
    · rw [pc] at still
      rcases List.mem_cons.mp still with rfl | later
      · exact .inl here
      · exact .inr later

theorem report_honest {j : JobId} {r : Report} (truth : Truth w)
    (honest : Honest w'.history j r) (fires : World.Fires w env (.report j r) o others w')
    (move : ReportMove env w.control j r o) {k : JobId} {r' : Report}
    (member : Frame.report k r' ∈ o.push ++ o.spawned) : Honest w'.history k r' := by
  have idle : r.pc = .read ∨ r.pc = .settle ∨ r.pc = .forget ∨ r.pc = .destinations ∨
      (∃ urls, r.pc = .merge urls) → ∀ url ∈ r.attempted, PostedTo w'.history j url := by
    rintro (pc | pc | pc | pc | ⟨urls, pc⟩) url listed <;>
      exact (honest.posted url listed).resolve_right (by simp [pc, pending])
  cases move with
  | destinations pc =>
    obtain ⟨rfl, rfl⟩ := Frame.report.inj (List.mem_singleton.mp member)
    exact ⟨honest.landed, by simp, fun url listed => .inl (idle (by simp [pc]) url listed)⟩
  | merge pc =>
    obtain ⟨rfl, rfl⟩ := Frame.report.inj (List.mem_singleton.mp member)
    exact ⟨honest.landed, by simp, fun url listed => .inl (idle (by simp [pc]) url listed)⟩
  | readNothing pc =>
    obtain ⟨rfl, rfl⟩ := Frame.report.inj (List.mem_singleton.mp member)
    refine ⟨honest.landed, fun at' => ?_, fun url listed => .inl (idle (by simp [pc]) url listed)⟩
    unfold Report.done at at'
    dsimp only at at'
    split_ifs at at'
  | readDone pc =>
    obtain ⟨rfl, rfl⟩ := Frame.report.inj (List.mem_singleton.mp member)
    refine ⟨honest.landed, fun at' => ?_, fun url listed => .inl (idle (by simp [pc]) url listed)⟩
    unfold Report.done at at'
    dsimp only at at'
    split_ifs at at'
  | read pc =>
    obtain ⟨rfl, rfl⟩ := Frame.report.inj (List.mem_singleton.mp member)
    refine ⟨honest.landed, by simp [Report.posting], fun url listed => ?_⟩
    rcases List.mem_append.mp listed with old | new
    · exact .inl (idle (by simp [pc]) url old)
    · rw [List.mem_singleton.mp new]
      exact .inr List.mem_cons_self
  | retry pc =>
    obtain ⟨rfl, rfl⟩ := Frame.report.inj (List.mem_singleton.mp member)
    refine ⟨honest.landed, by simp, fun url listed => ?_⟩
    have before := honest.posted url listed
    rw [pc] at before
    exact before
  | postedLast pc settled =>
    obtain ⟨rfl, rfl⟩ := Frame.report.inj (List.mem_singleton.mp member)
    obtain ⟨landed, posted⟩ := honest_tally truth honest fires pc settled rfl
    exact ⟨landed, by simp [Report.tally], fun url listed =>
      .inl ((posted url listed).resolve_right (by simp))⟩
  | posted pc settled =>
    obtain ⟨rfl, rfl⟩ := Frame.report.inj (List.mem_singleton.mp member)
    obtain ⟨landed, posted⟩ := honest_tally truth honest fires pc settled rfl
    refine ⟨landed, by simp [Report.posting], fun url listed => ?_⟩
    rcases List.mem_append.mp listed with old | new
    · exact posted url old
    · rw [List.mem_singleton.mp new]
      exact .inr List.mem_cons_self
  | settle pc =>
    obtain ⟨rfl, rfl⟩ := Frame.report.inj (List.mem_singleton.mp member)
    refine ⟨honest.landed, fun at' => ?_, fun url listed => .inl (idle (by simp [pc]) url listed)⟩
    dsimp only at at' ⊢
    split_ifs at at' with any
    exact any
  | forget pc =>
    obtain ⟨rfl, rfl⟩ := Frame.report.inj (List.mem_singleton.mp member)
    exact ⟨honest.landed, by simp, fun url listed => .inl (idle (by simp [pc]) url listed)⟩
  | release => cases member

theorem honest_fresh (history : List Obs) (j : JobId) : Honest history j {} :=
  ⟨fun any => (by cases any), fun at' => (by cases at'), fun _ member => (by cases member)⟩

/-- A report among the frames another frame leaves has just started. -/
theorem fresh_report (fires : World.Fires w env f o others w')
    (other : ∀ j r, f ≠ .report j r) {j : JobId} {r : Report}
    (member : Frame.report j r ∈ o.push ++ o.spawned) : r = {} := by
  have move : FrameMove env w.control f o := fires.stepped ▸ frame_moves env w.control f
  cases move with
  | accept move =>
    cases move with
    | startReport pc claims => cases claims <;> simp_all [Accept.goto]
    | drain pc claims => cases claims <;> simp_all [Accept.goto]
    | _ => simp [Accept.goto] at member
  | finish move =>
    cases move with
    | claim claims => cases claims <;> simp_all
    | _ => simp at member
  | report => exact absurd rfl (other _ _)
  | drive move => cases move <;> simp at member
  | retire move => cases move <;> simp at member
  | pump move => cases move <;> simp [Pump.goto] at member
  | message move => cases move <;> simp at member

theorem settleReport_state (attempts : ℕ) (landed : Bool) (now : Instant) {job : Job}
    (reported : (settleReport attempts landed now job).state = .reported) :
    job.state = .reported ∨ landed = true := by
  have moved : (settleReport attempts landed now job).state =
      if job.state.canTransitionTo (if landed then .reported else .reportFailed) then
        (if landed then .reported else .reportFailed) else job.state :=
    Job.tryTransitionAt_state _ _ _
  rw [reported] at moved
  cases landed with
  | true => exact .inr rfl
  | false =>
    simp only [Bool.false_eq_true, if_false] at moved
    split_ifs at moved with legal
    exact .inl moved.symm

theorem recordVerdict_state (v : Verdict) (now : Instant) {job : Job}
    (reported : (recordVerdict v now job).1.state = .reported) : job.state = .reported := by
  cases decided : job.state.hasVerdict with
  | true =>
    rw [recordVerdict_once decided] at reported
    exact reported
  | false =>
    rw [recordVerdict_first decided] at reported
    dsimp only at reported
    rw [Job.tryTransitionAt_state] at reported
    split_ifs at reported with legal
    · exact absurd reported (JobState.fromStatus_ne_reported _)
    · exact reported

/-- A section on a record makes it `Reported` only when its report has delivered. -/
theorem Edit.reported {c : Control} {j : JobId} {g : Job → Job} (edit : Edit c f o j g) {job : Job}
    (reported : (g job).state = .reported) :
    job.state = .reported ∨ ∃ r, f = .report j r ∧ r.anyDelivered = true := by
  cases edit with
  | quiet quiet =>
    rcases (quiet job).state with same | ⟨-, live⟩
    · exact .inl (same.symm.trans reported)
    · rw [reported] at live
      cases live
  | attached grows =>
    rename_i urls
    rw [grows] at reported
    exact .inl ((congrArg Job.state (addCallbackUrls_eq urls job)).symm.trans reported)
  | taken sets => exact .inl (by rw [sets] at reported; exact reported)
  | released clears => exact .inl (by rw [clears] at reported; exact reported)
  | settled own pc settles =>
    rename_i r now
    rw [settles] at reported
    exact (settleReport_state _ _ _ reported).imp id fun any => ⟨r, own, any⟩
  | decided seen records =>
    rw [records] at reported
    exact .inl (recordVerdict_state _ _ reported)

theorem pending_fires (truth : Truth w) (fires : World.Fires w env f o others w')
    {j : JobId} {r : Report} {url : String} (member : Frame.report j r ∈ w.frames)
    (owed : url ∈ pending r.pc) : PostedTo w'.history j url ∨
      ∃ r, Frame.report j r ∈ w'.frames ∧ url ∈ pending r.pc := by
  rcases fires.frames.kept member with rfl | still
  · have new : ∀ r', o.push = [.report j r'] → url ∈ pending r'.pc →
        ∃ r, Frame.report j r ∈ w'.frames ∧ url ∈ pending r.pc := fun r' push listed =>
      ⟨r', fires.frames.mem_new (List.mem_append_left _ (push ▸ List.mem_singleton_self _)), listed⟩
    cases fires.report_move with
    | retry pc =>
      rw [pc] at owed
      exact .inr (new _ rfl owed)
    | postedLast pc =>
      rw [pc] at owed
      rw [List.mem_singleton.mp owed]
      exact .inl (posted_seen truth fires pc rfl).1
    | posted pc =>
      rw [pc] at owed
      rcases List.mem_cons.mp owed with rfl | later
      · exact .inl (posted_seen truth fires pc rfl).1
      · exact .inr (new _ rfl later)
    | destinations pc => simp [pc, pending] at owed
    | merge pc => simp [pc, pending] at owed
    | readNothing pc => simp [pc, pending] at owed
    | readDone pc => simp [pc, pending] at owed
    | read pc => simp [pc, pending] at owed
    | settle pc => simp [pc, pending] at owed
    | forget pc => simp [pc, pending] at owed
    | release pc => simp [pc, pending] at owed
  · exact .inr ⟨r, still, owed⟩

/-- **No step pays a debt without a delivery, or drops a destination that was read.** -/
theorem debt_fires (truth : Truth w) (debt : Debt w) (fires : World.Fires w env f o others w') :
    Debt w' := by
  have grows : ∀ x ∈ w.history, x ∈ w'.history := fun x member => fires.seen.mpr (.inl member)
  have present := fires.frames.mem_before
  refine ⟨fun j r member => ?_, fun j job found reported => ?_, fun j seen => ?_,
    fun j urls url seen listed => ?_⟩
  · rcases fires.frames.mem_after member with new | old
    · by_cases own : ∃ k r, f = .report k r
      · obtain ⟨k, r', rfl⟩ := own
        exact report_honest truth ((debt.honest k r' present).mono grows) fires fires.report_move
          new
      · rw [fresh_report fires (fun k r' same => own ⟨k, r', same⟩) new]
        exact honest_fresh _ _
    · exact (debt.honest j r old).mono grows
  · rw [fires.control] at found
    cases record_move fires.stepped j with
    | same kept => exact (debt.reported j job (kept ▸ found) reported).mono grows
    | touched touches mapped =>
      rw [mapped] at found
      obtain ⟨before, known, rfl⟩ := Option.map_eq_some_iff.mp found
      rcases touches.edit.reported reported with old | ⟨r, rfl, any⟩
      · exact (debt.reported j before known old).mono grows
      · exact ((debt.honest j r present).landed any).mono grows
    | evicted _ _ _ _ gone => simp [gone] at found
    | rolledBack _ gone => simp [gone] at found
    | inserted _ _ fresh =>
      rw [fresh, Option.some.injEq] at found
      rw [← found] at reported
      cases reported
    | foreign _ written =>
      rw [written, Option.some.injEq] at found
      rw [← found] at reported
      exact absurd reported (JobState.fromStatus_ne_reported _)
  · rcases fires.seen.mp seen with old | new
    · exact (debt.forgot j old).mono grows
    · cases seen_move fires.stepped new with
      | forgot pc =>
        have honest := debt.honest _ _ present
        exact (honest.landed (honest.forgets pc)).mono grows
  · rcases fires.seen.mp seen with old | new
    · rcases debt.surveyed j urls url old listed with posted | ⟨r, member, owed⟩
      · exact .inl (posted.mono grows)
      · exact pending_fires truth fires member owed
    · cases seen_move fires.stepped new with
      | surveyed pc found decided push =>
        rename_i r job v
        by_cases sent : url ∈ r.attempted
        · refine .inl ((((debt.honest _ _ present).posted url sent).resolve_right ?_).mono grows)
          simp [pc, pending]
        · have asked : ∃ q ∈ requests w.control job v r.attempted, q.url = url :=
            ⟨⟨url, _, v, job.id⟩, List.mem_map.mpr ⟨url, List.mem_filter.mpr
              ⟨listed, by simpa using sent⟩, rfl⟩, rfl⟩
          obtain ⟨q, among, rfl⟩ := asked
          rcases push with ⟨-, empty⟩ | ⟨req, rest, push, some⟩
          · rw [empty] at among
            cases among
          · refine .inr ⟨r.posting req rest, fires.frames.mem_new (List.mem_append_left _
              (push ▸ List.mem_singleton_self _)), ?_⟩
            rw [some] at among
            exact List.mem_map_of_mem among

end Step

theorem debt_init (config : ControlConfig) : Debt (.init config) where
  honest := fun _ _ member => by cases member
  reported := fun _ _ found => by cases found
  forgot := fun _ seen => by cases seen
  surveyed := fun _ _ _ seen => by cases seen

theorem debt_call {w : World} (call : Call) (debt : Debt w) : Debt (w.step (.call call)) := by
  have frames := World.frames_call w call
  refine ⟨fun j r member => ?_, debt.reported, debt.forgot, fun j urls url seen listed => ?_⟩
  · rw [frames] at member
    rcases List.mem_append.mp member with old | new
    · exact debt.honest j r old
    · cases call <;> cases List.mem_singleton.mp new
  · refine (debt.surveyed j urls url seen listed).imp id ?_
    rintro ⟨r, member, owed⟩
    exact ⟨r, frames ▸ List.mem_append_left _ member, owed⟩

theorem debt (config : ControlConfig) (labels : List Label) :
    Debt (run World.step (.init config) labels) :=
  World.invariant_over (C := fun _ _ _ => True) (fun _ call => debt_call call)
    (fun _ _ _ _ _ _ truth debt _ fires => debt_fires truth debt fires)
    (fun labels => truth config labels) (debt_init config) (along_iff.mpr fun _ _ _ _ _ => trivial)

/-- **A debt stays visible until a delivery lands.** In every run, as long as no post of the job's
verdict has succeeded its entry is not forgotten and the job not `Reported`, and every destination a
report has read is posted to or still to be. Recovery forgets an entry only when one of its
destinations was delivered to, and posts to each of them. -/
theorem debt_visible (config : ControlConfig) (labels : List Label) (j : JobId)
    (policy : RetryPolicy) (answers : PostAnswers) (journal : Journal) :
    let w := run World.step (.init config) labels
    (¬ Landed w.history j → .forgot j ∉ w.history ∧
      ∀ job, w.control.jobs.get j = some job → job.state ≠ .reported) ∧
    (∀ urls url, .surveyed j urls ∈ w.history → url ∈ urls → PostedTo w.history j url ∨
      ∃ r, Frame.report j r ∈ w.frames ∧ url ∈ pending r.pc) ∧
    (∀ intent, journal.get j = some intent →
      ((recover policy answers journal).1.get j = none →
        ∃ sent ∈ recoverSends policy answers intent, sent.delivered = true) ∧
      ∀ url ∈ intent.callbackUrls, ∃ sent ∈ (recover policy answers journal).2,
        sent.jobId = j ∧ sent.url = url ∧ sent.verdict = recoveryVerdict intent) := by
  intro w
  have paid : Debt w := debt config labels
  refine ⟨fun unpaid => ⟨fun seen => unpaid (paid.forgot j seen), fun job found reported =>
    unpaid (paid.reported j job found reported)⟩, paid.surveyed j, fun intent found => ⟨?_, ?_⟩⟩
  · intro gone
    rw [recover_get policy answers found] at gone
    split_ifs at gone with landed
    obtain ⟨sent, member, delivered⟩ := List.any_eq_true.mp landed
    exact ⟨sent, member, delivered⟩
  · exact fun url listed => recover_answers policy answers found listed

/-! ### One destination of several -/

/-- The debt of one destination, kept on its own. -/
def PerDestination (w : World) : Prop :=
  ∀ j url next, .acked j url next ∈ w.history →
    (∀ req, .posted req true ∈ w.history → req.jobId = j → req.url ≠ url) →
    .forgot j ∉ w.history ∧ ∀ job, w.control.jobs.get j = some job → job.state ≠ .reported

/-- Two dispatches of one tree; the first destination answers 200, the second 400. -/
def sharedRun : List Label :=
  [.call (.accept (dispatchTo "u1") .member 0)] ++ Label.steps 0 0 10
    ++ [.call (.accept (dispatchTo "u2") .member 0)] ++ Label.steps 2 10 9
    ++ Label.steps 1 20 19 ++ Label.steps 1 40 1 (fun env => { env with posted := some 200 })
    ++ Label.steps 1 41 1 (fun env => { env with posted := some 400 }) ++ Label.steps 1 42 6

/-- A POST to the destination that succeeded. -/
def paidTo (url : String) : Obs → Bool
  | .posted req true => req.url = url
  | _ => false

/-- The debt of one destination is not kept on its own: the delivery to the other pays it. -/
theorem unpaid_destination : ¬ PerDestination (run World.step (.init {}) sharedRun) := by
  intro kept
  have acked : Obs.acked "2" "u2" .attachedHere ∈
      (run World.step (.init {}) sharedRun).history := by decide +kernel
  have forgot : Obs.forgot "2" ∈ (run World.step (.init {}) sharedRun).history := by
    decide +kernel
  have refused : ∀ x ∈ (run World.step (.init {}) sharedRun).history,
      paidTo "u2" x = false := by
    decide +kernel
  refine (kept "2" "u2" .attachedHere acked fun req posted _ => ?_).1 forgot
  simpa [paidTo] using refused _ posted

end HullCi.System
