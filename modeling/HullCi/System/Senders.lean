/-
**One sender of a job at a time.**

`delivering` is a lock on the record: `claim_delivery` and its parked form take it before a report
starts, `release_delivery` gives it back when one ends. The lock lives on a record that the store may
drop.

* `send_move` — each step keeps the flag and the reports of a job together, or drops the record.
* `one_sender` — the pairing holds in every state of a run if and only if no eviction of the run drops
  a record that is being delivered.
* `two_senders` — an eviction that does leaves two reports of one job running.
-/

import HullCi.System.Birth

namespace HullCi.System

open HullCi.Proto HullCi.Base HullCi.Control

/-! ### Reports and the flag -/

def sending (j : JobId) : Frame → Bool
  | .report k _ => k = j
  | _ => false

/-- The reports of `j` that are running. -/
def senders (w : World) (j : JobId) : ℕ :=
  w.frames.countP (sending j)

/-- `job.delivering`, of a record that is held. -/
def delivering (c : Control) (j : JobId) : Bool :=
  (c.jobs.get j).any (·.delivering)

theorem delivering_of_get {c : Control} {j : JobId} {job : Job} (found : c.jobs.get j = some job) :
    delivering c j = job.delivering := by
  unfold delivering
  rw [found, Option.any_some]

theorem delivering_gone {c : Control} {j : JobId} (absent : c.jobs.get j = none) :
    delivering c j = false := by
  unfold delivering
  rw [absent, Option.any_none]

/-- **One sender of each job**: at most one report runs, the flag is set exactly while one does, and
a report about to release the claim is the one it was taken for. -/
def OneSender (w : World) : Prop :=
  ∀ j, senders w j ≤ 1 ∧ (delivering w.control j = true ↔ 0 < senders w j) ∧
    ∀ r, Frame.report j r ∈ w.frames → r.pc = .release →
      delivering w.control j = true ∧ senders w j = 1

/-- An eviction drops no record that is being delivered. -/
def SparesSenders (w : World) (f : Frame) (_ : Env) : Prop :=
  ∀ a, f = .accept a → a.pc = .evict →
    ∀ id ∈ (w.control.jobs.evict a.now w.control.config.jobRetention w.control.config.maxJobs).2,
      delivering w.control id = false

/-! ### What a step does to the flag -/

/-- What a step does to the reports and to the flag of `j`. -/
inductive SendMove (c : Control) (f : Frame) (o : Outcome) (j : JobId) : Prop
  | kept (same : delivering o.control j = delivering c j)
      (balanced : (o.push ++ o.spawned).countP (sending j) = [f].countP (sending j))
  | started (free : delivering c j = false) (set : delivering o.control j = true)
      (idle : sending j f = false) (one : (o.push ++ o.spawned).countP (sending j) = 1)
  | ended (own : sending j f = true) (clear : delivering o.control j = false)
      (none : (o.push ++ o.spawned).countP (sending j) = 0)
  | evicted {a : Accept} (own : f = .accept a) (pc : a.pc = .evict)
      (listed : j ∈ (c.jobs.evict a.now c.config.jobRetention c.config.maxJobs).2)
      (gone : o.control.jobs.get j = none)
      (balanced : (o.push ++ o.spawned).countP (sending j) = 0)
  | rolledBack (creator : creating j f = true) (gone : o.control.jobs.get j = none)
      (balanced : (o.push ++ o.spawned).countP (sending j) = 0)

section Move

variable {env : Env} {c : Control} {f : Frame} {o : Outcome} {j : JobId}

theorem addCallbackUrls_delivering (urls : List String) (job : Job) :
    (addCallbackUrls urls job).delivering = job.delivering :=
  (congrArg Job.delivering (addCallbackUrls_eq urls job)).trans rfl

theorem recordVerdict_delivering (v : Verdict) (now : Instant) (job : Job) :
    (recordVerdict v now job).1.delivering = job.delivering := by
  unfold recordVerdict
  split
  · rfl
  · exact job.tryTransitionAt_delivering _ _

/-- A section on the record keeps the flag, unless it takes or gives back the claim. -/
theorem touches_delivering {g : Job → Job} (touches : Touches env c f o j g)
    (mapped : o.control.jobs.get j = (c.jobs.get j).map g) :
    (∀ job, (g job).delivering = job.delivering) ∨ SendMove c f o j := by
  cases touches with
  | startReport pc found free spawned push =>
    rw [found, Option.map_some] at mapped
    refine .inr (.started ?_ ?_ rfl ?_)
    · rw [delivering_of_get found, free]
    · rw [delivering_of_get mapped]
      rfl
    · rw [push, spawned]
      simp [Accept.goto, sending]
  | drain pc found parked free spawned push =>
    rw [found, Option.map_some] at mapped
    refine .inr (.started ?_ ?_ rfl ?_)
    · rw [delivering_of_get found, free]
    · rw [delivering_of_get mapped]
      rfl
    · rw [push, spawned]
      simp [Accept.goto, sending]
  | release pc push spawned =>
    refine .inr (.ended (by simp [sending]) ?_ ?_)
    · cases found : c.jobs.get j with
      | none =>
        rw [found, Option.map_none] at mapped
        exact delivering_gone mapped
      | some job =>
        rw [found, Option.map_some] at mapped
        rw [delivering_of_get mapped]
        rfl
    · rw [push, spawned]
      rfl
  | claim found free push spawned =>
    rw [found, Option.map_some] at mapped
    refine .inr (.started ?_ ?_ rfl ?_)
    · rw [delivering_of_get found, free]
    · rw [delivering_of_get mapped]
      rfl
    · rw [push, spawned]
      simp [sending]
  | attach => exact .inl fun job => addCallbackUrls_delivering [_] job
  | merge => exact .inl fun job => addCallbackUrls_delivering _ job
  | settle => exact .inl fun job => Job.tryTransitionAt_delivering _ _ _
  | decide => exact .inl fun job => recordVerdict_delivering _ _ job
  | fetching => exact .inl fun job => job.tryTransitionAt_delivering _ _
  | planning => exact .inl fun job => job.tryTransitionAt_delivering _ _
  | install => exact .inl fun job => (quiet_installPlan _ _ _ _ job).delivering
  | pass => exact .inl fun job => rfl
  | skip => exact .inl fun job => rfl
  | settled => exact .inl fun job => (quiet_assignmentSettled _ _ _ _ job).delivering
  | reported => exact .inl fun job => (quiet_reported _ _ _ job).delivering
  | renewed => exact .inl fun job => (quiet_renewed _ _ _ _ job).delivering

theorem send_balanced (move : RecordMove env c o j f)
    (balanced : (o.push ++ o.spawned).countP (sending j) = [f].countP (sending j)) :
    SendMove c f o j := by
  cases move with
  | same kept =>
    refine .kept ?_ balanced
    unfold delivering
    rw [kept]
  | touched touches mapped =>
    rcases touches_delivering touches mapped with kept | moved
    · refine .kept ?_ balanced
      unfold delivering
      rw [mapped, Option.any_map]
      congr 1
      funext job
      exact kept job
    · exact moved
  | evicted pc _ _ listed gone => exact .evicted rfl pc listed gone balanced
  | rolledBack pc gone => exact .rolledBack (by simp [creating, pc, creatingAt]) gone balanced
  | inserted pc absent fresh =>
    refine .kept ?_ balanced
    rw [delivering_of_get fresh, delivering_gone absent]
    rfl
  | foreign pc written =>
    refine .kept ?_ balanced
    rw [delivering_of_get written]
    unfold delivering
    cases c.jobs.get j with
    | none => rfl
    | some job => rfl

theorem delivering_withJobMut {g : Job → Job} {keeps : ∀ job, (g job).id = job.id} :
    delivering (c.withJobMut j g keeps) j = ((c.jobs.get j).map g).any (·.delivering) := by
  have got := JobStore.get_modify c.jobs j g keeps j
  rw [if_pos rfl] at got
  exact congrArg (Option.any _) got

/-- Taking the claim sets the flag, and one report starts. -/
theorem SendMove.taken {job : Job} {now : Instant} (found : c.jobs.get j = some job)
    (free : job.delivering = false) (idle : sending j f = false)
    (control : o.control = c.withJobMut j (deliveringSince now) (deliveringSince_id now))
    (one : (o.push ++ o.spawned).countP (sending j) = 1) : SendMove c f o j := by
  refine .started ?_ ?_ idle one
  · rw [delivering_of_get found, free]
  · rw [control, delivering_withJobMut, found]
    rfl

theorem accept_send {a : Accept} (move : AcceptMove env c a o)
    (record : RecordMove env c o j (.accept a)) : SendMove c (.accept a) o j := by
  cases move with
  | startReport pc claims =>
    rename_i k out
    cases claims with
    | taken found free =>
      by_cases same : k = j
      · subst same
        exact .taken found free rfl rfl (by simp [Accept.goto, sending])
      · exact send_balanced record (by simp [Accept.goto, sending, same])
    | busy => exact send_balanced record (by simp [Accept.goto, sending])
    | gone => exact send_balanced record (by simp [Accept.goto, sending])
  | drain pc claims =>
    rename_i _ id _ _ _ _
    cases claims with
    | taken found parked free =>
      by_cases same : id = j
      · subst same
        exact .taken found free rfl rfl (by simp [Accept.goto, sending])
      · exact send_balanced record (by simp [Accept.goto, sending, same])
    | skipped => exact send_balanced record (by simp [Accept.goto, sending])
  | _ => exact send_balanced record (by simp [Accept.goto, sending])

theorem report_send {k : JobId} {r : Report} (move : ReportMove env c k r o)
    (record : RecordMove env c o j (.report k r)) : SendMove c (.report k r) o j := by
  cases move with
  | release pc =>
    by_cases same : k = j
    · subst same
      refine .ended (by simp [sending]) ?_ rfl
      rw [delivering_withJobMut]
      cases c.jobs.get k <;> rfl
    · exact send_balanced record (by simp [sending, same])
  | _ => exact send_balanced record (by simp [sending])

theorem finish_send {k : JobId} {pc : FinishAt} (move : FinishMove env c k pc o)
    (record : RecordMove env c o j (.finish k pc)) : SendMove c (.finish k pc) o j := by
  cases move with
  | claim claims =>
    cases claims with
    | taken found free =>
      by_cases same : k = j
      · subst same
        exact .taken found free rfl rfl (by simp [sending])
      · exact send_balanced record (by simp [sending, same])
    | busy => exact send_balanced record (by simp [sending])
    | gone => exact send_balanced record (by simp [sending])
  | _ => exact send_balanced record (by simp [sending])

/-- **What a step does to the reports and to the flag of a job.** -/
theorem send_move (stepped : f.step env c = o) (j : JobId) : SendMove c f o j := by
  have record := record_move stepped j
  have move : FrameMove env c f o := stepped ▸ frame_moves env c f
  cases move with
  | accept move => exact accept_send move record
  | finish move => exact finish_send move record
  | report move => exact report_send move record
  | drive move => exact send_balanced record (by cases move <;> simp [sending])
  | retire move => exact send_balanced record (by cases move <;> simp [sending])
  | pump move => exact send_balanced record (by cases move <;> simp [Pump.goto, sending])
  | message move => exact send_balanced record (by cases move <;> simp [sending])

end Move

/-! ### Runs -/

/-- The reports of `j` that run are as many as its flag says. -/
def Paired (w : World) (j : JobId) : Prop :=
  senders w j = if delivering w.control j = true then 1 else 0

theorem Paired.oneSender {w : World} (paired : ∀ j, Paired w j) : OneSender w := by
  intro j
  have here := paired j
  unfold Paired at here
  refine ⟨by split_ifs at here <;> omega, ⟨fun set => ?_, fun some => ?_⟩, fun r member _ => ?_⟩
  · rw [here, if_pos set]
    exact Nat.one_pos
  · by_contra clear
    rw [if_neg clear] at here
    omega
  · have some : 0 < senders w j :=
      List.countP_pos_iff.mpr ⟨_, member, by simp [sending]⟩
    by_cases set : delivering w.control j = true
    · exact ⟨set, by rw [here, if_pos set]⟩
    · rw [if_neg set] at here
      omega

section Step

variable {w w' : World} {env : Env} {f : Frame} {o : Outcome} {others : List Frame} {j : JobId}

theorem senders_fires (fires : World.Fires w env f o others w') :
    senders w' j + [f].countP (sending j) =
      senders w j + (o.push ++ o.spawned).countP (sending j) :=
  fires.frames.count _

/-- A step that drops no record being delivered keeps reports and flag together. -/
theorem paired_fires (born : Born w j) (paired : Paired w j) (spares : SparesSenders w f env)
    (fires : World.Fires w env f o others w') : Paired w' j := by
  have balance := senders_fires fires (j := j)
  unfold Paired at paired ⊢
  rw [fires.control]
  cases send_move fires.stepped j with
  | kept same balanced =>
    rw [same]
    omega
  | started free set idle one =>
    rw [free, if_neg Bool.false_ne_true] at paired
    rw [set, if_pos rfl]
    have none : [f].countP (sending j) = 0 := by simp [idle]
    omega
  | ended own clear none =>
    have mine : [f].countP (sending j) = 1 := by simp [own]
    have some : 0 < senders w j := List.countP_pos_iff.mpr ⟨f, fires.frames.mem_before, own⟩
    rw [clear, if_neg Bool.false_ne_true]
    split_ifs at paired <;> omega
  | evicted own pc listed gone none =>
    rw [spares _ own pc j listed, if_neg Bool.false_ne_true] at paired
    rw [delivering_gone gone, if_neg Bool.false_ne_true]
    omega
  | rolledBack creator gone none =>
    have clear : delivering w.control j = false := by
      cases found : w.control.jobs.get j with
      | none => exact delivering_gone found
      | some job =>
        rw [delivering_of_get found]
        exact (born.blank (creators_pos fires creator) job found).idle
    rw [clear, if_neg Bool.false_ne_true] at paired
    rw [delivering_gone gone, if_neg Bool.false_ne_true]
    omega

/-- Dropping a record that is being delivered leaves its report without a flag. -/
theorem spares_of_paired (before : OneSender w) (after : OneSender w')
    (fires : World.Fires w env f o others w') : SparesSenders w f env := by
  rintro a rfl pc id listed
  by_contra set
  rw [Bool.not_eq_false] at set
  have balance := senders_fires fires (j := id)
  have some := (before id).2.1.mp set
  have gone : o.control.jobs.get id = none := by
    rcases JobStore.get_evict w.control.jobs a.now w.control.config.jobRetention
      w.control.config.maxJobs id with ⟨-, unlisted⟩ | ⟨-, gone, -⟩
    · exact absurd listed unlisted
    · rw [← fires.stepped]
      show (a.step env w.control).control.jobs.get id = none
      unfold Accept.step
      rw [pc]
      exact gone
  have clear := delivering_gone gone
  have none : ¬ 0 < senders w' id := by
    intro some
    rw [← (after id).2.1, fires.control, clear] at some
    cases some
  have idle : [Frame.accept a].countP (sending id) = 0 := rfl
  omega

end Step

theorem paired_call {w : World} (call : Call) (paired : ∀ j, Paired w j) (j : JobId) :
    Paired (w.step (.call call)) j := by
  have same : senders (w.step (.call call)) j = senders w j := by
    unfold senders
    rw [World.frames_call, List.countP_append]
    cases call <;> rfl
  unfold Paired
  rw [same]
  exact paired j

/-- **One sender per job, exactly in the runs whose evictions spare senders.** -/
theorem one_sender (config : ControlConfig) (labels : List Label) :
    (∀ n, OneSender (run World.step (.init config) (labels.take n))) ↔
      Along World.step (World.Meets SparesSenders) (.init config) labels := by
  constructor
  · intro all
    refine along_iff.mpr fun n l next p enabled => ?_
    obtain ⟨o, others, fires⟩ := World.fires_at next enabled
    exact spares_of_paired (all n) (all (n + 1)) fires
  · intro along n
    have short : Along World.step (World.Meets SparesSenders) (.init config) (labels.take n) := by
      rw [← List.take_append_drop n labels] at along
      exact (along_append.mp along).1
    refine Paired.oneSender ?_
    exact World.invariant_over (B := fun w => ∀ j, Born w j)
      (fun w call paired => paired_call call paired)
      (fun w env f o others w' born paired spares fires j =>
        paired_fires (born j) (paired j) spares fires)
      (fun labels j => born config labels j) (fun j => rfl) short

/-- The job's report has settled it `Reported` and is about to forget its debt. An accept past the
retention drops the record; a duplicate still finds the claim, files the verdict again and takes a
second delivery claim. -/
def evictedRun : List Label :=
  [.call (.accept (dispatchTo "u1") .member 0)] ++ Label.steps 0 0 10
    ++ Label.steps 1 10 24 (fun env => { env with posted := some 200 })
    ++ [.call (.accept (dispatchTo "u2") .member (fromSecs 4000))] ++ Label.steps 2 50 1
    ++ [.call (.accept (dispatchTo "u2") .member 0)] ++ Label.steps 3 60 6

/-- An eviction that drops a record being delivered leaves two reports of one job running. -/
theorem two_senders : ¬ OneSender (run World.step (.init {}) evictedRun) := by
  intro one
  have running : senders (run World.step (.init {}) evictedRun) "2" = 2 := by decide +kernel
  have bound := (one "2").1
  omega

end HullCi.System
