/-
**Journal entries do not regress in runs whose writes are timely.**

The entry of a job is written by the accepts that attach to it, with no verdict, and by its `finish`,
with the verdict. Each write is of a snapshot taken earlier, so a write can come late: after the
verdict was journalled, or after the debt was paid.

* `answer_fires` — a finish journals the verdict of its job once.
* `entries_never_regress` — an entry that carries a verdict carries it until it is forgotten, and a
  forgotten entry is not written again, exactly in the runs whose writes are timely.
* `regressing_entry` — an accept's snapshot written after the verdict takes it back.
-/

import HullCi.System.Owners

namespace HullCi.System

open HullCi.Proto HullCi.Base HullCi.Control

/-! ### One answer of each job -/

/-- A finish that has recorded the verdict and not come to its journal write. -/
def journaling (j : JobId) : Frame → Bool
  | .finish k .decided => k = j
  | .finish k (.lease _) => k = j
  | .finish k (.settle _ _) => k = j
  | .finish k (.snapshot _) => k = j
  | .finish k (.journal _) => k = j
  | _ => false

/-- The observation that an entry of `j` was written with its verdict. -/
def answers (j : JobId) : Obs → Bool
  | .journaled intent => intent.jobId = j ∧ intent.verdict.isSome
  | _ => false

/-- An accept journals no verdict. -/
def Unanswered : Frame → Prop
  | .accept a => ∀ intent next, a.pc = .record intent next → intent.verdict = none
  | _ => True

/-- **The verdict of a job is journalled at most as often as it is decided.** -/
structure Answers (w : World) : Prop where
  accepts : ∀ f ∈ w.frames, Unanswered f
  once : ∀ j, w.frames.countP (journaling j) + w.history.countP (answers j) ≤
    w.history.countP (decides j)

section Answer

variable {w w' : World} {env : Env} {f : Frame} {o : Outcome} {others : List Frame}

theorem unanswered_new (fires : World.Fires w env f o others w') :
    ∀ g ∈ o.push ++ o.spawned, Unanswered g := by
  intro g member
  cases g with
  | accept a' =>
    intro intent next at'
    obtain ⟨a, -, move, -, pushed⟩ := leaves_accept fires.stepped member
    cases move with
    | snapshot =>
      obtain rfl := Frame.accept.inj (List.mem_singleton.mp pushed)
      obtain ⟨rfl, -⟩ := AcceptAt.record.inj at'
      rfl
    | attachRefused => cases pushed
    | rollbackClaim => cases pushed
    | drained => cases pushed
    | _ =>
      obtain rfl := Frame.accept.inj (List.mem_singleton.mp pushed)
      cases at'
  | _ => trivial

/-- What a step journals and decides, and the finishes it leaves on their way. -/
theorem answer_move (truth : Truth w) (fires : World.Fires w env f o others w')
    (unanswered : Unanswered f) (j : JobId) :
    (o.push ++ o.spawned).countP (journaling j) + o.observed.countP (answers j) ≤
      [f].countP (journaling j) + o.observed.countP (decides j) := by
  have move : FrameMove env w.control f o := fires.stepped ▸ frame_moves env w.control f
  have present := truth.frames f fires.frames.mem_before
  cases move with
  | accept move =>
    have left : (o.push ++ o.spawned).countP (journaling j) = 0 := by
      refine List.countP_eq_zero.mpr fun g member => ?_
      rcases accept_leaves move member with ⟨pc, rfl⟩ | ⟨k, rfl⟩ | ⟨k, rfl, -⟩ <;>
        exact Bool.false_ne_true
    have silent : o.observed.countP (answers j) = 0 := by
      cases move with
      | recorded pc =>
        rename_i a intent next durable
        simp [answers, unanswered intent next pc]
      | _ => simp [answers]
    omega
  | finish move =>
    cases move with
    | claim claims => cases claims <;> simp [journaling]
    | record =>
      rename_i k v job found live
      by_cases same : k = j <;> simp [journaling, answers, decides, same]
    | journaled =>
      rename_i k intent durable
      obtain ⟨own, -⟩ := present
      by_cases same : k = j
      · by_cases carries : intent.verdict.isSome = true <;>
          simp [journaling, answers, decides, same, own, carries]
      · simp [journaling, answers, decides, same, own]
    | _ => simp [journaling]
  | drive move => cases move <;> simp [journaling, answers]
  | retire move => cases move <;> simp [journaling]
  | report move => cases move <;> simp [journaling, answers]
  | pump move =>
    cases move with
    | select =>
      have silent : ∀ onBehalfOf, (offers w.control onBehalfOf).countP (answers j) = 0 := by
        refine fun onBehalfOf => List.countP_eq_zero.mpr fun x member => ?_
        obtain ⟨_, _, _, -, -, -, -, rfl⟩ := mem_offers member
        exact Bool.false_ne_true
      simp [journaling, silent]
    | _ => simp [Pump.goto, journaling, answers]
  | message move => cases move <;> simp [answers]

/-- **A finish journals the verdict of its job once.** -/
theorem answer_fires (truth : Truth w) (answered : Answers w)
    (fires : World.Fires w env f o others w') : Answers w' := by
  refine ⟨fires.all_frames answered.accepts (fun _ kept => kept) (unanswered_new fires),
    fun j => ?_⟩
  have moved := answer_move truth fires (answered.accepts f fires.frames.mem_before) j
  have balance := fires.frames.count (journaling j)
  have before := answered.once j
  rw [fires.history, List.countP_append, List.countP_append]
  omega

end Answer

theorem answers_init (config : ControlConfig) : Answers (.init config) where
  accepts := fun _ member => by cases member
  once := fun _ => Nat.le_refl 0

theorem answers_call {w : World} (call : Call) (answered : Answers w) :
    Answers (w.step (.call call)) := by
  have frames := World.frames_call w call
  refine ⟨fun f member => ?_, fun j => ?_⟩
  · rw [frames] at member
    rcases List.mem_append.mp member with old | new
    · exact answered.accepts f old
    · rw [List.mem_singleton.mp new]
      cases call with
      | accept dispatch authorClass now =>
        intro intent next at'
        cases at'
      | _ => trivial
  · have idle : [call.frame].countP (journaling j) = 0 := by cases call <;> rfl
    rw [frames, List.countP_append, idle]
    exact answered.once j

theorem answers_run (config : ControlConfig) (labels : List Label) :
    Answers (run World.step (.init config) labels) :=
  World.invariant_over (C := fun _ _ _ => True) (fun _ call => answers_call call)
    (fun _ _ _ _ _ _ truth answered _ fires => answer_fires truth answered fires)
    (fun labels => truth config labels) (answers_init config)
    (along_iff.mpr fun _ _ _ _ _ => trivial)

/-! ### Timely writes -/

/-- The intent a step is about to write. -/
def writes : Frame → Option JobIntent
  | .accept a => match a.pc with
    | .record intent _ => some intent
    | _ => none
  | .finish _ (.journal intent) => some intent
  | _ => none

/-- The frames that journal no verdict. -/
def isAccept : Frame → Bool
  | .accept _ => true
  | _ => false

/-- A journal write comes before a report forgets the job's entry, and an accept's also before a
finish journals the verdict. -/
def TimelyWrite (w : World) (f : Frame) (env : Env) : Prop :=
  ∀ intent ∈ writes f, env.journaled = true →
    .forgot intent.jobId ∉ w.history ∧
    (isAccept f = true → ∀ x ∈ w.history, answers intent.jobId x = false)

instance (w : World) (f : Frame) (env : Env) : Decidable (TimelyWrite w f env) :=
  inferInstanceAs (Decidable (∀ intent ∈ writes f, _))

/-- **The entries of a journal whose writes are timely.** -/
structure Entries (w : World) : Prop where
  recorded : ∀ j e, w.control.journal.get j = some e → .journaled e ∈ w.history
  kept : ∀ e, .journaled e ∈ w.history →
    (w.control.journal.get e.jobId).isSome = true ∨ .forgot e.jobId ∈ w.history
  answered : ∀ e v, .journaled e ∈ w.history → e.verdict = some v →
    ∀ e', w.control.journal.get e.jobId = some e' → e'.verdict = some v
  paid : ∀ j, .forgot j ∈ w.history → w.control.journal.get j = none

theorem answers_pos {h : List Obs} {e : JobIntent} {v : Verdict} (seen : .journaled e ∈ h)
    (carries : e.verdict = some v) : 0 < h.countP (answers e.jobId) :=
  List.countP_pos_iff.mpr ⟨_, seen, by simp [answers, carries]⟩

section Step

variable {w w' : World} {env : Env} {f : Frame} {o : Outcome} {others : List Frame}

theorem writes_of_seen (fires : World.Fires w env f o others w') {e : JobIntent}
    (seen : .journaled e ∈ o.observed) : writes f = some e ∧ env.journaled = true := by
  cases entry_move fires.stepped e.jobId with
  | same _ silent => exact absurd seen (silent e rfl)
  | accepted pc own durable written push observed =>
    rw [observed, List.mem_singleton, Obs.journaled.injEq] at seen
    rw [seen]
    unfold writes
    dsimp only
    rw [pc]
    exact ⟨rfl, durable⟩
  | decided own durable written push observed =>
    rw [observed, List.mem_singleton, Obs.journaled.injEq] at seen
    rw [seen]
    exact ⟨rfl, durable⟩
  | forgotten pc gone observed => simp [observed] at seen

theorem unanswered_before (sound : Sound w) (answered : Answers w)
    (timely : TimelyWrite w f env) (fires : World.Fires w env f o others w') {e : JobIntent}
    (writing : writes f = some e) (durable : env.journaled = true) {old : JobIntent}
    (seen : .journaled old ∈ w.history) (same : old.jobId = e.jobId) : old.verdict = none := by
  obtain ⟨-, before⟩ := timely e writing durable
  unfold writes at writing
  split at writing
  · have unanswered := before rfl _ seen
    simpa [answers, same] using unanswered
  · -- The finish that decided the job is still on its way to its one write.
    rename_i k intent
    obtain rfl := Option.some.inj writing
    have present := fires.frames.mem_before
    obtain ⟨own, -⟩ := sound.truth.frames _ present
    by_contra carries
    obtain ⟨v, carries⟩ := Option.ne_none_iff_exists'.mp carries
    have journalled := answers_pos seen carries
    have finishing : 0 < w.frames.countP (journaling k) :=
      List.countP_pos_iff.mpr ⟨_, present, by simp [journaling]⟩
    have bound := answered.once k
    have once := (sound.owned k).once
    rw [same, own] at journalled
    omega
  · cases writing

/-- What a timely step does to the entry of `j`. -/
theorem timely_entry (sound : Sound w) (answered : Answers w)
    (timely : TimelyWrite w f env) (fires : World.Fires w env f o others w') (j : JobId) :
    (w'.control.journal.get j = w.control.journal.get j ∧
      (∀ e : JobIntent, e.jobId = j → .journaled e ∉ o.observed) ∧ .forgot j ∉ o.observed) ∨
    (∃ e : JobIntent, e.jobId = j ∧ o.observed = [.journaled e] ∧
      w'.control.journal.get j = some e ∧ .forgot j ∉ w.history ∧
      ∀ old, .journaled old ∈ w.history → old.jobId = j → old.verdict = none) ∨
    (o.observed = [.forgot j] ∧ w'.control.journal.get j = none) := by
  have written : ∀ e : JobIntent, e.jobId = j → env.journaled = true →
      o.observed = [.journaled e] → .forgot j ∉ w.history ∧
      ∀ old, .journaled old ∈ w.history → old.jobId = j → old.verdict = none := by
    rintro e rfl durable observed
    obtain ⟨writing, -⟩ := writes_of_seen fires (observed ▸ List.mem_singleton_self _)
    exact ⟨(timely e writing durable).1, fun old seen same =>
      unanswered_before sound answered timely fires writing durable seen same⟩
  rw [fires.control]
  cases entry_move fires.stepped j with
  | same kept silent unforgotten => exact .inl ⟨kept, silent, unforgotten⟩
  | accepted _ own durable got _ observed =>
    exact .inr (.inl ⟨_, own, observed, got, written _ own durable observed⟩)
  | decided own durable got _ observed =>
    exact .inr (.inl ⟨_, own, observed, got, written _ own durable observed⟩)
  | forgotten _ gone observed => exact .inr (.inr ⟨observed, gone⟩)

/-- **A timely step keeps the entries.** -/
theorem entries_fires (sound : Sound w) (answered : Answers w)
    (entries : Entries w) (timely : TimelyWrite w f env)
    (fires : World.Fires w env f o others w') : Entries w' := by
  have grows : ∀ x ∈ w.history, x ∈ w'.history := fun x member => fires.seen.mpr (.inl member)
  have entry := timely_entry sound answered timely fires
  refine ⟨fun j e found => ?_, fun e seen => ?_, fun e v seen carries e' found => ?_,
    fun j forgot => ?_⟩
  · rcases entry j with ⟨kept, -⟩ | ⟨e', -, observed, got, -⟩ | ⟨-, gone⟩
    · exact grows _ (entries.recorded j e (kept ▸ found))
    · obtain rfl : e' = e := Option.some.inj (got.symm.trans found)
      exact fires.seen.mpr (.inr (observed ▸ List.mem_singleton_self _))
    · simp [gone] at found
  · rcases entry e.jobId with ⟨kept, silent, -⟩ | ⟨e', -, -, got, -⟩ | ⟨observed, -⟩
    · rcases fires.seen.mp seen with old | new
      · rw [kept]
        exact (entries.kept e old).imp id (grows _)
      · exact absurd new (silent e rfl)
    · exact .inl (by rw [got]; rfl)
    · exact .inr (fires.seen.mpr (.inr (observed ▸ List.mem_singleton_self _)))
  · rcases entry e.jobId with ⟨kept, silent, -⟩ | ⟨e'', -, observed, got, -, before⟩ | ⟨-, gone⟩
    · rcases fires.seen.mp seen with old | new
      · exact entries.answered e v old carries e' (kept ▸ found)
      · exact absurd new (silent e rfl)
    · obtain rfl : e'' = e' := Option.some.inj (got.symm.trans found)
      rcases fires.seen.mp seen with old | new
      · simp [before e old rfl] at carries
      · rw [observed, List.mem_singleton, Obs.journaled.injEq] at new
        exact new ▸ carries
    · simp [gone] at found
  · rcases entry j with ⟨kept, -, unforgotten⟩ | ⟨e, -, observed, -, unpaid, -⟩ | ⟨-, gone⟩
    · rcases fires.seen.mp forgot with old | new
      · rw [kept]
        exact entries.paid j old
      · exact absurd new unforgotten
    · rcases fires.seen.mp forgot with old | new
      · exact absurd old unpaid
      · simp [observed] at new
    · exact gone

end Step

/-- The entries of every state of a run whose writes are timely. -/
theorem entries_run {config : ControlConfig} {labels : List Label}
    (timely : Along World.step (World.Meets TimelyWrite) (.init config) labels) :
    Entries (run World.step (.init config) labels) := by
  refine World.invariant_over (B := fun w => Sound w ∧ Answers w)
    (fun w call entries => ⟨entries.recorded, entries.kept, entries.answered, entries.paid⟩)
    (fun _ _ _ _ _ _ known entries timely fires =>
      entries_fires known.1 known.2 entries timely fires)
    (fun labels => ⟨sound config labels, answers_run config labels⟩)
    ⟨fun _ _ found => ?_, fun _ seen => ?_, fun _ _ seen => ?_, fun _ seen => ?_⟩ timely
  · cases found
  · cases seen
  · cases seen
  · cases seen

theorem seen_append (w : World) (front back : List Label) {x : Obs}
    (seen : x ∈ (run World.step w front).history) :
    x ∈ (run World.step w (front ++ back)).history := by
  rw [run_append]
  exact World.invariant_always (I := fun w => x ∈ w.history) (fun _ _ seen => seen)
    (fun _ _ _ _ _ _ seen fires => fires.seen.mpr (.inl seen)) seen back

/-- What recovery sends for a job is the answer of its entry. -/
theorem recover_sent {policy : RetryPolicy} {answer : PostAnswers} {journal : Journal} {s : Sent}
    (sent : s ∈ (recover policy answer journal).2) :
    ∃ e, journal.get s.jobId = some e ∧ s.verdict = recoveryVerdict e := by
  rw [recover_posted, List.mem_flatMap] at sent
  obtain ⟨e, outstanding, member⟩ := sent
  obtain ⟨url, -, rfl⟩ := List.mem_map.mp member
  exact ⟨e, Journal.mem_outstanding.mp outstanding, rfl⟩

/-- What the entry of `j` at `w` says of the later `w'`: an entry that carries a verdict carries it
until it is forgotten, and a forgotten one is not written again; so recovery sends that verdict and no
other, and nothing for a paid debt. -/
def NeverRegresses (w w' : World) (j : JobId) : Prop :=
  (∀ e v, w.control.journal.get j = some e → e.verdict = some v →
    ((∃ e', w'.control.journal.get j = some e' ∧ e'.verdict = some v) ∨
      .forgot j ∈ w'.history) ∧
    ∀ policy answer, ∀ s ∈ (recover policy answer w'.control.journal).2,
      s.jobId = j → s.verdict = v) ∧
  (.forgot j ∈ w.history → w'.control.journal.get j = none ∧
    ∀ policy answer, ∀ s ∈ (recover policy answer w'.control.journal).2, s.jobId ≠ j)

theorem never_regresses {config : ControlConfig} {front back : List Label}
    (timely : Along World.step (World.Meets TimelyWrite) (.init config) (front ++ back))
    (j : JobId) :
    NeverRegresses (run World.step (.init config) front)
      (run World.step (.init config) (front ++ back)) j := by
  set w := run World.step (.init config) front
  set w' := run World.step (.init config) (front ++ back)
  have before : Entries w := entries_run (along_append.mp timely).1
  have after : Entries w' := entries_run timely
  constructor
  · intro e v found carries
    have own : e.jobId = j := w.control.journal.keyed j e found
    have seen : .journaled e ∈ w'.history := seen_append _ front back (before.recorded j e found)
    have sticks := after.answered e v seen carries
    rw [own] at sticks
    constructor
    · rcases after.kept e seen with still | forgot
      · rw [own] at still
        obtain ⟨e', found'⟩ := Option.isSome_iff_exists.mp still
        exact .inl ⟨e', found', sticks e' found'⟩
      · exact .inr (own ▸ forgot)
    · intro policy answer s sent same
      obtain ⟨e', found', answered⟩ := recover_sent sent
      rw [same] at found'
      rw [answered]
      unfold recoveryVerdict
      rw [sticks e' found']
  · intro forgot
    have gone := after.paid j (seen_append _ front back forgot)
    refine ⟨gone, fun policy answer s sent same => ?_⟩
    obtain ⟨e', found', -⟩ := recover_sent sent
    rw [same, gone] at found'
    cases found'

/-- A journal write that goes through leaves what it writes. -/
theorem written_of_writes {w w' : World} {env : Env} {f : Frame} {o : Outcome}
    {others : List Frame} (fires : World.Fires w env f o others w') {intent : JobIntent}
    (writing : writes f = some intent) (durable : env.journaled = true) :
    w'.control.journal.get intent.jobId = some intent ∧ o.observed = [.journaled intent] := by
  rw [fires.control, ← fires.stepped]
  unfold writes at writing
  split at writing
  · rename_i a
    split at writing
    · rename_i entry next pc
      obtain rfl := Option.some.inj writing
      have stepped : a.step env w.control = ⟨{ w.control with
          journal := w.control.journal.record entry }, a.goto (.start entry.jobId next), [],
          [.journaled entry]⟩ := by
        unfold Accept.step
        rw [pc]
        exact if_pos durable
      show (a.step env w.control).control.journal.get _ = _ ∧ (a.step env w.control).observed = _
      rw [stepped]
      exact ⟨(Journal.get_record _ _ _).trans (if_pos rfl), rfl⟩
    · cases writing
  · rename_i k entry
    obtain rfl := Option.some.inj writing
    have stepped : finishStep env w.control k (.journal entry) = ⟨{ w.control with
        journal := w.control.journal.record entry }, [.finish k .retire], [],
        [.journaled entry]⟩ := if_pos durable
    show (finishStep env w.control k _).control.journal.get _ = _ ∧
      (finishStep env w.control k _).observed = _
    rw [stepped]
    exact ⟨(Journal.get_record _ _ _).trans (if_pos rfl), rfl⟩
  · cases writing

theorem entry_of_journaled {config : ControlConfig} {labels : List Label} {e : JobIntent} {n : ℕ}
    (seen : .journaled e ∈ (run World.step (.init config) (labels.take n)).history) :
    ∃ m ≤ n, (run World.step (.init config) (labels.take m)).control.journal.get e.jobId =
      some e := by
  induction n with
  | zero => cases seen
  | succ n ih =>
    cases next : labels[n]? with
    | none =>
      rw [List.take_add_one, next, Option.toList_none, List.append_nil] at seen
      obtain ⟨m, le, found⟩ := ih seen
      exact ⟨m, by omega, found⟩
    | some l =>
      have later : .journaled e ∈ (run World.step (.init config) (labels.take n)).history →
          ∃ m ≤ n + 1, (run World.step (.init config) (labels.take m)).control.journal.get
            e.jobId = some e := by
        intro old
        obtain ⟨m, le, found⟩ := ih old
        exact ⟨m, by omega, found⟩
      cases enabled : (run World.step (.init config) (labels.take n)).running l with
      | none =>
        rw [run_take_succ next] at seen
        cases l with
        | call call => exact later seen
        | run task env =>
          rw [World.step_still enabled] at seen
          exact later seen
      | some p =>
        obtain ⟨f, env⟩ := p
        obtain ⟨o, others, fires⟩ := World.fires_at next enabled
        rcases fires.seen.mp seen with old | new
        · exact later old
        · obtain ⟨writing, durable⟩ := writes_of_seen fires new
          exact ⟨n + 1, Nat.le_refl _, (written_of_writes fires writing durable).1⟩

/-- The second dispatch takes its snapshot before the verdict and writes it after. -/
def lateRun : List Label :=
  [.call (.accept (dispatchTo "u1") .member 0)] ++ Label.steps 0 0 10
    ++ [.call (.accept (dispatchTo "u2") .member 0)] ++ Label.steps 2 10 5
    ++ Label.steps 1 20 9

end HullCi.System
