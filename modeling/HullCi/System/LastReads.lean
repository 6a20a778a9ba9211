/-
**Every acked destination is answered where no last read comes too early.**

A report reads the destinations of its job until a read finds nothing new; then it settles, forgets
and releases. An accept that finds the job decided attaches its destination and takes a delivery
claim, and leaves the destination to the running report where one holds the claim.

* `tidy_fires` — what holds of frames, claims and records where nothing is evicted or refused.
* `carried_fires` — a destination that a frame carries to a read is carried until it is posted to.
* `all_answered` — when every task has ended, each acked destination was posted the verdict.
* `left_behind` — a destination that is left to a report after its last read is not.
-/

import HullCi.System.Acks
import HullCi.System.Debt
import HullCi.System.Senders

namespace HullCi.System

open HullCi.Proto HullCi.Base HullCi.Control

/-! ### Reads to come -/

/-- The report is to read the destinations again. -/
def rereads : ReportAt → Bool
  | .destinations => true
  | .merge _ => true
  | .read => true
  | .post _ _ _ => true
  | _ => false

/-- A report of `j` that has read for the last time, and not `url`. -/
def closing (j : JobId) (url : String) : Frame → Bool
  | .report k r => k = j && !rereads r.pc && url ∉ r.attempted
  | _ => false

/-- The job an accept is to answer again, and where. -/
def resends : Frame → Option (JobId × String)
  | .accept a => match a.pc with
    | .start j .reReport => some (j, a.dispatch.callbackUrl)
    | _ => none
  | _ => none

/-- The job whose claim an admission drops as stale. -/
def drops (c : Control) (env : Env) : Frame → Option JobId
  | .accept a => match a.pc with
    | .admission =>
      if c.claims.stale ⟨a.dispatch.repo, a.dispatch.treeId⟩ env.nowMs
          (asMillis c.config.jobRetention) = true then
        c.claims.byKey.lookup ⟨a.dispatch.repo, a.dispatch.treeId⟩
      else none
    | _ => none
  | _ => none

/-- The frame is about to put `url` on the record of `j`. -/
def bringing (j : JobId) (url : String) : Frame → Bool
  | .accept a => match a.pc with
    | .attach k _ => k = j && a.dispatch.callbackUrl = url
    | _ => false
  | .report k r => match r.pc with
    | .merge urls => k = j && url ∈ urls
    | _ => false
  | _ => false

/-- Nothing is evicted, and no write refused. -/
structure Calm (w : World) (f : Frame) (env : Env) : Prop where
  spares : evicts w.control f = []
  durable : env.journaled = true

/-- A step that leaves no destination behind. -/
structure Prompt (w : World) (f : Frame) (env : Env) : Prop where
  /-- An accept that is to answer again meets no report past its last read without its
  destination. -/
  open' : ∀ p ∈ resends f, ∀ g ∈ w.frames, closing p.1 p.2 g = false
  /-- A claim dropped as stale lists no destination that is neither on the record nor on its way. -/
  keeps : ∀ j ∈ drops w.control env f, ∀ url ∈ w.control.claims.destinations j,
    Filed w j url ∨ ∃ g ∈ w.frames, bringing j url g = true

instance (w : World) (f : Frame) (env : Env) : Decidable (Calm w f env) :=
  decidable_of_iff (evicts w.control f = [] ∧ env.journaled = true)
    ⟨fun ⟨spares, durable⟩ => ⟨spares, durable⟩, fun calm => ⟨calm.spares, calm.durable⟩⟩

instance (w : World) (j : JobId) (url : String) : Decidable (Filed w j url) :=
  decidable_of_iff (∃ job ∈ w.control.jobs.get j, url ∈ job.callbackUrls) Iff.rfl

instance (w : World) (f : Frame) (env : Env) : Decidable (Prompt w f env) :=
  decidable_of_iff ((∀ p ∈ resends f, ∀ g ∈ w.frames, closing p.1 p.2 g = false) ∧
    ∀ j ∈ drops w.control env f, ∀ url ∈ w.control.claims.destinations j,
      Filed w j url ∨ ∃ g ∈ w.frames, bringing j url g = true)
    ⟨fun ⟨open', keeps⟩ => ⟨open', keeps⟩, fun prompt => ⟨prompt.open', prompt.keeps⟩⟩

/-! ### Where nothing is evicted or refused -/

def Stored (w : World) (j : JobId) : Prop :=
  (w.control.jobs.get j).isSome = true

def Decided (w : World) (j : JobId) : Prop :=
  ∃ v, .decided j v ∈ w.history

/-- The creator of `j` has not filed it yet. -/
def Making (w : World) (j : JobId) : Prop :=
  ∃ a, .accept a ∈ w.frames ∧ unfiledAt a.pc = some j

/-- An accept that takes back what it or an eviction did. -/
def undoing : Frame → Bool
  | .accept a => match a.pc with
    | .forgetEvicted (_ :: _) => true
    | .rollbackRecord _ => true
    | .rollbackLease _ => true
    | .rollbackClaim _ => true
    | _ => false
  | _ => false

/-- The frame knows that `j` is decided. -/
def answering (j : JobId) : Frame → Bool
  | .accept a => answeringAt j a.pc
  | .finish _ (.record _) => false
  | .finish k _ => k = j
  | .report k _ => k = j
  | _ => false

/-- **What holds where nothing is evicted or refused.** -/
structure Tidy (w : World) : Prop where
  calm : ∀ f ∈ w.frames, undoing f = false
  paired : ∀ j, Paired w j
  placed : ∀ j claim, w.control.claims.claims.lookup j = some claim → Stored w j ∨ Making w j
  owned : ∀ j, Stored w j → ¬ Decided w j → 0 < owners w j
  answers : ∀ f ∈ w.frames, ∀ j, answering j f = true → Decided w j

theorem tidy_init (config : ControlConfig) : Tidy (.init config) where
  calm := fun _ member => by cases member
  paired := fun _ => rfl
  placed := fun _ _ found => by cases found
  owned := fun _ stored => by cases stored
  answers := fun _ member => by cases member

theorem tidy_call {w : World} (call : Call) (tidy : Tidy w) : Tidy (w.step (.call call)) := by
  have frames := World.frames_call w call
  refine ⟨fun f member => ?_, paired_call call tidy.paired, fun j claim found => ?_,
    fun j stored undecided => ?_, fun f member j answers => ?_⟩
  · rw [frames] at member
    rcases List.mem_append.mp member with old | new
    · exact tidy.calm f old
    · rw [List.mem_singleton.mp new]
      cases call <;> rfl
  · refine (tidy.placed j claim found).imp id ?_
    rintro ⟨a, member, unfiled⟩
    exact ⟨a, frames ▸ List.mem_append_left _ member, unfiled⟩
  · have same : owners (w.step (.call call)) j = owners w j := by
      unfold owners
      rw [frames, List.countP_append]
      cases call <;> rfl
    exact same ▸ tidy.owned j stored undecided
  · rw [frames] at member
    rcases List.mem_append.mp member with old | new
    · exact tidy.answers f old j answers
    · rw [List.mem_singleton.mp new] at answers
      cases call <;> cases answers

section Step

variable {w w' : World} {env : Env} {f : Frame} {o : Outcome} {others : List Frame} {j : JobId}

theorem stored_of_get {job : Job} (found : w.control.jobs.get j = some job) : Stored w j := by
  unfold Stored
  rw [found]
  rfl

theorem Tidy.sender (tidy : Tidy w) (busy : delivering w.control j = true) :
    ∃ r, Frame.report j r ∈ w.frames := by
  have paired := tidy.paired j
  unfold Paired at paired
  rw [if_pos busy] at paired
  obtain ⟨g, member, sends⟩ := List.countP_pos_iff.mp (paired ▸ Nat.one_pos : 0 < senders w j)
  cases g with
  | report k r =>
    obtain rfl : k = j := by simpa [sending] using sends
    exact ⟨r, member⟩
  | _ => cases sends

theorem Decided.grows (fires : World.Fires w env f o others w') (decided : Decided w j) :
    Decided w' j := by
  obtain ⟨v, seen⟩ := decided
  exact ⟨v, fires.seen.mpr (.inl seen)⟩

theorem evicts_spared {a : Accept} (calm : Calm w (.accept a) env) (pc : a.pc = .evict) :
    (w.control.jobs.evict a.now w.control.config.jobRetention w.control.config.maxJobs).2 = [] := by
  have none := calm.spares
  unfold evicts at none
  dsimp only at none
  rw [pc] at none
  exact none

theorem Stored.stays (tidy : Tidy w) (calm : Calm w f env)
    (fires : World.Fires w env f o others w') (stored : Stored w j) : Stored w' j := by
  unfold Stored at stored ⊢
  rw [fires.control]
  cases record_move fires.stepped j with
  | same kept => rw [kept]; exact stored
  | touched touches mapped => rw [mapped, Option.isSome_map]; exact stored
  | evicted pc _ _ listed =>
    rw [evicts_spared calm pc] at listed
    cases listed
  | rolledBack pc =>
    have none := tidy.calm _ fires.frames.mem_before
    simp [undoing, pc] at none
  | inserted _ _ fresh => rw [fresh]; rfl
  | foreign _ written => rw [written]; rfl

/-- A record comes from its creator, or from an accept that has the verdict. -/
theorem stored_before (fires : World.Fires w env f o others w') (stored : Stored w' j) :
    Stored w j ∨ (∃ a, f = .accept a ∧ a.pc = .insertRecord j) ∨
      ∃ a v, f = .accept a ∧ a.pc = .foreign j v := by
  unfold Stored at stored ⊢
  rw [fires.control] at stored
  cases record_move fires.stepped j with
  | same kept => rw [kept] at stored; exact .inl stored
  | touched touches mapped => rw [mapped, Option.isSome_map] at stored; exact .inl stored
  | evicted _ _ _ _ gone => simp [gone] at stored
  | rolledBack _ gone => simp [gone] at stored
  | inserted pc => exact .inr (.inl ⟨_, rfl, pc⟩)
  | foreign pc => exact .inr (.inr ⟨_, _, rfl, pc⟩)

/-- A creator that has not filed its job files it, or is still to. -/
theorem Making.stays (calm : Calm w f env) (fires : World.Fires w env f o others w')
    (making : Making w j) : Stored w' j ∨ Making w' j := by
  obtain ⟨a, member, unfiled⟩ := making
  rcases fires.frames.kept member with rfl | still
  · cases fires.accept_move with
    | insertLease pc =>
      refine .inr ⟨_, fires.frames.mem_new (List.mem_append_left _ (List.mem_singleton_self _)), ?_⟩
      rw [pc] at unfiled
      exact unfiled
    | insertRecord pc =>
      left
      rw [pc] at unfiled
      obtain rfl := Option.some.inj unfiled
      unfold Stored
      rw [fires.control]
      exact (congrArg Option.isSome ((JobStore.get_insert _ _ _ _ _ _ _).trans (if_pos rfl))).trans rfl
    | _ => simp_all [unfiledAt]
  · exact .inr ⟨a, still, unfiled⟩

theorem calm_new (tidy : Tidy w) (calm : Calm w f env) (fires : World.Fires w env f o others w')
    {g : Frame} (member : g ∈ o.push ++ o.spawned) : undoing g = false := by
  cases g with
  | accept a' =>
    obtain ⟨a, rfl, move, -, pushed⟩ := leaves_accept fires.stepped member
    have quiet := tidy.calm _ fires.frames.mem_before
    have durable := calm.durable
    cases move with
    | evict pc evicts =>
      obtain rfl := Frame.accept.inj (List.mem_singleton.mp pushed)
      have none := evicts_spared calm pc
      rw [evicts] at none
      simp [undoing, none]
    | startReport pc claims => simp_all [Accept.goto, undoing]
    | drain pc claims => simp_all [Accept.goto, undoing]
    | _ => simp_all [Accept.goto, undoing]
  | _ => rfl

theorem placed_after (tidy : Tidy w) (calm : Calm w f env)
    (fires : World.Fires w env f o others w') {claim : LocalClaim}
    (found : w'.control.claims.claims.lookup j = some claim) : Stored w' j ∨ Making w' j := by
  have known : ∀ {claim}, w.control.claims.claims.lookup j = some claim →
      Stored w' j ∨ Making w' j := fun before =>
    (tidy.placed j _ before).elim (fun stored => .inl (stored.stays tidy calm fires))
      fun making => making.stays calm fires
  rw [fires.control] at found
  cases claim_move fires.stepped j with
  | same kept => exact known (kept ▸ found)
  | evicted _ gone => simp [gone] at found
  | rolledBack _ gone => simp [gone] at found
  | stale _ _ _ _ gone => simp [gone] at found
  | attached _ before => exact known before
  | @created a pc mine _ push =>
    refine .inr ⟨{ a with pc := .insertLease ⟨env.proposed, localOwner, 0⟩ }, ?_,
      congrArg some mine.symm⟩
    refine fires.frames.mem_new (List.mem_append_left _ ?_)
    rw [push]
    exact List.mem_singleton_self _
  | settled _ published =>
    rw [published] at found
    obtain ⟨before, known', -⟩ := Option.map_eq_some_iff.mp found
    exact known known'
  | granted _ _ before => exact known before
  | released _ _ freed =>
    rw [freed] at found
    obtain ⟨before, known', -⟩ := Option.map_eq_some_iff.mp found
    exact known known'

/-- An owner leaves none only when it has decided its job. -/
theorem unowned_of_decided (sound : Sound w) (tidy : Tidy w) (calm : Calm w f env)
    (fires : World.Fires w env f o others w') (owner : owning j f = true)
    (none : (o.push ++ o.spawned).countP (owning j) = 0) : Decided w' j := by
  have present := fires.frames.mem_before
  have phase := (sound.owned j).phase f present owner
  have quiet := tidy.calm f present
  have durable := calm.durable
  have move : FrameMove env w.control f o := fires.stepped ▸ frame_moves env w.control f
  cases move with
  | accept move =>
    cases move with
    | startReport pc claims => simp_all [owning, creatingAt]
    | drain pc claims => simp_all [owning, creatingAt]
    | snapshot pc found =>
      have own := JobStore.id_of_get found
      rename_i k next job
      cases next <;> simp_all [owning, creatingAt, Accept.goto, undoing, intentFrom]
    | snapshotGone pc absent =>
      rename_i k next
      cases next <;> simp_all [owning, creatingAt, Accept.goto, undoing]
    | recorded pc absent =>
      rename_i intent next
      cases next <;> simp_all [owning, creatingAt, Accept.goto, undoing]
    | attachRefused pc refused other => simp_all
    | _ => simp_all [owning, creatingAt, Accept.goto, undoing]
  | drive move =>
    cases move with
    | gone absent => obtain ⟨job, found, -⟩ := phase; simp [absent] at found
    | contextGone absent => obtain ⟨job, found, -⟩ := phase; simp [absent] at found
    | passGone absent => obtain ⟨job, found, -⟩ := phase; simp [absent] at found
    | _ => simp_all [owning]
  | finish move =>
    cases move with
    | gone absent => obtain ⟨job, found, -⟩ := phase; simp [absent] at found
    | late found decided =>
      obtain ⟨job, found', open', -⟩ := phase
      obtain rfl := Option.some.inj (found.symm.trans found')
      rw [open'.live] at decided
      cases decided
    | record found =>
      obtain rfl : _ = j := by simpa [owning] using owner
      exact ⟨_, fires.seen.mpr (.inr (List.mem_singleton_self _))⟩
    | _ => cases owner
  | retire => cases owner
  | report => cases owner
  | pump => cases owner
  | message move => cases move <;> cases owner

theorem owned_after (sound : Sound w) (tidy : Tidy w) (calm : Calm w f env)
    (fires : World.Fires w env f o others w') (stored : Stored w' j) (undecided : ¬ Decided w' j) :
    0 < owners w' j := by
  have before : ¬ Decided w j := fun decided => undecided (decided.grows fires)
  have balance := owners_fires fires (j := j)
  rcases stored_before fires stored with old | ⟨a, rfl, pc⟩ | ⟨a, v, rfl, pc⟩
  · have some := tidy.owned j old before
    cases own_move fires.stepped j with
    | none unowned =>
      by_cases owner : owning j f = true
      · exact absurd (unowned_of_decided sound tidy calm fires owner unowned) undecided
      · have other : [f].countP (owning j) = 0 := by simp [owner]
        omega
    | keeps owner one =>
      have mine : [f].countP (owning j) = 1 := by simp [owner]
      omega
    | mints _ _ one =>
      have few : [f].countP (owning j) ≤ 1 := List.countP_le_length
      omega
  · cases fires.accept_move with
    | insertRecord pc' =>
      obtain rfl := AcceptAt.insertRecord.inj (pc.symm.trans pc')
      refine List.countP_pos_iff.mpr ⟨_, fires.frames.mem_new (List.mem_append_left _
        (List.mem_singleton_self _)), ?_⟩
      simp [owning, creatingAt]
    | _ => simp_all
  · have carried : TruthfulAccept w.history a.pc := sound.truth.frames _ fires.frames.mem_before
    rw [pc] at carried
    exact absurd ⟨v, carried⟩ before

/-- A record in a phase after the verdict is of a decided job. -/
theorem Tidy.decided_of_state (sound : Sound w) (tidy : Tidy w) {job : Job}
    (found : w.control.jobs.get j = some job) (past : job.state.hasVerdict = true) :
    Decided w j := by
  by_contra undecided
  have stored := stored_of_get found
  obtain ⟨g, member, owner⟩ := List.countP_pos_iff.mp (tidy.owned j stored undecided)
  have phase := (sound.owned j).phase g member owner
  have clash : ∀ {job'}, w.control.jobs.get j = some job' → Undecided job' → False := by
    intro job' found' open'
    obtain rfl := Option.some.inj (found.symm.trans found')
    rw [open'.live] at past
    cases past
  cases g with
  | accept a =>
    cases unfiled : unfiledAt a.pc with
    | some k =>
      obtain rfl : k = j := by
        have creator : creatingAt j a.pc = true := owner
        unfold unfiledAt at unfiled
        split at unfiled <;> simp_all [creatingAt]
      have absent := (sound.born k).unfiled a member unfiled
      simp [absent] at found
    | none =>
      cases filed : filedAt a.pc with
      | some k =>
        obtain rfl := filed_creating filed owner
        obtain ⟨job', found', open'⟩ := phase k filed
        exact clash found' open'
      | none =>
        have quiet := tidy.calm _ member
        have creator : creatingAt j a.pc = true := owner
        unfold creatingAt at creator
        unfold undoing at quiet
        unfold unfiledAt at unfiled
        unfold filedAt at filed
        split at creator <;> simp_all
  | drive k pc =>
    obtain ⟨job', found', open', -⟩ := phase
    obtain rfl : k = j := by cases pc <;> simp_all [owning]
    exact clash found' open'
  | finish k pc =>
    cases pc with
    | record v =>
      obtain ⟨job', found', open', -⟩ := phase
      obtain rfl : k = j := by simpa [owning] using owner
      exact clash found' open'
    | _ => cases owner
  | _ => cases owner

/-- A frame that comes to know of a verdict hears of one that was decided. -/
theorem answers_new (sound : Sound w) (tidy : Tidy w) (fires : World.Fires w env f o others w')
    {g : Frame} (member : g ∈ o.push ++ o.spawned) (answers : answering j g = true) :
    Decided w' j := by
  have present := fires.frames.mem_before
  have before : ∀ {k}, answering k f = true → Decided w' k :=
    fun known => (tidy.answers f present _ known).grows fires
  have move : FrameMove env w.control f o := fires.stepped ▸ frame_moves env w.control f
  cases move with
  | accept move =>
    rename_i a
    cases move with
    | attached pc admits =>
      rename_i claims k owner verdict
      obtain rfl := List.mem_singleton.mp member
      cases verdict with
      | none => cases answers
      | some v =>
        obtain rfl : k = j := by simpa [answering, answeringAt] using answers
        obtain ⟨claim, found, settled, -⟩ := LocalClaims.admit_attached admits
        exact Decided.grows fires ⟨v, sound.truth.claim k claim v found settled⟩
    | attachDecided pc found finished decided =>
      rename_i k verdict job
      obtain rfl := List.mem_singleton.mp member
      obtain rfl : k = j := by simpa [answering, answeringAt] using answers
      obtain ⟨v, held⟩ := Option.isSome_iff_exists.mp decided
      exact Decided.grows fires ⟨v, sound.truth.record k job v found held⟩
    | attachForeign pc =>
      obtain rfl := List.mem_singleton.mp member
      exact before (by simpa [answering, answeringAt, pc] using answers)
    | foreign pc =>
      obtain rfl := List.mem_singleton.mp member
      exact before (by simpa [answering, answeringAt, pc] using answers)
    | snapshotGone pc =>
      rename_i k next absent
      obtain rfl := List.mem_singleton.mp member
      refine before ?_
      cases next <;> simp_all [answering, answeringAt]
    | snapshot pc found =>
      rename_i k next job
      have own : job.id = k := JobStore.id_of_get found
      obtain rfl := List.mem_singleton.mp member
      refine before ?_
      cases next <;> simp_all [answering, answeringAt, intentFrom]
    | recorded pc =>
      rename_i intent next durable
      obtain rfl := List.mem_singleton.mp member
      refine before ?_
      cases next <;> simp_all [answering, answeringAt]
    | startReport pc claims =>
      rename_i k out
      have known : k = j → Decided w' j := fun same =>
        before (by simp [answering, answeringAt, pc, same])
      cases claims with
      | taken =>
        simp only [Accept.goto, if_true, List.cons_append, List.nil_append, List.mem_cons,
          List.not_mem_nil, or_false] at member
        rcases member with rfl | rfl
        · cases answers
        · exact known (by simpa [answering] using answers)
      | busy =>
        obtain rfl := List.mem_singleton.mp member
        cases answers
      | gone =>
        obtain rfl := List.mem_singleton.mp member
        cases answers
    | drain pc claims =>
      rename_i k id next now due out
      cases claims with
      | taken found parked =>
        obtain rfl : id = j := by
          simp only [Accept.goto, if_true, List.cons_append, List.nil_append, List.mem_cons,
            List.not_mem_nil, or_false] at member
          rcases member with rfl | rfl
          · cases answers
          · simpa [answering] using answers
        exact (tidy.decided_of_state sound found (by rw [parked]; rfl)).grows fires
      | skipped =>
        obtain rfl := List.mem_singleton.mp member
        cases answers
    | startDrive pc =>
      simp only [Accept.goto, List.cons_append, List.nil_append, List.mem_cons, List.not_mem_nil,
        or_false] at member
      rcases member with rfl | rfl
      · cases answers
      · cases answers
    | startAttached pc notDrive notReport =>
      obtain rfl := List.mem_singleton.mp member
      cases answers
    | attachRefused => cases member
    | rollbackClaim => cases member
    | drained => cases member
    | _ =>
      obtain rfl := List.mem_singleton.mp member
      cases answers
  | drive move => cases move <;> simp at member <;> grind [answering]
  | finish move =>
    cases move with
    | record found live =>
      obtain rfl := List.mem_singleton.mp member
      obtain rfl : _ = j := by simpa [answering] using answers
      exact ⟨_, fires.seen.mpr (.inr (List.mem_singleton_self _))⟩
    | claim claims => exact before (by cases claims <;> simp_all [answering])
    | retire => exact before (by simp at member; grind [answering])
    | _ => exact before (by simp_all [answering])
  | retire move => cases move <;> simp_all [answering]
  | report move => exact before (by cases move <;> simp_all [answering])
  | pump move => cases move <;> simp_all [Pump.goto, answering]
  | message move => cases move <;> simp_all

/-- **A calm step keeps frames, claims and records together.** -/
theorem tidy_fires (sound : Sound w) (tidy : Tidy w) (calm : Calm w f env)
    (fires : World.Fires w env f o others w') : Tidy w' where
  calm := fun g member => (fires.frames.mem_after member).elim
    (fun new => calm_new tidy calm fires new) (tidy.calm g)
  paired := fun j => paired_fires (sound.born j) (tidy.paired j) (by
    rintro a rfl pc id listed
    rw [evicts_spared calm pc] at listed
    cases listed) fires
  placed := fun _ _ found => placed_after tidy calm fires found
  owned := fun _ stored undecided => owned_after sound tidy calm fires stored undecided
  answers := fun g member j answers => (fires.frames.mem_after member).elim
    (fun new => answers_new sound tidy fires new answers)
    fun old => (tidy.answers g old j answers).grows fires

end Step

/-! ### Who carries a destination -/

def Claimed (w : World) (j : JobId) (url : String) : Prop :=
  url ∈ w.control.claims.destinations j

/-- A report of `j` that starts to read finds the destination. -/
def Within (w : World) (j : JobId) (url : String) : Prop :=
  Filed w j url ∨ Claimed w j url

/-- The frame brings `url` to a read of `j` that is still to come, or posts to it. -/
inductive Carries (w : World) (j : JobId) (url : String) : Frame → Prop
  | attaching {a : Accept} {verdict : Option Verdict} (pc : a.pc = .attach j verdict)
      (own : a.dispatch.callbackUrl = url) (kept : Stored w j ∨ Claimed w j url) :
      Carries w j url (.accept a)
  | resending {a : Accept} (pc : a.pc = .start j .reReport)
      (own : a.dispatch.callbackUrl = url) (filed : Filed w j url) : Carries w j url (.accept a)
  | owner {f : Frame} (owner : owning j f = true) (within : Within w j url) : Carries w j url f
  | finishing {pc : FinishAt} (decided : ∀ v, pc ≠ .record v)
      (idle : delivering w.control j = false) (within : Within w j url) :
      Carries w j url (.finish j pc)
  | posting {r : Report} (owed : url ∈ pending r.pc) : Carries w j url (.report j r)
  | rereading {r : Report} (pc : r.pc = .destinations ∨ ∃ req n rest, r.pc = .post req n rest)
      (within : Within w j url) : Carries w j url (.report j r)
  | merging {r : Report} {urls : List String} (pc : r.pc = .merge urls)
      (among : Filed w j url ∨ url ∈ urls) : Carries w j url (.report j r)
  | reading {r : Report} (pc : r.pc = .read) (filed : Filed w j url) : Carries w j url (.report j r)

/-- The destination was posted the verdict of `j`, or some frame still carries it. -/
def Carried (w : World) (j : JobId) (url : String) : Prop :=
  PostedTo w.history j url ∨ ∃ f ∈ w.frames, Carries w j url f

/-- The job an accept was admitted to. -/
def bearing : AcceptAt → Option JobId
  | .insertLease lease => some lease.jobId
  | .insertRecord j => some j
  | .attach j _ => some j
  | .foreign j _ => some j
  | .snapshot j _ => some j
  | .record intent _ => some intent.jobId
  | .start j _ => some j
  | .scan j _ => some j
  | .drain j _ _ _ => some j
  | _ => none

/-- **Every destination that was admitted is carried.** -/
structure Tracked (w : World) : Prop where
  stored : ∀ j, Decided w j → Stored w j
  accepts : ∀ a, .accept a ∈ w.frames → ∀ j, bearing a.pc = some j →
    Carried w j a.dispatch.callbackUrl
  acked : ∀ j url next, .acked j url next ∈ w.history → Carried w j url

theorem Filed.stored {w : World} {j : JobId} {url : String} (filed : Filed w j url) :
    Stored w j := by
  obtain ⟨job, found, -⟩ := filed
  exact stored_of_get found

/-- The claim an admission drops is the one its tree points at. -/
theorem byKey_of_dropped {c : LocalClaims} {key : TreeKey} {proposed : JobId} {url : String}
    {nowMs retentionMs : ℤ} {j : JobId} {claim : LocalClaim}
    (found : c.claims.lookup j = some claim)
    (gone : (c.admitDispatch key proposed url nowMs retentionMs).1.claims.lookup j = none) :
    c.byKey.lookup key = some j := by
  by_contra other
  have kept : (c.dropStale key nowMs retentionMs).claims.lookup j = some claim := by
    unfold LocalClaims.dropStale
    split
    · cases known : c.byKey.lookup key with
      | none => exact found
      | some id =>
        show (c.claims.erase id).lookup j = _
        rw [Table.lookup_erase, if_neg fun same : j = id => other (same ▸ known), found]
    · exact found
  have inserted : ∀ (id : JobId) (claim' : LocalClaim),
      ((c.dropStale key nowMs retentionMs).claims.insert id claim').lookup j ≠ none := by
    intro id claim' none
    rw [Table.lookup_insert, kept] at none
    split_ifs at none
  unfold LocalClaims.admitDispatch at gone
  dsimp only at gone
  split at gone
  · exact inserted _ _ gone
  · split at gone
    · exact inserted _ _ gone
    · exact inserted _ _ gone

section Track

variable {w w' : World} {env : Env} {f : Frame} {o : Outcome} {others : List Frame} {j : JobId}
  {url : String} {a : Accept}

theorem Filed.stays_calm (tidy : Tidy w) (calm : Calm w f env)
    (fires : World.Fires w env f o others w') (filed : Filed w j url) : Filed w' j url := by
  obtain ⟨job, found, listed⟩ := filed
  unfold Filed
  rw [fires.control]
  cases record_move fires.stepped j with
  | same kept => exact ⟨job, kept.trans found, listed⟩
  | touched touches mapped =>
    rw [found, Option.map_some] at mapped
    exact ⟨_, mapped, touches.edit.keeps_urls listed⟩
  | evicted pc _ _ dropped =>
    rw [evicts_spared calm pc] at dropped
    cases dropped
  | rolledBack pc =>
    have quiet := tidy.calm _ fires.frames.mem_before
    simp [undoing, pc] at quiet
  | inserted _ absent => simp [absent] at found
  | foreign pc written =>
    rw [found, Option.getD_some] at written
    exact ⟨_, written, listed⟩

theorem claimed_of_lookup {claim : LocalClaim}
    (found : w.control.claims.claims.lookup j = some claim) (listed : url ∈ claim.callbackUrls) :
    Claimed w j url := by
  unfold Claimed LocalClaims.destinations
  rw [found]
  exact listed

theorem lookup_of_claimed (claimed : Claimed w j url) : ∃ claim,
    w.control.claims.claims.lookup j = some claim ∧ url ∈ claim.callbackUrls := by
  unfold Claimed LocalClaims.destinations at claimed
  cases found : w.control.claims.claims.lookup j with
  | none => simp [found] at claimed
  | some claim => exact ⟨claim, rfl, by simpa [found] using claimed⟩

theorem mem_attach {claim : LocalClaim} {here : String} :
    url ∈ (claim.attach here).callbackUrls ↔ url ∈ claim.callbackUrls ∨ url = here := by
  unfold LocalClaim.attach
  split
  · rename_i known
    constructor
    · exact .inl
    · rintro (old | rfl)
      · exact old
      · exact known
  · simp

theorem Making.unsettled (sound : Sound w) (making : Making w j) {claim : LocalClaim}
    (found : w.control.claims.claims.lookup j = some claim) : claim.settledAtMs = none := by
  obtain ⟨a, member, unfiled⟩ := making
  have some : 0 < creators w j :=
    List.countP_pos_iff.mpr ⟨_, member, unfiled_creating unfiled⟩
  exact ((sound.born j).unsettled some claim found).2

/-- **A destination on the claim stays there, or is carried elsewhere when the claim is dropped.** -/
theorem claimed_after (sound : Sound w) (tidy : Tidy w) (calm : Calm w f env)
    (prompt : Prompt w f env) (fires : World.Fires w env f o others w')
    (claimed : Claimed w j url) : Claimed w' j url ∨ Filed w' j url ∨ Carried w' j url := by
  obtain ⟨claim, found, listed⟩ := lookup_of_claimed claimed
  have kept : ∀ {claim'}, o.control.claims.claims.lookup j = some claim' →
      url ∈ claim'.callbackUrls → Claimed w' j url := fun found' listed' =>
    claimed_of_lookup (by rw [fires.control]; exact found') listed'
  have quiet := tidy.calm _ fires.frames.mem_before
  cases claim_move fires.stepped j with
  | same same => exact .inl (kept (same.trans found) listed)
  | evicted pc => simp [undoing, pc] at quiet
  | rolledBack pc => simp [undoing, pc] at quiet
  | @stale a claim' t pc old found' settled gone =>
    obtain rfl := Option.some.inj (found.symm.trans found')
    have stored : Stored w j := (tidy.placed j claim found).resolve_right fun making => by
      rw [making.unsettled sound found] at settled
      cases settled
    have result : (w.control.claims.admitDispatch ⟨a.dispatch.repo, a.dispatch.treeId⟩ env.proposed
        a.dispatch.callbackUrl env.nowMs (asMillis w.control.config.jobRetention)).1.claims.lookup j
          = none := by
      cases fires.accept_move with
      | created _ admits => rw [admits]; exact gone
      | attached _ admits => rw [admits]; exact gone
      | _ => simp_all
    have points := byKey_of_dropped found result
    have dropped : j ∈ drops w.control env (.accept a) := by
      simp [drops, pc, old, points]
    rcases prompt.keeps j dropped url claimed with filed | ⟨g, member, brings⟩
    · exact .inr (.inl (filed.stays_calm tidy calm fires))
    · refine .inr (.inr (.inr ⟨g, (fires.frames.kept member).resolve_left ?_, ?_⟩))
      · rintro rfl
        simp [bringing, pc] at brings
      · have stays := stored.stays tidy calm fires
        cases g with
        | accept b =>
          cases at' : b.pc with
          | attach k verdict =>
            simp only [bringing, at', Bool.and_eq_true, decide_eq_true_eq] at brings
            obtain ⟨rfl, own⟩ := brings
            exact .attaching at' own (.inl stays)
          | _ => simp [bringing, at'] at brings
        | report k r =>
          cases at' : r.pc with
          | merge urls =>
            simp only [bringing, at', Bool.and_eq_true, decide_eq_true_eq] at brings
            obtain ⟨rfl, among⟩ := brings
            exact .merging at' (.inr among)
          | _ => simp [bringing, at'] at brings
        | _ => cases brings
  | attached _ before grown =>
    obtain rfl := Option.some.inj (found.symm.trans before)
    exact .inl (kept grown (mem_attach.mpr (.inl listed)))
  | created _ mine =>
    have unknown := ((sound.born j).unheard (mine ▸ fires.fresh)).2.2.2
    simp [unknown] at found
  | settled _ published =>
    rw [found, Option.map_some] at published
    exact .inl (kept published listed)
  | granted _ _ before _ taken =>
    obtain rfl := Option.some.inj (found.symm.trans before)
    exact .inl (kept taken listed)
  | released _ _ freed =>
    rw [found, Option.map_some] at freed
    exact .inl (kept freed listed)

theorem within_after (sound : Sound w) (tidy : Tidy w) (calm : Calm w f env)
    (prompt : Prompt w f env) (fires : World.Fires w env f o others w')
    (within : Within w j url) : Within w' j url ∨ Carried w' j url := by
  rcases within with filed | claimed
  · exact .inl (.inl (filed.stays_calm tidy calm fires))
  · rcases claimed_after sound tidy calm prompt fires claimed with claimed | filed | carried
    · exact .inl (.inr claimed)
    · exact .inl (.inl filed)
    · exact .inr carried

/-- A delivery that is free stays free, or a report starts to read. -/
theorem idle_after (fires : World.Fires w env f o others w')
    (idle : delivering w.control j = false) :
    delivering w'.control j = false ∨ Frame.report j {} ∈ w'.frames := by
  rw [fires.control]
  cases send_move fires.stepped j with
  | kept same => exact .inl (same.trans idle)
  | started free set unsent one =>
    obtain ⟨g, member, sends⟩ := List.countP_pos_iff.mp (one ▸ Nat.one_pos)
    right
    cases g with
    | report k r =>
      obtain rfl : k = j := by simpa [sending] using sends
      have foreign : ∀ k' r', f ≠ .report k' r' := by
        rintro k' r' rfl
        cases fires.report_move with
        | release => cases member
        | _ =>
          obtain ⟨rfl, -⟩ := Frame.report.inj (List.mem_singleton.mp member)
          simp [sending] at unsent
      rw [fresh_report fires foreign member] at member
      exact fires.frames.mem_new member
    | _ => cases sends
  | ended _ clear => exact .inl clear
  | evicted _ _ _ gone => exact .inl (delivering_gone gone)
  | rolledBack _ gone => exact .inl (delivering_gone gone)

/-- What is known of the worlds of a calm run. -/
structure Settled (w : World) : Prop where
  sound : Sound w
  debt : Debt w
  tidy : Tidy w
  stored : ∀ j, Decided w j → Stored w j

theorem Settled.undecided (settled : Settled w) {g : Frame} (member : g ∈ w.frames)
    (owner : owning j g = true) : ¬ Decided w j := by
  rintro ⟨v, seen⟩
  have none := ((settled.sound.owned j).settled (decides_pos seen)).2.1
  have some : 0 < owners w j := List.countP_pos_iff.mpr ⟨g, member, owner⟩
  omega

theorem carries_rereading {r : Report} (more : rereads r.pc = true) (filed : Filed w j url) :
    Carries w j url (.report j r) := by
  cases pc : r.pc with
  | destinations => exact .rereading (.inl pc) (.inl filed)
  | merge urls => exact .merging pc (.inl filed)
  | read => exact .reading pc filed
  | post req n rest => exact .rereading (.inr ⟨_, _, _, pc⟩) (.inl filed)
  | _ => simp [rereads, pc] at more

/-- What another frame carries it goes on to carry, or somebody else does. -/
theorem Carries.stays (settled : Settled w) (calm : Calm w f env) (prompt : Prompt w f env)
    (fires : World.Fires w env f o others w') {g : Frame} (member : g ∈ w'.frames)
    (carries : Carries w j url g) : Carried w' j url := by
  have filed : ∀ {j url}, Filed w j url → Filed w' j url :=
    fun filed => filed.stays_calm settled.tidy calm fires
  have known : ∀ {k u}, Within w k u → Within w' k u ∨ Carried w' k u := fun within =>
    within_after settled.sound settled.tidy calm prompt fires within
  cases carries with
  | attaching pc own kept =>
    rcases kept with stored | claimed
    · exact .inr ⟨_, member, .attaching pc own (.inl (stored.stays settled.tidy calm fires))⟩
    · rcases known (.inr claimed) with (listed | claimed) | carried
      · exact .inr ⟨_, member, .attaching pc own (.inl listed.stored)⟩
      · exact .inr ⟨_, member, .attaching pc own (.inr claimed)⟩
      · exact carried
  | resending pc own here => exact .inr ⟨_, member, .resending pc own (filed here)⟩
  | owner owner within =>
    exact (known within).elim (fun within => .inr ⟨_, member, .owner owner within⟩) id
  | finishing decided idle within =>
    rcases known within with within | carried
    · rcases idle_after fires idle with idle | started
      · exact .inr ⟨_, member, .finishing decided idle within⟩
      · exact .inr ⟨_, started, .rereading (.inl rfl) within⟩
    · exact carried
  | posting owed => exact .inr ⟨_, member, .posting owed⟩
  | rereading pc within =>
    exact (known within).elim (fun within => .inr ⟨_, member, .rereading pc within⟩) id
  | merging pc among => exact .inr ⟨_, member, .merging pc (among.imp filed id)⟩
  | reading pc here => exact .inr ⟨_, member, .reading pc (filed here)⟩

/-! ### The carrier runs -/

theorem attaching_fired (settled : Settled w) (calm : Calm w (.accept a) env)
    (prompt : Prompt w (.accept a) env) (fires : World.Fires w env (.accept a) o others w')
    {verdict : Option Verdict} (pc : a.pc = .attach j verdict)
    (kept : Stored w j ∨ Claimed w j a.dispatch.callbackUrl) :
    Carried w' j a.dispatch.callbackUrl := by
  have present := fires.frames.mem_before
  have control := fires.control
  have other : ∀ {g}, g ∈ w.frames → owning j g = true → g ∈ w'.frames := by
    intro g member owner
    refine (fires.frames.kept member).resolve_left ?_
    rintro rfl
    simp [owning, pc, creatingAt] at owner
  have attached : ∀ {job : Job}, w.control.jobs.get j = some job →
      o.control = w.control.withJobMut j (·.addCallbackUrl a.dispatch.callbackUrl)
        (fun job => addCallbackUrl_id job a.dispatch.callbackUrl) →
      Filed w' j a.dispatch.callbackUrl := fun found written =>
    ⟨_, (congrArg (·.jobs.get j) (control.trans written)).trans (get_withJobMut found),
      Job.mem_addCallbackUrl.mpr (.inr rfl)⟩
  cases fires.accept_move with
  | attachDecided pc' found =>
    obtain ⟨rfl, -⟩ := AcceptAt.attach.inj (pc.symm.trans pc')
    refine .inr ⟨_, fires.frames.mem_new (List.mem_append_left _ (List.mem_singleton_self _)), ?_⟩
    exact .resending rfl rfl (attached found rfl)
  | attachLive pc' found live =>
    obtain ⟨rfl, -⟩ := AcceptAt.attach.inj (pc.symm.trans pc')
    have stored := stored_of_get found
    have undecided : ¬ Decided w j := by
      rintro ⟨v, seen⟩
      exact live (((settled.sound.owned j).settled (decides_pos seen)).2.2 _ found)
    obtain ⟨g, member, owner⟩ := List.countP_pos_iff.mp (settled.tidy.owned j stored undecided)
    exact .inr ⟨g, other member owner, .owner owner (.inl (attached found rfl))⟩
  | attachForeign pc' absent =>
    obtain ⟨rfl, rfl⟩ := AcceptAt.attach.inj (pc.symm.trans pc')
    have carried : TruthfulAccept w.history a.pc := settled.sound.truth.frames _ present
    rw [pc] at carried
    have stored := settled.stored j ⟨_, carried⟩
    simp [Stored, absent] at stored
  | attachElsewhere pc' absent =>
    obtain ⟨rfl, -⟩ := AcceptAt.attach.inj (pc.symm.trans pc')
    have unstored : ¬ Stored w j := by simp [Stored, absent]
    have claimed := kept.resolve_left unstored
    obtain ⟨claim, found, -⟩ := lookup_of_claimed claimed
    obtain ⟨b, member, unfiled⟩ := (settled.tidy.placed j claim found).resolve_left unstored
    have owner : owning j (.accept b) = true := unfiled_creating unfiled
    rcases within_after settled.sound settled.tidy calm prompt fires (.inr claimed) with
      within | carried
    · exact .inr ⟨_, other member owner, .owner owner within⟩
    · exact carried
  | _ => simp_all

theorem resending_fired (settled : Settled w) (calm : Calm w (.accept a) env)
    (prompt : Prompt w (.accept a) env) (fires : World.Fires w env (.accept a) o others w')
    (pc : a.pc = .start j .reReport) (filed : Filed w j a.dispatch.callbackUrl) :
    Carried w' j a.dispatch.callbackUrl := by
  have stays := filed.stays_calm settled.tidy calm fires
  cases fires.accept_move with
  | startReport pc' claims =>
    obtain ⟨rfl, -⟩ := AcceptAt.start.inj (pc.symm.trans pc')
    cases claims with
    | taken =>
      refine .inr ⟨.report j {}, fires.frames.mem_new (List.mem_append_right _
        (List.mem_singleton_self _)), .rereading (.inl rfl) (.inl stays)⟩
    | busy found held =>
      -- The report that holds the claim is to read again, or has read the destination.
      obtain ⟨r, member⟩ := settled.tidy.sender ((delivering_of_get found).trans held)
      have still : .report j r ∈ w'.frames := (fires.frames.kept member).resolve_left nofun
      have open' := prompt.open' (j, a.dispatch.callbackUrl) (by simp [resends, pc]) _ member
      by_cases more : rereads r.pc = true
      · exact .inr ⟨_, still, carries_rereading more stays⟩
      · have listed : a.dispatch.callbackUrl ∈ r.attempted := by
          simpa [closing, more] using open'
        rcases (settled.debt.honest j r member).posted _ listed with posted | owed
        · exact .inl (posted.mono fun x seen => fires.seen.mpr (.inl seen))
        · exact .inr ⟨_, still, .posting owed⟩
    | gone absent =>
      obtain ⟨job, found, -⟩ := filed
      simp [absent] at found
  | startAttached pc' _ notReport =>
    obtain ⟨-, rfl⟩ := AcceptAt.start.inj (pc.symm.trans pc')
    exact absurd rfl notReport
  | _ => simp_all

theorem owner_fired (settled : Settled w) (after : Tidy w') (calm : Calm w f env)
    (prompt : Prompt w f env) (fires : World.Fires w env f o others w')
    (owner : owning j f = true) (within : Within w j url) : Carried w' j url := by
  have present := fires.frames.mem_before
  have undecided := settled.undecided present owner
  rcases within_after settled.sound settled.tidy calm prompt fires within with within | carried
  swap
  · exact carried
  by_cases some : 0 < owners w' j
  · obtain ⟨g, member, owner⟩ := List.countP_pos_iff.mp some
    exact .inr ⟨g, member, .owner owner within⟩
  · have none : ∀ g ∈ w'.frames, owning j g ≠ true := fun g member owner =>
      some (List.countP_pos_iff.mpr ⟨g, member, owner⟩)
    have unmade : ¬ Making w' j := fun ⟨b, member, unfiled⟩ =>
      none _ member (unfiled_creating unfiled)
    have stored : Stored w' j := by
      rcases within with filed | claimed
      · exact filed.stored
      · obtain ⟨claim, found, -⟩ := lookup_of_claimed claimed
        exact (after.placed j claim found).resolve_right unmade
    have decided : Decided w' j := by
      by_contra open'
      exact some (after.owned j stored open')
    obtain ⟨v, seen⟩ := decided
    rcases fires.seen.mp seen with old | new
    · exact absurd ⟨v, old⟩ undecided
    · cases seen_move fires.stepped new with
      | decided found live push =>
        have pushed : Frame.finish j .decided ∈ w'.frames :=
          fires.frames.mem_new (List.mem_append_left _ (push ▸ List.mem_singleton_self _))
        -- A report that runs already would know a verdict decided before.
        have idle : delivering w.control j = false := by
          rw [Bool.eq_false_iff]
          intro busy
          obtain ⟨r, member⟩ := settled.tidy.sender busy
          exact undecided (settled.tidy.answers _ member j (by simp [answering]))
        rcases idle_after fires idle with idle | started
        · exact .inr ⟨_, pushed, .finishing (by simp) idle within⟩
        · exact .inr ⟨_, started, .rereading (.inl rfl) within⟩

theorem finishing_fired {pc : FinishAt} (settled : Settled w) (calm : Calm w (.finish j pc) env)
    (prompt : Prompt w (.finish j pc) env)
    (fires : World.Fires w env (.finish j pc) o others w') (decided : ∀ v, pc ≠ .record v)
    (idle : delivering w.control j = false) (within : Within w j url) : Carried w' j url := by
  have known : Decided w j := settled.tidy.answers _ fires.frames.mem_before j (by
    cases pc with
    | record v => exact absurd rfl (decided v)
    | _ => simp [answering])
  rcases within_after settled.sound settled.tidy calm prompt fires within with within | carried
  swap
  · exact carried
  rcases idle_after fires idle with idle' | started
  swap
  · exact .inr ⟨_, started, .rereading (.inl rfl) within⟩
  have next : ∀ pc', (∀ v, pc' ≠ .record v) → .finish j pc' ∈ o.push → Carried w' j url :=
    fun pc' later pushed => .inr ⟨_, fires.frames.mem_new (List.mem_append_left _ pushed),
      .finishing later idle' within⟩
  cases fires.finish_move with
  | gone => exact absurd rfl (decided _)
  | late => exact absurd rfl (decided _)
  | record => exact absurd rfl (decided _)
  | claim claims =>
    cases claims with
    | taken =>
      exact .inr ⟨.report j {}, fires.frames.mem_new (List.mem_append_left _
        (List.mem_singleton_self _)), .rereading (.inl rfl) within⟩
    | busy found held =>
      rw [delivering_of_get found, held] at idle
      cases idle
    | gone absent =>
      have stored := settled.stored j known
      simp [Stored, absent] at stored
  | retire => exact next .claim (by simp) (by simp)
  | _ => exact next _ (by simp) (List.mem_singleton_self _)

theorem rereading_fired {r : Report} (settled : Settled w) (calm : Calm w (.report j r) env)
    (prompt : Prompt w (.report j r) env) (fires : World.Fires w env (.report j r) o others w')
    (pc : r.pc = .destinations ∨ ∃ req n rest, r.pc = .post req n rest)
    (within : Within w j url) : Carried w' j url := by
  rcases within_after settled.sound settled.tidy calm prompt fires within with within' | carried
  swap
  · exact carried
  have next : ∀ r', .report j r' ∈ o.push → Carries w' j url (.report j r') → Carried w' j url :=
    fun r' pushed carries =>
      .inr ⟨_, fires.frames.mem_new (List.mem_append_left _ pushed), carries⟩
  cases fires.report_move with
  | destinations =>
    refine next _ (List.mem_singleton_self _) (.merging rfl ?_)
    exact within.imp (fun filed => filed.stays_calm settled.tidy calm fires) id
  | retry =>
    exact next _ (List.mem_singleton_self _) (.rereading (.inr ⟨_, _, _, rfl⟩) within')
  | postedLast => exact next _ (List.mem_singleton_self _) (.rereading (.inl rfl) within')
  | posted =>
    exact next _ (List.mem_singleton_self _) (.rereading (.inr ⟨_, _, _, rfl⟩) within')
  | _ => simp_all

theorem merging_fired {r : Report} {urls : List String} (settled : Settled w)
    (calm : Calm w (.report j r) env) (fires : World.Fires w env (.report j r) o others w')
    (pc : r.pc = .merge urls) (among : Filed w j url ∨ url ∈ urls) : Carried w' j url := by
  have known : Decided w j := settled.tidy.answers _ fires.frames.mem_before j (by simp [answering])
  cases fires.report_move with
  | merge pc' =>
    obtain rfl := ReportAt.merge.inj (pc.symm.trans pc')
    obtain ⟨job, found⟩ := Option.isSome_iff_exists.mp (settled.stored j known)
    have filed : Filed w' j url := by
      rcases among with filed | listed
      · exact filed.stays_calm settled.tidy calm fires
      · exact ⟨_, (congrArg (·.jobs.get j) fires.control).trans (get_withJobMut found),
          mem_addCallbackUrls.mpr (.inr listed)⟩
    exact .inr ⟨_, fires.frames.mem_new (List.mem_append_left _ (List.mem_singleton_self _)),
      .reading rfl filed⟩
  | _ => simp_all

/-- A read asks for every destination it has not attempted. -/
theorem mem_requests_of_fresh {c : Control} {job : Job} {v : Verdict} {attempted : List String}
    (listed : url ∈ job.callbackUrls) (fresh : url ∉ attempted) :
    ∃ q ∈ requests c job v attempted, q.url = url :=
  ⟨⟨url, c.config.secret, v, job.id⟩, List.mem_map.mpr ⟨url,
    List.mem_filter.mpr ⟨listed, by simpa using fresh⟩, rfl⟩, rfl⟩

theorem reading_fired {r : Report} (settled : Settled w)
    (fires : World.Fires w env (.report j r) o others w') (pc : r.pc = .read)
    (filed : Filed w j url) : Carried w' j url := by
  have present := fires.frames.mem_before
  obtain ⟨v, seen⟩ := settled.tidy.answers _ present j (by simp [answering])
  have verdict := ((settled.sound.owned j).settled (decides_pos seen)).2.2
  have answered : url ∈ r.attempted → Carried w' j url := by
    intro listed
    have posted := ((settled.debt.honest j r present).posted url listed).resolve_right (by
      simp [pc, pending])
    exact .inl (posted.mono fun x seen => fires.seen.mpr (.inl seen))
  obtain ⟨job, found, listed⟩ := filed
  cases fires.report_move with
  | readNothing _ nothing =>
    have decided := (verdict job found).2
    simp [nothing job found] at decided
  | readDone _ found' decided empty =>
    obtain rfl := Option.some.inj (found.symm.trans found')
    refine answered ?_
    by_contra fresh
    obtain ⟨q, requested, -⟩ := mem_requests_of_fresh listed fresh
    rw [empty] at requested
    cases requested
  | read _ found' decided some =>
    obtain rfl := Option.some.inj (found.symm.trans found')
    by_cases old : url ∈ r.attempted
    · exact answered old
    · obtain ⟨q, requested, same⟩ := mem_requests_of_fresh listed old
      rw [some] at requested
      exact .inr ⟨_, fires.frames.mem_new (List.mem_append_left _ (List.mem_singleton_self _)),
        .posting (List.mem_map.mpr ⟨q, requested, same⟩)⟩
  | _ => simp_all

/-- **What is carried stays carried until it is posted.** -/
theorem carried_fires (settled : Settled w) (after : Tidy w') (calm : Calm w f env)
    (prompt : Prompt w f env) (fires : World.Fires w env f o others w')
    (carried : Carried w j url) : Carried w' j url := by
  rcases carried with posted | ⟨g, member, carries⟩
  · exact .inl (posted.mono fun x seen => fires.seen.mpr (.inl seen))
  rcases fires.frames.kept member with rfl | still
  swap
  · exact carries.stays settled calm prompt fires still
  cases carries with
  | attaching pc own kept =>
    subst own
    exact attaching_fired settled calm prompt fires pc kept
  | resending pc own filed =>
    subst own
    exact resending_fired settled calm prompt fires pc filed
  | owner owner within => exact owner_fired settled after calm prompt fires owner within
  | finishing decided idle within =>
    exact finishing_fired settled calm prompt fires decided idle within
  | posting owed =>
    refine (pending_fires settled.sound.truth fires member owed).imp id ?_
    rintro ⟨r, member, owed⟩
    exact ⟨_, member, .posting owed⟩
  | rereading pc within => exact rereading_fired settled calm prompt fires pc within
  | merging pc among => exact merging_fired settled calm fires pc among
  | reading pc filed => exact reading_fired settled fires pc filed

/-! ### Runs -/

theorem stored_after (settled : Settled w) (calm : Calm w f env)
    (fires : World.Fires w env f o others w') (decided : Decided w' j) : Stored w' j := by
  obtain ⟨v, seen⟩ := decided
  have before : Stored w j := by
    rcases fires.seen.mp seen with old | new
    · exact settled.stored j ⟨v, old⟩
    · cases seen_move fires.stepped new with
      | decided found =>
        exact stored_of_get found
  exact before.stays settled.tidy calm fires

theorem carried_new (settled : Settled w) (after : Tidy w') (calm : Calm w f env)
    (prompt : Prompt w f env) (tracked : Tracked w) (fires : World.Fires w env f o others w')
    {a' : Accept} (member : Frame.accept a' ∈ o.push ++ o.spawned)
    (bears : bearing a'.pc = some j) : Carried w' j a'.dispatch.callbackUrl := by
  have there := fires.frames.mem_new member
  obtain ⟨a, rfl, move, own, pushed⟩ := leaves_accept fires.stepped member
  have same : a'.dispatch = a.dispatch := by rw [own]
  have before : bearing a.pc = some j → Carried w' j a'.dispatch.callbackUrl := by
    intro known
    rw [same]
    exact carried_fires settled after calm prompt fires
      (tracked.accepts a fires.frames.mem_before j known)
  cases move with
  | created pc admits =>
    obtain rfl := Frame.accept.inj (List.mem_singleton.mp pushed)
    rename_i claims lease
    obtain rfl : lease.jobId = j := Option.some.inj bears
    have admission := LocalClaims.admit_lookup w.control.claims
      ⟨a.dispatch.repo, a.dispatch.treeId⟩ env.proposed a.dispatch.callbackUrl env.nowMs
      (asMillis w.control.config.jobRetention) lease.jobId
    rw [admits] at admission
    cases admission with
    | same other => exact absurd rfl other
    | dropped _ other => exact absurd rfl other
    | created mine fresh =>
      refine .inr ⟨_, there, .owner (by simp [owning, creatingAt]) (.inr ?_)⟩
      refine claimed_of_lookup (by rw [fires.control]; exact fresh) ?_
      exact List.mem_singleton_self _
  | attached pc admits =>
    obtain rfl := Frame.accept.inj (List.mem_singleton.mp pushed)
    rename_i claims k owner verdict
    obtain rfl : k = j := Option.some.inj bears
    obtain ⟨claim, -, -, grown⟩ := LocalClaims.admit_attached admits
    refine .inr ⟨_, there, .attaching rfl rfl (.inr ?_)⟩
    exact claimed_of_lookup ((congrArg (·.claims.claims.lookup k) fires.control).trans grown)
      (mem_attach.mpr (.inr rfl))
  | snapshot pc found =>
    obtain rfl := Frame.accept.inj (List.mem_singleton.mp pushed)
    refine before ?_
    rw [pc, ← bears]
    exact congrArg some (JobStore.id_of_get found).symm
  | attachRefused => cases pushed
  | rollbackClaim => cases pushed
  | drained => cases pushed
  | _ =>
    obtain rfl := Frame.accept.inj (List.mem_singleton.mp pushed)
    exact before (by simp_all [bearing])

/-- **A step of a calm and prompt run keeps track of every destination.** -/
theorem tracked_fires (settled : Settled w) (after : Tidy w') (calm : Calm w f env)
    (prompt : Prompt w f env) (tracked : Tracked w) (fires : World.Fires w env f o others w') :
    Tracked w' where
  stored := fun j decided => stored_after settled calm fires decided
  accepts := fun a member j bears => by
    rcases fires.frames.mem_after member with new | old
    · exact carried_new settled after calm prompt tracked fires new bears
    · exact carried_fires settled after calm prompt fires (tracked.accepts a old j bears)
  acked := fun j url next seen => by
    refine carried_fires settled after calm prompt fires ?_
    rcases fires.seen.mp seen with old | new
    · exact tracked.acked j url next old
    · cases seen_move fires.stepped new with
      | acked pc => exact tracked.accepts _ fires.frames.mem_before j (by rw [pc]; rfl)

end Track

theorem tracked_init (config : ControlConfig) : Tracked (.init config) where
  stored := fun _ ⟨_, seen⟩ => by cases seen
  accepts := fun _ member => by cases member
  acked := fun _ _ _ seen => by cases seen

theorem carried_call {w : World} {j : JobId} {url : String} (call : Call)
    (carried : Carried w j url) : Carried (w.step (.call call)) j url := by
  refine carried.imp id ?_
  rintro ⟨g, member, carries⟩
  refine ⟨g, World.frames_call w call ▸ List.mem_append_left _ member, ?_⟩
  cases carries with
  | attaching pc own kept => exact .attaching pc own kept
  | resending pc own filed => exact .resending pc own filed
  | owner owner within => exact .owner owner within
  | finishing decided idle within => exact .finishing decided idle within
  | posting owed => exact .posting owed
  | rereading pc within => exact .rereading pc within
  | merging pc among => exact .merging pc among
  | reading pc filed => exact .reading pc filed

theorem tracked_call {w : World} (call : Call) (tracked : Tracked w) :
    Tracked (w.step (.call call)) where
  stored := tracked.stored
  accepts := fun a member j bears => by
    rw [World.frames_call] at member
    rcases List.mem_append.mp member with old | new
    · exact carried_call call (tracked.accepts a old j bears)
    · cases call with
      | accept dispatch authorClass now =>
        obtain rfl := Frame.accept.inj (List.mem_singleton.mp new)
        cases bears
      | _ => cases List.mem_singleton.mp new
  acked := fun j url next seen => carried_call call (tracked.acked j url next seen)

/-- Nothing is evicted or refused, and no destination is left behind. -/
def Complete (w : World) (f : Frame) (env : Env) : Prop :=
  Calm w f env ∧ Prompt w f env

instance (w : World) (f : Frame) (env : Env) : Decidable (Complete w f env) :=
  inferInstanceAs (Decidable (_ ∧ _))

/-- Once every task has ended, each acked destination was posted the verdict. -/
def AllAnswered (w : World) : Prop :=
  w.frames = [] → ∀ j url next, .acked j url next ∈ w.history → PostedTo w.history j url

/-- **Every acked destination is answered in a complete run.** -/
theorem all_answered {config : ControlConfig} {labels : List Label}
    (complete : Along World.step (World.Meets Complete) (.init config) labels) :
    AllAnswered (run World.step (.init config) labels) := by
  have both : Tidy (run World.step (.init config) labels) ∧
      Tracked (run World.step (.init config) labels) :=
    World.invariant_over (B := fun w => Sound w ∧ Debt w) (I := fun w => Tidy w ∧ Tracked w)
      (fun _ call known => ⟨tidy_call call known.1, tracked_call call known.2⟩)
      (fun _ _ _ _ _ _ known held complete fires =>
        have after := tidy_fires known.1 held.1 complete.1 fires
        ⟨after, tracked_fires ⟨known.1, known.2, held.1, held.2.stored⟩ after complete.1
          complete.2 held.2 fires⟩)
      (fun labels => ⟨sound config labels, debt config labels⟩)
      ⟨tidy_init config, tracked_init config⟩ complete
  intro ended j url next seen
  rcases both.2.acked j url next seen with posted | ⟨f, member, -⟩
  · exact posted
  · rw [ended] at member
    cases member

/-- Two dispatches of one tree; the second arrives while `count` sections of the job have run, and
what is left of the job runs after it. Every post succeeds. -/
def duplicateAfter (count : ℕ) : List Label :=
  let delivered := fun env : Env => { env with posted := some 200 }
  [.call (.accept (dispatchTo "u1") .member 0)] ++ Label.steps 0 0 10
    ++ Label.steps 1 10 count delivered
    ++ [.call (.accept (dispatchTo "u2") .member 0)] ++ Label.steps 2 50 10 delivered
    ++ Label.steps 1 60 20 delivered

/-- A duplicate that meets a report about to read is answered by it. -/
theorem all_answered_reading :
    Along World.step (World.Meets Complete) (.init {}) (duplicateAfter 18) ∧
      PostedTo (run World.step (.init {}) (duplicateAfter 18)).history "2" "u2" := by
  have complete : Along World.step (World.Meets Complete) (.init {}) (duplicateAfter 18) := by
    decide +kernel
  have ended : (run World.step (.init {}) (duplicateAfter 18)).frames = [] := by decide +kernel
  have acked : Obs.acked "2" "u2" .reReport ∈
      (run World.step (.init {}) (duplicateAfter 18)).history := by decide +kernel
  exact ⟨complete, all_answered complete ended "2" "u2" .reReport acked⟩

/-- A post to `url`. -/
def reaches (url : String) : Obs → Bool
  | .posted req _ => req.url = url
  | _ => false

/-- A post that did not land. -/
def failed : Obs → Bool
  | .posted _ success => !success
  | _ => false

/-- A duplicate that meets a report past its last read is acked, and never answered, though nothing
is evicted or refused and every post lands. -/
theorem left_behind :
    Along World.step (World.Meets Calm) (.init {}) (duplicateAfter 23) ∧
      (∀ x ∈ (run World.step (.init {}) (duplicateAfter 23)).history, failed x = false) ∧
      ¬ AllAnswered (run World.step (.init {}) (duplicateAfter 23)) := by
  have calm : Along World.step (World.Meets Calm) (.init {}) (duplicateAfter 23) := by
    decide +kernel
  have ended : (run World.step (.init {}) (duplicateAfter 23)).frames = [] := by decide +kernel
  have acked : Obs.acked "2" "u2" .reReport ∈
      (run World.step (.init {}) (duplicateAfter 23)).history := by decide +kernel
  have unreached : ∀ x ∈ (run World.step (.init {}) (duplicateAfter 23)).history,
      reaches "u2" x = false := by decide +kernel
  refine ⟨calm, by decide +kernel, fun answered => ?_⟩
  obtain ⟨req, success, posted, -, here, -⟩ := answered ended "2" "u2" .reReport acked
  have missed := unreached _ posted
  simp [reaches, here] at missed

end HullCi.System
