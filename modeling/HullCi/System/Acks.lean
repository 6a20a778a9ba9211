/-
**What was acked is durable in orderly runs.**

An accept is acked for an undecided job once it has attached its destination to the record, taken a
snapshot and journalled it. Attach, snapshot and write are three sections, and the claim, the record
and the rollback of a refused creator are others; between any two of them another accept may run.

* `promised_new` — what an accept is promised at each of its points.
* `pledged_fires` — a step of an orderly run keeps every promise.
* `acks_durable` — in an orderly run an acked destination is in the journal until the entry is
  forgotten, and a rollback takes nothing an accept was acked on.
* `discarded_ack` — a duplicate acked before the record is filed is lost with the creator's refusal.
-/

import HullCi.System.Entries

namespace HullCi.System

open HullCi.Proto HullCi.Base HullCi.Control

/-! ### Promises -/

/-- The accept takes back what it did for `j`. -/
def rollingBack (j : JobId) : Frame → Bool
  | .accept a => match a.pc with
    | .rollbackRecord k => k = j
    | .rollbackLease k => k = j
    | .rollbackClaim k => k = j
    | _ => false
  | _ => false

/-- The accept is to take a snapshot of `j`. -/
def snapshotting (j : JobId) : Frame → Bool
  | .accept a => match a.pc with
    | .snapshot k _ => k = j
    | _ => false
  | _ => false

def attaches (j : JobId) : Obs → Bool
  | .attached k _ => k = j
  | _ => false

/-- The entry of `j` lists `url`, or its debt was paid. -/
def Held (w : World) (j : JobId) (url : String) : Prop :=
  .forgot j ∈ w.history ∨ ∃ e, w.control.journal.get j = some e ∧ url ∈ e.callbackUrls

/-- The record of `j` lists `url`. -/
def Filed (w : World) (j : JobId) (url : String) : Prop :=
  ∃ job, w.control.jobs.get j = some job ∧ url ∈ job.callbackUrls

/-- An accept has attached to `j`. -/
def Joined (w : World) (j : JobId) : Prop :=
  ∃ x ∈ w.history, attaches j x = true

/-- The creator of `j` has started its drive. -/
def Started (w : World) (j : JobId) : Prop :=
  j ∈ w.minted ∧ creators w j = 0

/-- What an accept with the destination `url` is promised at each of its points. -/
def Promised (w : World) (url : String) : AcceptAt → Prop
  | .foreign j _ => Joined w j
  | .snapshot j next => Filed w j url ∧ (next ≠ .drive → Joined w j)
  | .record intent next => url ∈ intent.callbackUrls ∧ (next ≠ .drive → Joined w intent.jobId)
  | .rollbackRecord j => ¬ Joined w j
  | .rollbackLease j => ¬ Joined w j
  | .rollbackClaim j => ¬ Joined w j
  | .start j next => (next ≠ .reReport → Held w j url) ∧ (next ≠ .drive → Joined w j)
  | .scan j next => (next ≠ .reReport → Held w j url) ∧ (Joined w j ∨ Started w j)
  | .drain j next _ _ => (next ≠ .reReport → Held w j url) ∧ (Joined w j ∨ Started w j)
  | _ => True

/-- **Every promise to an accept is kept**, and its ack as well. -/
structure Pledged (w : World) : Prop where
  accepts : ∀ a, .accept a ∈ w.frames → Promised w a.dispatch.callbackUrl a.pc
  acked : ∀ j url next, .acked j url next ∈ w.history →
    (next ≠ .reReport → Held w j url) ∧ (Joined w j ∨ Started w j)

/-! ### Orderly steps -/

/-- The records an eviction drops. -/
def evicts (c : Control) : Frame → List JobId
  | .accept a => match a.pc with
    | .evict => (c.jobs.evict a.now c.config.jobRetention c.config.maxJobs).2
    | _ => []
  | _ => []

/-- The job that the claim knew as undecided and an accept attaches to. -/
def joins : Frame → Option JobId
  | .accept a => match a.pc with
    | .attach j none => some j
    | _ => none
  | _ => none

/-- What the creator of a job is about to write. -/
def opens : Frame → Option JobIntent
  | .accept a => match a.pc with
    | .record intent .drive => some intent
    | _ => none
  | _ => none

/-- A snapshot about to be written lists every destination of the entry it replaces. -/
def Covers (c : Control) (intent : JobIntent) : Prop :=
  ∀ e ∈ c.journal.get intent.jobId, ∀ url ∈ e.callbackUrls, url ∈ intent.callbackUrls

instance (c : Control) (intent : JobIntent) : Decidable (Covers c intent) :=
  inferInstanceAs (Decidable (∀ e ∈ c.journal.get intent.jobId, _))

/-- A step that comes between no accept's attach, snapshot and write. -/
structure Orderly (w : World) (f : Frame) (env : Env) : Prop where
  /-- An eviction drops no record an accept is about to take a snapshot of. -/
  spares : ∀ j ∈ evicts w.control f, ∀ g ∈ w.frames, snapshotting j g = false
  /-- An accept that attaches finds the record, and nobody rolling it back. -/
  meets : ∀ j ∈ joins f, (w.control.jobs.get j).isSome = true ∧
    ∀ g ∈ w.frames, rollingBack j g = false
  /-- A write loses no destination. -/
  covers : env.journaled = true → ∀ intent ∈ writes f, Covers w.control intent
  /-- A creator is refused only before anyone has attached. -/
  alone : env.journaled = false → ∀ intent ∈ opens f, ∀ x ∈ w.history,
    attaches intent.jobId x = false

instance (w : World) (f : Frame) (env : Env) : Decidable (Orderly w f env) :=
  decidable_of_iff
    ((∀ j ∈ evicts w.control f, ∀ g ∈ w.frames, snapshotting j g = false) ∧
      (∀ j ∈ joins f, (w.control.jobs.get j).isSome = true ∧
        ∀ g ∈ w.frames, rollingBack j g = false) ∧
      (env.journaled = true → ∀ intent ∈ writes f, Covers w.control intent) ∧
      (env.journaled = false → ∀ intent ∈ opens f, ∀ x ∈ w.history,
        attaches intent.jobId x = false))
    ⟨fun ⟨spares, meets, covers, alone⟩ => ⟨spares, meets, covers, alone⟩,
      fun orderly => ⟨orderly.spares, orderly.meets, orderly.covers, orderly.alone⟩⟩

theorem rollingBack_creating {j : JobId} {f : Frame} (rolling : rollingBack j f = true) :
    creating j f = true := by
  cases f with
  | accept a =>
    unfold rollingBack at rolling
    dsimp only at rolling
    show creatingAt j a.pc = true
    split at rolling <;> simp_all [creatingAt]
  | _ => cases rolling

theorem Edit.keeps_urls {c : Control} {f : Frame} {o : Outcome} {j : JobId} {g : Job → Job}
    (edit : Edit c f o j g) {job : Job} {url : String} (listed : url ∈ job.callbackUrls) :
    url ∈ (g job).callbackUrls := by
  cases edit with
  | quiet quiet => exact (quiet job).callbackUrls ▸ listed
  | attached grows =>
    subst grows
    exact mem_addCallbackUrls.mpr (.inl listed)
  | taken sets =>
    subst sets
    exact listed
  | released clears =>
    subst clears
    exact listed
  | settled _ _ settles =>
    subst settles
    unfold settleReport
    rw [Job.tryTransitionAt_callbackUrls]
    exact listed
  | decided _ records =>
    subst records
    unfold recordVerdict
    dsimp only
    split
    · exact listed
    · rw [Job.tryTransitionAt_callbackUrls]
      exact listed

/-- Nobody has attached to a job that is being rolled back. -/
theorem Pledged.unjoined {w : World} (pledged : Pledged w) {j : JobId} {f : Frame}
    (member : f ∈ w.frames) (rolling : rollingBack j f = true) : ¬ Joined w j := by
  cases f with
  | accept a =>
    have alone := pledged.accepts a member
    unfold rollingBack at rolling
    dsimp only at rolling
    cases pc : a.pc with
    | rollbackRecord k =>
      simp only [pc, decide_eq_true_eq] at rolling
      rw [pc, rolling] at alone
      exact alone
    | rollbackLease k =>
      simp only [pc, decide_eq_true_eq] at rolling
      rw [pc, rolling] at alone
      exact alone
    | rollbackClaim k =>
      simp only [pc, decide_eq_true_eq] at rolling
      rw [pc, rolling] at alone
      exact alone
    | _ => simp [pc] at rolling
  | _ => cases rolling

section Step

variable {w w' : World} {env : Env} {f : Frame} {o : Outcome} {others : List Frame}

theorem Joined.grows (fires : World.Fires w env f o others w') {j : JobId} (joined : Joined w j) :
    Joined w' j := by
  obtain ⟨x, seen, attached⟩ := joined
  exact ⟨x, fires.seen.mpr (.inl seen), attached⟩

theorem Started.stays (fires : World.Fires w env f o others w') {j : JobId} (born : Born w j)
    (started : Started w j) : Started w' j := by
  obtain ⟨drawn, none⟩ := started
  refine ⟨fires.drawn drawn, ?_⟩
  by_contra making
  rcases ((born.creators_after fires).2 (by omega)).2 with before | mine
  · omega
  · exact fires.fresh (mine ▸ drawn)

theorem Held.stays (fires : World.Fires w env f o others w') (orderly : Orderly w f env)
    {j : JobId} {url : String} (held : Held w j url) : Held w' j url := by
  rcases held with forgot | ⟨e, found, listed⟩
  · exact .inl (fires.seen.mpr (.inl forgot))
  · unfold Held
    rw [fires.control]
    cases entry_move fires.stepped j with
    | same kept => exact .inr ⟨e, kept.trans found, listed⟩
    | @accepted a intent next pc own durable written =>
      subst own
      exact .inr ⟨intent, written, orderly.covers durable intent (by simp [writes, pc]) e found url listed⟩
    | @decided k intent own durable written =>
      subst own
      exact .inr ⟨intent, written, orderly.covers durable intent rfl e found url listed⟩
    | forgotten _ _ observed =>
      exact .inl (fires.seen.mpr (.inr (observed ▸ List.mem_singleton_self _)))

/-- A record listing the destination of an accept that is to take its snapshot keeps it. -/
theorem Filed.stays (fires : World.Fires w env f o others w') (orderly : Orderly w f env)
    {j : JobId} {url : String} (filed : Filed w j url) {g : Frame} (other : g ∈ others)
    (shooting : snapshotting j g = true)
    (kept : rollingBack j f = false) : Filed w' j url := by
  obtain ⟨job, found, listed⟩ := filed
  unfold Filed
  rw [fires.control]
  cases record_move fires.stepped j with
  | same kept => exact ⟨job, kept.trans found, listed⟩
  | touched touches mapped =>
    rw [found, Option.map_some] at mapped
    exact ⟨_, mapped, touches.edit.keeps_urls listed⟩
  | evicted pc _ _ dropped =>
    have spared := orderly.spares j (by simpa [evicts, pc] using dropped) g
      (fires.frames.mem_others other)
    rw [shooting] at spared
    cases spared
  | rolledBack pc => simp [rollingBack, pc] at kept
  | inserted _ absent => simp [absent] at found
  | foreign pc written =>
    rw [found, Option.getD_some] at written
    exact ⟨_, written, listed⟩

theorem Pledged.unjoined_after (pledged : Pledged w) (fires : World.Fires w env f o others w')
    (orderly : Orderly w f env) {j : JobId} (born : Born w j) {g : Frame} (member : g ∈ w.frames)
    (rolling : rollingBack j g = true) : ¬ Joined w' j := by
  rintro ⟨x, seen, attached⟩
  rcases fires.seen.mp seen with old | new
  · exact pledged.unjoined member rolling ⟨x, old, attached⟩
  · have making : 0 < creators w j :=
      List.countP_pos_iff.mpr ⟨g, member, rollingBack_creating rolling⟩
    have stranger := born.stranger fires making
    cases seen_move fires.stepped new with
    | @attached a k verdict pc =>
      obtain rfl : k = j := by simpa [attaches] using attached
      cases verdict with
      | none =>
        rw [(orderly.meets k (by simp [joins, pc])).2 g member] at rolling
        cases rolling
      | some v => simp [following, pc, answeringAt] at stranger
    | _ => cases attached

theorem promised_new (sound : Sound w) (pledged : Pledged w) (orderly : Orderly w f env)
    (fires : World.Fires w env f o others w') {a' : Accept}
    (member : Frame.accept a' ∈ o.push ++ o.spawned) :
    Promised w' a'.dispatch.callbackUrl a'.pc := by
  obtain ⟨a, rfl, move, own, pushed⟩ := leaves_accept fires.stepped member
  have present := fires.frames.mem_before
  have promised := pledged.accepts a present
  rw [own]
  dsimp only
  have held : ∀ {j}, Held w j a.dispatch.callbackUrl → Held w' j a.dispatch.callbackUrl :=
    fun held => held.stays fires orderly
  have known : ∀ {j}, (Joined w j ∨ Started w j) → Joined w' j ∨ Started w' j :=
    fun known => known.imp (Joined.grows fires) (Started.stays fires (sound.born _))
  have unjoined : ∀ {j}, rollingBack j (.accept a) = true → ¬ Joined w' j :=
    fun rolling => pledged.unjoined_after fires orderly (sound.born _) present rolling
  have attached : ∀ {j}, o.observed = [.attached j a.dispatch.callbackUrl] → Joined w' j :=
    fun observed => ⟨_, fires.seen.mpr (.inr (observed ▸ List.mem_singleton_self _)),
      by simp [attaches]⟩
  have control := fires.control
  cases move with
  | insertRecord pc =>
    obtain rfl := Frame.accept.inj (List.mem_singleton.mp pushed)
    rename_i j
    have absent := (sound.born j).unfiled a present (by rw [pc]; rfl)
    have fresh := JobStore.get_insert w.control.jobs j a.dispatch a.authorClass a.now
      w.control.config.timeouts.job j
    rw [if_pos rfl, absent, Option.getD_none] at fresh
    have filed : Filed w' j a.dispatch.callbackUrl :=
      ⟨_, (congrArg (·.jobs.get j) control).trans fresh, List.mem_singleton_self _⟩
    exact ⟨filed, fun other => absurd rfl other⟩
  | attachDecided pc =>
    obtain rfl := Frame.accept.inj (List.mem_singleton.mp pushed)
    exact ⟨fun other => absurd rfl other, fun _ => attached rfl⟩
  | attachLive pc found =>
    obtain rfl := Frame.accept.inj (List.mem_singleton.mp pushed)
    rename_i j verdict job live
    have filed : Filed w' j a.dispatch.callbackUrl :=
      ⟨_, (congrArg (·.jobs.get j) control).trans (get_withJobMut found),
        Job.mem_addCallbackUrl.mpr (.inr rfl)⟩
    exact ⟨filed, fun _ => attached rfl⟩
  | attachForeign pc =>
    obtain rfl := Frame.accept.inj (List.mem_singleton.mp pushed)
    exact attached rfl
  | attachElsewhere pc absent =>
    rename_i j
    have present := (orderly.meets j (by simp [joins, pc])).1
    simp [absent] at present
  | foreign pc =>
    obtain rfl := Frame.accept.inj (List.mem_singleton.mp pushed)
    rw [pc] at promised
    exact ⟨fun other => absurd rfl other, fun _ => promised.grows fires⟩
  | snapshotGone pc absent =>
    rw [pc] at promised
    obtain ⟨⟨job, found, -⟩, -⟩ := promised
    simp [absent] at found
  | snapshot pc found =>
    obtain rfl := Frame.accept.inj (List.mem_singleton.mp pushed)
    rw [pc] at promised
    obtain ⟨⟨job, found', listed⟩, joined⟩ := promised
    obtain rfl := Option.some.inj (found.symm.trans found')
    refine ⟨listed, fun other => ?_⟩
    show Joined w' (intentFrom _ none env.nowUnix).jobId
    rw [show (intentFrom _ none env.nowUnix).jobId = _ from JobStore.id_of_get found]
    exact (joined other).grows fires
  | recorded pc durable =>
    obtain rfl := Frame.accept.inj (List.mem_singleton.mp pushed)
    rw [pc] at promised
    refine ⟨fun _ => .inr ⟨_, ?_, promised.1⟩, fun other => (promised.2 other).grows fires⟩
    rw [control]
    exact (Journal.get_record _ _ _).trans (if_pos rfl)
  | recordRefused pc refused =>
    obtain rfl := Frame.accept.inj (List.mem_singleton.mp pushed)
    rintro ⟨x, seen, attached⟩
    rcases fires.seen.mp seen with old | new
    · rw [orderly.alone refused _ (by simp [opens, pc]) x old] at attached
      cases attached
    · cases new
  | rollbackRecord pc =>
    obtain rfl := Frame.accept.inj (List.mem_singleton.mp pushed)
    exact unjoined (by simp [rollingBack, pc])
  | rollbackLease pc =>
    obtain rfl := Frame.accept.inj (List.mem_singleton.mp pushed)
    exact unjoined (by simp [rollingBack, pc])
  | startDrive pc =>
    obtain rfl := Frame.accept.inj (List.mem_singleton.mp pushed)
    rename_i j
    rw [pc] at promised
    have creator : creating j (.accept a) = true := by simp [creating, pc, creatingAt]
    have making := creators_pos fires creator
    have balance := creators_fires fires (j := j)
    have mine : [Frame.accept a].countP (creating j) = 1 := by simp [creator]
    have left : (a.goto (.scan j .drive) ++ [Frame.drive j .start]).countP (creating j) = 0 := by
      simp [Accept.goto, creating, creatingAt]
    dsimp only at balance
    have single := (sound.born j).single
    refine ⟨fun other => held (promised.1 other), .inr ⟨?_, by omega⟩⟩
    by_contra undrawn
    rw [fires.minted, List.mem_cons, not_or] at undrawn
    have none := ((sound.born j).unheard undrawn.2).1
    omega
  | startReport pc =>
    obtain rfl := Frame.accept.inj (List.mem_singleton.mp pushed)
    rw [pc] at promised
    exact ⟨fun other => absurd rfl other, .inl ((promised.2 (by decide)).grows fires)⟩
  | startAttached pc notDrive notReport =>
    obtain rfl := Frame.accept.inj (List.mem_singleton.mp pushed)
    rw [pc] at promised
    exact ⟨fun other => held (promised.1 other), .inl ((promised.2 notDrive).grows fires)⟩
  | scan pc =>
    obtain rfl := Frame.accept.inj (List.mem_singleton.mp pushed)
    rw [pc] at promised
    exact ⟨fun other => held (promised.1 other), known promised.2⟩
  | drain pc =>
    obtain rfl := Frame.accept.inj (List.mem_singleton.mp pushed)
    rw [pc] at promised
    exact ⟨fun other => held (promised.1 other), known promised.2⟩
  | attachRefused => cases pushed
  | rollbackClaim => cases pushed
  | drained => cases pushed
  | _ =>
    obtain rfl := Frame.accept.inj (List.mem_singleton.mp pushed)
    trivial

/-- **A step of an orderly run keeps every promise.** -/
theorem pledged_fires (sound : Sound w) (pledged : Pledged w) (orderly : Orderly w f env)
    (fires : World.Fires w env f o others w') : Pledged w' := by
  have held : ∀ {j url}, Held w j url → Held w' j url := fun held => held.stays fires orderly
  have joined : ∀ {j}, Joined w j → Joined w' j := fun joined => joined.grows fires
  have known : ∀ {j}, (Joined w j ∨ Started w j) → Joined w' j ∨ Started w' j :=
    fun known => known.imp joined (Started.stays fires (sound.born _))
  refine ⟨fun a member => ?_, fun j url next seen => ?_⟩
  · rcases fires.frames.mem.mp member with new | other
    · exact promised_new sound pledged orderly fires new
    · have before := fires.frames.mem_others other
      have promised := pledged.accepts a before
      have unjoined : ∀ {j}, rollingBack j (.accept a) = true → ¬ Joined w' j :=
        fun rolling => pledged.unjoined_after fires orderly (sound.born _) before rolling
      cases pc : a.pc with
      | foreign j v =>
        rw [pc] at promised
        exact joined promised
      | snapshot j next =>
        rw [pc] at promised
        obtain ⟨filed, came⟩ := promised
        refine ⟨filed.stays fires orderly other (by simp [snapshotting, pc]) ?_,
          fun different => joined (came different)⟩
        -- A rollback of the job would be its creator's, and this accept is another one.
        by_contra rolling
        rw [Bool.not_eq_false] at rolling
        have creator := rollingBack_creating rolling
        by_cases drive : next = .drive
        · have mine : creating j (.accept a) = true := by simp [creating, pc, drive, creatingAt]
          rw [fires.frames.none_of_other (sound.born j).single other mine] at creator
          cases creator
        · exact pledged.unjoined fires.frames.mem_before rolling (came drive)
      | record intent next =>
        rw [pc] at promised
        exact ⟨promised.1, fun different => joined (promised.2 different)⟩
      | rollbackRecord j =>
        exact unjoined (by simp [rollingBack, pc])
      | rollbackLease j =>
        exact unjoined (by simp [rollingBack, pc])
      | rollbackClaim j =>
        exact unjoined (by simp [rollingBack, pc])
      | start j next =>
        rw [pc] at promised
        exact ⟨fun other => held (promised.1 other), fun other => joined (promised.2 other)⟩
      | scan j next =>
        rw [pc] at promised
        exact ⟨fun other => held (promised.1 other), known promised.2⟩
      | drain j next now due =>
        rw [pc] at promised
        exact ⟨fun other => held (promised.1 other), known promised.2⟩
      | _ => trivial
  · rcases fires.seen.mp seen with old | new
    · obtain ⟨holds, came⟩ := pledged.acked j url next old
      exact ⟨fun other => held (holds other), known came⟩
    · cases seen_move fires.stepped new with
      | acked pc =>
        rename_i a now
        have promised := pledged.accepts a fires.frames.mem_before
        rw [pc] at promised
        exact ⟨fun other => held (promised.1 other), known promised.2⟩

end Step

theorem pledged_init (config : ControlConfig) : Pledged (.init config) where
  accepts := fun _ member => by cases member
  acked := fun _ _ _ seen => by cases seen

theorem pledged_call {w : World} (call : Call) (pledged : Pledged w) :
    Pledged (w.step (.call call)) := by
  have frames := World.frames_call w call
  have same : ∀ j, creators (w.step (.call call)) j = creators w j := by
    intro j
    unfold creators
    rw [frames, List.countP_append]
    cases call <;> rfl
  have known : ∀ {j}, (Joined w j ∨ Started w j) →
      Joined (w.step (.call call)) j ∨ Started (w.step (.call call)) j :=
    fun known => known.imp id fun started => ⟨started.1, (same _).trans started.2⟩
  refine ⟨fun a member => ?_, fun j url next seen => ?_⟩
  · rw [frames] at member
    rcases List.mem_append.mp member with old | new
    · have promised := pledged.accepts a old
      cases pc : a.pc with
      | scan j next =>
        rw [pc] at promised
        exact ⟨promised.1, known promised.2⟩
      | drain j next now due =>
        rw [pc] at promised
        exact ⟨promised.1, known promised.2⟩
      | _ =>
        rw [pc] at promised
        exact promised
    · cases call with
      | accept dispatch authorClass now =>
        obtain rfl := Frame.accept.inj (List.mem_singleton.mp new)
        trivial
      | _ => cases List.mem_singleton.mp new
  · obtain ⟨holds, came⟩ := pledged.acked j url next seen
    exact ⟨holds, known came⟩

theorem pledged {config : ControlConfig} {labels : List Label}
    (orderly : Along World.step (World.Meets Orderly) (.init config) labels) :
    Pledged (run World.step (.init config) labels) :=
  World.invariant_over (fun _ call => pledged_call call)
    (fun _ _ _ _ _ _ sound pledged orderly fires => pledged_fires sound pledged orderly fires)
    (fun labels => sound config labels) (pledged_init config) orderly

/-- An ack for an undecided job is durable, and no rollback takes what an accept was acked on. -/
def AcksDurable (w : World) : Prop :=
  (∀ j url next, .acked j url next ∈ w.history → next ≠ .reReport → .forgot j ∉ w.history →
    (∃ e, w.control.journal.get j = some e ∧ url ∈ e.callbackUrls) ∧
    ∀ policy answers, ∃ sent ∈ (recover policy answers w.control.journal).2,
      sent.jobId = j ∧ sent.url = url) ∧
  ∀ j f, f ∈ w.frames → rollingBack j f = true → ∀ url next, .acked j url next ∉ w.history

/-- **What was acked is durable in an orderly run.** -/
theorem acks_durable {config : ControlConfig} {labels : List Label}
    (orderly : Along World.step (World.Meets Orderly) (.init config) labels) :
    AcksDurable (run World.step (.init config) labels) := by
  have pledged := pledged orderly
  constructor
  · intro j url next seen undecided owed
    rcases (pledged.acked j url next seen).1 undecided with forgot | ⟨e, found, listed⟩
    · exact absurd forgot owed
    · refine ⟨⟨e, found, listed⟩, fun policy answers => ?_⟩
      obtain ⟨sent, member, own, dest, -⟩ := recover_answers policy answers found listed
      exact ⟨sent, member, own, dest⟩
  · intro j f member rolling url next seen
    have making : 0 < creators (run World.step (.init config) labels) j :=
      List.countP_pos_iff.mpr ⟨f, member, rollingBack_creating rolling⟩
    rcases (pledged.acked j url next seen).2 with joined | ⟨-, none⟩
    · exact pledged.unjoined member rolling joined
    · omega

/-- Two dispatches of one tree, the second after the first was journalled. -/
def orderlyRun : List Label :=
  [.call (.accept (dispatchTo "u1") .member 0)] ++ Label.steps 0 0 10
    ++ [.call (.accept (dispatchTo "u2") .member 0)] ++ Label.steps 2 10 9

theorem acks_durable_orderly :
    Along World.step (World.Meets Orderly) (.init {}) orderlyRun ∧
      AcksDurable (run World.step (.init {}) orderlyRun) := by
  have orderly : Along World.step (World.Meets Orderly) (.init {}) orderlyRun := by
    decide +kernel
  exact ⟨orderly, acks_durable orderly⟩

/-- The second dispatch attaches between the claim of the first and its record; the journal then
refuses the first. -/
def discardedRun : List Label :=
  [.call (.accept (dispatchTo "u1") .member 0)] ++ Label.steps 0 0 3
    ++ [.call (.accept (dispatchTo "u2") .member 0)] ++ Label.steps 1 10 8
    ++ Label.steps 0 20 3 ++ Label.steps 0 30 1 fun env => { env with journaled := false }

/-- A duplicate acked before the record is filed is in no journal, and its claim is rolled back. -/
theorem discarded_ack : ¬ AcksDurable (run World.step (.init {}) discardedRun) := by
  rintro ⟨durable, -⟩
  have acked : Obs.acked "2" "u2" .attachedElsewhere ∈
      (run World.step (.init {}) discardedRun).history := by decide +kernel
  have owed : Obs.forgot "2" ∉ (run World.step (.init {}) discardedRun).history := by
    decide +kernel
  have lost : (run World.step (.init {}) discardedRun).control.journal.get "2" = none := by
    decide +kernel
  obtain ⟨⟨e, found, -⟩, -⟩ := durable "2" "u2" .attachedElsewhere acked (by decide) owed
  rw [lost] at found
  cases found

end HullCi.System
