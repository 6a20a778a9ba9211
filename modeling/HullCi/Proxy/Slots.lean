/-
**A slot that is over stays over.**

One thread at a time has a slot's lock, from the reading of its state to the writing.

* `Stage`, `Kept` — how far each thread is, and what it has read.
* `SlotsStayOver`, `OverUntilRegistered` — a slot whose redemption failed, or whose values are gone,
  returns no value, until its job is registered anew.
* `break_glass_reaches_held` — all of it, of every run.
-/

import HullCi.Proxy.Glass
import HullCi.Secrets.Delivery

namespace HullCi.Proxy

open HullCi.Base HullCi.Base.Program
open HullCi.Secrets

/-! ### The lock of a slot -/

/-- The value of a secret was returned. -/
def Outcome.Yields : Outcome → Prop
  | .credential (.ok _) => True
  | _ => False

/-- Neither takes nor gives back a lock. -/
def DeskCall.Plain : DeskCall → Prop
  | .lock _ | .unlock .. => False
  | _ => True

/-- The lock was given back: there is only what is returned, and no value if the redemption had
failed or what was held was gone. -/
def Finished (state : JobState) : DeskProg Outcome → Prop
  | .done outcome => state.Over → ¬ outcome.Yields
  | .fail _ => True
  | .call .. => False

/-- The lock is held, and the state was read: it is written back once, and stays over if it is. -/
def Holding (id : ℕ) (state : JobState) : DeskProg Outcome → Prop
  | .done outcome => ¬ outcome.Yields
  | .fail _ => True
  | .call (.lock _) _ => False
  | .call (.unlock id' state') next =>
    id' = id ∧ (state.Over → state'.Over) ∧ ∀ answer, Finished state (next answer)
  | .call _ next => ∀ answer, Holding id state (next answer)

/-- No lock has been taken, and no value is returned without. -/
def Waiting : DeskProg Outcome → Prop
  | .done outcome => ¬ outcome.Yields
  | .fail _ => True
  | .call (.lock id) next => ∀ state, Holding id state (next state)
  | .call (.unlock ..) _ => False
  | .call _ next => ∀ answer, Waiting (next answer)

theorem holding_plain {id : ℕ} {state : JobState} {op : DeskCall}
    {next : DeskAnswer op → DeskProg Outcome} (plain : op.Plain) :
    Holding id state (.call op next) ↔ ∀ answer, Holding id state (next answer) := by
  cases op with
  | lock id => exact plain.elim
  | unlock id state => exact plain.elim
  | _ => exact Iff.rfl

theorem waiting_plain {op : DeskCall} {next : DeskAnswer op → DeskProg Outcome} (plain : op.Plain) :
    Waiting (.call op next) ↔ ∀ answer, Waiting (next answer) := by
  cases op with
  | lock id => exact plain.elim
  | unlock id state => exact plain.elim
  | _ => exact Iff.rfl

/-- Every call is a plain one. -/
abbrev PlainProg {A : Type} (p : DeskProg A) : Prop :=
  p.Every fun op _ => op.Plain

theorem plain_inBroker {A : Type} (p : BrokerProg A) : PlainProg (inBroker p) := by
  induction p with
  | done value => trivial
  | fail error => trivial
  | call op next ih => exact ⟨trivial, fun answer => ih answer⟩

theorem plain_attempt {A : Type} {p : DeskProg A} (plain : PlainProg p) : PlainProg p.attempt := by
  induction p with
  | done value => trivial
  | fail error => trivial
  | call op next ih => exact ⟨plain.1, fun answer => ih answer (plain.2 answer)⟩

theorem holding_bind {A : Type} {id : ℕ} {state : JobState} {p : DeskProg A}
    {f : A → DeskProg Outcome} (plain : PlainProg p) (rest : ∀ a, Holding id state (f a)) :
    Holding id state (p >>= f) := by
  induction p with
  | done value => exact rest value
  | fail error => trivial
  | call op next ih =>
    exact (holding_plain plain.1).mpr fun answer => ih answer (plain.2 answer)

theorem waiting_bind {A : Type} {p : DeskProg A} {f : A → DeskProg Outcome} (plain : PlainProg p)
    (rest : ∀ a, Waiting (f a)) : Waiting (p >>= f) := by
  induction p with
  | done value => exact rest value
  | fail error => trivial
  | call op next ih =>
    exact (waiting_plain plain.1).mpr fun answer => ih answer (plain.2 answer)

/-- What is read over stays what it is, through the lookup's two halves. -/
theorem holding_slot {set : Setting} {identity : ProxyIdentity} {tenant jobId : String} {id : ℕ}
    {state : JobState} {f : JobState → DeskProg Outcome}
    (rest : ∀ left, (state.Over → left = state) → Holding id state (f left)) :
    Holding id state (BrokeredCredentials.redeem set identity tenant jobId state >>= fun spent =>
      BrokeredCredentials.reassert set identity tenant jobId spent >>= f) := by
  have asserts : ∀ spent, (state.Over → spent = state) → Holding id state
      (BrokeredCredentials.reassert set identity tenant jobId spent >>= f) := by
    intro spent same
    cases spent with
    | held token values =>
      have live : ¬ state.Over := fun gone => by
        rw [← same gone] at gone
        exact gone
      unfold BrokeredCredentials.reassert
      rw [bind_assoc]
      refine holding_bind (plain_attempt (plain_inBroker _)) fun result => ?_
      cases result with
      | ok _ => exact rest _ fun gone => absurd gone live
      | error e => exact rest _ fun gone => absurd gone live
    | _ => exact rest _ same
  cases state with
  | pending token =>
    unfold BrokeredCredentials.redeem
    show Holding id _ (.call (.broker .now) _)
    intro now nonce
    show Holding id _ ((Program.attempt _ >>= _) >>= _)
    rw [bind_assoc]
    refine holding_bind (plain_attempt (plain_inBroker _)) fun result => ?_
    cases result with
    | error e => exact asserts _ nofun
    | ok delivered =>
      show Holding id _ ((if _ then _ else _) >>= _)
      split
      · exact asserts _ nofun
      · exact asserts _ nofun
  | _ => exact asserts _ fun _ => rfl

theorem waiting_credential (set : Setting) (identity : ProxyIdentity) (req : CredentialRequest) :
    Waiting (BrokeredCredentials.credential set identity req >>= fun answer =>
      .done (.credential answer)) := by
  unfold BrokeredCredentials.credential
  show Waiting (.call (.slot req.jobId) _)
  intro found
  cases found with
  | none => exact id
  | some pair =>
    obtain ⟨id, tenant⟩ := pair
    show Waiting ((if _ then _ else _) >>= _)
    split
    · exact fun yields => yields
    show Waiting (.call (.lock id) _)
    intro state
    show Holding id state
      ((BrokeredCredentials.redeem set identity tenant req.jobId state >>= fun spent =>
      BrokeredCredentials.reassert set identity tenant req.jobId spent >>= fun left =>
        Program.call (.unlock id left) fun _ => .done (BrokeredCredentials.answer req left)) >>= _)
    rw [bind_assoc]
    simp only [bind_assoc]
    refine holding_slot fun left same => ⟨rfl, fun gone => ?_, fun _ gone => ?_⟩
    · rw [same gone]
      exact gone
    · rw [same gone]
      cases state with
      | failed detail => exact fun yields => yields
      | invalidated detail => exact fun yields => yields
      | _ => cases gone

theorem waiting_body (set : Setting) (identity : ProxyIdentity) (errand : Errand) :
    Waiting (errand.body set identity) := by
  cases errand with
  | credential req => exact waiting_credential set identity req
  | provisionTenant tenant =>
    intro answer
    cases answer with
    | ok version => exact id
    | error e => trivial
  | withdraw proxyId => exact fun _ => id
  | authoriseJob tenant jobId capability => exact fun _ => id
  | denyJob tenant jobId reason => exact fun _ => id
  | releaseJob jobId => exact fun _ => id
  | _ => exact waiting_bind (plain_inBroker _) fun _ => id

/-! ### Who has a lock -/

/-- How far a thread is with its lookup. -/
inductive Stage where
  | waiting
  | holding (id : ℕ) (state : JobState)
  | finished (id : ℕ) (state : JobState)

/-- What is left of the thread's program, by its stage. -/
def Stage.Fits : Stage → DeskProg Outcome → Prop
  | .waiting => Waiting
  | .holding id state => Holding id state
  | .finished _ state => Finished state

/-- The threads are at their stages: what each read is in the ledger, and a slot whose lock is held
is as its one holder read it. -/
structure Kept (p : Visitors) (stages : ℕ → Stage) : Prop where
  fits : ∀ (i : ℕ) r program, p.threads[i]? = some (r, program) → (stages i).Fits program
  locks : ∀ i r id state, ⟨⟨i, r⟩, .lock id, state⟩ ∈ p.shared.log →
    stages i = .holding id state ∨ stages i = .finished id state
  slots : ∀ i id state, stages i = .holding id state →
    ∃ slot, p.shared.state.slots[id]? = some slot ∧ slot.state = state ∧ slot.locked = true
  alone : ∀ i j id state state', stages i = .holding id state → stages j = .holding id state' → i = j
  idle : ∀ i, p.threads.length ≤ i → stages i = .waiting

/-- The redemption of the slot was refused, or what it held is gone. -/
def OverAt (s : Ledger) (id : ℕ) : Prop :=
  ∃ slot, s.state.slots[id]? = some slot ∧ slot.state.Over

section Locks

variable {set : Setting} {identity : ProxyIdentity} {p : Visitors} {stages : ℕ → Stage}

theorem slots_plain {op : DeskCall} (plain : op.Plain) (s : Desk) (input : DeskInput) {id : ℕ}
    {slot : JobSlot} (here : s.slots[id]? = some slot) :
    (performDesk set.cipher s input op).1.slots[id]? = some slot := by
  cases op with
  | lock id => exact plain.elim
  | unlock id state => exact plain.elim
  | put tenant jobId state =>
    show (s.slots ++ _)[id]? = _
    rw [List.getElem?_append_left (List.getElem?_eq_some_iff.mp here).1]
    exact here
  | _ => exact here

/-- A thread that has come to a section is waiting, or holds a lock. -/
theorem Kept.stage_cases (kept : Kept p stages) {thread : ℕ} {r : Errand} {op : DeskCall}
    {next : DeskAnswer op → DeskProg Outcome}
    (here : p.threads[thread]? = some (r, .call op next)) :
    (stages thread = .waiting ∧ Waiting (.call op next)) ∨
      ∃ id state, stages thread = .holding id state ∧ Holding id state (.call op next) := by
  have fits := kept.fits thread r _ here
  cases stage : stages thread with
  | waiting =>
    rw [stage] at fits
    exact .inl ⟨rfl, fits⟩
  | holding id state =>
    rw [stage] at fits
    exact .inr ⟨id, state, rfl, fits⟩
  | finished id state =>
    rw [stage] at fits
    exact fits.elim

theorem fits_update {stages : ℕ → Stage} {threads : List (Errand × DeskProg Outcome)} {thread : ℕ}
    {r : Errand} {program : DeskProg Outcome} {stage : Stage}
    (fits : ∀ (i : ℕ) r program, threads[i]? = some (r, program) → (stages i).Fits program)
    (own : stage.Fits program) :
    ∀ (i : ℕ) r' program', (threads.set thread (r, program))[i]? = some (r', program') →
      (Function.update stages thread stage i).Fits program' := by
  intro i r' program' here
  rw [List.getElem?_set] at here
  by_cases mine : thread = i
  · subst mine
    rw [Function.update_self]
    rw [if_pos rfl] at here
    split at here
    · cases here
      exact own
    · cases here
  · rw [if_neg mine] at here
    rw [Function.update_of_ne (Ne.symm mine)]
    exact fits i r' program' here

theorem kept_lock (kept : Kept p stages) {thread id : ℕ} {r : Errand} {input : DeskInput}
    {slot : JobSlot} {program : DeskProg Outcome} (within : thread < p.threads.length)
    (slots : p.shared.state.slots[id]? = some slot) (free : slot.locked = false)
    (stage : stages thread = .waiting)
    (read : (performDesk set.cipher p.shared.state input (.lock id)).2 = slot.state)
    (own : Holding id slot.state program) :
    ∃ stages', Kept ⟨filed set p.shared ⟨thread, r⟩ input (.lock id), p.threads.set thread (r, program)⟩
        stages' ∧
      ∀ id', OverAt p.shared id' → OverAt (filed set p.shared ⟨thread, r⟩ input (.lock id)) id' := by
  have after : ∀ id', (filed set p.shared ⟨thread, r⟩ input (.lock id)).state.slots[id']? =
      if id = id' then (p.shared.state.slots[id']?).map fun slot => { slot with locked := true }
      else p.shared.state.slots[id']? := slots_write _ _ _
  have others : ∀ i state, stages i ≠ .holding id state := fun i state holds => by
    obtain ⟨slot', here, _, locked⟩ := kept.slots i id state holds
    rw [slots] at here
    cases here
    rw [free] at locked
    cases locked
  refine ⟨Function.update stages thread (.holding id slot.state),
    ⟨fits_update kept.fits own, ?_, ?_, ?_, ?_⟩, ?_⟩
  · intro i r' id' state member
    obtain new | older := List.mem_cons.mp member
    · injection new with callers ops answers
      cases callers
      cases ops
      have state : state = slot.state := answers.trans read
      rw [Function.update_self, state]
      exact .inl rfl
    · have before := kept.locks i r' id' state older
      by_cases mine : i = thread
      · rw [mine, stage] at before
        obtain no | no := before
        · cases no
        · cases no
      · rwa [Function.update_of_ne mine]
  · intro i id' state holds
    by_cases mine : i = thread
    · rw [mine, Function.update_self] at holds
      cases holds
      refine ⟨{ slot with locked := true }, ?_, rfl, rfl⟩
      rw [after, if_pos rfl, slots]
      rfl
    · rw [Function.update_of_ne mine] at holds
      obtain ⟨slot', here, rest⟩ := kept.slots i id' state holds
      have other : id ≠ id' := fun same => others i state (same ▸ holds)
      refine ⟨slot', ?_, rest⟩
      rw [after, if_neg other]
      exact here
  · intro i j id' state state' holds holds'
    by_cases mine : i = thread
    · by_cases mine' : j = thread
      · rw [mine, mine']
      · rw [mine, Function.update_self] at holds
        rw [Function.update_of_ne mine'] at holds'
        cases holds
        exact absurd holds' (others j state')
    · rw [Function.update_of_ne mine] at holds
      by_cases mine' : j = thread
      · rw [mine', Function.update_self] at holds'
        cases holds'
        exact absurd holds (others i state)
      · rw [Function.update_of_ne mine'] at holds'
        exact kept.alone i j id' state state' holds holds'
  · intro i beyond
    have beyond : p.threads.length ≤ i := by simpa using beyond
    rw [Function.update_of_ne (by omega)]
    exact kept.idle i beyond
  · rintro id' ⟨slot', here, gone⟩
    by_cases same : id = id'
    · refine ⟨{ slot' with locked := true }, ?_, gone⟩
      rw [after, if_pos same, here]
      rfl
    · refine ⟨slot', ?_, gone⟩
      rw [after, if_neg same]
      exact here

theorem kept_unlock (kept : Kept p stages) {thread id : ℕ} {r : Errand} {input : DeskInput}
    {state left : JobState} {program : DeskProg Outcome} (within : thread < p.threads.length)
    (stage : stages thread = .holding id state) (stays : state.Over → left.Over)
    (own : Finished state program) :
    ∃ stages', Kept ⟨filed set p.shared ⟨thread, r⟩ input (.unlock id left),
        p.threads.set thread (r, program)⟩ stages' ∧
      ∀ id', OverAt p.shared id' →
        OverAt (filed set p.shared ⟨thread, r⟩ input (.unlock id left)) id' := by
  have after : ∀ id', (filed set p.shared ⟨thread, r⟩ input (.unlock id left)).state.slots[id']? =
      if id = id' then
        (p.shared.state.slots[id']?).map fun slot => { slot with state := left, locked := false }
      else p.shared.state.slots[id']? := slots_write _ _ _
  refine ⟨Function.update stages thread (.finished id state),
    ⟨fits_update kept.fits own, ?_, ?_, ?_, ?_⟩, ?_⟩
  · intro i r' id' state' member
    obtain new | older := List.mem_cons.mp member
    · injection new with _ ops _
      cases ops
    · have before := kept.locks i r' id' state' older
      by_cases mine : i = thread
      · rw [mine, stage] at before
        rw [mine, Function.update_self]
        obtain same | no := before
        · cases same
          exact .inr rfl
        · cases no
      · rwa [Function.update_of_ne mine]
  · intro i id' state' holds
    by_cases mine : i = thread
    · rw [mine, Function.update_self] at holds
      cases holds
    · rw [Function.update_of_ne mine] at holds
      have other : id ≠ id' := fun same =>
        mine (kept.alone i thread id' state' state holds (same ▸ stage))
      obtain ⟨slot', here, rest⟩ := kept.slots i id' state' holds
      refine ⟨slot', ?_, rest⟩
      rw [after, if_neg other]
      exact here
  · intro i j id' state₁ state₂ holds holds'
    by_cases mine : i = thread
    · rw [mine, Function.update_self] at holds
      cases holds
    · by_cases mine' : j = thread
      · rw [mine', Function.update_self] at holds'
        cases holds'
      · rw [Function.update_of_ne mine] at holds
        rw [Function.update_of_ne mine'] at holds'
        exact kept.alone i j id' state₁ state₂ holds holds'
  · intro i beyond
    have beyond : p.threads.length ≤ i := by simpa using beyond
    rw [Function.update_of_ne (by omega)]
    exact kept.idle i beyond
  · rintro id' ⟨slot', here, gone⟩
    by_cases same : id = id'
    · subst same
      obtain ⟨slot₀, here₀, read, _⟩ := kept.slots thread id state stage
      rw [here] at here₀
      cases here₀
      refine ⟨{ slot' with state := left, locked := false }, ?_, stays (read ▸ gone)⟩
      rw [after, if_pos rfl, here]
      rfl
    · refine ⟨slot', ?_, gone⟩
      rw [after, if_neg same]
      exact here

/-- **The step lemma.** One turn takes the threads from stage to stage, and a slot that is over
stays so. -/
theorem kept_step (kept : Kept p stages) {t : Turn Errand DeskInput}
    (admits : Visitors.Admits set p t) : ∃ stages', Kept (Visitors.step set identity p t) stages' ∧
      ∀ id, OverAt p.shared id → OverAt (Visitors.step set identity p t).shared id := by
  unfold Visitors.step
  obtain ⟨r, rfl, started⟩ | ⟨thread, input, r, op, next, rfl, here, turned⟩ | same :=
    Pool.step_cases (traced (performDesk set.cipher)) (Errand.body set identity) p t
  · rw [started]
    refine ⟨stages, ⟨fun i r' program here => ?_, kept.locks, kept.slots, kept.alone,
      fun i beyond => kept.idle i ?_⟩, fun _ gone => gone⟩
    · have here : (p.threads ++ [(r, Errand.body set identity r)])[i]? = some (r', program) := here
      by_cases old : i < p.threads.length
      · rw [List.getElem?_append_left old] at here
        exact kept.fits i r' program here
      · rw [kept.idle i (by omega)]
        rw [List.getElem?_append_right (by omega)] at here
        obtain ⟨_, new⟩ := List.getElem?_eq_some_iff.mp here
        cases List.mem_singleton.mp (List.mem_of_getElem? here)
        exact waiting_body set identity r
    · simp only [List.length_append, List.length_singleton] at beyond
      omega
  · have due : Due p.shared op := admits r op next here
    have within : thread < p.threads.length := (List.getElem?_eq_some_iff.mp here).1
    rw [turned]
    by_cases plain : op.Plain
    · have own : (stages thread).Fits (next (performDesk set.cipher p.shared.state input op).2) := by
        obtain ⟨stage, waits⟩ | ⟨id, state, stage, holds⟩ := kept.stage_cases here
        · rw [stage]
          exact (waiting_plain plain).mp waits _
        · rw [stage]
          exact (holding_plain plain).mp holds _
      refine ⟨stages, ⟨?_, ?_, ?_, kept.alone, fun i beyond => kept.idle i ?_⟩, ?_⟩
      · have fits := @fits_update stages p.threads thread r _ _ kept.fits own
        rwa [Function.update_eq_self] at fits
      · intro i r' id state member
        obtain new | older := List.mem_cons.mp member
        · injection new with _ ops _
          subst ops
          exact plain.elim
        · exact kept.locks i r' id state older
      · intro i id state stage
        obtain ⟨slot, slots, rest⟩ := kept.slots i id state stage
        exact ⟨slot, slots_plain plain _ _ slots, rest⟩
      · simpa using beyond
      · rintro id ⟨slot, slots, gone⟩
        exact ⟨slot, slots_plain plain _ _ slots, gone⟩
    · cases op with
      | lock id =>
        obtain ⟨slot, slots, free⟩ := due
        have slots : p.shared.state.slots[id]? = some slot := slots
        obtain ⟨stage, waits⟩ | ⟨_, _, _, holds⟩ := kept.stage_cases here
        · have read : (performDesk set.cipher p.shared.state input (.lock id)).2 = slot.state := by
            show ((p.shared.state.slots[id]?).map JobSlot.state).getD _ = _
            rw [slots]
            rfl
          exact kept_lock kept within slots free stage read (read ▸ waits _)
        · exact holds.elim
      | unlock id state =>
        obtain ⟨_, waits⟩ | ⟨id', state', stage, rfl, stays, finishes⟩ := kept.stage_cases here
        · exact waits.elim
        · exact kept_unlock kept within stage stays (finishes _)
      | _ => exact absurd trivial plain
  · rw [same]
    exact ⟨stages, kept, fun _ gone => gone⟩

theorem kept_run {turns : List (Turn Errand DeskInput)} (kept : Kept p stages)
    (along : Along (Visitors.step set identity) (Visitors.Admits set) p turns) :
    ∃ stages', Kept (run (Visitors.step set identity) p turns) stages' ∧
      ∀ id, OverAt p.shared id → OverAt (run (Visitors.step set identity) p turns).shared id := by
  induction turns generalizing p stages with
  | nil => exact ⟨stages, kept, fun _ gone => gone⟩
  | cons t turns ih =>
    obtain ⟨stages₁, kept₁, over₁⟩ : ∃ stages', Kept (Visitors.step set identity p t) stages' ∧
      ∀ id, OverAt p.shared id → OverAt (Visitors.step set identity p t).shared id :=
      kept_step kept along.1
    obtain ⟨stages₂, kept₂, over₂⟩ := ih kept₁ along.2
    exact ⟨stages₂, kept₂, fun id gone => over₂ id (over₁ id gone)⟩

variable {enrolled : Family → NodeRegistry}

theorem kept_start : Kept (Visitors.start enrolled) fun _ => .waiting where
  fits i r program here := by cases here
  locks i r id state member := by cases member
  slots i id state holds := by cases holds
  alone i j id state state' holds := by cases holds
  idle i beyond := rfl

theorem finished_ended {state : JobState} {program : DeskProg Outcome}
    (finished : Finished state program) : ∀ op next, program ≠ .call op next := by
  rintro op next rfl
  exact finished

theorem ended_run (turns : List (Turn Errand DeskInput)) {i : ℕ} {r : Errand}
    {program : DeskProg Outcome} (here : p.threads[i]? = some (r, program))
    (ended : ∀ op next, program ≠ .call op next) :
    (run (Visitors.step set identity) p turns).threads[i]? = some (r, program) :=
  run_invariant (I := fun p : Visitors => p.threads[i]? = some (r, program))
    (fun _ t here => Pool.ended_step t here ended) here turns

/-- A slot that is over returns no value any more: whoever took its lock and returns one had returned
it before. -/
def SlotsStayOver (set : Setting) (identity : ProxyIdentity) (enrolled : Family → NodeRegistry)
    (turns : List (Turn Errand DeskInput)) : Prop :=
  ∀ front back id, turns = front ++ back →
    OverAt (Visitors.after set identity enrolled front).shared id →
    ∀ i req value state,
      (Visitors.after set identity enrolled turns).outcome i =
        some (.credential req, .ok (.credential (.ok value))) →
      ⟨⟨i, .credential req⟩, .lock id, state⟩ ∈
        (Visitors.after set identity enrolled turns).shared.log →
      (Visitors.after set identity enrolled front).outcome i =
        some (.credential req, .ok (.credential (.ok value)))

theorem slotsStayOver_after {turns : List (Turn Errand DeskInput)}
    (along : Along (Visitors.step set identity) (Visitors.Admits set) (.start enrolled) turns) :
    SlotsStayOver set identity enrolled turns := by
  rintro front back id rfl gone i req value state ended locked
  obtain ⟨before, since⟩ := along_append.mp along
  obtain ⟨stages₁, kept₁, _⟩ := kept_run kept_start before
  obtain ⟨stages₂, kept₂, _⟩ := kept_run kept₁ since
  rw [show Visitors.after set identity enrolled (front ++ back) = _ from run_append _ _ _ _]
    at ended locked
  have here := Pool.outcome_ok.mp ended
  -- the thread is done with its lookup, so what it read was not over
  have live : ¬ state.Over := by
    have fits := kept₂.fits i _ _ here
    obtain holds | finished := kept₂.locks i _ id state locked
    · rw [holds] at fits
      exact absurd trivial fits
    · rw [finished] at fits
      exact fun gone => fits gone trivial
  have always : ∀ front' back', back = front' ++ back' →
      OverAt (run (Visitors.step set identity) (Visitors.after set identity enrolled front)
        front').shared id := by
    rintro front' back' rfl
    obtain ⟨_, _, stays⟩ := kept_run kept₁ (along_append.mp since).1
    exact stays id gone
  obtain older | ⟨s, input, ⟨slot, slots, gone'⟩, answers⟩ :=
    entry_since (fun s => OverAt s id) always _ locked
  · -- it had its lock before, and held it no more
    obtain holds | finished := kept₁.locks i _ id state older
    · obtain ⟨slot, slots, gone'⟩ := gone
      obtain ⟨slot', slots', same, _⟩ := kept₁.slots i id state holds
      rw [slots] at slots'
      cases slots'
      exact absurd (same ▸ gone') live
    · obtain ⟨program, there⟩ := serving_of_entry older
      have fits := kept₁.fits i _ _ there
      rw [finished] at fits
      have stays : (run (Visitors.step set identity) (Visitors.after set identity enrolled front)
          back).threads[i]? = some (.credential req, program) :=
        ended_run back there (finished_ended fits)
      rw [here] at stays
      cases stays
      exact Pool.outcome_ok.mpr there
  · have answers : state = ((s.state.slots[id]?).map JobSlot.state).getD (.failed "") := answers
    rw [slots] at answers
    exact absurd (answers ▸ gone' : state.Over) live

/-! ### Registering anew -/

/-- The job was registered among the sections. -/
def Registers (jobId : String) (log : List (Entry Errand DeskAnswer)) : Prop :=
  ∃ caller tenant state, ⟨caller, .put tenant jobId state, ()⟩ ∈ log

/-- Since `s₀` the job was registered anew, or has no other slot. -/
def Unmoved (s₀ : Ledger) (jobId : String) (id : ℕ) (s : Ledger) : Prop :=
  ∃ new, s.log = new ++ s₀.log ∧
    (Registers jobId new ∨ ∀ id', s.state.jobs.lookup jobId = some id' → id' = id)

theorem unmoved_filed {s₀ s : Ledger} {jobId : String} {id : ℕ} {caller : Caller Errand}
    {input : DeskInput} {op : DeskCall} (unmoved : Unmoved s₀ jobId id s) :
    Unmoved s₀ jobId id (filed set s caller input op) := by
  obtain ⟨new, grown, registers | only⟩ := unmoved
  · obtain ⟨caller', tenant, state, member⟩ := registers
    refine ⟨⟨caller, op, (performDesk set.cipher s.state input op).2⟩ :: new, ?_,
      .inl ⟨caller', tenant, state, List.mem_cons_of_mem _ member⟩⟩
    exact congrArg _ grown
  · refine ⟨⟨caller, op, (performDesk set.cipher s.state input op).2⟩ :: new, congrArg _ grown, ?_⟩
    cases op with
    | put tenant jobId' state =>
      by_cases same : jobId' = jobId
      · subst same
        exact .inl ⟨caller, tenant, state, List.mem_cons_self⟩
      · refine .inr fun id' found => only id' ?_
        have found : (s.state.jobs.insert jobId' s.state.slots.length).lookup jobId = some id' := found
        rwa [Table.lookup_insert, if_neg (Ne.symm same)] at found
    | remove jobId' =>
      refine .inr fun id' found => only id' ?_
      have found : (s.state.jobs.erase jobId').lookup jobId = some id' := found
      rw [Table.lookup_erase] at found
      split at found
      · cases found
      · exact found
    | _ => exact .inr only

theorem unmoved_run {s₀ : Ledger} {jobId : String} {id : ℕ} (turns : List (Turn Errand DeskInput))
    (unmoved : Unmoved s₀ jobId id p.shared) :
    Unmoved s₀ jobId id (run (Visitors.step set identity) p turns).shared := by
  refine run_invariant (I := fun p : Visitors => Unmoved s₀ jobId id p.shared)
    (fun p t unmoved => ?_) unmoved turns
  unfold Visitors.step
  obtain ⟨r, rfl, started⟩ | ⟨thread, input, r, op, next, rfl, _, turned⟩ | same :=
    Pool.step_cases (traced (performDesk set.cipher)) (Errand.body set identity) p t
  · rw [started]
    exact unmoved
  · rw [turned]
    exact unmoved_filed unmoved
  · rw [same]
    exact unmoved

/-- A lookup that starts when the slot of its job is over returns a value only where the job was
registered anew since. -/
def OverUntilRegistered (set : Setting) (identity : ProxyIdentity) (enrolled : Family → NodeRegistry)
    (turns : List (Turn Errand DeskInput)) : Prop :=
  ∀ front back id req, turns = front ++ back →
    (Visitors.after set identity enrolled front).shared.state.jobs.lookup req.jobId = some id →
    OverAt (Visitors.after set identity enrolled front).shared id →
    ∀ i value, (Visitors.after set identity enrolled front).threads.length ≤ i →
      (Visitors.after set identity enrolled turns).outcome i =
        some (.credential req, .ok (.credential (.ok value))) →
      ∃ new, (Visitors.after set identity enrolled turns).shared.log =
          new ++ (Visitors.after set identity enrolled front).shared.log ∧
        Registers req.jobId new

theorem overUntilRegistered_after (ideal : set.cipher.Ideal) {turns : List (Turn Errand DeskInput)}
    (along : Along (Visitors.step set identity) (Visitors.Admits set) (.start enrolled) turns) :
    OverUntilRegistered set identity enrolled turns := by
  rintro front back id req rfl current gone i value young ended
  obtain ⟨grant, attested⟩ := onlyAttested_after ideal along i req value ended
  obtain ⟨id', state, looked, locked⟩ := attested.registered
  have unstarted : (Visitors.after set identity enrolled front).threads[i]? = none :=
    List.getElem?_eq_none young
  have whole : Visitors.after set identity enrolled (front ++ back) =
      run (Visitors.step set identity) (Visitors.after set identity enrolled front) back :=
    run_append _ _ _ _
  have start : Unmoved (Visitors.after set identity enrolled front).shared req.jobId id
      (Visitors.after set identity enrolled front).shared :=
    ⟨[], rfl, .inr fun id' found => Option.some.inj (found.symm.trans current)⟩
  have fresh : ∀ op answer, ⟨⟨i, .credential req⟩, op, answer⟩ ∉
      (Visitors.after set identity enrolled front).shared.log := fun op answer member => by
    obtain ⟨program, there⟩ := serving_of_entry member
    rw [unstarted] at there
    cases there
  by_contra none
  -- not registered anew, at no moment since
  have always : ∀ front' back', back = front' ++ back' → ∀ id', (run (Visitors.step set identity)
      (Visitors.after set identity enrolled front) front').shared.state.jobs.lookup req.jobId =
        some id' → id' = id := by
    rintro front' back' rfl
    obtain ⟨new, grown, registers | only⟩ : Unmoved
        (Visitors.after set identity enrolled front).shared req.jobId id
        (run (Visitors.step set identity) (Visitors.after set identity enrolled front) front').shared :=
      unmoved_run front' start
    · refine absurd ?_ none
      obtain ⟨caller, tenant, state, member⟩ := registers
      obtain ⟨later, whole'⟩ : ∃ later, (run (Visitors.step set identity)
          (run (Visitors.step set identity) (Visitors.after set identity enrolled front) front')
          back').shared.log = later ++ (run (Visitors.step set identity)
            (Visitors.after set identity enrolled front) front').shared.log := log_run _ back'
      refine ⟨later ++ new, ?_, caller, tenant, state, List.mem_append_right _ member⟩
      rw [whole, run_append, List.append_assoc, ← grown]
      exact whole'
    · exact only
  rw [whole] at looked
  obtain old | ⟨s, input, only, answers⟩ :=
    entry_since (fun s => ∀ id', s.state.jobs.lookup req.jobId = some id' → id' = id) always _ looked
  · exact fresh _ _ old
  · have answers : some (id', req.tenant) = (performDesk set.cipher s.state input
        (.slot req.jobId)).2 := answers
    obtain ⟨id'', found, rest⟩ := Option.bind_eq_some_iff.mp answers.symm
    obtain ⟨slot, _, same⟩ := Option.bind_eq_some_iff.mp rest
    have ids : id'' = id' := (Prod.mk.inj (Option.some.inj same)).1
    have mine : id' = id := ids ▸ only _ found
    rw [mine] at locked
    have before := slotsStayOver_after along front back id rfl gone i req value state ended locked
    unfold Pool.outcome at before
    rw [unstarted] at before
    cases before

end Locks

/-- **Break glass reaches what is held.** In every run of the lookups, the registrations and the
broker, whatever the order of their sections. -/
theorem break_glass_reaches_held (set : Setting) (ideal : set.cipher.Ideal)
    (identity : ProxyIdentity) (enrolled : Family → NodeRegistry) (turns : List (Turn Errand DeskInput))
    (along : Along (Visitors.step set identity) (Visitors.Admits set) (.start enrolled) turns) :
    GlassBroken set identity enrolled turns ∧
      OnlyAttested set identity (Visitors.after set identity enrolled turns) ∧
      RedeemedOnce (Visitors.after set identity enrolled turns).shared ∧
      SlotsStayOver set identity enrolled turns ∧ OverUntilRegistered set identity enrolled turns :=
  ⟨glassBroken_after ideal along, onlyAttested_after ideal along, redeemedOnce_after ideal along,
    slotsStayOver_after along, overUntilRegistered_after ideal along⟩

/-- The key of a proxy that signs in the clear. -/
def clearKey : NodePublicKey := Vector.replicate 32 9

/-- A proxy that signs in the clear. -/
def clearIdentity : ProxyIdentity where
  publicKey := clearKey
  signRaw payload := clearKey.toList ++ payload

/-- It is enrolled. -/
def clearEnrolled (_ : Family) : NodeRegistry :=
  (NodeRegistry.enrol ∅ "proxy-1" clearKey).1

/-- A tenant, a secret, a capability and its registration, a lookup, break glass, and a lookup. -/
def aLookup : List (Turn Errand DeskInput) :=
  let input (n : UInt8) : DeskInput :=
    { broker := { vault := { key := Vector.replicate 32 n, nonce := Vector.replicate 24 n }, now := 100
                  capId := Vector.replicate 16 n, secret := Vector.replicate 32 n }
      nonce := [n] }
  let token := mintToken (Vector.replicate 16 3) (List.replicate 32 3)
  let lookup : CredentialRequest :=
    { tenant := "acme", jobId := "job-1", upstream := "npm", secret := "NPM_TOKEN" }
  [.start (.provisionTenant "acme"), .turn 0 (input 1), .start (.putSecret "acme" "NPM_TOKEN" [7])] ++
    List.replicate 5 (.turn 1 (input 2)) ++
    [.start (.mint { tenant := "acme", jobId := "job-1", proxyId := "proxy-1",
                     declared := ["NPM_TOKEN"], authorClass := .member, expiresAt := 200 })] ++
    List.replicate 5 (.turn 2 (input 3)) ++
    [.start (.authoriseJob "acme" "job-1" token), .turn 3 (input 4), .start (.credential lookup)] ++
    List.replicate 15 (.turn 4 (input 4)) ++ [.start (.revokeJob "job-1"), .turn 5 (input 5)] ++
    [.start (.credential lookup)] ++ List.replicate 7 (.turn 6 (input 6))

theorem break_glass_reaches_lookup :
    GlassBroken clearSetting clearIdentity clearEnrolled aLookup ∧
      OnlyAttested clearSetting clearIdentity
        (Visitors.after clearSetting clearIdentity clearEnrolled aLookup) ∧
      RedeemedOnce (Visitors.after clearSetting clearIdentity clearEnrolled aLookup).shared ∧
      SlotsStayOver clearSetting clearIdentity clearEnrolled aLookup ∧
      OverUntilRegistered clearSetting clearIdentity clearEnrolled aLookup :=
  break_glass_reaches_held clearSetting clearCipher_ideal clearIdentity clearEnrolled aLookup
    (by decide +kernel)

end HullCi.Proxy
