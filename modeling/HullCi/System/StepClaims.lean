/-
**At most one dispatch of a step.**

The step claim is a token. A call of the fleet holds it while it runs and until a refusal is given
back; an accepted call keeps it for ever. Ids are never drawn twice, so a claim that is gone stays
gone, and a job without a claim is fenced.

* `claims_move` — what a frame's step can do to the claims and to the tokens in hand.
* `oneToken_fires` — no step makes a second token of one step.
* `assigned_once` — in every run a step is accepted by the fleet at most once, and never handed out
  by two calls at the same time.
-/

import HullCi.System.Sections

namespace HullCi.System

open HullCi.Proto HullCi.Base HullCi.Control

/-! ### Tokens -/

/-- The step a call of the fleet is running for. -/
def assigning (j : JobId) (s : StepId) : Frame → Bool
  | .pump ⟨_, _, .assign ticket _ _⟩ => ticket.grant.jobId = j ∧ ticket.grant.stepId = s
  | _ => false

/-- The frame holds the step's token and may still give it back. -/
def inHand (j : JobId) (s : StepId) : Frame → Bool
  | .pump ⟨_, _, .assign ticket _ _⟩ => ticket.grant.jobId = j ∧ ticket.grant.stepId = s
  | .pump ⟨_, _, .releaseStep ticket _ _⟩ => ticket.grant.jobId = j ∧ ticket.grant.stepId = s
  | _ => false

theorem inHand_of_assigning {j : JobId} {s : StepId} {f : Frame} (calls : assigning j s f = true) :
    inHand j s f = true := by
  unfold assigning at calls
  split at calls
  · exact calls
  · cases calls

/-- A frame that carries a lease carries its grant's own. -/
def OwnLease : Frame → Prop
  | .pump ⟨_, _, .claim ticket lease _⟩ => lease.jobId = ticket.grant.jobId
  | .pump ⟨_, _, .assign ticket lease _⟩ => lease.jobId = ticket.grant.jobId
  | .pump ⟨_, _, .releaseStep ticket lease _⟩ => lease.jobId = ticket.grant.jobId
  | _ => True

/-- A frame without a token, that carries a lease only as it should. -/
structure EmptyHanded (f : Frame) : Prop where
  empty : ∀ j s, inHand j s f = false
  own : OwnLease f

/-- The claims lose one, publish a verdict, or admit a dispatch under the id drawn. -/
inductive BooksMove (env : Env) (claims : LocalClaims) : LocalClaims → Prop
  | forget (id : JobId) : BooksMove env claims (claims.forget id)
  | settle (lease : DriveLease) (v : Verdict) :
      BooksMove env claims (claims.settle lease v env.nowMs)
  | admission (key : TreeKey) (url : String) (ms : ℤ) :
      BooksMove env claims (claims.admitDispatch key env.proposed url env.nowMs ms).1

/-- What a step does to the claims and to the tokens in hand. -/
inductive ClaimsMove (env : Env) (c : Control) : Frame → Outcome → Prop
  | still {f : Frame} {o : Outcome} (before : ∀ j s, inHand j s f = false)
      (same : o.control.claims = c.claims) (after : ∀ g ∈ o.push ++ o.spawned, EmptyHanded g)
      (silent : ∀ j s, Obs.assigned j s ∉ o.observed) : ClaimsMove env c f o
  | books {f : Frame} {o : Outcome} (before : ∀ j s, inHand j s f = false)
      (moved : BooksMove env c.claims o.control.claims)
      (after : ∀ g ∈ o.push ++ o.spawned, EmptyHanded g)
      (silent : ∀ j s, Obs.assigned j s ∉ o.observed) : ClaimsMove env c f o
  /-- The step is claimed, and its call begins. -/
  | granted {p : Pump} {ticket : Ticket} {lease : DriveLease} {rest : List Grant}
      {claim : LocalClaim} (pc : p.pc = .claim ticket lease rest)
      (found : c.claims.claims.lookup lease.jobId = some claim)
      (free : ticket.grant.stepId ∉ claim.steps) :
      ClaimsMove env c (.pump p)
        { control := { c with claims := ⟨c.claims.byKey, c.claims.claims.insert lease.jobId
            { claim with steps := insert ticket.grant.stepId claim.steps }⟩ }
          push := p.goto (.assign ticket lease rest) }
  /-- The call is answered; an acceptance is seen, and the token stays taken. -/
  | answered {p : Pump} {ticket : Ticket} {lease : DriveLease} {rest : List Grant}
      {result : Except NodeError String} {seen : List Obs} (pc : p.pc = .assign ticket lease rest)
      (said : seen = [.assigned ticket.grant.jobId ticket.grant.stepId] ∨ seen = []) :
      ClaimsMove env c (.pump p)
        { control := c, push := p.goto (.settle ticket result rest), observed := seen }
  /-- The fleet is full; the token is to be given back. -/
  | refused {p : Pump} {ticket : Ticket} {lease : DriveLease} {rest : List Grant}
      (pc : p.pc = .assign ticket lease rest) :
      ClaimsMove env c (.pump p)
        { control := c, push := p.goto (.releaseStep ticket lease rest) }
  /-- The token is given back. -/
  | released {p : Pump} {ticket : Ticket} {lease : DriveLease} {rest : List Grant}
      (pc : p.pc = .releaseStep ticket lease rest) :
      ClaimsMove env c (.pump p)
        { control := { c with claims := c.claims.releaseStep lease ticket.grant.stepId }
          push := p.goto (.requeue ticket rest) }

/-! ### What each method does to the tokens -/

theorem emptyHanded_goto (a : Accept) (pc : AcceptAt) :
    ∀ g ∈ a.goto pc ++ [], EmptyHanded g := by
  intro g member
  obtain rfl := List.mem_singleton.mp member
  exact ⟨fun _ _ => rfl, trivial⟩

theorem emptyHanded_reports {g : Frame} {claimed : Bool} {j : JobId}
    (member : g ∈ if claimed then [Frame.report j {}] else []) : EmptyHanded g := by
  cases claimed with
  | false => cases member
  | true =>
    obtain rfl := List.mem_singleton.mp member
    exact ⟨fun _ _ => rfl, trivial⟩

theorem emptyHanded_spawn (a : Accept) (pc : AcceptAt) (claimed : Bool) (j : JobId) :
    ∀ g ∈ a.goto pc ++ if claimed then [Frame.report j {}] else [], EmptyHanded g := by
  intro g member
  rcases List.mem_append.mp member with own | spawned
  · exact emptyHanded_goto a pc g (List.mem_append_left _ own)
  · exact emptyHanded_reports spawned

theorem accept_claims {env : Env} {c : Control} {a : Accept} {o : Outcome}
    (move : AcceptMove env c a o) : ClaimsMove env c (.accept a) o := by
  have before : ∀ j s, inHand j s (.accept a) = false := fun _ _ => rfl
  have quiet : ∀ g ∈ ([] : List Frame) ++ [], EmptyHanded g := fun g member => (by cases member)
  cases move with
  | forget => exact .books before (.forget _) (emptyHanded_goto a _) (by simp)
  | rollbackClaim => exact .books before (.forget _) quiet (by simp)
  | created pc admits =>
    have moved : BooksMove env c.claims (c.claims.admitDispatch _ env.proposed _ env.nowMs _).1 :=
      .admission ⟨a.dispatch.repo, a.dispatch.treeId⟩ a.dispatch.callbackUrl
        (asMillis c.config.jobRetention)
    rw [admits] at moved
    exact .books before moved (emptyHanded_goto a _) (by simp)
  | attached pc admits =>
    have moved : BooksMove env c.claims (c.claims.admitDispatch _ env.proposed _ env.nowMs _).1 :=
      .admission ⟨a.dispatch.repo, a.dispatch.treeId⟩ a.dispatch.callbackUrl
        (asMillis c.config.jobRetention)
    rw [admits] at moved
    exact .books before moved (emptyHanded_goto a _) (by simp)
  | startReport pc claims =>
    exact .still before (by rw [claims.frame]) (emptyHanded_spawn a _ _ _) (by simp)
  | drain pc claims =>
    exact .still before (by rw [claims.frame]) (emptyHanded_spawn a _ _ _) (by simp)
  | startDrive =>
    refine .still before rfl (fun g member => ?_) (by simp)
    rcases List.mem_append.mp member with own | spawned
    · exact emptyHanded_goto a _ g (List.mem_append_left _ own)
    · obtain rfl := List.mem_singleton.mp spawned
      exact ⟨fun _ _ => rfl, trivial⟩
  | attachRefused => exact .still before rfl quiet (by simp)
  | drained => exact .still before rfl quiet (by simp)
  | _ => exact .still before rfl (emptyHanded_goto a _) (by simp)

theorem emptyHanded_drive (j : JobId) (pc : DriveAt) : EmptyHanded (.drive j pc) :=
  ⟨fun _ _ => rfl, trivial⟩

theorem emptyHanded_finish (j : JobId) (pc : FinishAt) : EmptyHanded (.finish j pc) :=
  ⟨fun _ _ => rfl, trivial⟩

theorem emptyHanded_retire (j : JobId) (pc : RetireAt) : EmptyHanded (.retire j pc) :=
  ⟨fun _ _ => rfl, trivial⟩

theorem emptyHanded_report (j : JobId) (r : Report) : EmptyHanded (.report j r) :=
  ⟨fun _ _ => rfl, trivial⟩

theorem emptyHanded_select (onBehalfOf : Option JobId) :
    EmptyHanded (.pump { onBehalfOf := onBehalfOf }) :=
  ⟨fun _ _ => rfl, trivial⟩

theorem drive_claims {env : Env} {c : Control} {j : JobId} {pc : DriveAt} {o : Outcome}
    (move : DriveMove env c j pc o) : ClaimsMove env c (.drive j pc) o := by
  have before : ∀ k s, inHand k s (.drive j pc) = false := fun _ _ => rfl
  cases move <;>
    exact .still before rfl (by simp [emptyHanded_drive, emptyHanded_finish, emptyHanded_retire,
      emptyHanded_select]) (by simp)

theorem finish_claims {env : Env} {c : Control} {j : JobId} {pc : FinishAt} {o : Outcome}
    (move : FinishMove env c j pc o) : ClaimsMove env c (.finish j pc) o := by
  have before : ∀ k s, inHand k s (.finish j pc) = false := fun _ _ => rfl
  cases move with
  | settle => exact .books before (.settle _ _) (by simp [emptyHanded_finish]) (by simp)
  | claim claims =>
    refine .still before (by rw [claims.frame]) (fun g member => ?_) (by simp)
    rw [List.append_nil] at member
    exact emptyHanded_reports member
  | _ =>
    exact .still before rfl (by simp [emptyHanded_finish, emptyHanded_retire]) (by simp)

theorem retire_claims {env : Env} {c : Control} {j : JobId} {pc : RetireAt} {o : Outcome}
    (move : RetireMove env c j pc o) : ClaimsMove env c (.retire j pc) o := by
  have before : ∀ k s, inHand k s (.retire j pc) = false := fun _ _ => rfl
  cases move <;>
    exact .still before rfl (by simp [emptyHanded_retire, emptyHanded_select]) (by simp)

theorem report_claims {env : Env} {c : Control} {j : JobId} {r : Report} {o : Outcome}
    (move : ReportMove env c j r o) : ClaimsMove env c (.report j r) o := by
  have before : ∀ k s, inHand k s (.report j r) = false := fun _ _ => rfl
  cases move <;>
    exact .still before rfl (by simp [emptyHanded_report]) (by simp)

theorem message_claims {env : Env} {c : Control} {f : Frame} {o : Outcome}
    (move : MessageMove env c f o) : ClaimsMove env c f o := by
  cases move <;>
    exact .still (fun _ _ => rfl) rfl (by simp) (by simp)

/-- Off the claim, call and give-back sections a pump has empty hands. -/
theorem pump_empty {p : Pump} (noCall : ∀ t l r, p.pc ≠ .assign t l r)
    (noBack : ∀ t l r, p.pc ≠ .releaseStep t l r) (j : JobId) (s : StepId) :
    inHand j s (.pump p) = false := by
  obtain ⟨onBehalfOf, now, pc⟩ := p
  cases pc with
  | assign t l r => exact absurd rfl (noCall t l r)
  | releaseStep t l r => exact absurd rfl (noBack t l r)
  | _ => rfl

theorem pump_claims {env : Env} {c : Control} {p : Pump} {o : Outcome}
    (move : PumpMove env c p o) : ClaimsMove env c (.pump p) o := by
  cases move with
  | granted pc found free => exact .granted pc found free
  | noCapacity pc full => exact .refused pc
  | accepted pc answer => exact .answered pc (.inl rfl)
  | rejected pc answer other => exact .answered pc (.inr rfl)
  | releaseStep pc => exact .released pc
  | leased pc held =>
    have own := Leases.jobId_of_get held
    refine .still (pump_empty (by simp [pc]) (by simp [pc])) rfl (fun g member => ?_) (by simp)
    obtain rfl := List.mem_singleton.mp member
    exact ⟨fun _ _ => rfl, own⟩
  | select pc =>
    refine .still (pump_empty (by simp [pc]) (by simp [pc])) rfl (fun g member => ?_) ?_
    · obtain rfl := List.mem_singleton.mp member
      exact ⟨fun _ _ => rfl, trivial⟩
    · intro j s member
      unfold offers at member
      cases known : p.onBehalfOf.bind c.jobs.get with
      | none => rw [known] at member; cases member
      | some job =>
        rw [known] at member
        simp at member
  | ended pc =>
    exact .still (pump_empty (by simp [pc]) (by simp [pc])) rfl (by simp) (by simp)
  | _ =>
    refine .still (pump_empty (by simp [*]) (by simp [*])) rfl (fun g member => ?_) (by simp)
    obtain rfl := List.mem_singleton.mp member
    exact ⟨fun _ _ => rfl, trivial⟩

/-- **What the step of a frame does to the claims and to the tokens in hand.** -/
theorem claims_move (env : Env) (c : Control) (f : Frame) :
    ClaimsMove env c f (f.step env c) := by
  cases frame_moves env c f with
  | accept move => exact accept_claims move
  | drive move => exact drive_claims move
  | finish move => exact finish_claims move
  | retire move => exact retire_claims move
  | report move => exact report_claims move
  | pump move => exact pump_claims move
  | message move => exact message_claims move

/-! ### One token -/

/-- How many tokens of one step there are: in hand, or with an accepted call. -/
def tokens (w : World) (j : JobId) (s : StepId) : ℕ :=
  w.history.count (.assigned j s) + w.frames.countP (inHand j s)

/-- The token of a step is out: its claim says so, or there is no claim, and never again will be. -/
def Taken (w : World) (j : JobId) (s : StepId) : Prop :=
  j ∈ w.minted ∧ ∀ claim, w.control.claims.claims.lookup j = some claim → s ∈ claim.steps

/-- **One token of each step.** -/
structure OneToken (w : World) : Prop where
  minted : ∀ j claim, w.control.claims.claims.lookup j = some claim → j ∈ w.minted
  own : ∀ f ∈ w.frames, OwnLease f
  once : ∀ j s, tokens w j s ≤ 1
  taken : ∀ j s, 0 < tokens w j s → Taken w j s

theorem oneToken_init (config : ControlConfig) : OneToken (.init config) where
  minted := fun _ _ found => by cases found
  own := fun _ member => by cases member
  once := fun _ _ => Nat.zero_le 1
  taken := fun _ _ some => absurd some (Nat.lt_irrefl 0)

theorem emptyHanded_call (call : Call) : EmptyHanded call.frame := by
  cases call <;> exact ⟨fun _ _ => rfl, trivial⟩

theorem oneToken_call {w : World} (call : Call) (one : OneToken w) :
    OneToken (w.step (.call call)) := by
  have started := World.frames_call w call
  have idle := emptyHanded_call call
  have same : ∀ j s, tokens (w.step (.call call)) j s = tokens w j s := by
    intro j s
    unfold tokens
    rw [started, List.countP_append, List.countP_singleton, idle.empty]
    rfl
  refine ⟨one.minted, fun f member => ?_, fun j s => ?_, fun j s some => ?_⟩
  · rw [started] at member
    rcases List.mem_append.mp member with old | new
    · exact one.own f old
    · rw [List.mem_singleton.mp new]
      exact idle.own
  · rw [same]
    exact one.once j s
  · rw [same] at some
    exact one.taken j s some

/-- The claims after a step are of jobs drawn before it, or of the id it draws. -/
theorem minted_booksMove {env : Env} {claims claims' : LocalClaims} {minted : List JobId}
    (moved : BooksMove env claims claims')
    (known : ∀ j claim, claims.claims.lookup j = some claim → j ∈ minted) {j : JobId}
    {claim : LocalClaim} (found : claims'.claims.lookup j = some claim) :
    j ∈ env.proposed :: minted := by
  cases moved with
  | forget id =>
    rw [LocalClaims.lookup_forget] at found
    split at found
    · cases found
    · exact List.mem_cons_of_mem _ (known j claim found)
  | settle lease v =>
    rw [LocalClaims.lookup_settle] at found
    split at found
    · rename_i same
      obtain ⟨before, known', -⟩ := Option.map_eq_some_iff.mp found
      rw [same]
      exact List.mem_cons_of_mem _ (known _ before known')
    · exact List.mem_cons_of_mem _ (known j claim found)
  | admission key url ms =>
    have admits := LocalClaims.admit_lookup claims key env.proposed url env.nowMs ms j
    revert admits found
    cases claims.admitDispatch key env.proposed url env.nowMs ms with
    | mk claims' answer =>
      intro found admits
      cases admits with
      | same other kept => exact List.mem_cons_of_mem _ (known j claim (kept ▸ found))
      | attached before grown => exact List.mem_cons_of_mem _ (known j _ before)
      | dropped stale other before settled gone =>
        rw [gone] at found
        cases found
      | created mine fresh =>
        rw [mine]
        exact List.mem_cons_self

/-- A claim that was there before, or a gone one: the steps taken stay taken. -/
theorem taken_booksMove {env : Env} {claims claims' : LocalClaims}
    (moved : BooksMove env claims claims') {j : JobId} {s : StepId} (old : j ≠ env.proposed)
    (held : ∀ claim, claims.claims.lookup j = some claim → s ∈ claim.steps)
    {claim : LocalClaim} (found : claims'.claims.lookup j = some claim) : s ∈ claim.steps := by
  cases moved with
  | forget id =>
    rw [LocalClaims.lookup_forget] at found
    split at found
    · cases found
    · exact held claim found
  | settle lease v =>
    rw [LocalClaims.lookup_settle] at found
    split at found
    · rename_i same
      subst same
      obtain ⟨before, known, rfl⟩ := Option.map_eq_some_iff.mp found
      exact held before known
    · exact held claim found
  | admission key url ms =>
    have admits := LocalClaims.admit_lookup claims key env.proposed url env.nowMs ms j
    revert admits found
    cases claims.admitDispatch key env.proposed url env.nowMs ms with
    | mk claims' answer =>
      intro found admits
      cases admits with
      | same other kept => exact held claim (kept ▸ found)
      | @attached _ before known grown =>
        dsimp only at found
        rw [grown, Option.some.injEq] at found
        rw [← found, LocalClaim.attach_steps]
        exact held before known
      | dropped stale other before settled gone =>
        rw [gone] at found
        cases found
      | created mine fresh => exact absurd mine old

theorem countP_emptyHanded {fs : List Frame} (idle : ∀ g ∈ fs, EmptyHanded g) (j : JobId)
    (s : StepId) : fs.countP (inHand j s) = 0 := by
  rw [List.countP_eq_zero]
  intro g member
  rw [(idle g member).empty]
  exact Bool.false_ne_true

section Step

variable {w w' : World} {env : Env} {f : Frame} {o : Outcome} {others : List Frame}

theorem tokens_fires (fires : World.Fires w env f o others w') (j : JobId) (s : StepId) :
    tokens w' j s + [f].countP (inHand j s) = tokens w j s
      + (o.push ++ o.spawned).countP (inHand j s) + o.observed.count (.assigned j s) := by
  have bag := fires.frames.count (inHand j s)
  unfold tokens
  rw [fires.history, List.count_append]
  omega

theorem own_fires (fires : World.Fires w env f o others w') (own : ∀ f ∈ w.frames, OwnLease f)
    (new : ∀ g ∈ o.push ++ o.spawned, OwnLease g) : ∀ g ∈ w'.frames, OwnLease g := by
  intro g member
  rcases fires.frames.mem_after member with fresh | old
  · exact new g fresh
  · exact own g old

/-- Nothing in hand before or after: the tokens are those there were. -/
theorem oneToken_quiet (fires : World.Fires w env f o others w') (one : OneToken w)
    (before : ∀ j s, inHand j s f = false) (after : ∀ g ∈ o.push ++ o.spawned, EmptyHanded g)
    (silent : ∀ j s, Obs.assigned j s ∉ o.observed)
    (minted : ∀ j claim, w'.control.claims.claims.lookup j = some claim → j ∈ w'.minted)
    (held : ∀ j s, Taken w j s → Taken w' j s) : OneToken w' := by
  have same : ∀ j s, tokens w' j s = tokens w j s := by
    intro j s
    have balance := tokens_fires fires j s
    rw [countP_emptyHanded after, List.countP_singleton, before,
      List.count_eq_zero.mpr (silent j s)] at balance
    simpa using balance
  refine ⟨minted, own_fires fires one.own fun g member => (after g member).own, ?_, ?_⟩
  · intro j s
    rw [same]
    exact one.once j s
  · intro j s some
    rw [same] at some
    exact held j s (one.taken j s some)

/-- **No step makes a second token.** -/
theorem oneToken_fires (one : OneToken w) (fires : World.Fires w env f o others w') :
    OneToken w' := by
  have drawn : ∀ j ∈ w.minted, j ∈ w'.minted := by
    intro j member
    rw [fires.minted]
    exact List.mem_cons_of_mem _ member
  have fresh : ∀ j ∈ w.minted, j ≠ env.proposed := by
    intro j member same
    exact fires.fresh (same ▸ member)
  have balance := tokens_fires fires
  have own := own_fires fires one.own
  have claims := congrArg Control.claims fires.control
  have present := fires.frames.mem_before
  have move : ClaimsMove env w.control f o := fires.stepped ▸ claims_move env w.control f
  cases move with
  | still before same after silent =>
    rw [same] at claims
    refine oneToken_quiet fires one before after silent (fun j claim found => ?_) fun j s taken => ?_
    · rw [claims] at found
      exact drawn j (one.minted j claim found)
    · refine ⟨drawn j taken.1, fun claim found => ?_⟩
      rw [claims] at found
      exact taken.2 claim found
  | books before moved after silent =>
    refine oneToken_quiet fires one before after silent (fun j claim found => ?_) fun j s taken => ?_
    · rw [claims] at found
      rw [fires.minted]
      exact minted_booksMove moved one.minted found
    · refine ⟨drawn j taken.1, fun claim found => ?_⟩
      rw [claims] at found
      exact taken_booksMove moved (fresh j taken.1) taken.2 found
  | @granted p ticket lease rest claim pc found free =>
    obtain ⟨onBehalfOf, now, at'⟩ := p
    obtain rfl : at' = .claim ticket lease rest := pc
    have same : lease.jobId = ticket.grant.jobId := one.own _ present
    have none : tokens w ticket.grant.jobId ticket.grant.stepId = 0 := by
      by_contra some
      exact free ((one.taken _ _ (Nat.pos_of_ne_zero some)).2 claim (same ▸ found))
    have known : ticket.grant.jobId ∈ w.minted := one.minted _ claim (same ▸ found)
    have looked : ∀ j, w'.control.claims.claims.lookup j = if j = lease.jobId then
        some { claim with steps := insert ticket.grant.stepId claim.steps }
        else w.control.claims.claims.lookup j := by
      intro j
      rw [claims]
      exact Table.lookup_insert _ _ _ _
    have counts : ∀ j s, tokens w' j s = tokens w j s +
        if ticket.grant.jobId = j ∧ ticket.grant.stepId = s then 1 else 0 := by
      intro j s
      have sum := balance j s
      simpa [Pump.goto, inHand, List.countP_cons] using sum
    refine ⟨fun j claim' held => ?_, own ?_, fun j s => ?_, fun j s some => ?_⟩
    · rw [looked] at held
      by_cases mine : j = lease.jobId
      · rw [mine, same]
        exact drawn _ known
      · rw [if_neg mine] at held
        exact drawn j (one.minted j claim' held)
    · intro g member
      obtain rfl := List.mem_singleton.mp member
      exact same
    · rw [counts]
      by_cases mine : ticket.grant.jobId = j ∧ ticket.grant.stepId = s
      · obtain ⟨rfl, rfl⟩ := mine
        rw [none]
        simp
      · rw [if_neg mine]
        exact one.once j s
    · rw [counts] at some
      by_cases mine : ticket.grant.jobId = j ∧ ticket.grant.stepId = s
      · obtain ⟨rfl, rfl⟩ := mine
        refine ⟨drawn _ known, fun claim' held => ?_⟩
        rw [looked, if_pos same.symm, Option.some.injEq] at held
        rw [← held]
        exact Finset.mem_insert_self _ _
      · rw [if_neg mine, add_zero] at some
        have taken := one.taken j s some
        refine ⟨drawn j taken.1, fun claim' held => ?_⟩
        rw [looked] at held
        by_cases own : j = lease.jobId
        · rw [if_pos own, Option.some.injEq] at held
          rw [← held]
          exact Finset.mem_insert_of_mem (taken.2 claim (own ▸ found))
        · rw [if_neg own] at held
          exact taken.2 claim' held
  | @answered p ticket lease rest result seen pc said =>
    obtain ⟨onBehalfOf, now, at'⟩ := p
    obtain rfl : at' = .assign ticket lease rest := pc
    have fewer : ∀ j s, tokens w' j s ≤ tokens w j s := by
      intro j s
      have sum := balance j s
      rcases said with rfl | rfl
      · simp only [Pump.goto, inHand, List.countP_cons, List.countP_nil, List.append_nil,
          List.count_cons, List.count_nil, Obs.assigned.injEq, beq_iff_eq, decide_eq_true_eq,
          Bool.false_eq_true, if_false] at sum
        omega
      · simp only [Pump.goto, inHand, List.countP_cons, List.countP_nil, List.append_nil,
          List.count_nil, decide_eq_true_eq, Bool.false_eq_true, if_false] at sum
        omega
    refine ⟨fun j claim held => ?_, own ?_, fun j s => ?_, fun j s some => ?_⟩
    · rw [claims] at held
      exact drawn j (one.minted j claim held)
    · intro g member
      obtain rfl := List.mem_singleton.mp member
      trivial
    · exact (fewer j s).trans (one.once j s)
    · have taken := one.taken j s (some.trans_le (fewer j s))
      refine ⟨drawn j taken.1, fun claim held => ?_⟩
      rw [claims] at held
      exact taken.2 claim held
  | @refused p ticket lease rest pc =>
    obtain ⟨onBehalfOf, now, at'⟩ := p
    obtain rfl : at' = .assign ticket lease rest := pc
    have same : lease.jobId = ticket.grant.jobId := one.own _ present
    have counts : ∀ j s, tokens w' j s = tokens w j s := by
      intro j s
      have sum := balance j s
      simpa [Pump.goto, inHand, List.countP_cons] using sum
    refine ⟨fun j claim held => ?_, own ?_, fun j s => ?_, fun j s some => ?_⟩
    · rw [claims] at held
      exact drawn j (one.minted j claim held)
    · intro g member
      obtain rfl := List.mem_singleton.mp member
      exact same
    · rw [counts]
      exact one.once j s
    · rw [counts] at some
      have taken := one.taken j s some
      refine ⟨drawn j taken.1, fun claim held => ?_⟩
      rw [claims] at held
      exact taken.2 claim held
  | @released p ticket lease rest pc =>
    obtain ⟨onBehalfOf, now, at'⟩ := p
    obtain rfl : at' = .releaseStep ticket lease rest := pc
    have same : lease.jobId = ticket.grant.jobId := one.own _ present
    have looked : ∀ j, w'.control.claims.claims.lookup j = if j = lease.jobId then
        (w.control.claims.claims.lookup lease.jobId).map fun claim =>
          { claim with steps := claim.steps.erase ticket.grant.stepId }
        else w.control.claims.claims.lookup j := by
      intro j
      rw [claims]
      exact LocalClaims.lookup_releaseStep _ _ _ _
    have counts : ∀ j s, tokens w' j s +
        (if ticket.grant.jobId = j ∧ ticket.grant.stepId = s then 1 else 0) = tokens w j s := by
      intro j s
      have sum := balance j s
      simpa [Pump.goto, inHand, List.countP_cons] using sum
    refine ⟨fun j claim held => ?_, own ?_, fun j s => ?_, fun j s some => ?_⟩
    · rw [looked] at held
      by_cases mine : j = lease.jobId
      · rw [if_pos mine] at held
        obtain ⟨before, known, -⟩ := Option.map_eq_some_iff.mp held
        rw [mine]
        exact drawn _ (one.minted _ before known)
      · rw [if_neg mine] at held
        exact drawn j (one.minted j claim held)
    · intro g member
      obtain rfl := List.mem_singleton.mp member
      trivial
    · have sum := counts j s
      have bound := one.once j s
      omega
    · have sum := counts j s
      have bound := one.once j s
      have other : ¬ (ticket.grant.jobId = j ∧ ticket.grant.stepId = s) := by
        intro mine
        rw [if_pos mine] at sum
        omega
      have taken := one.taken j s (by omega)
      refine ⟨drawn j taken.1, fun claim held => ?_⟩
      rw [looked] at held
      by_cases mine : j = lease.jobId
      · rw [if_pos mine] at held
        obtain ⟨before, known, rfl⟩ := Option.map_eq_some_iff.mp held
        refine Finset.mem_erase.mpr ⟨fun step => other ⟨?_, step.symm⟩, taken.2 before (mine ▸ known)⟩
        rw [mine, same]
      · rw [if_neg mine] at held
        exact taken.2 claim held

end Step

/-- **At most one dispatch of a step.** In every run the fleet accepts a step at most once, and no
two calls hand out the same step at the same time. -/
theorem assigned_once (config : ControlConfig) (labels : List Label) (j : JobId) (s : StepId) :
    let w := run World.step (.init config) labels
    w.history.count (.assigned j s) ≤ 1 ∧ w.frames.countP (assigning j s) ≤ 1 := by
  intro w
  have one : OneToken w := World.invariant_always (fun w call => oneToken_call call)
    (fun w env f o others w' => oneToken_fires) (oneToken_init config) labels
  have bound : tokens w j s ≤ 1 := one.once j s
  have calls : w.frames.countP (assigning j s) ≤ w.frames.countP (inHand j s) :=
    List.countP_mono_left fun f _ => inHand_of_assigning
  unfold tokens at bound
  constructor
  · omega
  · omega

end HullCi.System
