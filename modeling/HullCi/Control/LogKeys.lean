/-
**Whose log objects a node can name.**

A step report carries a log key of the node's choosing. The control plane keeps it when it is a
sequence of ordinary names and starts with `tenant/repo/tree_id/` of the job.

* `checkLogKey_eq_ok` — what the structural check says of a key, segment by segment.
* `below_of_accepted` — a key that is kept lies strictly below its job's own path.
* `fleet_below` — every key on every step of every run of a fleet of jobs lies there.
* `shared_iff` — two jobs share a key exactly when the path of one begins with the path of the other
  and the longer path leaves room for a name below it. A repository may have any number of segments,
  so one job's tree can be spelled as the end of another job's repository.
* `keys_apart_iff` — both, over every run.
-/

import HullCi.Control.Turns
import HullCi.Base.Table

namespace HullCi.Control

open HullCi.Proto HullCi.Base

/-! ### Repositories as the control plane keeps them -/

/-- The longest repository name, in characters. -/
def maxRepoLen : ℕ := 256

/-- The canonical spelling of a repository: every segment trimmed and checked. -/
def canonicalRepo (repo : String) : Except String String :=
  let trimmed := trim repo
  if trimmed = "" then .error "repo"
  else if trimmed.toList.length > maxRepoLen then .error "longer than 256 characters"
  else do
    let segments ← ((trimmed.toList.splitOn '/').map String.ofList).mapM fun raw => do
      let segment := trim raw
      checkPathSegment segment
      return segment
    return String.intercalate "/" segments

/-! ### Keys as paths -/

/-- A key, read as a path. -/
def segments (key : String) : List (List Char) :=
  key.toList.splitOn '/'

/-- An ordinary name: not empty, not a dot name, and nothing in it that is read as something else or
not seen at all. -/
structure Ordinary (segment : List Char) : Prop where
  filled : segment ≠ []
  dots : segment ≠ ['.'] ∧ segment ≠ ['.', '.']
  visible : ∀ c ∈ segment, isWhitespace c = false ∧ isControl c = false ∧
    isInvisibleFormatting c = false
  slash : '\\' ∉ segment

/-- The prefix the control plane expects of a job's keys. -/
def keyPrefix (d : Dispatch) : String :=
  d.tenant ++ "/" ++ d.repo ++ "/" ++ d.treeId ++ "/"

/-- The path of a job. -/
def jobPath (d : Dispatch) : List (List Char) :=
  segments d.tenant ++ segments d.repo ++ segments d.treeId

/-- A key that lies strictly below the path of a job, by ordinary names only. -/
def Below (d : Dispatch) (key : String) : Prop :=
  (∃ names, names ≠ [] ∧ segments key = jobPath d ++ names) ∧ ∀ s ∈ segments key, Ordinary s

/-- The control plane keeps this key for a job. -/
def Accepted (d : Dispatch) (key : String) : Prop :=
  acceptedLogKey (some key) (keyPrefix d) = some key

/-- The path of the first job begins the path of the second, and the second has room for a name
below it. -/
def Clash (d d' : Dispatch) : Prop :=
  (keyPrefix d).toList <+: (keyPrefix d').toList ∧ checkLogKey (keyPrefix d' ++ "x") = .ok ()

instance (d key) : Decidable (Accepted d key) := inferInstanceAs (Decidable (_ = _))

/-! ### What the checks say -/

theorem checkPathSegment_eq_ok {s : List Char} :
    checkPathSegment (String.ofList s) = .ok () ↔ Ordinary s := by
  unfold checkPathSegment
  simp only [String.toList_ofList]
  constructor
  · intro passes
    split_ifs at passes with empty dotted unseen slashed
    refine ⟨fun none => empty (by rw [none]), ?_, fun c member => ?_, fun member => ?_⟩
    · exact ⟨fun one => dotted (.inl (by rw [one])), fun two => dotted (.inr (by rw [two]))⟩
    · simp only [Bool.not_eq_true, List.any_eq_false, Bool.or_eq_true, not_or] at unseen
      simpa [and_assoc] using unseen c member
    · exact slashed (List.any_eq_true.mpr ⟨_, member, decide_eq_true rfl⟩)
  · rintro ⟨filled, dots, visible, slash⟩
    rw [if_neg, if_neg, if_neg, if_neg]
    · intro slashed
      obtain ⟨c, member, same⟩ := List.any_eq_true.mp slashed
      obtain rfl := of_decide_eq_true same
      exact slash member
    · intro unseen
      obtain ⟨c, member, some⟩ := List.any_eq_true.mp unseen
      obtain ⟨white, control, hidden⟩ := visible c member
      rw [white, control, hidden] at some
      cases some
    · rintro (one | two)
      · exact dots.1 (by simpa using congrArg String.toList one)
      · exact dots.2 (by simpa using congrArg String.toList two)
    · exact fun empty => filled (by simpa using congrArg String.toList empty)

theorem forM_eq_ok {α ε : Type} {f : α → Except ε Unit} {xs : List α} :
    xs.forM f = .ok () ↔ ∀ x ∈ xs, f x = .ok () := by
  induction xs with
  | nil => simp [pure, Except.pure]
  | cons x xs ih =>
    have first : (x :: xs).forM f = (f x >>= fun _ => xs.forM f) := rfl
    rw [first, List.forall_mem_cons, ← ih]
    cases f x with
    | error e => simp [bind, Except.bind]
    | ok u => simp [bind, Except.bind]

/-- **The structural check, segment by segment.** -/
theorem checkLogKey_eq_ok {key : String} :
    checkLogKey key = .ok () ↔ (0 < key.toList.length ∧ key.toList.length ≤ maxLogKeyLen) ∧
      ∀ s ∈ segments key, Ordinary s := by
  unfold checkLogKey
  by_cases long : key.toList.length = 0 ∨ key.toList.length > maxLogKeyLen
  · rw [if_pos long]
    simp only [reduceCtorEq, false_iff]
    omega
  · rw [if_neg long, forM_eq_ok]
    have bounds : 0 < key.toList.length ∧ key.toList.length ≤ maxLogKeyLen := by omega
    simp only [bounds, and_self, true_and, List.forall_mem_map, checkPathSegment_eq_ok, segments]

theorem accepted_iff {d : Dispatch} {key : String} :
    Accepted d key ↔ checkLogKey key = .ok () ∧ (keyPrefix d).toList <+: key.toList := by
  unfold Accepted acceptedLogKey
  cases checked : checkLogKey key with
  | error why => simp [checked]
  | ok u => simp [checked]

theorem acceptedLogKey_some {d : Dispatch} {reported : Option String} {key : String}
    (kept : acceptedLogKey reported (keyPrefix d) = some key) : Accepted d key := by
  cases reported with
  | none => cases kept
  | some told =>
    have same : told = key := by
      unfold acceptedLogKey at kept
      dsimp only at kept
      split at kept
      · cases kept
      · split_ifs at kept
        exact Option.some.inj kept
    rw [same] at kept
    exact kept

/-! ### Below the job's own path -/

theorem segments_append (a b : String) : segments (a ++ "/" ++ b) = segments a ++ segments b := by
  unfold segments
  rw [String.toList_append, String.toList_append, List.append_assoc]
  exact List.splitOn_append_cons_self _ _

theorem segments_keyPrefix (d : Dispatch) (names : String) :
    segments (keyPrefix d ++ names) = jobPath d ++ segments names := by
  unfold keyPrefix jobPath
  rw [segments_append, segments_append, segments_append]

/-- A string that begins with a prefix, with what is left of it. -/
theorem exists_rest {d : Dispatch} {key : String} (begins : (keyPrefix d).toList <+: key.toList) :
    ∃ rest : String, key = keyPrefix d ++ rest := by
  obtain ⟨rest, same⟩ := begins
  refine ⟨String.ofList rest, String.toList_injective ?_⟩
  rw [String.toList_append, String.toList_ofList, same]

/-- **A key that is kept lies strictly below its job's own path.** -/
theorem below_of_accepted {d : Dispatch} {key : String} (accepted : Accepted d key) :
    Below d key := by
  obtain ⟨checked, begins⟩ := accepted_iff.mp accepted
  obtain ⟨rest, rfl⟩ := exists_rest begins
  exact ⟨⟨segments rest, List.splitOn_ne_nil _ _, segments_keyPrefix d rest⟩,
    (checkLogKey_eq_ok.mp checked).2⟩

theorem intercalate_append {α : Type} (sep : List α) {front back : List (List α)}
    (first : front ≠ []) (last : back ≠ []) :
    sep.intercalate (front ++ back) = sep.intercalate front ++ sep ++ sep.intercalate back := by
  induction front with
  | nil => exact absurd rfl first
  | cons l front ih =>
    rw [List.cons_append, List.intercalate_cons_of_ne_nil (List.append_ne_nil_of_right_ne_nil _ last)]
    by_cases none : front = []
    · rw [none, List.nil_append, List.intercalate_singleton]
    · rw [ih none, List.intercalate_cons_of_ne_nil none]
      simp only [List.append_assoc]

theorem segments_ne_nil (key : String) : segments key ≠ [] :=
  List.splitOn_ne_nil _ _

theorem intercalate_jobPath (d : Dispatch) :
    ['/'].intercalate (jobPath d) ++ ['/'] = (keyPrefix d).toList := by
  have tenant := segments_ne_nil d.tenant
  have repo := List.append_ne_nil_of_left_ne_nil tenant (segments d.repo)
  unfold jobPath keyPrefix
  rw [intercalate_append _ repo (segments_ne_nil _), intercalate_append _ tenant (segments_ne_nil _)]
  unfold segments
  rw [List.intercalate_splitOn, List.intercalate_splitOn, List.intercalate_splitOn]
  simp only [String.toList_append]
  rfl

/-- **Lying below a job's path is beginning with its prefix.** -/
theorem accepted_of_below {d : Dispatch} {key : String} (below : Below d key)
    (short : key.toList.length ≤ maxLogKeyLen) : Accepted d key := by
  obtain ⟨⟨names, some, path⟩, ordinary⟩ := below
  have tenant := List.append_ne_nil_of_left_ne_nil (segments_ne_nil d.tenant) (segments d.repo)
  have whole : jobPath d ≠ [] := List.append_ne_nil_of_left_ne_nil tenant _
  have spelled : key.toList = (keyPrefix d).toList ++ ['/'].intercalate names := by
    rw [← intercalate_jobPath, ← intercalate_append _ whole some, ← path]
    exact (List.intercalate_splitOn '/').symm
  refine accepted_iff.mpr ⟨checkLogKey_eq_ok.mpr ⟨⟨List.length_pos_iff.mpr fun none => ?_, short⟩,
    ordinary⟩, ⟨_, spelled.symm⟩⟩
  have blank : [] ∈ segments key := by
    unfold segments
    rw [none]
    exact List.mem_singleton_self _
  exact (ordinary [] blank).filled rfl

/-! ### Keys two jobs share -/

theorem room_below {d : Dispatch} {rest : String}
    (checked : checkLogKey (keyPrefix d ++ rest) = .ok ()) :
    checkLogKey (keyPrefix d ++ "x") = .ok () := by
  obtain ⟨⟨-, short⟩, ordinary⟩ := checkLogKey_eq_ok.mp checked
  rw [segments_keyPrefix] at ordinary
  have filled : rest.toList ≠ [] := by
    intro none
    have last : [] ∈ segments rest := by
      unfold segments
      rw [none]
      exact List.mem_singleton_self _
    exact (ordinary [] (List.mem_append_right _ last)).filled rfl
  have some := List.length_pos_iff.mpr filled
  rw [String.toList_append, List.length_append] at short
  refine checkLogKey_eq_ok.mpr ⟨?_, ?_⟩
  · rw [String.toList_append, List.length_append]
    have one : "x".toList.length = 1 := rfl
    omega
  · rw [segments_keyPrefix]
    intro s member
    rcases List.mem_append.mp member with path | name
    · exact ordinary s (List.mem_append_left _ path)
    · obtain rfl : s = ['x'] := List.mem_singleton.mp name
      refine ⟨by decide, by decide, fun c member => ?_, by decide⟩
      obtain rfl := List.mem_singleton.mp member
      exact ⟨by decide, by decide, by decide⟩

theorem shared_of_clash {d d' : Dispatch} (clash : Clash d d') :
    Accepted d (keyPrefix d' ++ "x") ∧ Accepted d' (keyPrefix d' ++ "x") := by
  obtain ⟨begins, room⟩ := clash
  have own : (keyPrefix d').toList <+: (keyPrefix d' ++ "x").toList := by
    rw [String.toList_append]
    exact List.prefix_append _ _
  exact ⟨accepted_iff.mpr ⟨room, begins.trans own⟩, accepted_iff.mpr ⟨room, own⟩⟩

/-- **Two jobs share a key exactly when the path of one begins with the path of the other** and the
longer one has room for a name below it. -/
theorem shared_iff (d d' : Dispatch) :
    (∃ key, Accepted d key ∧ Accepted d' key) ↔ Clash d d' ∨ Clash d' d := by
  constructor
  · rintro ⟨key, first, second⟩
    obtain ⟨checked, begins⟩ := accepted_iff.mp first
    obtain ⟨-, begins'⟩ := accepted_iff.mp second
    obtain ⟨rest, same⟩ := exists_rest begins
    obtain ⟨rest', same'⟩ := exists_rest begins'
    rcases List.prefix_or_prefix_of_prefix begins begins' with shorter | longer
    · exact .inl ⟨shorter, room_below (same' ▸ checked)⟩
    · exact .inr ⟨longer, room_below (same ▸ checked)⟩
  · rintro (clash | clash)
    · exact ⟨_, shared_of_clash clash⟩
    · exact ⟨_, (shared_of_clash clash).symm⟩

/-! ### The keys on a record's steps -/

/-- Every key on a step of this record was accepted for it. -/
def Keyed (d : Dispatch) (steps : List Step) : Prop :=
  ∀ s ∈ steps, ∀ key, s.logKey = some key → Accepted d key

theorem sweepStep_logKey (t : Timeouts) (now : Instant) (s : Step) :
    (sweepStep t now s).1.logKey = s.logKey := by
  rcases sweepStep_cases t now s with same | ⟨expiry, -, same⟩
  · rw [same]
  · rw [same]
    rfl

theorem Moved.logKey {now : Instant} {s s' : Step} (moved : Moved now s s') :
    s'.logKey = s.logKey := by
  cases moved <;> rfl

theorem tryTransition_logKey (s : Step) (next : StepState) :
    (s.tryTransition next).logKey = s.logKey := by
  rw [Step.tryTransition_eq]
  split <;> rfl

theorem seedStep_logKey (now : Instant) (id : StepId) (spec : StepSpec) (decision : MemoDecision) :
    (seedStep now id spec decision).logKey = none := by
  unfold seedStep
  cases decision.hit with
  | none => rfl
  | some outcome => cases outcome <;> exact tryTransition_logKey _ _

theorem settleStep_logKey {t : Timeouts} {leaseTtl : Duration} {now : Instant}
    {result : Except NodeError String} {s s' : Step}
    (settled : settleStep t leaseTtl now result s = some s') : s'.logKey = s.logKey := by
  cases result with
  | ok node =>
    obtain ⟨moved, found, rfl⟩ := Option.map_eq_some_iff.mp settled
    obtain ⟨-, rfl⟩ := Step.toOption_transition_eq_some.mp found
    rfl
  | error e =>
    obtain ⟨moved, found, rfl⟩ := Option.map_eq_some_iff.mp settled
    obtain ⟨-, rfl⟩ := Step.toOption_transition_eq_some.mp found
    rfl

theorem renewStep_logKey {leaseTtl : Duration} {fromNode : String} {now : Instant} {s s' : Step}
    (renewed : renewStep leaseTtl fromNode now s = .ok s') : s'.logKey = s.logKey := by
  unfold renewStep at renewed
  split_ifs at renewed with holder idle
  obtain rfl := Except.ok.inj renewed
  split_ifs
  · exact tryTransition_logKey _ _
  · rfl

theorem reportStep_logKey {report : StepReport} {fromNode logPrefix : String} {now : Instant}
    {s s' : Step} (accepted : reportStep report fromNode logPrefix now s = .ok s') :
    s'.logKey = acceptedLogKey report.logKey logPrefix := by
  unfold reportStep at accepted
  by_cases idle : isLeased s.state = false
  · rw [if_pos idle] at accepted
    cases accepted
  by_cases stranger : s.nodeId ≠ some fromNode
  · rw [if_neg idle, if_pos stranger] at accepted
    cases accepted
  by_cases expired : s.leaseExpiresAt.any (· < now)
  · rw [if_neg idle, if_neg stranger, if_pos expired] at accepted
    cases accepted
  rw [if_neg idle, if_neg stranger, if_neg expired] at accepted
  cases moved : s.transition (outcomeState report.outcome) with
  | error why => rw [moved] at accepted; cases accepted
  | ok m =>
    rw [moved] at accepted
    obtain rfl := Except.ok.inj accepted
    rfl

theorem Turn.logKey {cfg : DriverConfig} {e : Event} {s s' : Step} (turn : Turn cfg e s s')
    (silent : ∀ report fromNode now, e ≠ .reported report fromNode now) : s'.logKey = s.logKey := by
  induction turn with
  | stay => rfl
  | swept now s => exact sweepStep_logKey _ now s
  | graph _ moved => exact moved.logKey
  | cancelled now s => exact tryTransition_logKey s .skipped
  | assigned settled => exact settleStep_logKey settled
  | renewed accepted => exact renewStep_logKey accepted
  | reported => exact absurd rfl (silent _ _ _)
  | trans _ _ first next => exact (next silent).trans (first silent)

theorem eventStep_dispatch (cfg : DriverConfig) (w : Driver) (e : Event) :
    (eventStep cfg w e).job.dispatch = w.job.dispatch := by
  cases e with
  | drive now =>
    show (driveStep cfg now w).job.dispatch = w.job.dispatch
    cases stage : w.stage with
    | driving =>
      rw [(driveStep_driving cfg now stage).1]
      rfl
    | finishing cancel v =>
      unfold driveStep
      simp only [stage]
      cases cancel with
      | nil => exact (recordVerdict_steps (linked cfg.detailsUrl v) now w.job).2
      | cons id rest => rfl
    | done =>
      unfold driveStep
      simp only [stage]
  | assigned id result now =>
    show (settleAssignment cfg.timeouts cfg.leaseTtl now id result w.job).1.dispatch = _
    rcases settleAssignment_cases cfg.timeouts cfg.leaseTtl now id result w.job with
      same | ⟨s, s', -, -, -, same⟩ <;> rw [same]
    rfl
  | renewed id fromNode now =>
    unfold eventStep renewLease
    dsimp only
    rcases onStep_cases w.job id (renewStep cfg.leaseTtl fromNode now) with
      same | ⟨s, s', -, -, same⟩ <;> rw [same]
    rfl
  | reported report fromNode now =>
    unfold eventStep recordStepReport
    dsimp only
    rcases onStep_cases w.job report.stepId (reportStep report fromNode _ now) with
      same | ⟨s, s', -, -, same⟩ <;> rw [same]
    rfl
  | delivered attempts landed now => exact Job.tryTransitionAt_dispatch _ _ _
  | late v now =>
    unfold eventStep
    dsimp only
    split_ifs
    · exact (recordVerdict_steps v now w.job).2
    · rfl

/-- What one event keeps of a record's keys: they were accepted for the tree it is about. -/
structure Faithful (d : Dispatch) (w : Driver) : Prop where
  dispatch : w.job.dispatch = d
  keyed : Keyed d w.job.steps

/-- **Every event keeps a record's keys its own**, whatever the node reported. -/
theorem faithful_step (cfg : DriverConfig) {d : Dispatch} (w : Driver) (e : Event)
    (faithful : Faithful d w) : Faithful d (eventStep cfg w e) := by
  obtain ⟨dispatch, keyed⟩ := faithful
  refine ⟨(eventStep_dispatch cfg w e).trans dispatch, ?_⟩
  have quiet : (∀ report fromNode now, e ≠ .reported report fromNode now) →
      Keyed d (eventStep cfg w e).job.steps := fun silent =>
    (eventStep_turns cfg w e).keep
      (fun turn before key stored => before key ((turn.logKey silent).symm.trans stored)) keyed
  cases e with
  | reported report fromNode now =>
    unfold eventStep recordStepReport
    dsimp only
    rcases onStep_cases w.job report.stepId (reportStep report fromNode _ now) with
      same | ⟨s, s', found, accepted, same⟩
    · rw [same]
      exact keyed
    · rw [same]
      refine forall_modifyStep keyed fun _ _ key stored => ?_
      rw [reportStep_logKey accepted, dispatch] at stored
      exact acceptedLogKey_some stored
  | _ => exact quiet (by simp)

/-! ### A fleet of jobs -/

/-- What a job starts its steps with. -/
structure Launch where
  dispatch : Dispatch
  authorClass : AuthorClass
  created : Instant
  start : Instant
  noise : ℕ → BitVec 32
  specs : List StepSpec
  decisions : List MemoDecision

/-- A job reaches its driver's loop, or something happens to one. -/
inductive FleetEvent
  | launch (id : JobId) (l : Launch)
  | event (id : JobId) (e : Event)

/-- One event of a fleet of jobs. -/
def fleetStep (cfg : DriverConfig) (fleet : Table JobId Driver) : FleetEvent → Table JobId Driver
  | .launch id l => Table.insertNew fleet id (launched id l.dispatch l.authorClass cfg.timeouts
      l.created l.start l.noise l.specs l.decisions)
  | .event id e => Table.modify fleet id fun w => eventStep cfg w e

theorem faithful_launched (cfg : DriverConfig) (id : JobId) (l : Launch) :
    Faithful l.dispatch (launched id l.dispatch l.authorClass cfg.timeouts l.created l.start
      l.noise l.specs l.decisions) := by
  refine ⟨rfl, fun s member key stored => ?_⟩
  obtain ⟨j, spec, decision, rfl⟩ := mem_seedSteps member
  rw [seedStep_logKey] at stored
  cases stored

/-- **Every key on a step of a fleet was accepted for the step's own job.** -/
theorem fleet_faithful (cfg : DriverConfig) (events : List FleetEvent) :
    ∀ id w, (run (fleetStep cfg) ∅ events).lookup id = some w → Faithful w.job.dispatch w := by
  refine run_invariant (I := fun fleet : Table JobId Driver =>
    ∀ id w, fleet.lookup id = some w → Faithful w.job.dispatch w) ?_ ?_ events
  · intro fleet e before id w found
    cases e with
    | launch id' l =>
      rw [fleetStep, Table.lookup_insertNew] at found
      by_cases same : id = id'
      · rw [if_pos same] at found
        obtain rfl := Option.some.inj found
        cases held : fleet.lookup id' with
        | none => exact faithful_launched cfg id' l
        | some w' => exact before id' w' held
      · rw [if_neg same] at found
        exact before id w found
    | event id' e =>
      rw [fleetStep, Table.lookup_modify] at found
      by_cases same : id = id'
      · rw [if_pos same] at found
        obtain ⟨w', held, rfl⟩ := Option.map_eq_some_iff.mp found
        have next := faithful_step cfg w' e (before id' w' held)
        exact ⟨rfl, by rw [next.dispatch]; exact next.keyed⟩
      · rw [if_neg same] at found
        exact before id w found
  · intro id w found
    cases found

theorem fleet_below (cfg : DriverConfig) (events : List FleetEvent) {id : JobId} {w : Driver}
    (found : (run (fleetStep cfg) ∅ events).lookup id = some w) :
    ∀ s ∈ w.job.steps, ∀ key, s.logKey = some key → Below w.job.dispatch key :=
  fun s member key stored =>
    below_of_accepted ((fleet_faithful cfg events id w found).keyed s member key stored)

/-- **When log keys keep jobs apart.** In every run of any fleet, whatever the nodes report:

* every key on a step lies strictly below its own job's path, by ordinary names only;
* two jobs of different trees have no key in common exactly when neither path begins the other with
  room for a name below it, and then no key on a step of one lies below the path of the other. -/
theorem keys_apart_iff (cfg : DriverConfig) (events : List FleetEvent) :
    let fleet := run (fleetStep cfg) ∅ events
    (∀ id w, fleet.lookup id = some w →
      ∀ s ∈ w.job.steps, ∀ key, s.logKey = some key → Below w.job.dispatch key) ∧
    ∀ id w id' w', fleet.lookup id = some w → fleet.lookup id' = some w' → w.job.key ≠ w'.job.key →
      ((∀ key, ¬ (Accepted w.job.dispatch key ∧ Accepted w'.job.dispatch key)) ↔
        ¬ (Clash w.job.dispatch w'.job.dispatch ∨ Clash w'.job.dispatch w.job.dispatch)) ∧
      (¬ (Clash w.job.dispatch w'.job.dispatch ∨ Clash w'.job.dispatch w.job.dispatch) →
        ∀ s ∈ w.job.steps, ∀ key, s.logKey = some key → ¬ Below w'.job.dispatch key) := by
  intro fleet
  refine ⟨fun id w found => fleet_below cfg events found, fun id w id' w' found found' _ => ?_⟩
  have shared := shared_iff w.job.dispatch w'.job.dispatch
  refine ⟨by rw [← shared, not_exists], fun apart s member key stored below => apart ?_⟩
  have own := (fleet_faithful cfg events id w found).keyed s member key stored
  have short := (checkLogKey_eq_ok.mp (accepted_iff.mp own).1).1.2
  exact shared.mp ⟨key, own, accepted_of_below below short⟩

/-- A repository, and another whose name goes on with the first one's tree. -/
def outerJob : Dispatch := { repo := "acme/web", treeId := "f7a2", callbackUrl := "cb" }

def innerJob : Dispatch := { repo := "acme/web/f7a2", treeId := "01", callbackUrl := "cb" }

/-- The plan of one step that both jobs run. -/
def oneStep (d : Dispatch) : Launch :=
  ⟨d, .outsider, 0, 0, fun _ => 0, [{ name := "test" }], []⟩

/-- The node of the first job reports a key of its choosing. -/
def borrowed (key : String) : List FleetEvent :=
  let id := newStepId 0 0
  let report : StepReport :=
    { jobId := "outer", stepId := id, outcome := .passed, logKey := some key }
  [.launch "outer" (oneStep outerJob), .launch "inner" (oneStep innerJob),
    .event "outer" (.drive 1), .event "outer" (.assigned id (.ok "node") 2),
    .event "outer" (.reported report "node" 3)]

/-- The keys on the steps of one job of a fleet. -/
def keysOf (fleet : Table JobId Driver) (id : JobId) : Option (List (Option String)) :=
  (fleet.lookup id).map fun w => w.job.steps.map (·.logKey)

/-- A node's key of the job's own path is kept, and lies there. -/
theorem keys_apart_iff_once :
    ∃ w, (run (fleetStep {}) ∅ (borrowed "acme/acme/web/f7a2/test/1")).lookup "outer" = some w ∧
      ∃ s ∈ w.job.steps, s.logKey = some "acme/acme/web/f7a2/test/1" ∧
        Below w.job.dispatch "acme/acme/web/f7a2/test/1" := by
  have kept : keysOf (run (fleetStep {}) ∅ (borrowed "acme/acme/web/f7a2/test/1")) "outer" =
      some [some "acme/acme/web/f7a2/test/1"] := by
    decide +kernel
  obtain ⟨w, found, keys⟩ := Option.map_eq_some_iff.mp kept
  have held : some "acme/acme/web/f7a2/test/1" ∈ w.job.steps.map (·.logKey) := by
    rw [keys]
    exact List.mem_singleton_self _
  obtain ⟨s, member, stored⟩ := List.mem_map.mp held
  exact ⟨w, found, s, member, stored,
    (keys_apart_iff {} (borrowed _)).1 "outer" w found s member _ stored⟩

/-- **A job's node names the log of another job.** Both repositories are spelled canonically, the
trees differ, and the key that the first job's step keeps is one the second job's node may use. -/
theorem borrowed_key :
    let key := "acme/acme/web/f7a2/01/step"
    canonicalRepo outerJob.repo = .ok outerJob.repo ∧
      canonicalRepo innerJob.repo = .ok innerJob.repo ∧
      (outerJob.repo, outerJob.treeId) ≠ (innerJob.repo, innerJob.treeId) ∧
      keysOf (run (fleetStep {}) ∅ (borrowed key)) "outer" = some [some key] ∧
      Accepted outerJob key ∧ Accepted innerJob key := by
  refine ⟨?_, ?_, ?_, ?_, ?_, ?_⟩ <;> decide +kernel

end HullCi.Control
