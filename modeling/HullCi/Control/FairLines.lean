/-
**A waiting step has one live entry, and the entries stand in the order of the last enqueues.**

`release` leaves the entry of a waiting step in its queue, where it is stale. The entry comes back to
life when the step is queued again before anything has taken it off.

* `Revives` — the write that does it: a step is queued while an entry of it is still in a queue.
* `Lines` — the live entries of each class queue are the waiting steps whose last enqueue put them
  there, in the order of these enqueues.
* `lines_act` — every write that revives nothing keeps the lines.
* `represented_run` — in every run that revives nothing each waiting step has exactly one live entry,
  a tenant's depth counts its waiting steps, and a selection grants from the front.
-/

import HullCi.Control.FairActs

namespace HullCi.Control

open HullCi.Proto HullCi.Base

/-- The step an entry is for. -/
def Waiting.key (w : Waiting) : JobId × StepId := (w.jobId, w.stepId)

/-- What an enqueue asks for: the step, and the class queue of the tenant it goes to. -/
structure Ticket where
  key : JobId × StepId
  tenant : String
  priority : Priority
  deriving DecidableEq, Repr

namespace FairQueue

/-! ### Live entries -/

/-- One class queue of a tenant. -/
def lane (q : FairQueue) (T : String) : Priority → List Waiting
  | .interactive => (q.tenantAt T).interactive
  | .background => (q.tenantAt T).background

def waits (q : FairQueue) (k : JobId × StepId) : Bool :=
  q.isWaiting k.1 k.2

/-- The entries of a class queue that are not stale. -/
def line (q : FairQueue) (T : String) (p : Priority) : List (JobId × StepId) :=
  ((q.lane T p).map Waiting.key).filter q.waits

/-- A tenant's live entries, interactive ones first. -/
def order (q : FairQueue) (T : String) : List (JobId × StepId) :=
  q.line T .interactive ++ q.line T .background

/-- Whom a job is accounted to. -/
def owner (q : FairQueue) (jobId : JobId) : Option String :=
  (q.jobs.lookup jobId).map (·.tenant)

/-- The steps of a job that wait. -/
def waitingOf (jobId : JobId) (m : JobMeta) : List (JobId × StepId) :=
  (m.steps.entries.filter fun e => e.2.since.isNone).map fun e => (jobId, e.1)

/-- The steps that wait, of all jobs accounted to a tenant. -/
def waitingSteps (q : FairQueue) (T : String) : List (JobId × StepId) :=
  (q.jobs.entries.filter fun e => e.2.tenant = T).flatMap fun e => waitingOf e.1 e.2

theorem waits_iff {q : FairQueue} {k : JobId × StepId} :
    q.waits k = true ↔
      ∃ m p, q.jobs.lookup k.1 = some m ∧ m.steps.lookup k.2 = some p ∧ p.since = none := by
  unfold waits isWaiting placement
  cases known : q.jobs.lookup k.1 with
  | none => simp
  | some m =>
    cases placed : m.steps.lookup k.2 with
    | none => simp [placed]
    | some p => simp [placed]

/-- `depth` counts a tenant's live entries. -/
theorem queued_depth (q : FairQueue) (T : String) :
    (q.depth T).queued = (q.order T).length := by
  have lengths : ∀ l : List Waiting,
      ((l.map Waiting.key).filter q.waits).length
        = l.countP fun w => q.isWaiting w.jobId w.stepId := by
    intro l
    rw [← List.countP_eq_length_filter, List.countP_map]
    rfl
  unfold depth order line lane tenantAt
  rw [List.length_append, lengths, lengths]
  cases q.tenants.lookup T with
  | none => rfl
  | some t => exact List.countP_append

/-! ### Writes that queue nothing -/

/-- A write that queues nothing: what waits waited, and the live entries are those still waiting. -/
structure Fewer (q q' : FairQueue) : Prop where
  waits : ∀ k, q'.waits k = true → q.waits k = true
  line : ∀ T p, q'.line T p = (q.line T p).filter q'.waits
  owner : ∀ k, q'.waits k = true → q'.owner k.1 = q.owner k.1

theorem filter_fewer {q q' : FairQueue} (fewer : ∀ k, q'.waits k = true → q.waits k = true)
    (l : List (JobId × StepId)) : (l.filter q.waits).filter q'.waits = l.filter q'.waits := by
  rw [List.filter_filter]
  refine List.filter_congr fun k _ => ?_
  cases waits : q'.waits k with
  | true => simp [fewer k waits]
  | false => simp

/-- A write that leaves the class queues alone and lets no step begin to wait. -/
theorem fewer_of_lane {q q' : FairQueue} (lanes : ∀ T, q'.lane T = q.lane T)
    (fewer : ∀ k, q'.waits k = true → q.waits k = true)
    (owner : ∀ k, q'.waits k = true → q'.owner k.1 = q.owner k.1) : Fewer q q' where
  waits := fewer
  line T p := by
    unfold line
    rw [lanes T, filter_fewer fewer]
  owner := owner

theorem lane_of_tenantAt {q q' : FairQueue} {T : String}
    (interactive : (q'.tenantAt T).interactive = (q.tenantAt T).interactive)
    (background : (q'.tenantAt T).background = (q.tenantAt T).background) :
    q'.lane T = q.lane T := by
  funext p
  cases p with
  | interactive => exact interactive
  | background => exact background

theorem jobs_unplace (q : FairQueue) (jobId : JobId) (stepId : StepId) (at' : Instant)
    (learn : Bool) (j : JobId) :
    (q.unplace jobId stepId at' learn).owner j = q.owner j := by
  have kept : ∀ m steps, q.jobs.lookup jobId = some m → ∀ books : FairQueue,
      books.jobs = q.jobs.insert jobId { m with steps := steps } → books.owner j = q.owner j := by
    intro m steps known books same
    unfold owner
    rw [same, Table.lookup_insert]
    by_cases here : j = jobId
    · rw [if_pos here, here, known]
      rfl
    · rw [if_neg here]
  unfold unplace
  cases known : q.jobs.lookup jobId with
  | none => rfl
  | some m =>
    dsimp only
    cases m.steps.lookup stepId with
    | none => rfl
    | some p =>
      dsimp only
      cases p.since with
      | none => exact kept m _ known _ rfl
      | some since =>
        dsimp only
        split
        · unfold observeCost
          dsimp only
          split <;> exact kept m _ known _ rfl
        · exact kept m _ known _ rfl

theorem lane_settled {q q' : FairQueue} {U : String} {jobId : JobId} {stepId : StepId}
    {at' : Instant} {ran : Duration} {charged : Option ℚ} {weight : ℚ}
    (settled : q'.tenants = q.tenants.modify U (settleUp jobId stepId at' ran charged weight))
    (T : String) : q'.lane T = q.lane T := by
  have whole : ∀ f : Tenant → List Waiting,
      (∀ t, f (settleUp jobId stepId at' ran charged weight t) = f t) →
        f (q'.tenantAt T) = f (q.tenantAt T) := by
    intro f keeps
    unfold tenantAt
    rw [settled, Table.lookup_modify]
    by_cases same : T = U
    · rw [if_pos same, same]
      cases q.tenants.lookup U with
      | none => rfl
      | some t => exact keeps t
    · rw [if_neg same]
  exact lane_of_tenantAt (whole (·.interactive) fun _ => rfl) (whole (·.background) fun _ => rfl)

theorem lane_unplace (q : FairQueue) (jobId : JobId) (stepId : StepId) (at' : Instant)
    (learn : Bool) (T : String) : (q.unplace jobId stepId at' learn).lane T = q.lane T := by
  unfold unplace
  cases q.jobs.lookup jobId with
  | none => rfl
  | some m =>
    dsimp only
    cases m.steps.lookup stepId with
    | none => rfl
    | some p =>
      dsimp only
      cases p.since with
      | none => rfl
      | some since =>
        dsimp only
        split
        · unfold observeCost
          dsimp only
          split <;> exact lane_settled rfl T
        · exact lane_settled rfl T

theorem fewer_unplace (q : FairQueue) (jobId : JobId) (stepId : StepId) (at' : Instant)
    (learn : Bool) : Fewer q (q.unplace jobId stepId at' learn) := by
  refine fewer_of_lane (lane_unplace q jobId stepId at' learn) (fun k waits => ?_)
    fun k _ => jobs_unplace q jobId stepId at' learn k.1
  unfold FairQueue.waits isWaiting at waits ⊢
  rw [placement_unplace] at waits
  split at waits
  · cases waits
  · exact waits

theorem lane_admitJob (q : FairQueue) (jobId : JobId) (tenant : String) (priority : Priority)
    (T : String) : (q.admitJob jobId tenant priority).lane T = q.lane T := by
  have whole : (q.admitJob jobId tenant priority).tenantAt T = q.tenantAt T :=
    tenantAt_insertNew q.tenants tenant T
  exact lane_of_tenantAt (congrArg (·.interactive) whole) (congrArg (·.background) whole)

theorem fewer_admitJob (q : FairQueue) (jobId : JobId) (tenant : String) (priority : Priority) :
    Fewer q (q.admitJob jobId tenant priority) := by
  have same : ∀ k, (q.admitJob jobId tenant priority).waits k = q.waits k := by
    intro k
    unfold waits
    exact isWaiting_eq (placement_admitJob q jobId tenant priority k.1 k.2)
  refine fewer_of_lane (lane_admitJob q jobId tenant priority)
    (fun k waits => (same k).symm.trans waits) fun k waits => ?_
  rw [same] at waits
  obtain ⟨m, p, known, -⟩ := waits_iff.mp waits
  unfold owner
  rw [lookup_admitJob]
  split
  · rename_i here
    rw [← here, known]
    rfl
  · rfl

theorem lane_adopt (q : FairQueue) (jobId : JobId) (stepId : StepId) (name : String)
    (since : Instant) (T : String) : (q.adopt jobId stepId name since).lane T = q.lane T := by
  unfold adopt
  cases q.jobs.lookup jobId with
  | none => rfl
  | some m =>
    have whole := tenantAt_opened q.tenants m.tenant T fun t =>
      { t with running := t.running.insert (jobId, stepId) since }
    refine lane_of_tenantAt ((congrArg (·.interactive) whole).trans ?_)
      ((congrArg (·.background) whole).trans ?_)
    · split <;> rfl
    · split <;> rfl

theorem fewer_adopt {q : FairQueue} {jobId : JobId} {stepId : StepId}
    (none : q.placement jobId stepId = none) (name : String) (since : Instant) :
    Fewer q (q.adopt jobId stepId name since) := by
  obtain ⟨moves, idle⟩ := adopt_cases q jobId stepId name since
  refine fewer_of_lane (lane_adopt q jobId stepId name since) (fun k waits => ?_) fun k _ => ?_
  · unfold FairQueue.waits at waits ⊢
    by_cases here : k.1 = jobId ∧ k.2 = stepId
    · rw [here.1, here.2, idle none] at waits
      cases waits
    · rwa [isWaiting_eq (moves.others k.1 k.2 here)] at waits
  · unfold adopt owner
    cases known : q.jobs.lookup jobId with
    | none => rfl
    | some m =>
      dsimp only
      rw [Table.lookup_insert]
      split
      · rename_i here
        rw [here, known]
        rfl
      · rfl

theorem fewer_drop {q : FairQueue} {jobId : JobId} (idle : ∀ stepId, q.placement jobId stepId = none) :
    Fewer q { q with jobs := q.jobs.erase jobId } := by
  have placed : ∀ j i, FairQueue.placement { q with jobs := q.jobs.erase jobId } j i =
      q.placement j i := by
    intro j i
    by_cases here : j = jobId
    · rw [here, idle]
      unfold placement
      rw [Table.lookup_erase, if_pos rfl]
      rfl
    · unfold placement
      rw [Table.lookup_erase, if_neg here]
  refine fewer_of_lane (fun _ => rfl) (fun k waits => ?_) fun k waits => ?_
  · unfold FairQueue.waits at waits ⊢
    rwa [isWaiting_eq (placed k.1 k.2)] at waits
  · obtain ⟨m, p, known, -⟩ := waits_iff.mp waits
    rw [Table.lookup_erase] at known
    unfold owner
    rw [Table.lookup_erase]
    split at known
    · cases known
    · rename_i other
      rw [if_neg other]

theorem lane_pruneLedgers (q : FairQueue) (now : Instant) (T : String) :
    (q.pruneLedgers now).lane T = q.lane T := by
  refine lane_of_tenantAt ?_ ?_
  all_goals
    unfold pruneLedgers tenantAt
    dsimp only
    rw [Table.lookup_mapValues]
    cases q.tenants.lookup T <;> rfl

theorem fewer_pruneLedgers (q : FairQueue) (now : Instant) : Fewer q (q.pruneLedgers now) :=
  fewer_of_lane (lane_pruneLedgers q now) (fun _ waits => waits) fun _ _ => rfl

theorem lane_dropStaleHeads (q : FairQueue) (T : String) (p : Priority) :
    q.dropStaleHeads.lane T p =
      (q.lane T p).dropWhile fun w => !q.isWaiting w.jobId w.stepId := by
  have whole : q.dropStaleHeads.tenantAt T = { q.tenantAt T with
      interactive := (q.tenantAt T).interactive.dropWhile fun w => !q.isWaiting w.jobId w.stepId
      background := (q.tenantAt T).background.dropWhile fun w => !q.isWaiting w.jobId w.stepId } := by
    unfold dropStaleHeads tenantAt
    dsimp only
    rw [Table.lookup_mapValues]
    cases q.tenants.lookup T <;> rfl
  unfold lane
  rw [whole]
  cases p <;> rfl

theorem line_dropStaleHeads (q : FairQueue) (T : String) (p : Priority) :
    q.dropStaleHeads.line T p = q.line T p := by
  have live : ∀ l : List Waiting,
      ((l.dropWhile fun w => !q.isWaiting w.jobId w.stepId).map Waiting.key).filter q.waits
        = (l.map Waiting.key).filter q.waits := by
    intro l
    rw [List.filter_map, List.filter_map]
    exact congrArg (List.map Waiting.key)
      (filter_dropWhile_not (fun w : Waiting => q.isWaiting w.jobId w.stepId) l)
  have same : q.dropStaleHeads.waits = q.waits := rfl
  unfold line
  rw [same, lane_dropStaleHeads]
  exact live _

theorem fewer_dropStaleHeads (q : FairQueue) : Fewer q q.dropStaleHeads where
  waits _ waits := waits
  line T p := by
    rw [line_dropStaleHeads]
    refine (List.filter_eq_self.mpr fun k member => ?_).symm
    exact (List.mem_filter.mp member).2
  owner _ _ := rfl

/-! ### A grant -/

/-- A head is the front of its class queue, and a pop takes it off. -/
theorem head_cases {t : Tenant} {w : Waiting} (head : t.head = some w) :
    (∃ rest, t.interactive = w :: rest ∧ t.pop = { t with interactive := rest }) ∨
      t.interactive = [] ∧ ∃ rest, t.background = w :: rest ∧ t.pop = { t with background := rest } := by
  have front : ∀ {l : List Waiting}, l.head? = some w → l = w :: l.tail := by
    intro l first
    cases l with
    | nil => cases first
    | cons v rest =>
      obtain rfl := Option.some.inj first
      rfl
  unfold Tenant.head at head
  unfold Tenant.pop
  cases known : t.headClass with
  | none => rw [known] at head; cases head
  | some p =>
    rw [known] at head
    cases p with
    | interactive => exact .inl ⟨_, front head, rfl⟩
    | background =>
      refine .inr ⟨?_, _, front head, rfl⟩
      unfold Tenant.headClass at known
      by_contra queued
      rw [if_pos queued] at known
      cases known

theorem waits_granted (q : FairQueue) (now : Instant) (T : String) (t : Tenant) (start vft : ℚ)
    (w : Waiting) (k : JobId × StepId) :
    (q.granted now T t start vft w).waits k = (q.waits k && decide (k ≠ w.key)) := by
  unfold FairQueue.waits isWaiting
  rw [placement_granted]
  by_cases here : k.1 = w.jobId ∧ k.2 = w.stepId
  · have same : k = w.key := Prod.ext here.1 here.2
    rw [if_pos here]
    cases q.placement k.1 k.2 <;> simp [same]
  · have other : k ≠ w.key := fun same => here ⟨congrArg Prod.fst same, congrArg Prod.snd same⟩
    rw [if_neg here]
    simp [other]

theorem tenantAt_granted (q : FairQueue) (now : Instant) (T : String) (t : Tenant) (start vft : ℚ)
    (w : Waiting) (U : String) :
    (q.granted now T t start vft w).tenantAt U =
      if U = T then { t.pop with
        vftLast := vft
        running := t.pop.running.insert (w.jobId, w.stepId) now }
      else q.tenantAt U := by
  unfold granted charge tenantAt
  dsimp only
  rw [Table.lookup_modify]
  by_cases same : U = T
  · rw [if_pos same, if_pos same, Table.lookup_insert, if_pos rfl]
    rfl
  · rw [if_neg same, if_neg same, Table.lookup_insert, if_neg same]

theorem owner_granted (q : FairQueue) (now : Instant) (T : String) (t : Tenant) (start vft : ℚ)
    (w : Waiting) (j : JobId) : (q.granted now T t start vft w).owner j = q.owner j := by
  unfold granted charge owner
  dsimp only
  rw [Table.lookup_modify]
  by_cases same : j = w.jobId
  · rw [if_pos same, same, Option.map_map]
    cases q.jobs.lookup w.jobId <;> rfl
  · rw [if_neg same]

section Granted

variable {q : FairQueue} {T : String} {t : Tenant} {w : Waiting}

/-- The live entries of the tenant that is granted its head begin with that head. -/
theorem order_cons (known : q.tenants.lookup T = some t) (head : t.head = some w)
    (waits : q.isWaiting w.jobId w.stepId = true) : ∃ rest, q.order T = w.key :: rest := by
  have whole : q.tenantAt T = t := by
    unfold tenantAt
    rw [known, Option.getD_some]
  have live : ∀ rest, ((w :: rest).map Waiting.key).filter q.waits
      = w.key :: (rest.map Waiting.key).filter q.waits := fun rest => by
    exact List.filter_cons_of_pos (p := q.waits) (a := w.key) waits
  unfold order line lane
  rw [whole]
  rcases head_cases head with ⟨rest, front, -⟩ | ⟨none, rest, front, -⟩
  · rw [front, live]
    exact ⟨_, List.cons_append⟩
  · rw [none, front, live]
    exact ⟨_, rfl⟩

/-- A grant takes the granted step out of the live entries, and nothing else. -/
theorem fewer_granted (known : q.tenants.lookup T = some t) (head : t.head = some w)
    (now : Instant) (start vft : ℚ) :
    Fewer q (q.granted now T t start vft w) := by
  have after := waits_granted q now T t start vft w
  have fewer : ∀ k, (q.granted now T t start vft w).waits k = true → q.waits k = true := by
    intro k still
    rw [after] at still
    exact (Bool.and_eq_true_iff.mp still).1
  have gone : (q.granted now T t start vft w).waits w.key = false := by
    rw [after]
    simp
  have popped : ∀ rest, (rest.map Waiting.key).filter (q.granted now T t start vft w).waits =
      ((w :: rest).map Waiting.key).filter (q.granted now T t start vft w).waits := fun rest => by
    rw [List.map_cons, List.filter_cons_of_neg (by rw [gone]; exact Bool.false_ne_true)]
  refine ⟨fewer, fun U p => ?_, fun k _ => owner_granted q now T t start vft w k.1⟩
  unfold line
  rw [filter_fewer fewer]
  unfold lane
  rw [tenantAt_granted]
  by_cases same : U = T
  · have whole : q.tenantAt U = t := by
      unfold tenantAt
      rw [same, known, Option.getD_some]
    rw [if_pos same, whole]
    rcases head_cases head with ⟨rest, front, pop⟩ | ⟨-, rest, front, pop⟩
    · rw [pop]
      cases p with
      | interactive =>
        rw [front]
        exact popped rest
      | background => rfl
    · rw [pop]
      cases p with
      | interactive => rfl
      | background =>
        rw [front]
        exact popped rest
  · rw [if_neg same]

end Granted

/-! ### Queueing -/

/-- The enqueue a write is, if it is one that takes effect. -/
def tickets (q : FairQueue) : Act → List Ticket
  | .enqueue jobId stepId _ =>
    match q.jobs.lookup jobId with
    | none => []
    | some m =>
      if (m.steps.lookup stepId).isSome then [] else [⟨(jobId, stepId), m.tenant, m.priority⟩]
  | _ => []

/-- An enqueue sends its step to the end of the line. -/
def record (line : List Ticket) (t : Ticket) : List Ticket :=
  line.filter (fun t' => t'.key ≠ t.key) ++ [t]

/-- The last enqueue of every step, in the order in which these were made. -/
def latest (history : List Ticket) : List Ticket :=
  history.foldl record []

/-- A step is queued while an entry of it is still in a queue. -/
def Revives (q : FairQueue) (a : Act) : Prop :=
  ∃ t ∈ q.tickets a, q.Listed t.key.1 t.key.2

theorem listed_iff {q : FairQueue} {jobId : JobId} {stepId : StepId} :
    q.Listed jobId stepId ↔ ∃ e ∈ q.tenants.entries, ∃ w ∈ e.2.interactive ++ e.2.background,
      w.jobId = jobId ∧ w.stepId = stepId := by
  unfold Listed queued tenantAt
  constructor
  · rintro ⟨T, w, member, own⟩
    cases known : q.tenants.lookup T with
    | none =>
      rw [known] at member
      cases member
    | some t =>
      rw [known, Option.getD_some] at member
      exact ⟨⟨T, t⟩, Table.mem_entries.mpr known, w, member, own⟩
  · rintro ⟨e, known, w, member, own⟩
    refine ⟨e.1, w, ?_, own⟩
    rw [Table.mem_entries.mp known]
    exact member

instance (q : FairQueue) (jobId : JobId) (stepId : StepId) : Decidable (q.Listed jobId stepId) :=
  decidable_of_iff _ listed_iff.symm

instance (q : FairQueue) (a : Act) : Decidable (q.Revives a) :=
  inferInstanceAs (Decidable (∃ t ∈ q.tickets a, q.Listed t.key.1 t.key.2))

/-- The live entries are the waiting steps, each where its last enqueue put it, in that order. -/
structure Lines (L : List Ticket) (q : FairQueue) : Prop where
  distinct : (L.map (·.key)).Nodup
  lines : ∀ T p, q.line T p =
    (L.filter fun t => t.tenant = T ∧ t.priority = p ∧ q.waits t.key).map (·.key)
  owned : ∀ k, q.waits k = true → ∃ t ∈ L, t.key = k ∧ q.owner k.1 = some t.tenant

theorem lines_new (cfg : FairShare) : Lines [] (FairQueue.new cfg) where
  distinct := List.nodup_nil
  lines T p := by cases p <;> rfl
  owned k waits := by cases waits

theorem Lines.fewer {L : List Ticket} {q q' : FairQueue} (lines : Lines L q)
    (fewer : Fewer q q') : Lines L q' where
  distinct := lines.distinct
  lines T p := by
    rw [fewer.line, lines.lines, List.filter_map, List.filter_filter]
    congr 1
    refine List.filter_congr fun t _ => ?_
    cases waits : q'.waits t.key with
    | true => simp [fewer.waits _ waits, waits]
    | false => simp [waits]
  owned k waits := by
    obtain ⟨t, member, own, accounted⟩ := lines.owned k (fewer.waits k waits)
    exact ⟨t, member, own, (fewer.owner k waits).trans accounted⟩

theorem enqueue_of_tickets_nil {q : FairQueue} {jobId : JobId} {stepId : StepId} {stepName : String}
    (none : q.tickets (.enqueue jobId stepId stepName) = []) :
    q.enqueue jobId stepId stepName = q := by
  dsimp only [tickets] at none
  unfold enqueue
  cases known : q.jobs.lookup jobId with
  | none => rfl
  | some m =>
    rw [known] at none
    dsimp only at none ⊢
    split at none
    · rename_i placed
      rw [if_pos placed]
    · cases none

/-- What an enqueue that takes effect does: its step waits, last in its class queue. -/
structure Queued (q q' : FairQueue) (t : Ticket) : Prop where
  fresh : q.waits t.key = false
  waits : ∀ k, q'.waits k = (q.waits k || decide (k = t.key))
  lane : ∀ T p, (q'.lane T p).map Waiting.key = (q.lane T p).map Waiting.key ++
    if T = t.tenant ∧ p = t.priority then [t.key] else []
  owner : ∀ j, q'.owner j = q.owner j
  accounted : q.owner t.key.1 = some t.tenant

theorem queued_enqueue {q : FairQueue} {jobId : JobId} {stepId : StepId} {stepName : String}
    {t : Ticket} (asked : t ∈ q.tickets (.enqueue jobId stepId stepName)) :
    q.tickets (.enqueue jobId stepId stepName) = [t] ∧
      Queued q (q.enqueue jobId stepId stepName) t := by
  dsimp only [tickets] at asked ⊢
  unfold enqueue
  cases known : q.jobs.lookup jobId with
  | none =>
    rw [known] at asked
    cases asked
  | some m =>
    rw [known] at asked
    dsimp only at asked ⊢
    by_cases placed : (m.steps.lookup stepId).isSome = true
    · rw [if_pos placed] at asked
      cases asked
    · rw [if_neg placed] at asked
      obtain rfl := List.mem_singleton.mp asked
      rw [if_neg placed, if_neg placed]
      have missing : m.steps.lookup stepId = none := by
        cases found : m.steps.lookup stepId with
        | none => rfl
        | some p => simp [found] at placed
      have after := placement_insert q known stepId ⟨stepName, none, none⟩
        ((q.tenants.insertNew m.tenant {}).modify m.tenant
          (·.push ⟨jobId, stepId, q.estimate m.tenant stepName⟩ m.priority))
      refine ⟨rfl, ?_, fun k => ?_, fun T p => ?_, fun j => ?_, ?_⟩
      · unfold FairQueue.waits isWaiting placement
        simp [known, missing]
      · unfold FairQueue.waits isWaiting
        rw [after]
        by_cases here : k.1 = jobId ∧ k.2 = stepId
        · have same : k = (jobId, stepId) := Prod.ext here.1 here.2
          rw [if_pos here]
          simp [same]
        · have other : k ≠ (jobId, stepId) := fun same => here (by rw [same]; exact ⟨rfl, rfl⟩)
          rw [if_neg here]
          simp [other]
      · have opened := tenantAt_opened q.tenants m.tenant T
          (·.push ⟨jobId, stepId, q.estimate m.tenant stepName⟩ m.priority)
        unfold lane
        cases p <;>
        · dsimp only
          unfold tenantAt
          dsimp only
          rw [opened]
          by_cases same : T = m.tenant
          · rw [if_pos same]
            cases priority : m.priority <;> simp [Tenant.push, same, Waiting.key]
          · rw [if_neg same]
            simp [same]
      · unfold owner
        dsimp only
        rw [Table.lookup_insert]
        split
        · rename_i here
          rw [here, known]
          rfl
        · rfl
      · unfold owner
        rw [known]
        rfl

theorem mem_lane_listed {q : FairQueue} {T : String} {p : Priority} {k : JobId × StepId}
    (member : k ∈ (q.lane T p).map Waiting.key) : q.Listed k.1 k.2 := by
  obtain ⟨w, held, rfl⟩ := List.mem_map.mp member
  refine ⟨T, w, ?_, rfl, rfl⟩
  cases p with
  | interactive => exact List.mem_append_left _ held
  | background => exact List.mem_append_right _ held

/-- An enqueue that revives nothing sends its step to the end of its line. -/
theorem Lines.queued {L : List Ticket} {q q' : FairQueue} {t : Ticket} (lines : Lines L q)
    (queued : Queued q q' t) (fresh : ¬ q.Listed t.key.1 t.key.2) : Lines (record L t) q' where
  distinct := by
    unfold record
    rw [List.map_append, List.nodup_append]
    refine ⟨lines.distinct.sublist (List.filter_sublist.map _), List.nodup_singleton _, ?_⟩
    intro k old k' new same
    obtain ⟨t', member, rfl⟩ := List.mem_map.mp old
    rw [List.map_singleton, List.mem_singleton] at new
    exact of_decide_eq_true (List.mem_filter.mp member).2 (same.trans new)
  lines T p := by
    have kept : ((q.lane T p).map Waiting.key).filter q'.waits = q.line T p := by
      refine List.filter_congr fun k member => ?_
      have other : k ≠ t.key := fun same => fresh (same ▸ mem_lane_listed member)
      rw [queued.waits, decide_eq_false other, Bool.or_false]
    have older : (L.filter fun t' => t'.key ≠ t.key).filter
          (fun t' => t'.tenant = T ∧ t'.priority = p ∧ q'.waits t'.key)
        = L.filter fun t' => t'.tenant = T ∧ t'.priority = p ∧ q.waits t'.key := by
      rw [List.filter_filter]
      refine List.filter_congr fun t' _ => ?_
      rw [queued.waits]
      by_cases same : t'.key = t.key
      · simp [same, queued.fresh]
      · simp [same]
    have new : q'.waits t.key = true := by
      rw [queued.waits]
      simp
    unfold line record
    rw [queued.lane, List.filter_append, kept, lines.lines, List.filter_append, older,
      List.map_append]
    congr 1
    by_cases here : T = t.tenant ∧ p = t.priority
    · rw [if_pos here]
      simp [new, here.1, here.2]
    · rw [if_neg here]
      have other : ¬ (t.tenant = T ∧ t.priority = p) := fun both => here ⟨both.1.symm, both.2.symm⟩
      simp [new]
      exact fun same => fun again => other ⟨same, again⟩
  owned k waits := by
    rw [queued.owner]
    by_cases same : k = t.key
    · refine ⟨t, List.mem_append_right _ (List.mem_singleton_self t), same.symm, ?_⟩
      rw [same]
      exact queued.accounted
    · rw [queued.waits, decide_eq_false same, Bool.or_false] at waits
      obtain ⟨t', member, own, accounted⟩ := lines.owned k waits
      refine ⟨t', List.mem_append_left _ (List.mem_filter.mpr ⟨member, ?_⟩), own, accounted⟩
      exact decide_eq_true (own ▸ same)

/-- **Every write that revives nothing keeps the lines.** -/
theorem lines_act {L : List Ticket} {q : FairQueue} {a : Act} (lines : Lines L q)
    (fits : q.Fits a) (fresh : ¬ q.Revives a) :
    Lines ((q.tickets a).foldl record L) (q.act a) := by
  cases a with
  | admits jobId tenant priority => exact lines.fewer (fewer_admitJob q jobId tenant priority)
  | unplace jobId stepId at' learn => exact lines.fewer (fewer_unplace q jobId stepId at' learn)
  | adopt jobId stepId name since => exact lines.fewer (fewer_adopt fits name since)
  | drop jobId => exact lines.fewer (fewer_drop fits)
  | prune now => exact lines.fewer (fewer_pruneLedgers q now)
  | tidy => exact lines.fewer (fewer_dropStaleHeads q)
  | grant now tenant t start vft w =>
    exact lines.fewer (fewer_granted fits.1 fits.2.1 now start vft)
  | enqueue jobId stepId stepName =>
    cases asked : q.tickets (.enqueue jobId stepId stepName) with
    | nil =>
      show Lines L (q.enqueue jobId stepId stepName)
      rw [enqueue_of_tickets_nil asked]
      exact lines
    | cons t rest =>
      have member : t ∈ q.tickets (.enqueue jobId stepId stepName) := asked ▸ List.mem_cons_self
      obtain ⟨only, queued⟩ := queued_enqueue member
      rw [only, List.cons.injEq] at asked
      rw [← asked.2]
      exact lines.queued queued fun listed => fresh ⟨t, member, listed⟩

/-! ### Runs -/

/-- The enqueues that take effect among a list of writes. -/
def ticketsAll : FairQueue → List Act → List Ticket
  | _, [] => []
  | q, a :: as => q.tickets a ++ ticketsAll (q.act a) as

/-- The enqueues that take effect in a run. -/
def enqueued : FairQueue → List FairOp → List Ticket
  | _, [] => []
  | q, op :: ops => ticketsAll q (q.acts op) ++ enqueued (q.apply op) ops

/-- A call that queues no step of which an entry is still in a queue. -/
def RevivesNone (q : FairQueue) (op : FairOp) : Prop :=
  Along act (fun q a => ¬ q.Revives a) q (q.acts op)

instance (q : FairQueue) (op : FairOp) : Decidable (q.RevivesNone op) :=
  inferInstanceAs (Decidable (Along act (fun q a => ¬ q.Revives a) q (q.acts op)))

theorem lines_acts {as : List Act} {L : List Ticket} {q : FairQueue} (lines : Lines L q)
    (fits : Along act Fits q as) (fresh : Along act (fun q a => ¬ q.Revives a) q as) :
    Lines ((ticketsAll q as).foldl record L) (run act q as) := by
  induction as generalizing L q with
  | nil => exact lines
  | cons a as ih =>
    unfold ticketsAll
    rw [List.foldl_append]
    exact ih (lines_act lines fits.1 fresh.1) fits.2 fresh.2

/-- **Every run that revives nothing keeps the lines.** -/
theorem lines_run {ops : List FairOp} {L : List Ticket} {q : FairQueue} (lines : Lines L q)
    (fresh : Along apply RevivesNone q ops) :
    Lines ((enqueued q ops).foldl record L) (run apply q ops) := by
  induction ops generalizing L q with
  | nil => exact lines
  | cons op ops ih =>
    unfold enqueued
    rw [List.foldl_append]
    have one := lines_acts lines (fits_acts q op) fresh.1
    rw [run_acts] at one
    exact ih one fresh.2

/-! ### What the lines say -/

theorem mem_waitingSteps {q : FairQueue} {T : String} {k : JobId × StepId} :
    k ∈ q.waitingSteps T ↔ q.waits k = true ∧ q.owner k.1 = some T := by
  unfold waitingSteps waitingOf owner
  rw [waits_iff]
  constructor
  · intro member
    obtain ⟨e, job, held⟩ := List.mem_flatMap.mp member
    obtain ⟨known, own⟩ := List.mem_filter.mp job
    obtain ⟨e', step, rfl⟩ := List.mem_map.mp held
    obtain ⟨placed, idle⟩ := List.mem_filter.mp step
    have found : q.jobs.lookup e.1 = some e.2 := Table.mem_entries.mp known
    refine ⟨⟨e.2, e'.2, found, Table.mem_entries.mp placed, Option.isNone_iff_eq_none.mp idle⟩, ?_⟩
    rw [found]
    exact congrArg some (of_decide_eq_true own)
  · rintro ⟨⟨m, p, found, placed, idle⟩, own⟩
    rw [found] at own
    refine List.mem_flatMap.mpr ⟨⟨k.1, m⟩, List.mem_filter.mpr ⟨Table.mem_entries.mpr found,
      decide_eq_true (Option.some.inj own)⟩, List.mem_map.mpr ⟨⟨k.2, p⟩, ?_, rfl⟩⟩
    exact List.mem_filter.mpr ⟨Table.mem_entries.mpr placed, by rw [idle]; rfl⟩

theorem nodup_waitingSteps (q : FairQueue) (T : String) : (q.waitingSteps T).Nodup := by
  unfold waitingSteps
  rw [List.nodup_flatMap]
  constructor
  · intro e _
    unfold waitingOf
    have keys := e.2.steps.nodupKeys
    refine List.Nodup.of_map Prod.snd ?_
    rw [List.map_map]
    exact List.Nodup.sublist (List.filter_sublist.map Sigma.fst) keys
  · have keys := List.pairwise_map.mp q.jobs.nodupKeys
    refine (keys.sublist List.filter_sublist).imp fun other k first second => ?_
    obtain ⟨e, -, rfl⟩ := List.mem_map.mp first
    obtain ⟨e', -, same⟩ := List.mem_map.mp second
    exact other (congrArg Prod.fst same).symm

section Lines

variable {L : List Ticket} {q : FairQueue}

theorem Lines.mem_line (lines : Lines L q) {T : String} {p : Priority} {k : JobId × StepId} :
    k ∈ q.line T p ↔ q.waits k = true ∧ ∃ t ∈ L, t.key = k ∧ t.tenant = T ∧ t.priority = p := by
  rw [lines.lines, List.mem_map]
  constructor
  · rintro ⟨t, member, rfl⟩
    obtain ⟨held, own, class', waits⟩ := by simpa using List.mem_filter.mp member
    exact ⟨waits, t, held, rfl, own, class'⟩
  · rintro ⟨waits, t, held, rfl, own, class'⟩
    exact ⟨t, List.mem_filter.mpr ⟨held, decide_eq_true ⟨own, class', waits⟩⟩, rfl⟩

theorem Lines.same_ticket (lines : Lines L q) {t t' : Ticket} (first : t ∈ L) (second : t' ∈ L)
    (same : t.key = t'.key) : t = t' :=
  List.inj_on_of_nodup_map lines.distinct first second same

theorem Lines.nodup_line (lines : Lines L q) (T : String) (p : Priority) : (q.line T p).Nodup := by
  rw [lines.lines]
  exact lines.distinct.sublist (List.filter_sublist.map _)

theorem Lines.nodup_order (lines : Lines L q) (T : String) : (q.order T).Nodup := by
  refine List.Nodup.append (lines.nodup_line T _) (lines.nodup_line T _) fun k first second => ?_
  obtain ⟨-, t, member, own, -, class'⟩ := lines.mem_line.mp first
  obtain ⟨-, t', member', own', -, class''⟩ := lines.mem_line.mp second
  obtain rfl := lines.same_ticket member member' (own.trans own'.symm)
  rw [class'] at class''
  cases class''

theorem Lines.mem_order (lines : Lines L q) {T : String} {k : JobId × StepId} :
    k ∈ q.order T ↔ k ∈ q.waitingSteps T := by
  rw [mem_waitingSteps]
  unfold order
  rw [List.mem_append]
  constructor
  · intro either
    have listed : ∃ p, k ∈ q.line T p := either.elim (⟨_, ·⟩) (⟨_, ·⟩)
    obtain ⟨p, live⟩ := listed
    obtain ⟨waits, t, member, own, tenant, -⟩ := lines.mem_line.mp live
    obtain ⟨t', member', own', accounted⟩ := lines.owned k waits
    obtain rfl := lines.same_ticket member member' (own.trans own'.symm)
    exact ⟨waits, tenant ▸ accounted⟩
  · rintro ⟨waits, accounted⟩
    obtain ⟨t, member, own, accounted'⟩ := lines.owned k waits
    rw [accounted] at accounted'
    have live : k ∈ q.line T t.priority :=
      lines.mem_line.mpr ⟨waits, t, member, own, (Option.some.inj accounted').symm, rfl⟩
    cases class' : t.priority with
    | interactive => exact .inl (class' ▸ live)
    | background => exact .inr (class' ▸ live)

theorem Lines.apart (lines : Lines L q) {T U : String} {k : JobId × StepId}
    (first : k ∈ q.order T) (second : k ∈ q.order U) : T = U := by
  have one := (mem_waitingSteps.mp (lines.mem_order.mp first)).2
  have other := (mem_waitingSteps.mp (lines.mem_order.mp second)).2
  exact Option.some.inj (one.symm.trans other)

theorem order_fewer {q' : FairQueue} (fewer : Fewer q q') (T : String) :
    q'.order T = (q.order T).filter q'.waits := by
  unfold order
  rw [fewer.line, fewer.line, List.filter_append]

/-- One turn grants the front of a tenant's live entries, and leaves the rest and everyone else's. -/
theorem order_turn (lines : Lines L q) {now : Instant} {r : FairQueue × Option Grant}
    (turn : Turn q now r) :
    Lines L r.1 ∧ ∀ T, ((r.2.toList.filter (·.tenant = T)).map Grant.key) ++ r.1.order T
      = q.order T := by
  have tidy := lines.fewer (fewer_dropStaleHeads q)
  have orders : ∀ T, q.dropStaleHeads.order T = q.order T := by
    intro T
    unfold order
    rw [line_dropStaleHeads, line_dropStaleHeads]
  cases turn with
  | rest => exact ⟨tidy, orders⟩
  | @grant U t w start vft known head bids least =>
    have waits : q.isWaiting w.jobId w.stepId = true := head_isWaiting known head
    have fewer := fewer_granted known head now start vft
    refine ⟨tidy.fewer fewer, fun T => ?_⟩
    obtain ⟨rest, front⟩ := order_cons known head waits
    have distinct := tidy.nodup_order U
    rw [front, List.nodup_cons] at distinct
    -- What is not the granted step stays among the live entries.
    have stays : ∀ l : List (JobId × StepId), w.key ∉ l →
        (∀ k ∈ l, q.dropStaleHeads.waits k = true) →
        l.filter (q.dropStaleHeads.granted now U t start vft w).waits = l := by
      intro l absent live
      refine List.filter_eq_self.mpr fun k member => ?_
      rw [waits_granted, live k member]
      have other : k ≠ w.key := fun same => absent (same ▸ member)
      simp [other]
    have live : ∀ V, ∀ k ∈ q.dropStaleHeads.order V, q.dropStaleHeads.waits k = true :=
      fun V k member => (mem_waitingSteps.mp (tidy.mem_order.mp member)).1
    have after := order_fewer fewer T
    show _ ++ (q.dropStaleHeads.granted now U t start vft w).order T = _
    rw [after, ← orders]
    by_cases same : U = T
    · subst same
      have gone : (q.dropStaleHeads.granted now U t start vft w).waits w.key = false := by
        rw [waits_granted]
        simp
      rw [front, List.filter_cons_of_neg (by rw [gone]; exact Bool.false_ne_true),
        stays rest distinct.1 fun k member => live U k (front ▸ List.mem_cons_of_mem _ member)]
      simp [Grant.key, Waiting.key]
    · rw [stays _ ?_ (live T)]
      · simp [same]
      · intro member
        exact same (tidy.apart (front ▸ List.mem_cons_self) member)

theorem order_loop (now : Instant) (budget : ℕ) {q : FairQueue} (lines : Lines L q) (T : String) :
    (((selectLoop now budget q).2.filter (·.tenant = T)).map Grant.key)
      ++ (selectLoop now budget q).1.order T = q.order T := by
  induction budget generalizing q with
  | zero => rfl
  | succ budget ih =>
    obtain ⟨kept, granted⟩ := order_turn lines (turn_selectOne q now)
    have granted := granted T
    unfold selectLoop
    revert kept granted
    cases q.selectOne now with
    | mk q' grant =>
      intro kept granted
      cases grant with
      | none => exact granted
      | some first =>
        dsimp only
        rw [← granted, ← ih kept, ← List.append_assoc, ← List.map_append, ← List.filter_append]
        rfl

/-- **A selection grants each tenant the front of its live entries, in their order.** -/
theorem order_select (lines : Lines L q) (now : Instant) (T : String) :
    (((q.select now).2.filter (·.tenant = T)).map Grant.key) ++ (q.select now).1.order T
      = q.order T := by
  have pruned := order_loop now (q.pruneLedgers now).budget
    (lines.fewer (fewer_pruneLedgers q now)) T
  refine pruned.trans ?_
  rw [order_fewer (fewer_pruneLedgers q now)]
  refine List.filter_eq_self.mpr fun k member => ?_
  exact (mem_waitingSteps.mp (lines.mem_order.mp member)).1

end Lines

/-! ### The guarantee -/

/-- The queues stand for the steps that wait, in the order of the enqueues `L`: each has exactly one
live entry, which is its tenant's; `depth` counts them; a class queue holds them in the order of their
last enqueue; and a selection grants from the front, interactive steps first. -/
structure Represents (L : List Ticket) (q : FairQueue) : Prop where
  once : ∀ T, ∀ k ∈ q.waitingSteps T, (q.order T).count k = 1
  only : ∀ T, ∀ k ∈ q.order T, k ∈ q.waitingSteps T
  depth : ∀ T, (q.depth T).queued = (q.waitingSteps T).length
  lines : ∀ T p, q.line T p =
    (L.filter fun t => t.tenant = T ∧ t.priority = p ∧ q.waits t.key).map (·.key)
  granted : ∀ now T, (((q.select now).2.filter (·.tenant = T)).map Grant.key)
    ++ (q.select now).1.order T = q.order T

theorem Lines.represents {L : List Ticket} {q : FairQueue} (lines : Lines L q) :
    Represents L q where
  once T k member := List.count_eq_one_of_mem (lines.nodup_order T) (lines.mem_order.mpr member)
  only T k member := lines.mem_order.mp member
  depth T := by
    rw [queued_depth]
    refine ((List.perm_ext_iff_of_nodup (lines.nodup_order T) (nodup_waitingSteps q T)).mpr ?_).length_eq
    exact fun k => lines.mem_order
  lines := lines.lines
  granted := order_select lines

/-- **In every run that queues no step while an entry of it is still in a queue, the queues stand
for the steps that wait.** -/
theorem represented_run (cfg : FairShare) (ops : List FairOp)
    (fresh : Along apply RevivesNone (FairQueue.new cfg) ops) :
    Represents (latest (enqueued (FairQueue.new cfg) ops)) (run apply (FairQueue.new cfg) ops) :=
  (lines_run (lines_new cfg) fresh).represents

/-- A step that goes and comes back while another waits. -/
def returned : List FairOp :=
  [.admitJob "j" "acme" .interactive, .enqueue "j" "a" "build", .enqueue "j" "b" "test",
    .release "j" "a" 0, .enqueue "j" "a" "build"]

/-- **Coming back, the step is in the queue twice, and first**: two steps wait and `depth` counts
three, and the step is granted before the one that was queued earlier. -/
theorem returned_twice :
    ¬ Represents (latest (enqueued (FairQueue.new {}) returned))
        (run apply (FairQueue.new {}) returned) ∧
      ((run apply (FairQueue.new {}) returned).depth "acme").queued = 3 ∧
      (run apply (FairQueue.new {}) returned).waitingSteps "acme" = [("j", "a"), ("j", "b")] ∧
      (latest (enqueued (FairQueue.new {}) returned)).map (·.key) = [("j", "b"), ("j", "a")] := by
  have counted : ((run apply (FairQueue.new {}) returned).depth "acme").queued = 3 := by decide
  have waiting : (run apply (FairQueue.new {}) returned).waitingSteps "acme"
      = [("j", "a"), ("j", "b")] := by decide
  refine ⟨fun represents => ?_, counted, waiting, by decide⟩
  have depth := represents.depth "acme"
  rw [counted, waiting] at depth
  cases depth

/-- A step that is granted and handed back. -/
def handedBack : List FairOp :=
  [.admitJob "j" "acme" .interactive, .enqueue "j" "a" "build", .enqueue "j" "b" "test", .select 0,
    .requeue "j" "a" "build" 0]

theorem represented_handedBack :
    Represents (latest (enqueued (FairQueue.new { fleetSlots := some 1 }) handedBack))
      (run apply (FairQueue.new { fleetSlots := some 1 }) handedBack) :=
  represented_run _ handedBack (by decide +kernel)

end FairQueue

end HullCi.Control
