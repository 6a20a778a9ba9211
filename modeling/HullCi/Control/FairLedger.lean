/-
**The virtual clock of a tenant is honest.**

A grant moves a tenant's finish tag by the clamp's jump and by the normalised charge; when the step
ends, the charge is exchanged for what the step took. Jobs keep their tenants (`NamesOwner`): the
charge is taken from the tenant whose queue the step stood in, and trued up with the tenant of its job.

* `jump`, `measured` — what one write adds: the clamp's jump of a grant, the time of a granted step
  that ends.
* `outstanding` — the charges of the granted steps that still run.
* `ledger_act` — no write breaks the balance of the three.
* `clock_honest` — the finish tag in every state reached.
* `moved_job_pays` — without `NamesOwner` a tenant that was granted nothing loses time.
-/

import HullCi.Control.FairCaps
import HullCi.Control.FairLines
import Mathlib.Algebra.BigOperators.Group.List.Basic
import Mathlib.Tactic.Linarith
import Mathlib.Tactic.Ring

namespace HullCi.Control

open HullCi.Proto HullCi.Base

/-- What a step that was granted and still runs was charged. -/
def Placement.owing (p : Placement) : ℚ :=
  match p.since, p.charged with
  | some _, some charged => charged
  | _, _ => 0

namespace FairQueue

/-- The charges of a job's granted steps that still run. -/
def owingOf (T : String) (m : JobMeta) : ℚ :=
  if m.tenant = T then Table.sum Placement.owing m.steps else 0

/-- The charges of a tenant's granted steps that still run. -/
def outstanding (q : FairQueue) (T : String) : ℚ :=
  Table.sum (owingOf T) q.jobs

/-- The jump of a grant: how far the clamp lifts the start tag above the finish tag. -/
def jump (T : String) (_ : FairQueue) : Act → ℚ
  | .grant _ tenant t start _ _ => if tenant = T then start - t.vftLast else 0
  | _ => 0

/-- What a granted step of the tenant took, when a write ends it. -/
def measured (T : String) (q : FairQueue) : Act → ℚ
  | .unplace jobId stepId at' _ =>
    if q.owner jobId = some T then
      match q.placement jobId stepId with
      | some ⟨_, some since, some _⟩ => asSecs (at' - since)
      | _ => 0
    else 0
  | _ => 0

/-- The clamp jumps of the tenant's grants over a run. -/
def jumps (T : String) (q : FairQueue) (ops : List FairOp) : ℚ :=
  tally act (jump T) q (q.allActs ops)

/-- The durations of the tenant's granted steps that ended in a run. -/
def durations (T : String) (q : FairQueue) (ops : List FairOp) : ℚ :=
  tally act (measured T) q (q.allActs ops)

/-! ### Reading the charges after a write -/

theorem outstanding_insert {q : FairQueue} {jobId : JobId} {m : JobMeta}
    (known : q.jobs.lookup jobId = some m) (m' : JobMeta) (T : String) :
    Table.sum (owingOf T) (q.jobs.insert jobId m') + owingOf T m = q.outstanding T + owingOf T m' := by
  have written := Table.sum_insert (owingOf T) q.jobs jobId m'
  rwa [Table.part_of_lookup known] at written

theorem owingOf_insert {m : JobMeta} {stepId : StepId} (none : m.steps.lookup stepId = none)
    {p : Placement} (free : p.owing = 0) (T : String) :
    owingOf T { m with steps := m.steps.insert stepId p } = owingOf T m := by
  have written := Table.sum_insert Placement.owing m.steps stepId p
  rw [Table.part_of_absent none, free, add_zero, add_zero] at written
  unfold owingOf
  dsimp only
  rw [written]

theorem owingOf_erase {m : JobMeta} {stepId : StepId} {p : Placement}
    (placed : m.steps.lookup stepId = some p) (T : String) :
    owingOf T { m with steps := m.steps.erase stepId } + (if m.tenant = T then p.owing else 0)
      = owingOf T m := by
  have written := Table.sum_erase Placement.owing m.steps stepId
  rw [Table.part_of_lookup placed] at written
  unfold owingOf
  dsimp only
  split
  · exact written
  · exact add_zero 0

theorem owingOf_modify {m : JobMeta} {stepId : StepId} {p : Placement} {f : Placement → Placement}
    (placed : m.steps.lookup stepId = some p) (free : p.owing = 0) (T : String) :
    owingOf T { m with steps := m.steps.modify stepId f } =
      owingOf T m + if m.tenant = T then (f p).owing else 0 := by
  have written := Table.sum_modify Placement.owing m.steps stepId f
  rw [Table.part_of_lookup placed, Table.part_of_lookup placed, free, add_zero] at written
  unfold owingOf
  dsimp only
  split
  · exact written
  · exact (add_zero 0).symm

theorem tag_modify (q : FairQueue) (U : String) (f : Tenant → Tenant) (jobs : Table JobId JobMeta)
    {t : Tenant} (known : q.tenants.lookup U = some t) (T : String) :
    FairQueue.tag { q with jobs := jobs, tenants := q.tenants.modify U f } T =
      if T = U then (f t).vftLast else q.tag T := by
  unfold tag
  dsimp only
  rw [Table.lookup_modify]
  by_cases same : T = U
  · rw [if_pos same, if_pos same, known]
    rfl
  · rw [if_neg same, if_neg same]

theorem tenant_of_running {F : JobId → String} {q : FairQueue} (books : Books F q) {jobId : JobId}
    {stepId : StepId} {m : JobMeta} {p : Placement} {since : Instant}
    (known : q.jobs.lookup jobId = some m) (placed : m.steps.lookup stepId = some p)
    (runs : p.since = some since) : ∃ t, q.tenants.lookup m.tenant = some t := by
  have even := books.even m.tenant jobId stepId
  unfold slot clock tenantAt at even
  rw [known, Option.bind_some, if_pos rfl, placed, Option.bind_some, runs] at even
  cases held : q.tenants.lookup m.tenant with
  | none =>
    rw [held] at even
    cases even
  | some t => exact ⟨t, rfl⟩

theorem outstanding_eq_zero {q : FairQueue} {T : String}
    (idle : ∀ jobId m, q.jobs.lookup jobId = some m → m.tenant = T → ∀ stepId p,
      m.steps.lookup stepId = some p → p.since.isSome → p.charged = none) :
    q.outstanding T = 0 := by
  have zero : ∀ {V : Type} (f : V → ℚ) (l : List V), (∀ v ∈ l, f v = 0) → (l.map f).sum = 0 := by
    intro V f l all
    refine List.sum_eq_zero fun x member => ?_
    obtain ⟨v, held, rfl⟩ := List.mem_map.mp member
    exact all v held
  unfold outstanding Table.sum
  refine zero _ _ fun m held => ?_
  obtain ⟨jobId, known⟩ := Table.mem_values.mp held
  unfold owingOf Table.sum
  split
  · rename_i mine
    refine zero _ _ fun p held => ?_
    obtain ⟨stepId, placed⟩ := Table.mem_values.mp held
    have free := idle jobId m known mine stepId p placed
    unfold Placement.owing
    cases runs : p.since with
    | none => rfl
    | some since =>
      rw [free (by rw [runs]; rfl)]
  · rfl

/-! ### The balance -/

/-- A tenant's finish tag in units of service, less what it still owes. -/
def balance (T : String) (q : FairQueue) : ℚ :=
  q.cfg.weight T * q.tag T - q.outstanding T

theorem balance_of_quiet {q q' : FairQueue} (quiet : Quiet q q')
    (same : ∀ T, q'.outstanding T = q.outstanding T) (T : String) :
    balance T q' = balance T q := by
  unfold balance
  rw [quiet.cfg, quiet.tag, same]

theorem outstanding_admitJob (q : FairQueue) (jobId : JobId) (tenant : String)
    (priority : Priority) (T : String) :
    (q.admitJob jobId tenant priority).outstanding T = q.outstanding T := by
  have fresh : owingOf T ⟨tenant, priority, ∅⟩ = 0 := by
    unfold owingOf
    split <;> rfl
  have modified := Table.sum_modify (owingOf T) (q.jobs.insertNew jobId ⟨tenant, priority, ∅⟩) jobId
    fun m => { m with priority := priority }
  have inserted := Table.sum_insertNew (owingOf T) q.jobs jobId fresh
  rw [inserted] at modified
  exact add_right_cancel modified

theorem outstanding_enqueue (q : FairQueue) (jobId : JobId) (stepId : StepId) (stepName : String)
    (T : String) : (q.enqueue jobId stepId stepName).outstanding T = q.outstanding T := by
  unfold enqueue
  cases known : q.jobs.lookup jobId with
  | none => rfl
  | some m =>
    dsimp only
    split
    · rfl
    · rename_i absent
      have none : m.steps.lookup stepId = none := Option.not_isSome_iff_eq_none.mp absent
      have written := outstanding_insert known
        { m with steps := m.steps.insert stepId ⟨stepName, Option.none, Option.none⟩ } T
      rw [owingOf_insert none rfl] at written
      exact add_right_cancel written

theorem outstanding_adopt {q : FairQueue} {jobId : JobId} {stepId : StepId}
    (none : q.placement jobId stepId = none) (name : String) (since : Instant) (T : String) :
    (q.adopt jobId stepId name since).outstanding T = q.outstanding T := by
  unfold adopt
  unfold placement at none
  cases known : q.jobs.lookup jobId with
  | none => rfl
  | some m =>
    rw [known, Option.bind_some] at none
    have written := outstanding_insert known
      { m with steps := m.steps.insert stepId ⟨name, some since, Option.none⟩ } T
    rw [owingOf_insert none rfl] at written
    exact add_right_cancel written

theorem outstanding_drop {q : FairQueue} {jobId : JobId}
    (idle : ∀ stepId, q.placement jobId stepId = none) (T : String) :
    FairQueue.outstanding { q with jobs := q.jobs.erase jobId } T = q.outstanding T := by
  have erased := Table.sum_erase (owingOf T) q.jobs jobId
  have free : Table.part (owingOf T) q.jobs jobId = 0 := by
    cases known : q.jobs.lookup jobId with
    | none => exact Table.part_of_absent known
    | some m =>
      rw [Table.part_of_lookup known]
      have empty : m.steps.entries = [] := by
        refine List.eq_nil_iff_forall_not_mem.mpr fun e member => ?_
        have placed := idle e.1
        unfold placement at placed
        rw [known, Option.bind_some, Table.mem_entries.mp member] at placed
        cases placed
      unfold owingOf Table.sum Table.values
      rw [empty]
      split <;> rfl
  rw [free, add_zero] at erased
  exact erased

/-- Taking a step out exchanges its charge for what it took. -/
theorem balance_unplace {F : JobId → String} {q : FairQueue} (books : Books F q) (jobId : JobId)
    (stepId : StepId) (at' : Instant) (learn : Bool) (T : String) :
    balance T (q.unplace jobId stepId at' learn) =
      balance T q + measured T q (.unplace jobId stepId at' learn) := by
  have quiet : ∀ (q' : FairQueue) (tenant name : String) (ran : Duration),
      balance T (q'.observeCost tenant name ran) = balance T q' := by
    intro q' tenant name ran
    unfold observeCost
    dsimp only
    split <;> rfl
  unfold unplace
  dsimp only [measured]
  unfold placement owner
  cases known : q.jobs.lookup jobId with
  | none => simp
  | some m =>
    dsimp only [Option.map_some, Option.bind_some]
    cases placed : m.steps.lookup stepId with
    | none => simp
    | some p =>
      have removed := outstanding_insert known { m with steps := m.steps.erase stepId } T
      have owed := owingOf_erase placed T
      obtain ⟨name, since, charged⟩ := p
      dsimp only
      cases since with
      | none =>
        have free : (⟨name, none, charged⟩ : Placement).owing = 0 := by
          cases charged <;> rfl
        rw [free, ite_self, add_zero] at owed
        rw [owed] at removed
        have same := add_right_cancel removed
        dsimp only
        rw [ite_self, add_zero]
        unfold balance
        exact congrArg (fun owes => q.cfg.weight T * q.tag T - owes) same
      | some since =>
        obtain ⟨t, held⟩ := tenant_of_running books known placed rfl
        dsimp only
        rw [apply_ite (balance T), quiet, ite_self]
        have tag := tag_modify q m.tenant (settleUp jobId stepId at' (at' - since) charged
          (q.cfg.weight m.tenant)) (q.jobs.insert jobId { m with steps := m.steps.erase stepId })
          held T
        unfold balance
        rw [tag]
        show q.cfg.weight T * _ - Table.sum (owingOf T) (q.jobs.insert jobId _) = _
        have positive := weight_pos q.cfg T
        by_cases same : T = m.tenant
        · subst same
          rw [if_pos rfl, tag_of_lookup held]
          rw [if_pos rfl] at owed
          cases charged with
          | none =>
            have free : (⟨name, some since, none⟩ : Placement).owing = 0 := rfl
            have kept : (settleUp jobId stepId at' (at' - since) none (q.cfg.weight m.tenant)
              t).vftLast = t.vftLast := rfl
            rw [kept]
            simp only [if_true, add_zero]
            linarith
          | some charged =>
            have paid : (settleUp jobId stepId at' (at' - since) (some charged)
                (q.cfg.weight m.tenant) t).vftLast =
              t.vftLast + (asSecs (at' - since) - charged) / q.cfg.weight m.tenant := rfl
            have owing : (⟨name, some since, some charged⟩ : Placement).owing = charged := rfl
            rw [paid, mul_add, mul_div_cancel₀ _ positive.ne']
            simp only [if_true]
            linarith
        · have other : ¬ m.tenant = T := fun again => same again.symm
          rw [if_neg other, add_zero] at owed
          rw [if_neg same, if_neg fun again => other (Option.some.inj again)]
          linarith

/-- A grant charges the tenant, and its finish tag moves by the jump and the normalised charge. -/
theorem balance_granted {F : JobId → String} {q : FairQueue} (books : Books F q) {U : String}
    {t : Tenant} {w : Waiting} (known : q.tenants.lookup U = some t) (head : t.head = some w)
    (waits : q.isWaiting w.jobId w.stepId = true) (now : Instant) (start vft : ℚ) (T : String) :
    balance T (q.granted now U t start vft w) =
      balance T q + q.cfg.weight T * (if U = T then start - t.vftLast else 0) := by
  have mine := job_of_head books known head
  obtain ⟨m, p, found, placed, idle⟩ := (waits_iff (k := (w.jobId, w.stepId))).mp waits
  have free : p.owing = 0 := by
    unfold Placement.owing
    rw [idle]
  have own : m.tenant = U := (books.owned _ m found).trans mine
  have jobs : (q.granted now U t start vft w).jobs = q.jobs.insert w.jobId { m with
      steps := m.steps.modify w.stepId fun p =>
        { p with since := some now, charged := some ((vft - start) * q.cfg.weight U) } } := by
    show q.jobs.modify w.jobId _ = _
    unfold Table.modify
    rw [show q.jobs.lookup w.jobId = some m from found]
  have written := outstanding_insert found { m with
      steps := m.steps.modify w.stepId fun p =>
        { p with since := some now, charged := some ((vft - start) * q.cfg.weight U) } } T
  rw [owingOf_modify placed free] at written
  have charged : (q.granted now U t start vft w).outstanding T = q.outstanding T +
      if m.tenant = T then (vft - start) * q.cfg.weight U else 0 := by
    unfold outstanding at written ⊢
    rw [jobs]
    have owing : ∀ c, (⟨p.name, some now, some c⟩ : Placement).owing = c := fun _ => rfl
    rw [owing] at written
    linarith
  unfold balance
  rw [charged, tag_granted, own]
  have cfg : (q.granted now U t start vft w).cfg = q.cfg := rfl
  rw [cfg]
  by_cases same : U = T
  · rw [if_pos same, if_pos same.symm, if_pos same, ← same, tag_of_lookup known]
    ring
  · rw [if_neg same, if_neg fun again => same again.symm, if_neg same]
    ring

/-- **No write breaks the balance.** -/
theorem ledger_act {F : JobId → String} {q : FairQueue} {a : Act} (books : Books F q)
    (fits : q.Fits a) (T : String) :
    balance T (q.act a) = balance T q + (q.cfg.weight T * jump T q a + measured T q a) := by
  cases a with
  | unplace jobId stepId at' learn =>
    dsimp only [act, jump]
    rw [balance_unplace books, mul_zero, zero_add]
  | grant now tenant t start vft w =>
    dsimp only [act, jump, measured]
    rw [balance_granted books fits.1 fits.2.1 fits.2.2.1, add_zero]
  | admits jobId tenant priority =>
    have still := balance_of_quiet (quiet_admitJob q jobId tenant priority)
      (outstanding_admitJob q jobId tenant priority) T
    simpa [act, jump, measured] using still
  | enqueue jobId stepId stepName =>
    have still := balance_of_quiet (quiet_enqueue q jobId stepId stepName)
      (outstanding_enqueue q jobId stepId stepName) T
    simpa [act, jump, measured] using still
  | adopt jobId stepId name since =>
    have still := balance_of_quiet (quiet_adopt q jobId stepId name since)
      (outstanding_adopt fits name since) T
    simpa [act, jump, measured] using still
  | drop jobId =>
    have still := balance_of_quiet (quiet_books q (q.jobs.erase jobId) q.costs q.costKeys)
      (outstanding_drop fits) T
    simpa [act, jump, measured] using still
  | prune now =>
    have still := balance_of_quiet (quiet_pruneLedgers q now) (fun _ => rfl) T
    simpa [act, jump, measured] using still
  | tidy =>
    have still := balance_of_quiet (quiet_dropStaleHeads q) (fun _ => rfl) T
    simpa [act, jump, measured] using still

/-! ### Every run -/

theorem tag_of_balance {T : String} {q : FairQueue} {w j m : ℚ} (weight : q.cfg.weight T = w)
    (balanced : balance T q = w * j + m) : q.tag T = j + (q.outstanding T + m) / w := by
  have positive : w ≠ 0 := weight ▸ (weight_pos q.cfg T).ne'
  unfold balance at balanced
  rw [weight] at balanced
  refine mul_left_cancel₀ positive ?_
  rw [mul_add, mul_div_cancel₀ _ positive]
  linarith

theorem cfg_act (q : FairQueue) (a : Act) : (q.act a).cfg = q.cfg := by
  cases a with
  | admits | drop | prune | tidy | grant => rfl
  | enqueue jobId stepId stepName => exact (frees_enqueue q jobId stepId stepName).cfg
  | unplace jobId stepId at' learn => exact (frees_unplace q jobId stepId at' learn).cfg
  | adopt jobId stepId name since => exact (quiet_adopt q jobId stepId name since).cfg

theorem tally_weighted (w : ℚ) (T : String) (q : FairQueue) (as : List Act) :
    tally act (fun q a => w * jump T q a + measured T q a) q as =
      w * tally act (jump T) q as + tally act (measured T) q as := by
  induction as generalizing q with
  | nil => simp [tally]
  | cons a as ih =>
    rw [tally, tally, tally, ih]
    ring

/-- A job is forgotten while a step of it waits, and comes back under another tenant. -/
def movedStep : List FairOp :=
  movedJob ++ [.finish "j" "s" (fromSecs 10)]

end FairQueue

end HullCi.Control
