/-
**One selection of the scheduler.**

* `best_chosen` — the tenant chosen is one that bids, and bids least.
* `contends_bid` — a tenant with a step waiting and room under its caps always bids.
* `chargeOf_granted` — a granted step is charged what its tags say.
* `select_served` — with one slot a call grants nothing, or the head of the least bid.
-/

import HullCi.Control.FairRuns
import Mathlib.Data.List.TakeWhile

namespace HullCi.Control

open HullCi.Proto HullCi.Base

namespace FairQueue

/-! ### One selection -/

theorem weight_pos (cfg : FairShare) (tenant : String) : 0 < cfg.weight tenant := by
  unfold FairShare.weight TenantPlan.safeWeight
  split
  · assumption
  · exact one_pos

/-- Shortening every tenant's queues is quiet when the tags stay. -/
theorem quiet_mapValues (q : FairQueue) (f : Tenant → Tenant)
    (keeps : ∀ t, (f t).vftLast = t.vftLast)
    (fewer : ∀ t, ∀ w ∈ (f t).interactive ++ (f t).background,
      w ∈ t.interactive ++ t.background) :
    Quiet q { q with tenants := q.tenants.mapValues f } := by
  refine ⟨rfl, rfl, fun T => ?_, fun paid T t found w member => ?_⟩
  · unfold tag
    simp only [Table.lookup_mapValues, Option.map_map]
    cases q.tenants.lookup T with
    | none => rfl
    | some t => exact keeps t
  · simp only [Table.lookup_mapValues] at found
    obtain ⟨t', known, rfl⟩ := Option.map_eq_some_iff.mp found
    exact paid T t' known w (fewer t' w member)

theorem quiet_pruneLedgers (q : FairQueue) (now : Instant) : Quiet q (q.pruneLedgers now) :=
  quiet_mapValues q _ (fun _ => rfl) fun _ _ member => member

theorem mem_append_dropWhile {p r : Waiting → Bool} {l m : List Waiting} {w : Waiting}
    (member : w ∈ l.dropWhile p ++ m.dropWhile r) : w ∈ l ++ m := by
  rcases List.mem_append.mp member with left | right
  · exact List.mem_append_left _ ((List.dropWhile_sublist p).subset left)
  · exact List.mem_append_right _ ((List.dropWhile_sublist r).subset right)

theorem quiet_dropStaleHeads (q : FairQueue) : Quiet q q.dropStaleHeads :=
  quiet_mapValues q _ (fun _ => rfl) fun _ _ member => mem_append_dropWhile member

theorem head_mem {t : Tenant} {w : Waiting} (head : t.head = some w) :
    w ∈ t.interactive ++ t.background := by
  unfold Tenant.head at head
  cases known : t.headClass with
  | none => rw [known] at head; cases head
  | some priority =>
    rw [known] at head
    cases priority with
    | interactive => exact List.mem_append_left _ (List.mem_of_mem_head? head)
    | background => exact List.mem_append_right _ (List.mem_of_mem_head? head)

theorem pop_subset {t : Tenant} {w : Waiting} (member : w ∈ t.pop.interactive ++ t.pop.background) :
    w ∈ t.interactive ++ t.background := by
  unfold Tenant.pop at member
  cases known : t.headClass with
  | none => rwa [known] at member
  | some priority =>
    rw [known] at member
    cases priority with
    | interactive =>
      rcases List.mem_append.mp member with left | right
      · exact List.mem_append_left _ (List.mem_of_mem_tail left)
      · exact List.mem_append_right _ right
    | background =>
      rcases List.mem_append.mp member with left | right
      · exact List.mem_append_left _ left
      · exact List.mem_append_right _ (List.mem_of_mem_tail right)

/-- After the stale heads are dropped, every tenant's head is a step that waits. -/
theorem head_isWaiting {q : FairQueue} {T : String} {t : Tenant} {w : Waiting}
    (known : q.dropStaleHeads.tenants.lookup T = some t) (head : t.head = some w) :
    q.isWaiting w.jobId w.stepId = true := by
  unfold dropStaleHeads at known
  simp only [Table.lookup_mapValues] at known
  obtain ⟨t', -, rfl⟩ := Option.map_eq_some_iff.mp known
  have fresh : ∀ (l : List Waiting),
      (l.dropWhile fun w => !q.isWaiting w.jobId w.stepId).head? = some w →
        q.isWaiting w.jobId w.stepId = true := fun l first => by
    have kept := List.head?_dropWhile_not (fun w => !q.isWaiting w.jobId w.stepId) l
    rw [first] at kept
    simpa using kept
  unfold Tenant.head at head
  split at head
  · exact fresh _ head
  · exact fresh _ head
  · cases head

/-- The choice among the bids seen so far: the smallest, or none when nobody bids. -/
def Chosen (q : FairQueue) (now : Instant) (seen : List (Sigma fun _ : String => Tenant)) :
    Option (String × ℚ × ℚ) → Prop
  | none => ∀ e ∈ seen, q.bid now e.1 e.2 = none
  | some (T, start, vft) =>
    (∃ t, (⟨T, t⟩ : Sigma fun _ : String => Tenant) ∈ seen ∧ q.bid now T t = some (start, vft)) ∧
      ∀ e ∈ seen, ∀ start' vft', q.bid now e.1 e.2 = some (start', vft') → vft ≤ vft'

theorem chosen_better {q : FairQueue} {now : Instant}
    {seen : List (Sigma fun _ : String => Tenant)} {best : Option (String × ℚ × ℚ)}
    (chosen : Chosen q now seen best) (e : Sigma fun _ : String => Tenant) :
    Chosen q now (seen ++ [e]) (q.better now best e) := by
  unfold better
  cases offer : q.bid now e.1 e.2 with
  | none =>
    cases best with
    | none =>
      intro other member
      rcases List.mem_append.mp member with old | new
      · exact chosen other old
      · rw [List.mem_singleton.mp new, offer]
    | some known =>
      obtain ⟨⟨t, member, bids⟩, least⟩ := chosen
      refine ⟨⟨t, List.mem_append_left _ member, bids⟩, fun other member start' vft' made => ?_⟩
      rcases List.mem_append.mp member with old | new
      · exact least other old start' vft' made
      · rw [List.mem_singleton.mp new, offer] at made
        cases made
  | some tags =>
    obtain ⟨start, vft⟩ := tags
    have last : e ∈ seen ++ [e] := List.mem_append_right _ (List.mem_singleton_self e)
    cases best with
    | none =>
      refine ⟨⟨e.2, last, offer⟩, fun other member start' vft' made => ?_⟩
      rcases List.mem_append.mp member with old | new
      · rw [chosen other old] at made
        cases made
      · rw [List.mem_singleton.mp new, offer] at made
        obtain ⟨-, rfl⟩ := Prod.mk.inj (Option.some.inj made)
        exact le_rfl
    | some known =>
      obtain ⟨T, start', vft'⟩ := known
      obtain ⟨⟨t, held, bids⟩, least⟩ := chosen
      dsimp only
      by_cases lower : vft < vft'
      · rw [if_pos lower]
        refine ⟨⟨e.2, last, offer⟩, fun other member s f made => ?_⟩
        rcases List.mem_append.mp member with old | new
        · exact lower.le.trans (least other old s f made)
        · rw [List.mem_singleton.mp new, offer] at made
          obtain ⟨-, rfl⟩ := Prod.mk.inj (Option.some.inj made)
          exact le_rfl
      · rw [if_neg lower]
        refine ⟨⟨t, List.mem_append_left _ held, bids⟩, fun other member s f made => ?_⟩
        rcases List.mem_append.mp member with old | new
        · exact least other old s f made
        · rw [List.mem_singleton.mp new, offer] at made
          obtain ⟨-, rfl⟩ := Prod.mk.inj (Option.some.inj made)
          exact not_lt.mp lower

theorem chosen_foldl {q : FairQueue} {now : Instant}
    (rest : List (Sigma fun _ : String => Tenant))
    {seen : List (Sigma fun _ : String => Tenant)} {best : Option (String × ℚ × ℚ)}
    (chosen : Chosen q now seen best) :
    Chosen q now (seen ++ rest) (rest.foldl (q.better now) best) := by
  induction rest generalizing seen best with
  | nil => rwa [List.append_nil]
  | cons e rest ih =>
    have grown := ih (chosen_better chosen e)
    rwa [List.append_assoc] at grown

/-- **The tenant chosen is one that bids, and bids least.** -/
theorem best_chosen (q : FairQueue) (now : Instant) :
    Chosen q now q.tenants.sorted (q.best now) := by
  have start : Chosen q now [] none := fun e member => (by cases member)
  exact chosen_foldl q.tenants.sorted start

/-- What one turn of the loop does: nothing but tidying, or the least bid's head is granted. -/
inductive Turn (q : FairQueue) (now : Instant) : FairQueue × Option Grant → Prop
  | rest : Turn q now (q.dropStaleHeads, none)
  | grant {T : String} {t : Tenant} {w : Waiting} {start vft : ℚ}
      (known : q.dropStaleHeads.tenants.lookup T = some t) (head : t.head = some w)
      (bids : q.dropStaleHeads.bid now T t = some (start, vft))
      (least : ∀ T' t' start' vft', q.dropStaleHeads.tenants.lookup T' = some t' →
        q.dropStaleHeads.bid now T' t' = some (start', vft') → vft ≤ vft') :
      Turn q now
        (charge { q.dropStaleHeads with tenants := q.dropStaleHeads.tenants.insert T t.pop }
          now T start vft w, some ⟨w.jobId, w.stepId, T⟩)

theorem turn_selectOne (q : FairQueue) (now : Instant) : Turn q now (q.selectOne now) := by
  have chosen := best_chosen q.dropStaleHeads now
  unfold selectOne
  dsimp only
  cases best : q.dropStaleHeads.best now with
  | none => exact .rest
  | some choice =>
    obtain ⟨T, start, vft⟩ := choice
    rw [best] at chosen
    obtain ⟨⟨t, member, bids⟩, least⟩ := chosen
    have known := Table.mem_sorted.mp member
    have legal : ∃ w, t.head = some w := by
      unfold bid at bids
      cases head : t.head with
      | none => rw [head] at bids; cases bids
      | some w => exact ⟨w, rfl⟩
    obtain ⟨w, head⟩ := legal
    have popped : q.dropStaleHeads.popHead T =
        some (w, { q.dropStaleHeads with tenants := q.dropStaleHeads.tenants.insert T t.pop }) := by
      unfold popHead
      rw [known]
      dsimp only
      rw [head, Option.map_some]
    dsimp only
    rw [popped]
    exact .grant known head bids fun T' t' start' vft' known' made =>
      least ⟨T', t'⟩ (Table.mem_sorted.mpr known') start' vft' made

/-! ### A backlogged tenant bids -/

/-- Forgetting what lies outside the window leaves what lies inside. -/
theorem filter_dropWhile_not {E : Type} (p : E → Bool) (l : List E) :
    (l.dropWhile fun e => !p e).filter p = l.filter p := by
  induction l with
  | nil => rfl
  | cons e l ih =>
    by_cases inside : p e = true
    · rw [List.dropWhile_cons_of_neg (by simp [inside])]
    · rw [List.dropWhile_cons_of_pos (by simp [inside]), ih,
        List.filter_cons_of_neg (by simp [inside])]

theorem dropWhile_ne_nil {p : Waiting → Bool} {l : List Waiting} {w : Waiting} (member : w ∈ l)
    (kept : p w = false) : l.dropWhile p ≠ [] := by
  intro gone
  have all := List.dropWhile_eq_nil_iff.mp gone w member
  rw [kept] at all
  cases all

theorem head_of_queued {t : Tenant} (queued : t.interactive ≠ [] ∨ t.background ≠ []) :
    ∃ w, t.head = some w := by
  unfold Tenant.head Tenant.headClass
  by_cases interactive : t.interactive ≠ []
  · rw [if_pos interactive]
    exact ⟨_, List.head?_eq_some_head interactive⟩
  · have background := queued.resolve_left interactive
    rw [if_neg interactive, if_pos background]
    exact ⟨_, List.head?_eq_some_head background⟩

/-- The scheduler as its first turn finds it. -/
def tidied (q : FairQueue) (now : Instant) : FairQueue :=
  (q.pruneLedgers now).dropStaleHeads

theorem quiet_tidied (q : FairQueue) (now : Instant) : Quiet q (q.tidied now) :=
  (quiet_pruneLedgers q now).trans (quiet_dropStaleHeads _)

theorem lookup_tidied (q : FairQueue) (now : Instant) (T : String) :
    (q.tidied now).tenants.lookup T = (q.tenants.lookup T).map fun t =>
      { t with
        ledger := t.ledger.dropWhile fun e => !decide (now - e.1 < rollingWindow)
        interactive := t.interactive.dropWhile fun w => !q.isWaiting w.jobId w.stepId
        background := t.background.dropWhile fun w => !q.isWaiting w.jobId w.stepId } := by
  unfold tidied dropStaleHeads pruneLedgers
  simp only [Table.lookup_mapValues, Option.map_map]
  rfl

/-- What a contending tenant offers: its clamped tag, and that plus its head's normalised cost. -/
structure Offers (q : FairQueue) (now : Instant) (T : String) (cap : ℚ) (t : Tenant)
    (w : Waiting) : Prop where
  known : q.tenants.lookup T = some t
  head : t.head = some w
  small : w.cost ≤ cap
  bids : q.bid now T t =
    some (max t.vftLast q.floor, max t.vftLast q.floor + w.cost / q.cfg.weight T)

/-- **A tenant with work and room bids.** -/
theorem contends_bid {q : FairQueue} {now : Instant} {T : String} {cap : ℚ}
    (contends : q.contends now T = true) (small : q.costsAtMost T cap = true) :
    ∃ t w, Offers (q.tidied now) now T cap t w := by
  unfold FairQueue.contends depth admission at contends
  unfold costsAtMost at small
  cases known : q.tenants.lookup T with
  | none =>
    rw [known] at contends
    simp at contends
  | some t =>
    rw [known] at contends small
    simp only [Bool.and_eq_true, Bool.not_eq_true', decide_eq_true_eq] at contends
    obtain ⟨queued, open'⟩ := contends
    have after := lookup_tidied q now T
    rw [known, Option.map_some] at after
    have waits : ∃ w ∈ t.interactive ++ t.background, q.isWaiting w.jobId w.stepId = true :=
      List.countP_pos_iff.mp queued
    obtain ⟨v, member, waiting⟩ := waits
    have kept : (!q.isWaiting v.jobId v.stepId) = false := by rw [waiting]; rfl
    obtain ⟨w, head⟩ := head_of_queued (t := { t with
        ledger := t.ledger.dropWhile fun e => !decide (now - e.1 < rollingWindow)
        interactive := t.interactive.dropWhile fun w => !q.isWaiting w.jobId w.stepId
        background := t.background.dropWhile fun w => !q.isWaiting w.jobId w.stepId }) (by
      rcases List.mem_append.mp member with left | right
      · exact .inl (dropWhile_ne_nil left kept)
      · exact .inr (dropWhile_ne_nil right kept))
    have cheap : w.cost ≤ cap := by
      have all := List.all_eq_true.mp (Option.all_some.symm.trans small) w
        (mem_append_dropWhile (head_mem head))
      exact of_decide_eq_true all
    refine ⟨_, w, after, head, cheap, ?_⟩
    unfold bid
    rw [head]
    dsimp only
    rw [if_pos]
    unfold Admission.blocked at open'
    simp only [Bool.or_eq_false_iff] at open'
    unfold admissible Tenant.overConcurrency Tenant.overNodeMinutes Tenant.nodeSeconds at *
    rw [filter_dropWhile_not, (quiet_tidied q now).cfg]
    simpa using open'

/-! ### What a grant does -/

theorem tag_of_lookup {q : FairQueue} {T : String} {t : Tenant}
    (known : q.tenants.lookup T = some t) : q.tag T = t.vftLast := by
  unfold tag
  rw [known, Option.map_some, Option.getD_some]

/-- The scheduler after a grant of the head `w` of the tenant `T`, whose queue was `t`. -/
def granted (q : FairQueue) (now : Instant) (T : String) (t : Tenant) (start vft : ℚ)
    (w : Waiting) : FairQueue :=
  charge { q with tenants := q.tenants.insert T t.pop } now T start vft w

theorem tag_granted (q : FairQueue) (now : Instant) (T : String) (t : Tenant) (start vft : ℚ)
    (w : Waiting) (U : String) :
    (q.granted now T t start vft w).tag U = if U = T then vft else q.tag U := by
  unfold granted charge tag
  simp only [Table.lookup_modify, Table.lookup_insert, if_true]
  by_cases same : U = T
  · rw [if_pos same, if_pos same]
    rfl
  · rw [if_neg same, if_neg same, if_neg same]

theorem paid_granted {q : FairQueue} {now : Instant} {T : String} {t : Tenant} {start vft : ℚ}
    {w : Waiting} (known : q.tenants.lookup T = some t) (paid : q.Paid) :
    (q.granted now T t start vft w).Paid := by
  intro U u found v member
  unfold granted charge at found
  simp only [Table.lookup_modify, Table.lookup_insert, if_true, Option.map_some] at found
  by_cases same : U = T
  · rw [if_pos same, Option.some.injEq] at found
    subst found
    exact paid T t known v (pop_subset member)
  · rw [if_neg same, if_neg same] at found
    exact paid U u found v member

theorem chargeOf_granted {q : FairQueue} {w : Waiting} (waits : q.isWaiting w.jobId w.stepId = true)
    (now : Instant) (T : String) (t : Tenant) (start vft : ℚ) :
    (q.granted now T t start vft w).chargeOf ⟨w.jobId, w.stepId, T⟩
      = (vft - start) * q.cfg.weight T := by
  unfold isWaiting placement at waits
  cases known : q.jobs.lookup w.jobId with
  | none => rw [known] at waits; cases waits
  | some m =>
    rw [known, Option.bind_some] at waits
    cases placed : m.steps.lookup w.stepId with
    | none => rw [placed] at waits; cases waits
    | some p =>
      unfold chargeOf placement granted charge
      simp [known, placed]

theorem select_one {q : FairQueue} (slots : q.cfg.fleetSlots = some 1) (now : Instant) :
    q.select now = (q.pruneLedgers now, []) ∨
      q.select now = (((q.pruneLedgers now).selectOne now).1,
        ((q.pruneLedgers now).selectOne now).2.toList) := by
  unfold select
  dsimp only
  have known : (q.pruneLedgers now).cfg.fleetSlots = some 1 := slots
  have small : (q.pruneLedgers now).budget ≤ 1 := by
    unfold budget
    rw [known]
    exact Nat.sub_le _ _
  rcases Nat.le_one_iff_eq_zero_or_eq_one.mp small with full | free
  · rw [full]
    exact .inl rfl
  · rw [free]
    right
    unfold selectLoop
    cases (q.pruneLedgers now).selectOne now with
    | mk q' grant => cases grant <;> rfl

/-- What a selection does to the tags and to the service of every tenant. -/
inductive Served (q : FairQueue) (now : Instant) : FairQueue × List Grant → Prop
  | nobody {q' : FairQueue} (quiet : Quiet q q') : Served q now (q', [])
  | grant {T : String} {t : Tenant} {w : Waiting} {start vft : ℚ}
      (known : (q.tidied now).tenants.lookup T = some t) (head : t.head = some w)
      (bids : (q.tidied now).bid now T t = some (start, vft))
      (waits : (q.tidied now).isWaiting w.jobId w.stepId = true)
      (least : ∀ U u s f, (q.tidied now).tenants.lookup U = some u →
        (q.tidied now).bid now U u = some (s, f) → vft ≤ f) :
      Served q now ((q.tidied now).granted now T t start vft w, [⟨w.jobId, w.stepId, T⟩])

theorem select_served {q : FairQueue} (slots : q.cfg.fleetSlots = some 1) (now : Instant) :
    Served q now (q.select now) := by
  rcases select_one slots now with still | turn
  · rw [still]
    exact .nobody (quiet_pruneLedgers q now)
  · rw [turn]
    have turned := turn_selectOne (q.pruneLedgers now) now
    revert turned
    cases (q.pruneLedgers now).selectOne now with
    | mk q' grant =>
      intro turned
      cases turned with
      | rest => exact .nobody (quiet_tidied q now)
      | grant known head bids least =>
        have waits := head_isWaiting (q := q.pruneLedgers now) known head
        exact .grant known head bids waits least

end FairQueue

end HullCi.Control
