/-
**Weighted-fair service: two backlogged tenants advance together, unless the clamp lifts one.**

* `Served.round` — a selection is a round of the two tags, served by the smaller finish tag.
* `fair_run` — over a run the tags stay level, and a tenant's service is its tag's advance.
* `weighted_service` — as long as the idle-credit clamp lifts neither tenant's start tag, their
  normalised services differ over any interval by at most the sum of their largest normalised steps.
* `weighted_service_covered` — an idle credit of at least one step of each keeps the clamp off.
* `weighted_service_fails` — a tenant whose steps are dear is lifted at every turn and starves.
-/

import HullCi.Base.Gap
import HullCi.Control.FairSelection
import Mathlib.Tactic.Linarith
import Mathlib.Tactic.Ring

namespace HullCi.Control

open HullCi.Proto HullCi.Base

namespace FairQueue

/-! ### Level tags -/

/-- The tag of a contending tenant that the clamp leaves alone is its start tag. -/
theorem Offers.unclamped {q : FairQueue} {now : Instant} {T : String} {cap : ℚ} {t : Tenant}
    {w : Waiting} (offers : Offers (q.tidied now) now T cap t w)
    (unlifted : q.unlifted T = true) :
    (q.tidied now).bid now T t = some (q.tag T, q.tag T + w.cost / q.cfg.weight T) := by
  have tagged : t.vftLast = q.tag T :=
    (tag_of_lookup offers.known).symm.trans ((quiet_tidied q now).tag T)
  have above : (q.tidied now).floor ≤ q.tag T := of_decide_eq_true unlifted
  have bids := offers.bids
  rwa [tagged, max_eq_left above, (quiet_tidied q now).cfg] at bids

/-- The cost that a call's grants charge one tenant. -/
def amount (tenant : String) (o : FairQueue × List Grant) : ℚ :=
  ((o.2.filter (·.tenant = tenant)).map o.1.chargeOf).sum

/-- **A contending tenant is charged exactly its tag's advance, weighted.** -/
theorem Served.pays {q : FairQueue} {now : Instant} {o : FairQueue × List Grant}
    (served : Served q now o) {A : String} {cap : ℚ} {t : Tenant} {w : Waiting}
    (offers : Offers (q.tidied now) now A cap t w) (unlifted : q.unlifted A = true) :
    amount A o = q.cfg.weight A * (o.1.tag A - q.tag A) := by
  unfold amount
  cases served with
  | nobody quiet =>
    rw [quiet.tag A, sub_self, mul_zero]
    rfl
  | @grant T u v start vft known head bids waits least =>
    have charged := chargeOf_granted waits now T u start vft
    have tagged := tag_granted (q.tidied now) now T u start vft v A
    rw [(quiet_tidied q now).cfg] at charged
    rw [(quiet_tidied q now).tag A] at tagged
    by_cases same : T = A
    · subst same
      have picked : u = t := Option.some.inj (known.symm.trans offers.known)
      subst picked
      rw [offers.unclamped unlifted, Option.some.injEq, Prod.mk.injEq] at bids
      rw [if_pos rfl] at tagged
      rw [List.filter_cons_of_pos (by simp)]
      show List.sum [chargeOf _ _] = _
      rw [List.sum_singleton, charged, tagged, ← bids.1, mul_comm]
    · rw [if_neg (Ne.symm same)] at tagged
      rw [List.filter_cons_of_neg (by simp [same]), tagged, sub_self, mul_zero]
      rfl

/-- **One selection is a round of the two tags.** -/
theorem Served.round {q : FairQueue} {now : Instant} {o : FairQueue × List Grant}
    (served : Served q now o) {A B : String} (other : A ≠ B) {capA capB : ℚ} {tA tB : Tenant}
    {wA wB : Waiting} (offersA : Offers (q.tidied now) now A capA tA wA)
    (offersB : Offers (q.tidied now) now B capB tB wB) (freeA : q.unlifted A = true)
    (freeB : q.unlifted B = true) (paid : q.Paid) :
    Round (capA / q.cfg.weight A) (capB / q.cfg.weight B) (q.tag A, q.tag B)
      (o.1.tag A, o.1.tag B) := by
  have smallA : wA.cost / q.cfg.weight A ≤ capA / q.cfg.weight A :=
    div_le_div_of_nonneg_right offersA.small (weight_pos q.cfg A).le
  have smallB : wB.cost / q.cfg.weight B ≤ capB / q.cfg.weight B :=
    div_le_div_of_nonneg_right offersB.small (weight_pos q.cfg B).le
  have bidsA := offersA.unclamped freeA
  have bidsB := offersB.unclamped freeB
  have positive := (quiet_tidied q now).paid paid
  cases served with
  | nobody quiet =>
    rw [quiet.tag A, quiet.tag B]
    exact .idle _
  | @grant T u v start vft known head bids waits least =>
    have tagged := tag_granted (q.tidied now) now T u start vft v
    rw [tagged A, tagged B, (quiet_tidied q now).tag A, (quiet_tidied q now).tag B]
    have cost : 0 ≤ v.cost := positive T u known v (head_mem head)
    by_cases left : A = T
    · subst left
      have picked : u = tA := Option.some.inj (known.symm.trans offersA.known)
      subst picked
      have lowest := least B tB _ _ offersB.known bidsB
      have own : v = wA := Option.some.inj (head.symm.trans offersA.head)
      subst own
      rw [bidsA, Option.some.injEq, Prod.mk.injEq] at bids
      rw [if_pos rfl, if_neg other.symm, ← bids.2]
      rw [← bids.2] at lowest
      exact .left (div_nonneg cost (weight_pos q.cfg A).le) smallB lowest
    · by_cases right : B = T
      · subst right
        have picked : u = tB := Option.some.inj (known.symm.trans offersB.known)
        subst picked
        have lowest := least A tA _ _ offersA.known bidsA
        have own : v = wB := Option.some.inj (head.symm.trans offersB.head)
        subst own
        rw [bidsB, Option.some.injEq, Prod.mk.injEq] at bids
        rw [if_neg left, if_pos rfl, ← bids.2]
        rw [← bids.2] at lowest
        exact .right (div_nonneg cost (weight_pos q.cfg B).le) smallA lowest
      · rw [if_neg left, if_neg right]
        exact .idle _

theorem Served.keeps {q : FairQueue} {now : Instant} {o : FairQueue × List Grant}
    (served : Served q now o) : o.1.cfg = q.cfg ∧ (q.Paid → o.1.Paid) := by
  cases served with
  | nobody quiet => exact ⟨quiet.cfg, quiet.paid⟩
  | grant known head bids waits least =>
    exact ⟨rfl, fun paid => paid_granted known ((quiet_tidied q now).paid paid)⟩

/-- What a run that meets the conditions keeps: one slot, sensible costs, level tags. -/
structure Fair (cfg : FairShare) (A B : String) (capA capB : ℚ) (q : FairQueue) : Prop where
  same : q.cfg = cfg
  paid : q.Paid
  level : Level (capA / cfg.weight A) (capB / cfg.weight B) (q.tag A, q.tag B)

/-- The conditions on one call: both tenants compete, and the clamp lifts neither. -/
def Contest (A B : String) (capA capB : ℚ) (q : FairQueue) (op : FairOp) : Prop :=
  Competes A B capA capB q op ∧ Unclamped A B q op

instance (A B : String) (capA capB : ℚ) (q : FairQueue) (op : FairOp) :
    Decidable (Contest A B capA capB q op) :=
  inferInstanceAs (Decidable (_ ∧ _))

section Contest

variable {cfg : FairShare} {A B : String} {capA capB : ℚ}

/-- What one call does to the invariant, and to the service of the two tenants. -/
theorem fair_apply (slots : cfg.fleetSlots = some 1) (other : A ≠ B) {q : FairQueue} {op : FairOp}
    (fair : Fair cfg A B capA capB q) (contest : Contest A B capA capB q op) :
    Fair cfg A B capA capB (q.apply op) ∧
      servedBy A q op = cfg.weight A * ((q.apply op).tag A - q.tag A) ∧
      servedBy B q op = cfg.weight B * ((q.apply op).tag B - q.tag B) := by
  obtain ⟨competes, unclamped⟩ := contest
  have known : q.cfg = cfg := fair.same
  by_cases selects : ∃ now, op = .select now
  · obtain ⟨now, rfl⟩ := selects
    obtain ⟨contendsA, contendsB, smallA, smallB⟩ := competes
    obtain ⟨freeA, freeB⟩ := unclamped
    obtain ⟨tA, wA, offersA⟩ := contends_bid contendsA smallA
    obtain ⟨tB, wB, offersB⟩ := contends_bid contendsB smallB
    have served := select_served (known ▸ slots) now
    have round := served.round other offersA offersB freeA freeB fair.paid
    rw [known] at round
    refine ⟨⟨served.keeps.1.trans known, served.keeps.2 fair.paid, fair.level.round round⟩, ?_, ?_⟩
    · rw [← known]
      exact served.pays offersA freeA
    · rw [← known]
      exact served.pays offersB freeB
  · have still : ∀ now, op ≠ .select now := fun now same => selects ⟨now, same⟩
    have honest : q.Honest op := by
      cases op with
      | select now => exact absurd rfl (still now)
      | _ => exact competes
    have quiet := quiet_of_honest honest still
    have nothing : ∀ T, servedBy T q op = 0 := by
      intro T
      cases op with
      | select now => exact absurd rfl (still now)
      | _ => rfl
    refine ⟨⟨quiet.cfg.trans known, quiet.paid fair.paid, ?_⟩, ?_, ?_⟩
    · rw [quiet.tag A, quiet.tag B]
      exact fair.level
    · rw [quiet.tag A, sub_self, mul_zero, nothing]
    · rw [quiet.tag B, sub_self, mul_zero, nothing]

/-- **Over a whole run the tags stay level, and each tenant's service is its tag's advance.** -/
theorem fair_run (slots : cfg.fleetSlots = some 1) (other : A ≠ B) (ops : List FairOp)
    {q : FairQueue} (fair : Fair cfg A B capA capB q)
    (along : Along apply (Contest A B capA capB) q ops) :
    Fair cfg A B capA capB (run apply q ops) ∧
      served A q ops = cfg.weight A * ((run apply q ops).tag A - q.tag A) ∧
      served B q ops = cfg.weight B * ((run apply q ops).tag B - q.tag B) := by
  induction ops generalizing q with
  | nil =>
    refine ⟨fair, ?_, ?_⟩
    · rw [run_nil, sub_self, mul_zero]
      rfl
    · rw [run_nil, sub_self, mul_zero]
      rfl
  | cons op ops ih =>
    obtain ⟨next, first, second⟩ := fair_apply slots other fair along.1
    obtain ⟨last, restA, restB⟩ := ih next along.2
    refine ⟨last, ?_, ?_⟩
    · show servedBy A q op + served A (q.apply op) ops = _
      rw [first, restA, run_cons]
      ring
    · show servedBy B q op + served B (q.apply op) ops = _
      rw [second, restB, run_cons]
      ring

theorem fair_fresh (costs : Table (String × String) (List ℚ)) (costKeys : Table String (List String))
    (nonnegA : 0 ≤ capA) (nonnegB : 0 ≤ capB) :
    Fair cfg A B capA capB (fresh cfg costs costKeys) := by
  refine ⟨rfl, fun T t found => (by cases found), ?_, ?_⟩
  · show -(capA / cfg.weight A) ≤ (0 : ℚ) - 0
    rw [sub_zero]
    exact neg_nonpos.mpr (div_nonneg nonnegA (weight_pos cfg A).le)
  · show (0 : ℚ) - 0 ≤ capB / cfg.weight B
    rw [sub_zero]
    exact div_nonneg nonnegB (weight_pos cfg B).le

/-- **From level tags, two contending tenants are served alike, up to a constant.** -/
theorem fair_service (slots : cfg.fleetSlots = some 1) (other : A ≠ B) {q : FairQueue}
    (fair : Fair cfg A B capA capB q) (interval : List FairOp)
    (along : Along apply (Contest A B capA capB) q interval) :
    |served A q interval / cfg.weight A - served B q interval / cfg.weight B|
      ≤ capA / cfg.weight A + capB / cfg.weight B + asSecs cfg.idleCredit := by
  obtain ⟨after, servedA, servedB⟩ := fair_run slots other interval fair along
  have close := level_interval fair.level after.level
  have credit : 0 ≤ asSecs cfg.idleCredit := by
    unfold asSecs
    exact div_nonneg (Nat.cast_nonneg _) (by norm_num)
  rw [servedA, servedB, mul_div_cancel_left₀ _ (weight_pos cfg A).ne',
    mul_div_cancel_left₀ _ (weight_pos cfg B).ne']
  exact close.trans (le_add_of_nonneg_right credit)

/-- What stays close to a flow that advances far advances itself. -/
theorem served_pos {x y bound : ℚ} (close : |x / cfg.weight A - y| ≤ bound) (ahead : bound < y) :
    0 < x := by
  have behind := (abs_le.mp close).1
  have advanced : 0 < x / cfg.weight A := by linarith
  exact (div_pos_iff_of_pos_right (weight_pos cfg A)).mp advanced

end Contest

/-! ### When the idle credit covers a step -/

/-- The virtual clock is at most one step of the tenant ahead of its tag. -/
def Abreast (cap : ℚ) (T : String) (q : FairQueue) : Prop :=
  q.virtualNow ≤ q.tag T + cap / q.cfg.weight T

theorem Abreast.unlifted {cap : ℚ} {T : String} {q : FairQueue} (abreast : Abreast cap T q)
    (covered : cap / q.cfg.weight T ≤ asSecs q.cfg.idleCredit) : q.unlifted T = true := by
  refine decide_eq_true ?_
  unfold floor
  unfold Abreast at abreast
  linarith

theorem Abreast.quiet {cap : ℚ} {T : String} {q q' : FairQueue} (abreast : Abreast cap T q)
    (quiet : Quiet q q') : Abreast cap T q' := by
  unfold Abreast at abreast ⊢
  rwa [quiet.clock, quiet.tag, quiet.cfg]

/-- A selection moves the clock to a start tag below every bid, so no further than a step. -/
theorem Served.abreast {q : FairQueue} {now : Instant} {o : FairQueue × List Grant}
    (served : Served q now o) {T : String} {cap : ℚ} {t : Tenant} {w : Waiting}
    (offers : Offers (q.tidied now) now T cap t w) (unlifted : q.unlifted T = true)
    (paid : q.Paid) (abreast : Abreast cap T q) : Abreast cap T o.1 := by
  have bidsT := offers.unclamped unlifted
  have small : w.cost / q.cfg.weight T ≤ cap / q.cfg.weight T :=
    div_le_div_of_nonneg_right offers.small (weight_pos q.cfg T).le
  have positive := (quiet_tidied q now).paid paid
  cases served with
  | nobody quiet => exact abreast.quiet quiet
  | @grant U u v start vft known head bids waits least =>
    have lowest := least T t _ _ offers.known bidsT
    have forward : start ≤ vft := by
      have cost : 0 ≤ v.cost := positive U u known v (head_mem head)
      have advance := div_nonneg cost (weight_pos (q.tidied now).cfg U).le
      unfold bid at bids
      rw [head] at bids
      simp only [Option.ite_none_right_eq_some, Option.some.injEq, Prod.mk.injEq] at bids
      linarith [bids.2.1, bids.2.2]
    have tagged := tag_granted (q.tidied now) now U u start vft v T
    have advanced : q.tag T ≤ ((q.tidied now).granted now U u start vft v).tag T := by
      rw [tagged, (quiet_tidied q now).tag T]
      by_cases same : T = U
      · subst same
        have picked : u = t := Option.some.inj (known.symm.trans offers.known)
        subst picked
        rw [bidsT, Option.some.injEq, Prod.mk.injEq] at bids
        rw [if_pos rfl, bids.1]
        exact forward
      · rw [if_neg same]
    show max q.virtualNow start ≤ _ + cap / q.cfg.weight T
    unfold Abreast at abreast
    refine max_le ?_ ?_
    · linarith
    · linarith

section Credit

variable {cfg : FairShare} {A B : String} {capA capB : ℚ}

/-- **An idle credit of at least one step of each tenant keeps the clamp off both.** -/
theorem contest_of_credit (slots : cfg.fleetSlots = some 1) (other : A ≠ B)
    (coveredA : capA / cfg.weight A ≤ asSecs cfg.idleCredit)
    (coveredB : capB / cfg.weight B ≤ asSecs cfg.idleCredit) (ops : List FairOp) {q : FairQueue}
    (fair : Fair cfg A B capA capB q) (first : Abreast capA A q) (second : Abreast capB B q)
    (along : Along apply (Competes A B capA capB) q ops) :
    Along apply (Contest A B capA capB) q ops := by
  induction ops generalizing q with
  | nil => trivial
  | cons op ops ih =>
    obtain ⟨competes, rest⟩ := along
    have known : q.cfg = cfg := fair.same
    have freeA := first.unlifted (known ▸ coveredA)
    have freeB := second.unlifted (known ▸ coveredB)
    have contest : Contest A B capA capB q op := by
      refine ⟨competes, ?_⟩
      cases op with
      | select now => exact ⟨freeA, freeB⟩
      | _ => trivial
    have next := (fair_apply slots other fair contest).1
    by_cases selects : ∃ now, op = .select now
    · obtain ⟨now, rfl⟩ := selects
      obtain ⟨contendsA, contendsB, smallA, smallB⟩ := competes
      obtain ⟨tA, wA, offersA⟩ := contends_bid contendsA smallA
      obtain ⟨tB, wB, offersB⟩ := contends_bid contendsB smallB
      have served := select_served (known ▸ slots) now
      exact ⟨contest, ih next (served.abreast offersA freeA fair.paid first)
        (served.abreast offersB freeB fair.paid second) rest⟩
    · have still : ∀ now, op ≠ .select now := fun now same => selects ⟨now, same⟩
      have honest : q.Honest op := by
        cases op with
        | select now => exact absurd rfl (still now)
        | _ => exact competes
      have quiet := quiet_of_honest honest still
      exact ⟨contest, ih next (first.quiet quiet) (second.quiet quiet) rest⟩

end Credit

/-! ### Weighted-fair service -/

section Service

variable {cfg : FairShare} {A B : String} {capA capB : ℚ}

/-- **Weighted-fair service.** Two tenants that both have work and room at every selection, and that
the clamp never lifts, are served in proportion to their weights over every interval of the run,
up to a constant of the configuration; so neither is starved. -/
theorem weighted_service (costs : Table (String × String) (List ℚ))
    (costKeys : Table String (List String)) (slots : cfg.fleetSlots = some 1) (other : A ≠ B)
    (nonnegA : 0 ≤ capA) (nonnegB : 0 ≤ capB) (front interval : List FairOp)
    (along : Along apply (Contest A B capA capB) (fresh cfg costs costKeys) (front ++ interval)) :
    let start := run apply (fresh cfg costs costKeys) front
    let bound := capA / cfg.weight A + capB / cfg.weight B + asSecs cfg.idleCredit
    |served A start interval / cfg.weight A - served B start interval / cfg.weight B| ≤ bound ∧
      (bound < served B start interval / cfg.weight B → 0 < served A start interval) := by
  intro start bound
  rw [along_append] at along
  have before := (fair_run slots other front (fair_fresh costs costKeys nonnegA nonnegB) along.1).1
  have close := fair_service slots other before interval along.2
  exact ⟨close, served_pos close⟩

end Service

/-! ### A tenant whose steps are dear -/

/-- Two tenants queue: `A` one step of four seconds, `B` seven of one. -/
def dearAndCheap : List FairOp :=
  [.admitJob "dear" "A" .interactive, .admitJob "cheap" "B" .interactive,
    .enqueue "dear" "0" "long"]
    ++ ["0", "1", "2", "3", "4", "5", "6"].map fun step => .enqueue "cheap" step "short"

/-- One selection each ten seconds; what it grants `B` finishes a second later. -/
def serveCheap : List FairOp :=
  ["0", "1", "2", "3", "4", "5"].zipIdx.flatMap fun (step, i) =>
    [.select (fromSecs (10 * i)), .finish "cheap" step (fromSecs (10 * i + 1))]

/-- What the two step names have cost. -/
def dearCosts : Table (String × String) (List ℚ) :=
  (AList.insert ("A", "long") [4] ∅).insert ("B", "short") [1]

/-- **Without idle credit the clamp starves a tenant with dear steps**: six selections all go to `B`,
an advance of six over an interval in which the constant is five. -/
theorem weighted_service_fails :
    let cfg : FairShare := { fleetSlots := some 1, idleCredit := 0 }
    let queued := run apply (fresh cfg dearCosts ∅) dearAndCheap
    Along apply (Competes "A" "B" 4 1) (fresh cfg dearCosts ∅) (dearAndCheap ++ serveCheap) ∧
      4 / cfg.weight "A" + 1 / cfg.weight "B" + asSecs cfg.idleCredit
        < |served "A" queued serveCheap / cfg.weight "A"
            - served "B" queued serveCheap / cfg.weight "B"| ∧
      served "A" queued serveCheap = 0 := by
  decide +kernel

/-- With the default credit of a minute the clamp stays off the same run. -/
theorem weighted_service_minute :
    let cfg : FairShare := { fleetSlots := some 1 }
    let start := run apply (fresh cfg dearCosts ∅) dearAndCheap
    let interval : List FairOp := [.select 0, .finish "cheap" "0" (fromSecs 1),
      .select (fromSecs 10), .finish "cheap" "1" (fromSecs 11)]
    let bound := 4 / cfg.weight "A" + 1 / cfg.weight "B" + asSecs cfg.idleCredit
    |served "A" start interval / cfg.weight "A" - served "B" start interval / cfg.weight "B"|
      ≤ bound ∧
      (bound < served "B" start interval / cfg.weight "B" → 0 < served "A" start interval) :=
  weighted_service dearCosts ∅ rfl (by decide) (by norm_num) (by norm_num) dearAndCheap
    [.select 0, .finish "cheap" "0" (fromSecs 1), .select (fromSecs 10),
      .finish "cheap" "1" (fromSecs 11)] (by decide +kernel)

end FairQueue

end HullCi.Control
