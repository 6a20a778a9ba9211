/-
**The rate limit on sweeps.**

A commit asks for a sweep of its tenant's store, and `claim` grants it unless the tenant swept within
the cooldown. The caller reads the clock before it takes the lock, so the readings reach `claim` in
any order; and `claim` drops what is recorded after its own reading just as it drops what is past its
cooldown.

* `claim_cases`, `lookup_claim` — what a claim answers, and what it leaves of the table.
* `Stamped` — how the table and the past of a run agree, whatever the order of the readings.
* `sweeps_spaced_iff` — the sweeps of each tenant keep their distance, no claim forgets another
  tenant's cooldown and no two sweeps of a tenant overlap, exactly along the runs whose claims come in
  order.
-/

import HullCi.Base.Run
import HullCi.Base.Table

namespace HullCi.Fetch

open HullCi.Base

/-! ### The limiter -/

/-- Whether a commit sweeps at all, and the shortest gap between two sweeps of a tenant. -/
structure ReclaimConfig where
  enabled : Bool := true
  cooldown : ℕ := 15 * 60 * 1000000000
  deriving DecidableEq, Repr

/-- When each tenant last swept, and how many sweeps were started. -/
structure Sweeps where
  last : Table String ℕ
  started : ℕ

def checkedDurationSince (now t : ℕ) : Option ℕ :=
  if t ≤ now then some (now - t) else none

namespace Sweeps

def new : Sweeps := ⟨∅, 0⟩

/-- Take the right to sweep this tenant now, or answer `false` because one ran too recently. -/
def claim (s : Sweeps) (tenant : String) (cooldown now : ℕ) : Sweeps × Bool :=
  let last := s.last.keep fun _ t =>
    (checkedDurationSince now t).any fun since => decide (since < cooldown)
  if (last.lookup tenant).isSome then ({ s with last := last }, false)
  else (⟨last.insert tenant now, s.started + 1⟩, true)

/-- Record a finished sweep and restart the cooldown from now. -/
def finished (s : Sweeps) (tenant : String) (now : ℕ) : Sweeps :=
  { s with last := s.last.insert tenant now }

/-- The tenant's entry is not past its cooldown, nor in the future. -/
def Cooling (s : Sweeps) (tenant : String) (cooldown now : ℕ) : Prop :=
  ∃ t, s.last.lookup tenant = some t ∧ t ≤ now ∧ now < t + cooldown

end Sweeps

open Sweeps

theorem since_lt {now t cooldown : ℕ} :
    ((checkedDurationSince now t).any fun since => decide (since < cooldown)) = true ↔
      t ≤ now ∧ now < t + cooldown := by
  unfold checkedDurationSince
  split
  · next past =>
    rw [Option.any_some, decide_eq_true_iff]
    omega
  · next future => exact ⟨fun kept => absurd kept Bool.false_ne_true, fun both => absurd both.1 future⟩

theorem lookup_pruned {s : Sweeps} {cooldown now : ℕ} {v : String} {t : ℕ} :
    (s.last.keep fun _ t => (checkedDurationSince now t).any fun since =>
      decide (since < cooldown)).lookup v = some t ↔
        s.last.lookup v = some t ∧ t ≤ now ∧ now < t + cooldown := by
  rw [Table.lookup_keep, Option.filter_eq_some_iff, since_lt]

/-- A claim is refused while the tenant is cooling down, and granted otherwise. -/
theorem claim_granted {s : Sweeps} {tenant : String} {cooldown now : ℕ} :
    (s.claim tenant cooldown now).2 = true ↔ ¬ s.Cooling tenant cooldown now := by
  unfold Sweeps.claim
  simp only
  split
  · next held =>
    obtain ⟨t, found⟩ := Option.isSome_iff_exists.mp held
    exact ⟨fun granted => absurd granted Bool.false_ne_true, fun free =>
      absurd ⟨t, lookup_pruned.mp found⟩ free⟩
  · next absent =>
    refine ⟨fun _ cooling => absent ?_, fun _ => rfl⟩
    obtain ⟨t, held⟩ := cooling
    rw [lookup_pruned.mpr held]
    rfl

theorem lookup_claim {s : Sweeps} {tenant v : String} {cooldown now t : ℕ} (other : v ≠ tenant) :
    (s.claim tenant cooldown now).1.last.lookup v = some t ↔
      s.last.lookup v = some t ∧ t ≤ now ∧ now < t + cooldown := by
  unfold Sweeps.claim
  simp only
  split
  · exact lookup_pruned
  · rw [Table.lookup_insert, if_neg other]
    exact lookup_pruned

/-- What it leaves of its own: the new entry when granted, the old one when refused. -/
theorem lookup_claim_self {s : Sweeps} {tenant : String} {cooldown now t : ℕ}
    (found : (s.claim tenant cooldown now).1.last.lookup tenant = some t) :
    ((s.claim tenant cooldown now).2 = true ∧ t = now) ∨
      ((s.claim tenant cooldown now).2 = false ∧ s.last.lookup tenant = some t) := by
  unfold Sweeps.claim at found ⊢
  simp only at found ⊢
  split at found
  · next held =>
    rw [if_pos held]
    exact .inr ⟨rfl, (lookup_pruned.mp found).1⟩
  · next absent =>
    rw [if_neg absent]
    rw [Table.lookup_insert, if_pos rfl] at found
    exact .inl ⟨rfl, (Option.some.inj found).symm⟩

/-! ### Commits and sweeps at once -/

/-- A claim that was granted, or a sweep that finished, and the clock value it was recorded with. -/
structure Stamp where
  tenant : String
  time : ℕ
  granted : Bool
  deriving DecidableEq, Repr

/-- The limiter and who is about to use it. -/
structure Commits where
  clock : ℕ
  /-- The calls that have read the clock and wait for the lock. -/
  waiting : List (String × ℕ)
  sweeps : Sweeps
  running : List String
  /-- What was recorded, the latest first. -/
  stamps : List Stamp

inductive CommitStep where
  | tick (d : ℕ)
  /-- `reclaim_after_commit` reads the clock. -/
  | committed (tenant : String)
  /-- The lock goes to the `i`-th caller that waits. -/
  | claimed (i : ℕ)
  /-- A sweep is over, and takes the lock. -/
  | swept (tenant : String)

namespace Commits

def start (clock : ℕ) : Commits :=
  ⟨clock, [], .new, [], []⟩

/-- A claim with this reading of the clock. -/
def take (cfg : ReclaimConfig) (s : Commits) (tenant : String) (now : ℕ) : Commits :=
  match s.sweeps.claim tenant cfg.cooldown now with
  | (sweeps, true) =>
    { s with
      sweeps := sweeps
      running := tenant :: s.running
      stamps := ⟨tenant, now, true⟩ :: s.stamps }
  | (sweeps, false) => { s with sweeps := sweeps }

def step (cfg : ReclaimConfig) (s : Commits) : CommitStep → Commits
  | .tick d => { s with clock := s.clock + d }
  | .committed tenant =>
    if cfg.enabled then { s with waiting := s.waiting ++ [(tenant, s.clock)] } else s
  | .claimed i =>
    match s.waiting[i]? with
    | none => s
    | some (tenant, now) => { s.take cfg tenant now with waiting := s.waiting.eraseIdx i }
  | .swept tenant =>
    if tenant ∈ s.running then
      { s with
        sweeps := s.sweeps.finished tenant s.clock
        running := s.running.erase tenant
        stamps := ⟨tenant, s.clock, false⟩ :: s.stamps }
    else s

/-- The clock value last recorded for a tenant, whether or not the table still has it. -/
def lastStamp (s : Commits) (tenant : String) : Option ℕ :=
  (s.stamps.find? (·.tenant = tenant)).map (·.time)

end Commits

open Commits

/-! ### What a run is to keep -/

/-- Each claim granted is a cooldown after all that was recorded of its tenant before. -/
def Spaced (cooldown : ℕ) (s : Commits) : Prop :=
  s.stamps.Pairwise fun later earlier => later.granted = true → later.tenant = earlier.tenant →
    earlier.time + cooldown ≤ later.time

/-- No two sweeps of one tenant run. -/
def Single (s : Commits) : Prop :=
  s.running.Nodup

/-- A claim leaves the entry of every other tenant that is not past its cooldown. -/
def Recalls (cfg : ReclaimConfig) (s : Commits) : CommitStep → Prop
  | .claimed i => ∀ tenant now, s.waiting[i]? = some (tenant, now) → ∀ v t, v ≠ tenant →
      s.sweeps.last.lookup v = some t → now < t + cfg.cooldown →
        (s.step cfg (.claimed i)).sweeps.last.lookup v = some t
  | _ => True

/-- A claim comes in order: nothing recorded is in its future; if its tenant's entry was dropped, the
claim is a cooldown after it; and if its tenant's sweep is running, that began within the cooldown. -/
def InOrder (cfg : ReclaimConfig) (s : Commits) : CommitStep → Prop
  | .claimed i => ∀ tenant now, s.waiting[i]? = some (tenant, now) →
      (∀ v t, s.sweeps.last.lookup v = some t → t ≤ now) ∧
      (s.sweeps.last.lookup tenant = none → ∀ t, s.lastStamp tenant = some t →
        t + cfg.cooldown ≤ now) ∧
      (tenant ∈ s.running → ∃ t, s.sweeps.last.lookup tenant = some t ∧ now < t + cfg.cooldown)
  | _ => True

/-! ### What holds in every state -/

/-- The table holds each tenant's latest stamp or nothing, and a sweep finishes no earlier than
anything recorded before it. -/
structure Stamped (s : Commits) : Prop where
  latest : ∀ u t, s.sweeps.last.lookup u = some t → s.lastStamp u = some t
  settled : s.stamps.Pairwise fun later earlier =>
    later.granted = false → earlier.time ≤ later.time
  past : ∀ stamp ∈ s.stamps, stamp.time ≤ s.clock
  read : ∀ call ∈ s.waiting, call.2 ≤ s.clock

theorem stamped_start (clock : ℕ) : Stamped (start clock) where
  latest u t found := by cases found
  settled := List.Pairwise.nil
  past stamp member := by cases member
  read call member := by cases member

theorem lastStamp_cons {s : Commits} {stamp : Stamp} {stamps : List Stamp}
    (same : s.stamps = stamp :: stamps) (u : String) :
    s.lastStamp u = if stamp.tenant = u then some stamp.time
      else (stamps.find? (·.tenant = u)).map (·.time) := by
  unfold Commits.lastStamp
  rw [same, List.find?_cons]
  by_cases own : stamp.tenant = u
  · simp only [own, decide_true, if_true, Option.map_some]
  · simp only [own, decide_false, if_false]

theorem take_cases (cfg : ReclaimConfig) (s : Commits) (tenant : String) (now : ℕ) :
    (¬ s.sweeps.Cooling tenant cfg.cooldown now ∧ s.take cfg tenant now =
      { s with
        sweeps := (s.sweeps.claim tenant cfg.cooldown now).1
        running := tenant :: s.running
        stamps := ⟨tenant, now, true⟩ :: s.stamps }) ∨
    (s.sweeps.Cooling tenant cfg.cooldown now ∧ s.take cfg tenant now =
      { s with sweeps := (s.sweeps.claim tenant cfg.cooldown now).1 }) := by
  unfold Commits.take
  have granted : (s.sweeps.claim tenant cfg.cooldown now).2 = true ↔ _ := claim_granted
  cases answer : s.sweeps.claim tenant cfg.cooldown now with
  | mk sweeps free =>
    rw [answer] at granted
    cases free with
    | true => exact .inl ⟨granted.mp rfl, rfl⟩
    | false => exact .inr ⟨by_contra fun free => Bool.false_ne_true (granted.mpr free), rfl⟩

theorem stamped_take {cfg : ReclaimConfig} {s : Commits} (stamped : Stamped s) {tenant : String}
    {now : ℕ} (read : now ≤ s.clock) : Stamped (s.take cfg tenant now) := by
  obtain ⟨latest, settled, past, waiting⟩ := stamped
  rcases take_cases cfg s tenant now with ⟨free, same⟩ | ⟨cooling, same⟩ <;> rw [same]
  · refine ⟨fun u t found => ?_, ?_, ?_, waiting⟩
    · rw [lastStamp_cons rfl]
      by_cases own : tenant = u
      · subst own
        rw [if_pos rfl]
        rcases lookup_claim_self found with ⟨-, rfl⟩ | ⟨refused, -⟩
        · rfl
        · rw [claim_granted.mpr free] at refused
          cases refused
      · rw [if_neg own]
        exact latest u t ((lookup_claim (Ne.symm own)).mp found).1
    · exact List.pairwise_cons.mpr ⟨fun _ _ refused =>
        absurd refused.symm Bool.false_ne_true, settled⟩
    · exact List.forall_mem_cons.mpr ⟨read, past⟩
  · refine ⟨fun u t found => ?_, settled, past, waiting⟩
    by_cases own : u = tenant
    · subst own
      rcases lookup_claim_self found with ⟨granted, -⟩ | ⟨-, there⟩
      · exact absurd cooling (claim_granted.mp granted)
      · exact latest u t there
    · exact latest u t ((lookup_claim own).mp found).1

theorem stamped_step (cfg : ReclaimConfig) (s : Commits) (l : CommitStep) (stamped : Stamped s) :
    Stamped (s.step cfg l) := by
  obtain ⟨latest, settled, past, read⟩ := stamped
  cases l with
  | tick d =>
    exact ⟨latest, settled, fun stamp member => (past stamp member).trans (Nat.le_add_right _ _),
      fun call member => (read call member).trans (Nat.le_add_right _ _)⟩
  | committed tenant =>
    simp only [Commits.step]
    split
    · refine ⟨latest, settled, past, fun call member => ?_⟩
      rcases List.mem_append.mp member with before | here
      · exact read call before
      · rw [List.mem_singleton.mp here]
    · exact ⟨latest, settled, past, read⟩
  | claimed i =>
    simp only [Commits.step]
    split
    · exact ⟨latest, settled, past, read⟩
    · next tenant now next =>
      have taken : Stamped (s.take cfg tenant now) :=
        stamped_take ⟨latest, settled, past, read⟩ (read _ (List.mem_of_getElem? next))
      have clock : (s.take cfg tenant now).clock = s.clock := by
        rcases take_cases cfg s tenant now with ⟨-, same⟩ | ⟨-, same⟩ <;> rw [same]
      refine ⟨taken.latest, taken.settled, taken.past, fun call member => ?_⟩
      show call.2 ≤ (s.take cfg tenant now).clock
      rw [clock]
      exact read call (List.mem_of_mem_eraseIdx member)
  | swept tenant =>
    simp only [Commits.step]
    split
    · refine ⟨fun u t found => ?_, ?_, ?_, read⟩
      · unfold Sweeps.finished at found
        rw [Table.lookup_insert] at found
        rw [lastStamp_cons rfl]
        split at found
        · next own =>
          obtain rfl := Option.some.inj found
          rw [if_pos own.symm]
        · next other =>
          rw [if_neg (Ne.symm other)]
          exact latest u t found
      · exact List.pairwise_cons.mpr ⟨fun earlier member _ => past earlier member, settled⟩
      · exact List.forall_mem_cons.mpr ⟨Nat.le_refl _, past⟩
    · exact ⟨latest, settled, past, read⟩

/-! ### Distances -/

/-- **The latest stamp of a tenant is its greatest**, in a run that kept its distances so far. -/
theorem le_lastStamp {cooldown : ℕ} {s : Commits} (stamped : Stamped s) (spaced : Spaced cooldown s)
    {u : String} {t : ℕ} (last : s.lastStamp u = some t) {stamp : Stamp} (member : stamp ∈ s.stamps)
    (own : stamp.tenant = u) : stamp.time ≤ t := by
  have settled := stamped.settled
  unfold Spaced at spaced
  unfold Commits.lastStamp at last
  generalize s.stamps = stamps at settled spaced last member
  induction stamps with
  | nil => cases member
  | cons first rest ih =>
    obtain ⟨sets, settled⟩ := List.pairwise_cons.mp settled
    obtain ⟨spaces, spaced⟩ := List.pairwise_cons.mp spaced
    rw [List.find?_cons] at last
    by_cases mine : first.tenant = u
    · simp only [mine, decide_true, Option.map_some, Option.some.injEq] at last
      subst last
      rcases List.mem_cons.mp member with rfl | later
      · exact Nat.le_refl _
      · cases how : first.granted with
        | true => exact Nat.le_of_add_right_le (spaces stamp later how (mine.trans own.symm))
        | false => exact sets stamp later how
    · simp only [mine, decide_false] at last
      rcases List.mem_cons.mp member with rfl | later
      · exact absurd own mine
      · exact ih settled spaced last later

theorem lastStamp_of_mem {s : Commits} {stamp : Stamp} (member : stamp ∈ s.stamps) :
    ∃ t, s.lastStamp stamp.tenant = some t := by
  unfold Commits.lastStamp
  have found : (s.stamps.find? (·.tenant = stamp.tenant)).isSome :=
    List.find?_isSome.mpr ⟨stamp, member, decide_eq_true rfl⟩
  obtain ⟨first, found⟩ := Option.isSome_iff_exists.mp found
  exact ⟨first.time, by rw [found]; rfl⟩

theorem mem_of_lastStamp {s : Commits} {u : String} {t : ℕ} (last : s.lastStamp u = some t) :
    ∃ stamp ∈ s.stamps, stamp.tenant = u ∧ stamp.time = t := by
  obtain ⟨stamp, found, time⟩ := Option.map_eq_some_iff.mp last
  have own := List.find?_some found
  exact ⟨stamp, List.mem_of_find?_eq_some found, of_decide_eq_true own, time⟩

/-- **One claim.** It keeps the distances, leaves the other tenants' entries and starts no second
sweep exactly when it comes in order. -/
theorem claim_keeps_iff {cfg : ReclaimConfig} {s : Commits} (stamped : Stamped s)
    (spaced : Spaced cfg.cooldown s) (single : Single s) (tenant : String) (now : ℕ) :
    ((Spaced cfg.cooldown (s.take cfg tenant now) ∧ Single (s.take cfg tenant now)) ∧
      ∀ v t, v ≠ tenant → s.sweeps.last.lookup v = some t → now < t + cfg.cooldown →
        (s.take cfg tenant now).sweeps.last.lookup v = some t) ↔
    (∀ v t, s.sweeps.last.lookup v = some t → t ≤ now) ∧
      (s.sweeps.last.lookup tenant = none → ∀ t, s.lastStamp tenant = some t →
        t + cfg.cooldown ≤ now) ∧
      (tenant ∈ s.running → ∃ t, s.sweeps.last.lookup tenant = some t ∧ now < t + cfg.cooldown) := by
  have table : (s.take cfg tenant now).sweeps = (s.sweeps.claim tenant cfg.cooldown now).1 := by
    rcases take_cases cfg s tenant now with ⟨-, same⟩ | ⟨-, same⟩ <;> rw [same]
  rw [table]
  constructor
  · rintro ⟨⟨apart, alone⟩, recalls⟩
    rcases take_cases cfg s tenant now with ⟨free, same⟩ | ⟨cooling, same⟩ <;>
      rw [same] at apart alone
    · have distant : ∀ t, s.lastStamp tenant = some t → t + cfg.cooldown ≤ now := by
        intro t last
        obtain ⟨stamp, member, own, rfl⟩ := mem_of_lastStamp last
        exact (List.pairwise_cons.mp apart).1 stamp member rfl own.symm
      refine ⟨fun v t found => ?_, fun _ => distant, fun running => ?_⟩
      · by_cases own : v = tenant
        · subst own
          exact Nat.le_of_add_right_le (distant t (stamped.latest v t found))
        · by_contra future
          have kept := recalls v t own found (by omega)
          exact future ((lookup_claim own).mp kept).2.1
      · exact absurd running (List.nodup_cons.mp alone).1
    · obtain ⟨t, found, past, young⟩ := cooling
      refine ⟨fun v t' found' => ?_, fun absent => ?_, fun _ => ⟨t, found, young⟩⟩
      · by_cases own : v = tenant
        · subst own
          obtain rfl := Option.some.inj (found.symm.trans found')
          exact past
        · by_contra future
          have kept := recalls v t' own found' (by omega)
          exact future ((lookup_claim own).mp kept).2.1
      · rw [absent] at found
        cases found
  · rintro ⟨past, dropped, running⟩
    refine ⟨?_, fun v t other found young => (lookup_claim other).mpr ⟨found, past v t found, young⟩⟩
    rcases take_cases cfg s tenant now with ⟨free, same⟩ | ⟨cooling, same⟩ <;> rw [same]
    · refine ⟨List.pairwise_cons.mpr ⟨fun stamp member _ own => ?_, spaced⟩,
        List.nodup_cons.mpr ⟨fun runs => ?_, single⟩⟩
      · -- The latest stamp is far enough, and the others are no later.
        obtain ⟨t, last⟩ := lastStamp_of_mem member
        have below := le_lastStamp stamped spaced last member rfl
        rw [← own] at last
        have far : t + cfg.cooldown ≤ now := by
          cases found : s.sweeps.last.lookup tenant with
          | none => exact dropped found t last
          | some t' =>
            have same := (stamped.latest tenant t' found).symm.trans last
            obtain rfl := Option.some.inj same
            by_contra near
            exact free ⟨t', found, past tenant t' found, Nat.lt_of_not_le near⟩
        exact (Nat.add_le_add_right below _).trans far
      · obtain ⟨t, found, young⟩ := running runs
        exact free ⟨t, found, past tenant t found, young⟩
    · exact ⟨spaced, single⟩

/-! ### Whole runs -/

theorem step_keeps_iff (cfg : ReclaimConfig) (s : Commits) (l : CommitStep) (stamped : Stamped s)
    (keeps : Spaced cfg.cooldown s ∧ Single s) :
    ((Spaced cfg.cooldown (s.step cfg l) ∧ Single (s.step cfg l)) ∧ Recalls cfg s l) ↔
      InOrder cfg s l := by
  obtain ⟨spaced, single⟩ := keeps
  cases l with
  | tick d => exact ⟨fun _ => trivial, fun _ => ⟨⟨spaced, single⟩, trivial⟩⟩
  | committed tenant =>
    refine ⟨fun _ => trivial, fun _ => ⟨?_, trivial⟩⟩
    simp only [Commits.step]
    split <;> exact ⟨spaced, single⟩
  | claimed i =>
    have one := claim_keeps_iff stamped spaced single
    simp only [Recalls, InOrder, Commits.step]
    cases next : s.waiting[i]? with
    | none =>
      refine ⟨fun _ _ _ call => ?_, fun _ => ⟨⟨spaced, single⟩, fun _ _ call => ?_⟩⟩
      · cases call
      · cases call
    | some call =>
      obtain ⟨tenant, now⟩ := call
      constructor
      · rintro ⟨keeps, recalls⟩ _ _ same
        obtain ⟨rfl, rfl⟩ := Prod.mk.inj (Option.some.inj same)
        exact (one tenant now).mp ⟨keeps, recalls tenant now rfl⟩
      · intro order
        obtain ⟨keeps, recalls⟩ := (one tenant now).mpr (order tenant now rfl)
        refine ⟨keeps, fun _ _ same => ?_⟩
        obtain ⟨rfl, rfl⟩ := Prod.mk.inj (Option.some.inj same)
        exact recalls
  | swept tenant =>
    refine ⟨fun _ => trivial, fun _ => ⟨?_, trivial⟩⟩
    simp only [Commits.step]
    split
    · exact ⟨List.pairwise_cons.mpr ⟨fun _ _ granted => absurd granted Bool.false_ne_true, spaced⟩,
        single.erase tenant⟩
    · exact ⟨spaced, single⟩

/-- **The rate limit, over every interleaving of commits and sweeps.** Every granted claim is a
cooldown after what was recorded of its tenant, no claim forgets a cooldown of another tenant, and no
two sweeps of a tenant run at once, exactly along the runs whose claims come in order. -/
theorem sweeps_spaced_iff (cfg : ReclaimConfig) (clock : ℕ) (steps : List CommitStep) :
    ((∀ n, Spaced cfg.cooldown (run (Commits.step cfg) (start clock) (steps.take n)) ∧
        Single (run (Commits.step cfg) (start clock) (steps.take n))) ∧
      Along (Commits.step cfg) (Recalls cfg) (start clock) steps) ↔
    Along (Commits.step cfg) (InOrder cfg) (start clock) steps :=
  always_and_along_iff (stamped_step cfg)
    (fun s l stamped keeps => step_keeps_iff cfg s l stamped keeps) (stamped_start clock)
    ⟨List.Pairwise.nil, List.nodup_nil⟩

/-- Two commits read the clock, and the later reading gets the lock first. -/
def lateClaim : List CommitStep :=
  [.committed "globex", .tick 5, .committed "acme", .claimed 1, .claimed 0, .tick 1,
    .committed "acme", .claimed 0]

/-- The claim of one tenant with the earlier reading drops the other tenant's entry, which then
sweeps again within the cooldown, while its first sweep still runs. -/
theorem lateClaim_forgets :
    ¬ Recalls { cooldown := 10 } (run (Commits.step { cooldown := 10 }) (start 0)
        (lateClaim.take 4)) (.claimed 0) ∧
      ¬ Spaced 10 (run (Commits.step { cooldown := 10 }) (start 0) lateClaim) ∧
      ¬ Single (run (Commits.step { cooldown := 10 }) (start 0) lateClaim) := by
  refine ⟨fun recalls => ?_, ?_, ?_⟩
  · have kept := recalls "globex" 0 (by decide +kernel) "acme" 5 (by decide) (by decide +kernel)
      (by decide)
    revert kept
    decide +kernel
  · unfold Spaced
    decide +kernel
  · unfold Single
    decide +kernel

end HullCi.Fetch
