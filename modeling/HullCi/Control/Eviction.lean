/-
**Eviction counts what it removed twice.**

Each round of a pass compares the cap with `by_id.len() - evicted.len()`, but the map has already
shrunk by what was evicted. The count left over is therefore short by the number of removals, and
after half of the records it is below zero.

* `evictChecked` — the sweep in a build that checks overflow, where that subtraction panics.
* `Sweep` — what a sweep is to remove, by the number of paid jobs and of debts that go.
* `evictChecked_iff` — how far both passes get, by arithmetic on the number of records.
* `meets_iff` — the sweep is the right one exactly when the short count never decides anything.
-/

import HullCi.Control.Store

namespace HullCi.Control

open HullCi.Proto HullCi.Base

namespace JobStore

/-! ### The sweep, with overflow checks -/

/-- `usize` subtraction in a build that checks overflow; `none` is the panic. -/
def checkedSub (a b : ℕ) : Option ℕ :=
  if b ≤ a then some (a - b) else none

/-- One pass: `go` sees when the next job settled and the count it takes for the one left over. -/
def passChecked (go : Instant → ℕ → Bool) :
    List (Instant × JobId) → JobStore × List JobId → Option (JobStore × List JobId)
  | [], out => some out
  | (settledAt, id) :: rest, (s, evicted) =>
    match checkedSub s.len evicted.length with
    | none => none
    | some left =>
      if go settledAt left then passChecked go rest (s.remove id, evicted ++ [id])
      else some (s, evicted)

/-- A paid job goes by the clock or by cap pressure. -/
def goPaid (now : Instant) (retention : Duration) (maxJobs : ℕ) (settledAt : Instant)
    (left : ℕ) : Bool :=
  retention ≤ now - settledAt ∨ maxJobs < left

/-- A debt goes by cap pressure only. -/
def goOwed (maxJobs : ℕ) (_ : Instant) (left : ℕ) : Bool :=
  maxJobs < left

def evictChecked (s : JobStore) (now : Instant) (retention : Duration) (maxJobs : ℕ) :
    Option (JobStore × List JobId) :=
  let paid := s.settledOldestFirst false
  let owed := s.settledOldestFirst true
  (passChecked (goPaid now retention maxJobs) paid (s, [])).bind
    (passChecked (goOwed maxJobs) owed)

/-! ### A sweep that does not panic is the sweep that wraps -/

theorem wrappingSub_of_checkedSub {a b left : ℕ} (fits : a < 2 ^ 64)
    (checked : checkedSub a b = some left) : wrappingSub a b = left := by
  unfold checkedSub at checked
  unfold wrappingSub
  split at checked
  · cases checked
    omega
  · cases checked

theorem len_remove_le (s : JobStore) (id : JobId) : (s.remove id).len ≤ s.len :=
  Table.size_erase_le s.byId id

theorem evictPaid_of_passChecked {now : Instant} {retention : Duration} {maxJobs : ℕ}
    {l : List (Instant × JobId)} {s : JobStore} {evicted : List JobId}
    {out : JobStore × List JobId} (fits : s.len < 2 ^ 64)
    (passed : passChecked (goPaid now retention maxJobs) l (s, evicted) = some out) :
    evictPaid now retention maxJobs l (s, evicted) = out ∧ out.1.len < 2 ^ 64 := by
  induction l generalizing s evicted with
  | nil =>
    cases passed
    exact ⟨rfl, fits⟩
  | cons e rest ih =>
    obtain ⟨t, id⟩ := e
    unfold passChecked at passed
    unfold evictPaid
    cases checked : checkedSub s.len evicted.length with
    | none => simp [checked] at passed
    | some left =>
      rw [wrappingSub_of_checkedSub fits checked]
      simp only [checked, goPaid, decide_eq_true_eq] at passed
      by_cases goes : retention ≤ now - t ∨ maxJobs < left
      · rw [if_pos goes] at passed ⊢
        exact ih (lt_of_le_of_lt (len_remove_le s id) fits) passed
      · rw [if_neg goes] at passed ⊢
        cases passed
        exact ⟨rfl, fits⟩

theorem evictOwed_of_passChecked {maxJobs : ℕ} {l : List (Instant × JobId)} {s : JobStore}
    {evicted : List JobId} {out : JobStore × List JobId} (fits : s.len < 2 ^ 64)
    (passed : passChecked (goOwed maxJobs) l (s, evicted) = some out) :
    evictOwed maxJobs l (s, evicted) = out := by
  induction l generalizing s evicted with
  | nil =>
    cases passed
    rfl
  | cons e rest ih =>
    obtain ⟨t, id⟩ := e
    unfold passChecked at passed
    unfold evictOwed
    cases checked : checkedSub s.len evicted.length with
    | none => simp [checked] at passed
    | some left =>
      rw [wrappingSub_of_checkedSub fits checked]
      simp only [checked, goOwed, decide_eq_true_eq] at passed
      by_cases goes : maxJobs < left
      · rw [if_pos goes] at passed
        rw [if_neg (Nat.not_le.mpr goes)]
        exact ih (lt_of_le_of_lt (len_remove_le s id) fits) passed
      · rw [if_neg goes] at passed
        rw [if_pos (Nat.not_lt.mp goes)]
        exact Option.some.inj passed

theorem evict_of_evictChecked {s : JobStore} {now : Instant} {retention : Duration} {maxJobs : ℕ}
    {out : JobStore × List JobId} (fits : s.len < 2 ^ 64)
    (checked : s.evictChecked now retention maxJobs = some out) :
    s.evict now retention maxJobs = out := by
  unfold evictChecked at checked
  obtain ⟨mid, first, second⟩ := Option.bind_eq_some_iff.mp checked
  obtain ⟨paid, small⟩ := evictPaid_of_passChecked fits first
  dsimp only [evict]
  rw [paid]
  exact evictOwed_of_passChecked small second

/-! ### How far a pass gets -/

def removeAll (s : JobStore) (ids : List JobId) : JobStore :=
  ids.foldl remove s

@[simp] theorem removeAll_nil (s : JobStore) : s.removeAll [] = s := rfl

@[simp] theorem removeAll_cons (s : JobStore) (id : JobId) (ids : List JobId) :
    s.removeAll (id :: ids) = (s.remove id).removeAll ids := rfl

theorem removeAll_append (s : JobStore) (first second : List JobId) :
    s.removeAll (first ++ second) = (s.removeAll first).removeAll second :=
  List.foldl_append

@[simp] theorem get_removeAll (s : JobStore) (ids : List JobId) (id : JobId) :
    (s.removeAll ids).get id = if id ∈ ids then none else s.get id := by
  induction ids generalizing s with
  | nil => rfl
  | cons first rest ih =>
    rw [removeAll_cons, ih, get_remove]
    by_cases same : id = first
    · simp [same]
    · by_cases member : id ∈ rest
      · simp [member]
      · simp [member, same]

theorem len_remove {s : JobStore} {id : JobId} (held : (s.get id).isSome) :
    (s.remove id).len + 1 = s.len :=
  Table.size_erase held

/-- Where a pass over `l` stops, `i` of `n` records having gone before: after `a` more. -/
structure Stops (go : Instant → ℕ → Bool) (n i : ℕ) (l : List (Instant × JobId)) (a : ℕ) :
    Prop where
  le : a ≤ l.length
  went : ∀ j e, j < a → l[j]? = some e → 2 * (i + j) ≤ n ∧ go e.1 (n - 2 * (i + j)) = true
  stopped : ∀ e, l[a]? = some e → 2 * (i + a) ≤ n ∧ go e.1 (n - 2 * (i + a)) = false

theorem stops_nil (go : Instant → ℕ → Bool) (n i a : ℕ) : Stops go n i [] a ↔ a = 0 := by
  constructor
  · intro stops
    exact Nat.le_zero.mp stops.le
  · rintro rfl
    exact ⟨Nat.zero_le _, fun j e below => absurd below (Nat.not_lt_zero j),
      fun e found => by simp at found⟩

theorem stops_zero (go : Instant → ℕ → Bool) (n i : ℕ) (e : Instant × JobId)
    (rest : List (Instant × JobId)) :
    Stops go n i (e :: rest) 0 ↔ 2 * i ≤ n ∧ go e.1 (n - 2 * i) = false := by
  constructor
  · intro stops
    exact stops.stopped e rfl
  · intro stopped
    refine ⟨Nat.zero_le _, fun j e' below => absurd below (Nat.not_lt_zero j), ?_⟩
    rintro e' found
    cases found
    exact stopped

theorem stops_succ (go : Instant → ℕ → Bool) (n i : ℕ) (e : Instant × JobId)
    (rest : List (Instant × JobId)) (a : ℕ) :
    Stops go n i (e :: rest) (a + 1) ↔
      (2 * i ≤ n ∧ go e.1 (n - 2 * i) = true) ∧ Stops go n (i + 1) rest a := by
  have shift : ∀ j, i + 1 + j = i + (j + 1) := fun j => by omega
  constructor
  · intro stops
    refine ⟨stops.went 0 e (Nat.succ_pos a) rfl, ?_, fun j e' below found => ?_,
      fun e' found => ?_⟩
    · exact Nat.le_of_succ_le_succ stops.le
    · rw [shift]
      exact stops.went (j + 1) e' (Nat.succ_lt_succ below) found
    · rw [shift]
      exact stops.stopped e' found
  · rintro ⟨first, stops⟩
    refine ⟨Nat.succ_le_succ stops.le, fun j e' below found => ?_, fun e' found => ?_⟩
    · cases j with
      | zero =>
        cases found
        exact first
      | succ j =>
        rw [← shift]
        exact stops.went j e' (Nat.lt_of_succ_lt_succ below) found
    · rw [← shift]
      exact stops.stopped e' found

/-- The ids on a list of candidates. -/
abbrev ids (l : List (Instant × JobId)) : List JobId :=
  l.map Prod.snd

theorem ids_append (first second : List (Instant × JobId)) :
    ids (first ++ second) = ids first ++ ids second :=
  List.map_append

/-- **One pass removes the first `a` candidates**, where `a` is where its short count stops it. -/
theorem passChecked_iff (go : Instant → ℕ → Bool) {n i : ℕ} {l : List (Instant × JobId)}
    {s : JobStore} {evicted : List JobId} {out : JobStore × List JobId}
    (left : s.len + i = n) (count : evicted.length = i) (distinct : (ids l).Nodup)
    (held : ∀ id ∈ ids l, (s.get id).isSome) :
    passChecked go l (s, evicted) = some out ↔
      ∃ a, Stops go n i l a ∧
        out = (s.removeAll (ids (l.take a)), evicted ++ ids (l.take a)) := by
  induction l generalizing s evicted i with
  | nil =>
    unfold passChecked
    simp only [stops_nil, exists_eq_left, List.take_nil, List.map_nil, removeAll_nil,
      List.append_nil, Option.some.injEq]
    exact eq_comm
  | cons e rest ih =>
    obtain ⟨t, id⟩ := e
    have checked : checkedSub s.len evicted.length =
        if 2 * i ≤ n then some (n - 2 * i) else none := by
      unfold checkedSub
      by_cases small : 2 * i ≤ n
      · rw [if_pos small, if_pos (by omega)]
        congr 1
        omega
      · rw [if_neg small, if_neg (by omega)]
    have here : (s.get id).isSome := held id List.mem_cons_self
    have next := @ih (i + 1) (s.remove id) (evicted ++ [id])
      (by have := len_remove here; omega) (by simp [count]) (List.nodup_cons.mp distinct).2
      (fun id' member => by
        have other : id' ≠ id := fun same => (List.nodup_cons.mp distinct).1 (same ▸ member)
        rw [get_remove, if_neg other]
        exact held id' (List.mem_cons_of_mem _ member))
    unfold passChecked
    rw [checked]
    by_cases small : 2 * i ≤ n
    · rw [if_pos small]
      cases goes : go t (n - 2 * i) with
      | true =>
        simp only [goes, if_true]
        rw [next]
        constructor
        · rintro ⟨a, stops, rfl⟩
          refine ⟨a + 1, (stops_succ go n i _ rest a).mpr ⟨⟨small, goes⟩, stops⟩, ?_⟩
          simp
        · rintro ⟨a, stops, rfl⟩
          cases a with
          | zero =>
            have halted := ((stops_zero go n i _ rest).mp stops).2
            simp [goes] at halted
          | succ a =>
            refine ⟨a, ((stops_succ go n i _ rest a).mp stops).2, ?_⟩
            simp
      | false =>
        simp only [goes, Bool.false_eq_true, if_false, Option.some.injEq]
        constructor
        · rintro rfl
          exact ⟨0, (stops_zero go n i _ rest).mpr ⟨small, goes⟩, by simp⟩
        · rintro ⟨a, stops, rfl⟩
          cases a with
          | zero => simp
          | succ a =>
            have went := ((stops_succ go n i _ rest a).mp stops).1.2
            simp [goes] at went
    · rw [if_neg small]
      constructor
      · intro none
        cases none
      · rintro ⟨a, stops, -⟩
        cases a with
        | zero => exact absurd ((stops_zero go n i _ rest).mp stops).1 small
        | succ a => exact absurd ((stops_succ go n i _ rest a).mp stops).1.1 small

/-! ### The candidates -/

/-- The candidates of a pass are the settled jobs of its class. -/
theorem mem_settledOldestFirst {s : JobStore} {owing : Bool} {t : Instant} {id : JobId} :
    (t, id) ∈ s.settledOldestFirst owing ↔
      ∃ job, s.get id = some job ∧ job.state.owesAVerdict = owing ∧ job.settledAt = some t := by
  unfold settledOldestFirst
  rw [List.mem_insertionSort, List.mem_filterMap]
  constructor
  · rintro ⟨job, member, stamped⟩
    obtain ⟨held, owes⟩ := List.mem_filter.mp member
    obtain ⟨t', settled, same⟩ := Option.map_eq_some_iff.mp stamped
    obtain ⟨rfl, rfl⟩ := Prod.mk.inj same
    obtain ⟨key, found⟩ := Table.mem_values.mp held
    refine ⟨job, ?_, of_decide_eq_true owes, settled⟩
    rw [id_of_get found]
    exact found
  · rintro ⟨job, found, owes, settled⟩
    refine ⟨job, List.mem_filter.mpr ⟨Table.mem_values.mpr ⟨id, found⟩, ?_⟩, ?_⟩
    · exact decide_eq_true owes
    · rw [settled, id_of_get found]
      rfl

theorem sorted_settledOldestFirst (s : JobStore) (owing : Bool) :
    (s.settledOldestFirst owing).Pairwise fun a b => a.1 ≤ b.1 := by
  unfold settledOldestFirst
  have total : Std.Total fun a b : Instant × JobId => a.1 ≤ b.1 := ⟨fun a b => le_total a.1 b.1⟩
  have trans : IsTrans (Instant × JobId) fun a b => a.1 ≤ b.1 := ⟨fun _ _ _ => le_trans⟩
  exact List.pairwise_insertionSort _ _

theorem ids_iter (s : JobStore) : s.iter.map Job.id = s.byId.entries.keys := by
  unfold iter Table.values List.keys
  rw [List.map_map]
  refine List.map_congr_left fun e member => ?_
  exact s.keyed e.1 e.2 (Table.mem_entries.mp member)

theorem nodup_ids (s : JobStore) (owing : Bool) : (ids (s.settledOldestFirst owing)).Nodup := by
  have whole : (s.iter.map Job.id).Nodup := by
    rw [ids_iter]
    exact s.byId.nodupKeys
  have stamps : ∀ jobs : List Job,
      (ids (jobs.filterMap fun job => job.settledAt.map fun t => (t, job.id))).Sublist
        (jobs.map Job.id) := by
    intro jobs
    induction jobs with
    | nil => exact List.Sublist.slnil
    | cons job rest ih =>
      cases settled : job.settledAt with
      | none =>
        rw [List.filterMap_cons_none (by rw [settled]; rfl), List.map_cons]
        exact ih.cons _
      | some t =>
        rw [List.filterMap_cons_some (b := (t, job.id)) (by rw [settled]; rfl)]
        exact ih.cons_cons _
  have sorted := List.perm_insertionSort (fun a b : Instant × JobId => a.1 ≤ b.1)
    ((s.iter.filter fun job => job.state.owesAVerdict = owing).filterMap fun job =>
      job.settledAt.map fun t => (t, job.id))
  refine (sorted.map Prod.snd).nodup_iff.mpr ?_
  exact whole.sublist ((stamps _).trans (List.filter_sublist.map _))

theorem held_of_mem_ids {s : JobStore} {owing : Bool} {id : JobId}
    (member : id ∈ ids (s.settledOldestFirst owing)) :
    ∃ job, s.get id = some job ∧ job.state.owesAVerdict = owing := by
  obtain ⟨⟨t, id'⟩, candidate, rfl⟩ := List.mem_map.mp member
  obtain ⟨job, found, owes, -⟩ := mem_settledOldestFirst.mp candidate
  exact ⟨job, found, owes⟩

theorem disjoint_ids {s : JobStore} {id : JobId}
    (paid : id ∈ ids (s.settledOldestFirst false)) (owed : id ∈ ids (s.settledOldestFirst true)) :
    False := by
  obtain ⟨job, found, owes⟩ := held_of_mem_ids paid
  obtain ⟨job', found', owes'⟩ := held_of_mem_ids owed
  rw [found] at found'
  cases found'
  rw [owes] at owes'
  cases owes'

theorem len_removeAll {s : JobStore} {l : List JobId} (distinct : l.Nodup)
    (held : ∀ id ∈ l, (s.get id).isSome) : (s.removeAll l).len + l.length = s.len := by
  induction l generalizing s with
  | nil => rfl
  | cons id rest ih =>
    obtain ⟨fresh, distinct⟩ := List.nodup_cons.mp distinct
    have rest_held : ∀ id' ∈ rest, ((s.remove id).get id').isSome := by
      intro id' member
      rw [get_remove, if_neg fun same : id' = id => fresh (same ▸ member)]
      exact held id' (List.mem_cons_of_mem _ member)
    have whole := ih distinct rest_held
    have first := len_remove (held id List.mem_cons_self)
    rw [removeAll_cons, List.length_cons]
    omega

/-! ### Both passes -/

/-- The paid jobs that are past the retention clock. -/
def expired (s : JobStore) (now : Instant) (retention : Duration) : ℕ :=
  (s.settledOldestFirst false).countP fun e => retention ≤ now - e.1

/-- In a sorted list, a test that only old entries pass holds of the first ones. -/
theorem lt_countP_iff {l : List (Instant × JobId)} {p : Instant × JobId → Bool}
    (sorted : l.Pairwise fun a b => a.1 ≤ b.1)
    (old : ∀ a b : Instant × JobId, a.1 ≤ b.1 → p b = true → p a = true) {j : ℕ}
    {e : Instant × JobId} (found : l[j]? = some e) : j < l.countP p ↔ p e = true := by
  induction l generalizing j with
  | nil => simp at found
  | cons first rest ih =>
    obtain ⟨least, sorted⟩ := List.pairwise_cons.mp sorted
    by_cases passes : p first = true
    · rw [List.countP_cons_of_pos passes]
      cases j with
      | zero =>
        cases found
        simp [passes]
      | succ j =>
        rw [Nat.succ_lt_succ_iff]
        exact ih sorted found
    · have fail : ∀ e ∈ rest, ¬ p e = true := fun e member passed =>
        passes (old first e (least e member) passed)
      rw [List.countP_cons_of_neg passes, List.countP_eq_zero.mpr fail]
      refine ⟨fun below => absurd below (Nat.not_lt_zero j), fun passed => ?_⟩
      cases j with
      | zero =>
        cases found
        exact absurd passed passes
      | succ j => exact absurd passed (fail e (List.mem_of_getElem? found))

theorem lt_expired_iff {s : JobStore} (now : Instant) (retention : Duration) {j : ℕ}
    {e : Instant × JobId} (found : (s.settledOldestFirst false)[j]? = some e) :
    j < s.expired now retention ↔ retention ≤ now - e.1 := by
  unfold expired
  rw [lt_countP_iff (sorted_settledOldestFirst s false) ?_ found]
  · exact decide_eq_true_iff
  · intro a b older passes
    have reached := of_decide_eq_true passes
    exact decide_eq_true (le_trans reached (Nat.sub_le_sub_left older now))

theorem expired_le (s : JobStore) (now : Instant) (retention : Duration) :
    s.expired now retention ≤ (s.settledOldestFirst false).length :=
  List.countP_le_length

theorem stops_goPaid_iff (s : JobStore) (now : Instant) (retention : Duration) (maxJobs n a : ℕ) :
    Stops (goPaid now retention maxJobs) n 0 (s.settledOldestFirst false) a ↔
      a ≤ (s.settledOldestFirst false).length ∧
      (∀ j < a, 2 * j ≤ n ∧ (j < s.expired now retention ∨ maxJobs < n - 2 * j)) ∧
      (a < (s.settledOldestFirst false).length →
        2 * a ≤ n ∧ s.expired now retention ≤ a ∧ n - 2 * a ≤ maxJobs) := by
  have reads : ∀ j e, (s.settledOldestFirst false)[j]? = some e →
      (goPaid now retention maxJobs e.1 (n - 2 * j) = true ↔
        j < s.expired now retention ∨ maxJobs < n - 2 * j) := by
    intro j e found
    unfold goPaid
    rw [decide_eq_true_iff, lt_expired_iff now retention found]
  constructor
  · intro stops
    refine ⟨stops.le, fun j below => ?_, fun short => ?_⟩
    · have found := List.getElem?_eq_getElem (lt_of_lt_of_le below stops.le)
      have went := stops.went j _ below found
      rw [Nat.zero_add, reads j _ found] at went
      exact went
    · have found := List.getElem?_eq_getElem short
      have stopped := stops.stopped _ found
      rw [Nat.zero_add, ← Bool.not_eq_true, reads a _ found] at stopped
      omega
  · rintro ⟨le, went, stopped⟩
    refine ⟨le, fun j e below found => ?_, fun e found => ?_⟩
    · rw [Nat.zero_add, reads j e found]
      exact went j below
    · rw [Nat.zero_add, ← Bool.not_eq_true, reads a e found]
      have := stopped (List.getElem?_eq_some_iff.mp found).1
      omega

theorem stops_goOwed_iff (maxJobs n a b : ℕ) (owed : List (Instant × JobId)) :
    Stops (goOwed maxJobs) n a owed b ↔
      b ≤ owed.length ∧
      (∀ j < b, 2 * (a + j) ≤ n ∧ maxJobs < n - 2 * (a + j)) ∧
      (b < owed.length → 2 * (a + b) ≤ n ∧ n - 2 * (a + b) ≤ maxJobs) := by
  constructor
  · intro stops
    refine ⟨stops.le, fun j below => ?_, fun short => ?_⟩
    · have went := stops.went j _ below (List.getElem?_eq_getElem (lt_of_lt_of_le below stops.le))
      exact ⟨went.1, of_decide_eq_true went.2⟩
    · have stopped := stops.stopped _ (List.getElem?_eq_getElem short)
      exact ⟨stopped.1, Nat.not_lt.mp (of_decide_eq_false stopped.2)⟩
  · rintro ⟨le, went, stopped⟩
    refine ⟨le, fun j e below _ => ?_, fun e found => ?_⟩
    · exact ⟨(went j below).1, decide_eq_true (went j below).2⟩
    · have := stopped (List.getElem?_eq_some_iff.mp found).1
      exact ⟨this.1, decide_eq_false (Nat.not_lt.mpr this.2)⟩

/-- **How far both passes get**: each stops where its short count stops it. -/
theorem evictChecked_iff (s : JobStore) (now : Instant) (retention : Duration) (maxJobs : ℕ)
    (out : JobStore × List JobId) :
    s.evictChecked now retention maxJobs = some out ↔
      ∃ a b, Stops (goPaid now retention maxJobs) s.len 0 (s.settledOldestFirst false) a ∧
        Stops (goOwed maxJobs) s.len a (s.settledOldestFirst true) b ∧
        out = (s.removeAll (ids ((s.settledOldestFirst false).take a
            ++ (s.settledOldestFirst true).take b)),
          ids ((s.settledOldestFirst false).take a ++ (s.settledOldestFirst true).take b)) := by
  have held : ∀ owing, ∀ id ∈ ids (s.settledOldestFirst owing), (s.get id).isSome := by
    intro owing id member
    obtain ⟨job, found, -⟩ := held_of_mem_ids member
    rw [found]
    rfl
  have first : ∀ mid, passChecked (goPaid now retention maxJobs) (s.settledOldestFirst false)
      (s, []) = some mid ↔ ∃ a, Stops (goPaid now retention maxJobs) s.len 0
        (s.settledOldestFirst false) a ∧
        mid = (s.removeAll (ids ((s.settledOldestFirst false).take a)),
          [] ++ ids ((s.settledOldestFirst false).take a)) := fun mid =>
    passChecked_iff _ rfl rfl (nodup_ids s false) (held false)
  have second : ∀ a, a ≤ (s.settledOldestFirst false).length → ∀ out,
      passChecked (goOwed maxJobs) (s.settledOldestFirst true)
        (s.removeAll (ids ((s.settledOldestFirst false).take a)),
          ids ((s.settledOldestFirst false).take a)) = some out ↔
      ∃ b, Stops (goOwed maxJobs) s.len a (s.settledOldestFirst true) b ∧
        out = ((s.removeAll (ids ((s.settledOldestFirst false).take a))).removeAll
            (ids ((s.settledOldestFirst true).take b)),
          ids ((s.settledOldestFirst false).take a) ++
            ids ((s.settledOldestFirst true).take b)) := by
    intro a le out
    have taken : (ids ((s.settledOldestFirst false).take a)).length = a := by simp [le]
    have some : ∀ id ∈ ids ((s.settledOldestFirst false).take a),
        id ∈ ids (s.settledOldestFirst false) := fun id member =>
      ((List.take_sublist a _).map Prod.snd).subset member
    refine passChecked_iff _ ?_ taken (nodup_ids s true) ?_
    · have removed := len_removeAll (s := s)
        ((nodup_ids s false).sublist ((List.take_sublist a _).map _))
        fun id member => held false id (some id member)
      rwa [taken] at removed
    · intro id member
      rw [get_removeAll, if_neg fun paid => disjoint_ids (some id paid) member]
      exact held true id member
  dsimp only [evictChecked]
  rw [Option.bind_eq_some_iff]
  constructor
  · rintro ⟨mid, paid, owed⟩
    obtain ⟨a, stops, rfl⟩ := (first mid).mp paid
    obtain ⟨b, stops', rfl⟩ := (second a stops.le out).mp owed
    refine ⟨a, b, stops, stops', ?_⟩
    rw [ids_append, removeAll_append]
  · rintro ⟨a, b, stops, stops', rfl⟩
    refine ⟨_, (first _).mpr ⟨a, stops, rfl⟩, (second a stops.le _).mpr ⟨b, stops', ?_⟩⟩
    rw [ids_append, removeAll_append]

/-! ### The sweep there ought to be -/

/-- **What a sweep is to do**: the `a` oldest paid jobs go, and then the `b` oldest debts. A paid
job goes when it is past the clock, or while more than `maxJobs` are left; a debt goes when no paid
job is left, and only while more than `maxJobs` are. -/
structure Sweep (s : JobStore) (now : Instant) (retention : Duration) (maxJobs : ℕ)
    (out : JobStore × List JobId) (a b : ℕ) : Prop where
  paid_le : a ≤ (s.settledOldestFirst false).length
  owed_le : b ≤ (s.settledOldestFirst true).length
  returned : out.2 =
    ids ((s.settledOldestFirst false).take a ++ (s.settledOldestFirst true).take b)
  removed : ∀ id, out.1.get id = if id ∈ out.2 then none else s.get id
  remaining : out.1.len = s.len - (a + b)
  aged : ∀ j e, (s.settledOldestFirst false)[j]? = some e → retention ≤ now - e.1 → j < a
  pressed : ∀ j e, (s.settledOldestFirst false)[j]? = some e → j < a →
    retention ≤ now - e.1 ∨ maxJobs < s.len - j
  relieved : a < (s.settledOldestFirst false).length → s.len - a ≤ maxJobs
  paid_first : 0 < b → a = (s.settledOldestFirst false).length
  capped : ∀ j < b, maxJobs < s.len - (a + j)
  eased : b < (s.settledOldestFirst true).length → s.len - (a + b) ≤ maxJobs

/-- The sweep neither underflows nor removes anything but what it is to remove. -/
structure Meets (s : JobStore) (now : Instant) (retention : Duration) (maxJobs : ℕ) : Prop where
  sound : s.evictChecked now retention maxJobs = some (s.evict now retention maxJobs)
  sweep : ∃ a b, Sweep s now retention maxJobs (s.evict now retention maxJobs) a b
  live : ∀ id job, s.get id = some job → job.settledAt = none →
    (s.evict now retention maxJobs).1.get id = some job
  debts : s.len ≤ maxJobs → ∀ id job, s.get id = some job → job.state ≠ .reported →
    (s.evict now retention maxJobs).1.get id = some job
  bounded : (s.evict now retention maxJobs).1.len ≤ maxJobs ∨
    ∀ id job, (s.evict now retention maxJobs).1.get id = some job → job.settledAt = none

/-- When the short count does no harm. Of the settled jobs, `due` ought to go. Either the clock alone
takes them and they are at most half of the records, or the short count still exceeds the cap when
the last of them goes. -/
def CountHolds (s : JobStore) (now : Instant) (retention : Duration) (maxJobs : ℕ) : Prop :=
  let settled := (s.settledOldestFirst false).length + (s.settledOldestFirst true).length
  let old := s.expired now retention
  let due := max old (min settled (s.len - maxJobs))
  (due = old ∧ 2 * (if due < settled then due else due - 1) ≤ s.len) ∨
    2 * (due - 1) + maxJobs < s.len

instance (s : JobStore) (now : Instant) (retention : Duration) (maxJobs : ℕ) :
    Decidable (CountHolds s now retention maxJobs) :=
  inferInstanceAs (Decidable ((_ ∧ _) ∨ _))

theorem distinct_ids (s : JobStore) :
    (ids (s.settledOldestFirst false ++ s.settledOldestFirst true)).Nodup := by
  rw [ids_append]
  refine List.Nodup.append (nodup_ids s false) (nodup_ids s true) ?_
  exact fun id paid owed => disjoint_ids paid owed

theorem held_ids (s : JobStore) :
    ∀ id ∈ ids (s.settledOldestFirst false ++ s.settledOldestFirst true), (s.get id).isSome := by
  intro id member
  rw [ids_append] at member
  have one : ∃ owing, id ∈ ids (s.settledOldestFirst owing) := by
    rcases List.mem_append.mp member with paid | owed
    · exact ⟨false, paid⟩
    · exact ⟨true, owed⟩
  obtain ⟨owing, candidate⟩ := one
  obtain ⟨job, found, -⟩ := held_of_mem_ids candidate
  rw [found]
  rfl

theorem settled_le (s : JobStore) :
    (s.settledOldestFirst false).length + (s.settledOldestFirst true).length ≤ s.len := by
  have whole := len_removeAll (distinct_ids s) (held_ids s)
  rw [List.length_map, List.length_append] at whole
  omega

theorem Sweep.numbers {s : JobStore} {now : Instant} {retention : Duration} {maxJobs : ℕ}
    {out : JobStore × List JobId} {a b : ℕ} (sweep : Sweep s now retention maxJobs out a b) :
    s.expired now retention ≤ a ∧
      (0 < a → a ≤ s.expired now retention ∨ maxJobs + a ≤ s.len) := by
  have reads : ∀ j, j < (s.settledOldestFirst false).length →
      ∃ e, (s.settledOldestFirst false)[j]? = some e := fun j short =>
    ⟨_, List.getElem?_eq_getElem short⟩
  constructor
  · by_contra few
    have below := Nat.not_le.mp few
    obtain ⟨e, found⟩ := reads a (lt_of_lt_of_le below (expired_le s now retention))
    exact absurd (sweep.aged a e found ((lt_expired_iff now retention found).mp below))
      (Nat.lt_irrefl a)
  · intro some
    obtain ⟨e, found⟩ := reads (a - 1) (by have := sweep.paid_le; omega)
    rcases sweep.pressed (a - 1) e found (by omega) with old | excess
    · have := (lt_expired_iff now retention found).mpr old
      omega
    · omega

theorem Sweep.length_returned {s : JobStore} {now : Instant} {retention : Duration}
    {maxJobs : ℕ} {out : JobStore × List JobId} {a b : ℕ}
    (sweep : Sweep s now retention maxJobs out a b) : out.2.length = a + b := by
  rw [sweep.returned, List.length_map, List.length_append, List.length_take, List.length_take,
    Nat.min_eq_left sweep.paid_le, Nat.min_eq_left sweep.owed_le]

/-! ### The arithmetic of the two counts

Of `n` records, `p` are paid and `o` owed; `k` of the paid ones are past the clock and the cap is
`m`. -/

theorem due_eq {n k p o a b m : ℕ} (total : p + o ≤ n) (_ : k ≤ p) (least : k ≤ a)
    (paid : a ≤ p) (owed : b ≤ o) (most : 0 < a → a ≤ k ∨ m + a ≤ n)
    (relieved : a < p → n - a ≤ m) (first : 0 < b → a = p)
    (capped : 0 < b → m < n - (a + (b - 1))) (eased : b < o → n - (a + b) ≤ m) :
    a + b = max k (min (p + o) (n - m)) := by
  rcases Nat.eq_zero_or_pos b with rfl | some
  · omega
  · have := first some
    have := capped some
    omega

/-- Where the short count stops both passes after that many, it did no harm. -/
theorem harmless_of_stops {n k p o a b m : ℕ} (total : p + o ≤ n) (old : k ≤ p) (paid : a ≤ p)
    (owed : b ≤ o) (went : 0 < a → 2 * (a - 1) ≤ n ∧ (a - 1 < k ∨ m < n - 2 * (a - 1)))
    (stopped : a < p → 2 * a ≤ n ∧ k ≤ a ∧ n - 2 * a ≤ m)
    (went' : 0 < b → 2 * (a + (b - 1)) ≤ n ∧ m < n - 2 * (a + (b - 1)))
    (stopped' : b < o → 2 * (a + b) ≤ n ∧ n - 2 * (a + b) ≤ m)
    (due : a + b = max k (min (p + o) (n - m))) :
    (a + b = k ∧ 2 * (if a + b < p + o then a + b else a + b - 1) ≤ n) ∨
      2 * (a + b - 1) + m < n := by
  split <;> omega

theorem stops_of_harmless {n k p o a b m : ℕ} (total : p + o ≤ n) (old : k ≤ p)
    (paid : a = max k (min p (n - m))) (owed : b = min o (n - (a + m)))
    (harmless : (a + b = k ∧ 2 * (if a + b < p + o then a + b else a + b - 1) ≤ n) ∨
      2 * (a + b - 1) + m < n) :
    (∀ j < a, 2 * j ≤ n ∧ (j < k ∨ m < n - 2 * j)) ∧
      (a < p → 2 * a ≤ n ∧ k ≤ a ∧ n - 2 * a ≤ m) ∧
      (∀ j < b, 2 * (a + j) ≤ n ∧ m < n - 2 * (a + j)) ∧
      (b < o → 2 * (a + b) ≤ n ∧ n - 2 * (a + b) ≤ m) := by
  rcases harmless with ⟨clock, half⟩ | count
  · refine ⟨fun j below => ?_, fun short => ?_, fun j below => ?_, fun short => ?_⟩
    all_goals split at half <;> omega
  · refine ⟨fun j below => ?_, fun short => ?_, fun j below => ?_, fun short => ?_⟩
    all_goals omega

/-! ### When the sweep is the right one -/

/-- The sweep of the first `a` paid jobs and `b` debts, when those are the ones due. -/
theorem sweep_of_due (s : JobStore) (now : Instant) {retention : Duration} {maxJobs a b : ℕ}
    (paid : a = max (s.expired now retention)
      (min (s.settledOldestFirst false).length (s.len - maxJobs)))
    (owed : b = min (s.settledOldestFirst true).length (s.len - (a + maxJobs))) :
    Sweep s now retention maxJobs
      (s.removeAll (ids ((s.settledOldestFirst false).take a
          ++ (s.settledOldestFirst true).take b)),
        ids ((s.settledOldestFirst false).take a ++ (s.settledOldestFirst true).take b)) a b := by
  have old := expired_le s now retention
  have a_le : a ≤ (s.settledOldestFirst false).length := by omega
  have b_le : b ≤ (s.settledOldestFirst true).length := by omega
  refine ⟨a_le, b_le, rfl, fun id => get_removeAll s _ id, ?_, fun j e found past => ?_,
    fun j e found below => ?_, fun short => ?_, fun some => ?_, fun j below => ?_,
    fun short => ?_⟩
  · have whole := settled_le s
    have removed := len_removeAll (s := s) (l := ids ((s.settledOldestFirst false).take a
      ++ (s.settledOldestFirst true).take b)) ?_ ?_
    · rw [List.length_map, List.length_append, List.length_take, List.length_take,
        Nat.min_eq_left a_le, Nat.min_eq_left b_le] at removed
      exact Nat.eq_sub_of_add_eq removed
    · exact (distinct_ids s).sublist
        (((List.take_sublist a _).append (List.take_sublist b _)).map Prod.snd)
    · intro id member
      refine held_ids s id (List.Sublist.subset ?_ member)
      exact ((List.take_sublist a _).append (List.take_sublist b _)).map Prod.snd
  · have := (lt_expired_iff now retention found).mpr past
    omega
  · rcases Nat.lt_or_ge j (s.expired now retention) with past | young
    · exact .inl ((lt_expired_iff now retention found).mp past)
    · exact .inr (by omega)
  · omega
  · omega
  · omega
  · omega

/-- A sweep spares live jobs, spares debts within the cap, and stops above it only when all that is
left is live. -/
theorem Sweep.spares {s : JobStore} {now : Instant} {retention : Duration} {maxJobs : ℕ}
    {out : JobStore × List JobId} {a b : ℕ} (sweep : Sweep s now retention maxJobs out a b) :
    (∀ id job, s.get id = some job → job.settledAt = none → out.1.get id = some job) ∧
      (s.len ≤ maxJobs → ∀ id job, s.get id = some job → job.state ≠ .reported →
        out.1.get id = some job) ∧
      (out.1.len ≤ maxJobs ∨ ∀ id job, out.1.get id = some job → job.settledAt = none) := by
  refine ⟨fun id job found live => ?_, fun within id job found unpaid => ?_, ?_⟩
  · rw [sweep.removed, if_neg, found]
    intro member
    rw [sweep.returned] at member
    obtain ⟨⟨t, id'⟩, candidate, rfl⟩ := List.mem_map.mp member
    have stamped : ∃ owing, (t, id') ∈ s.settledOldestFirst owing := by
      rcases List.mem_append.mp candidate with paid | owed
      · exact ⟨false, List.mem_of_mem_take paid⟩
      · exact ⟨true, List.mem_of_mem_take owed⟩
    obtain ⟨owing, candidate⟩ := stamped
    obtain ⟨job', found', -, settled⟩ := mem_settledOldestFirst.mp candidate
    rw [found] at found'
    cases found'
    rw [live] at settled
    cases settled
  · have none : b = 0 := by
      by_contra some
      have := sweep.capped 0 (Nat.pos_of_ne_zero some)
      omega
    rw [sweep.removed, if_neg, found]
    intro member
    rw [sweep.returned, none, List.take_zero, List.append_nil] at member
    obtain ⟨job', found', paid⟩ := held_of_mem_ids
      (((List.take_sublist a _).map Prod.snd).subset member)
    rw [found] at found'
    cases found'
    exact unpaid (by cases reached : job.state <;> simp_all [JobState.owesAVerdict])
  · by_cases within : out.1.len ≤ maxJobs
    · exact .inl within
    · refine .inr fun id job found => ?_
      have excess := sweep.remaining ▸ within
      have all_paid : a = (s.settledOldestFirst false).length := by
        rcases Nat.lt_or_ge a (s.settledOldestFirst false).length with short | full
        · have := sweep.relieved short
          omega
        · exact le_antisymm sweep.paid_le full
      have all_owed : b = (s.settledOldestFirst true).length := by
        rcases Nat.lt_or_ge b (s.settledOldestFirst true).length with short | full
        · have := sweep.eased short
          omega
        · exact le_antisymm sweep.owed_le full
      rw [sweep.removed] at found
      split at found
      · cases found
      · rename_i kept
        rw [sweep.returned, all_paid, all_owed, List.take_length, List.take_length] at kept
        cases settled : job.settledAt with
        | none => rfl
        | some t =>
          have candidate := mem_settledOldestFirst.mpr ⟨job, found, rfl, settled⟩
          refine absurd (List.mem_map.mpr ⟨(t, id), ?_, rfl⟩) kept
          cases owes : job.state.owesAVerdict with
          | false => exact List.mem_append_left _ (owes ▸ candidate)
          | true => exact List.mem_append_right _ (owes ▸ candidate)

/-- **The sweep is the right one exactly when the short count does no harm.** -/
theorem meets_iff (s : JobStore) (fits : s.len < 2 ^ 64) (now : Instant) (retention : Duration)
    (maxJobs : ℕ) : Meets s now retention maxJobs ↔ CountHolds s now retention maxJobs := by
  have known := settled_le s
  have old := expired_le s now retention
  constructor
  · intro meets
    obtain ⟨a, b, sweep⟩ := meets.sweep
    obtain ⟨a', b', paid, owed, same⟩ := (evictChecked_iff s now retention maxJobs _).mp meets.sound
    obtain ⟨least, most⟩ := sweep.numbers
    have due : a + b = _ := due_eq known old least sweep.paid_le sweep.owed_le most sweep.relieved
      sweep.paid_first (fun some => sweep.capped _ (Nat.sub_lt some Nat.one_pos)) sweep.eased
    have total := sweep.length_returned
    rw [same, List.length_map, List.length_append, List.length_take, List.length_take,
      Nat.min_eq_left paid.le, Nat.min_eq_left owed.le] at total
    rw [← total] at due
    obtain ⟨paid_le, went, stopped⟩ := (stops_goPaid_iff s now retention maxJobs _ _).mp paid
    obtain ⟨owed_le, went', stopped'⟩ := (stops_goOwed_iff maxJobs _ _ _ _).mp owed
    have harmless := harmless_of_stops known old paid_le owed_le
      (fun some => went _ (Nat.sub_lt some Nat.one_pos)) stopped
      (fun some => went' _ (Nat.sub_lt some Nat.one_pos)) stopped' due
    rw [due] at harmless
    exact harmless
  · intro holds
    obtain ⟨a, ha⟩ : ∃ a, a = max (s.expired now retention)
      (min (s.settledOldestFirst false).length (s.len - maxJobs)) := ⟨_, rfl⟩
    obtain ⟨b, hb⟩ : ∃ b, b = min (s.settledOldestFirst true).length (s.len - (a + maxJobs)) :=
      ⟨_, rfl⟩
    have due : a + b = max (s.expired now retention)
        (min ((s.settledOldestFirst false).length + (s.settledOldestFirst true).length)
          (s.len - maxJobs)) := by omega
    dsimp only [CountHolds] at holds
    rw [← due] at holds
    obtain ⟨went, stopped, went', stopped'⟩ := stops_of_harmless known old ha hb holds
    have sweep := sweep_of_due s now ha hb
    have checked := (evictChecked_iff s now retention maxJobs _).mpr ⟨a, b,
      (stops_goPaid_iff s now retention maxJobs _ _).mpr ⟨sweep.paid_le, went, stopped⟩,
      (stops_goOwed_iff maxJobs _ _ _ _).mpr ⟨sweep.owed_le, went', stopped'⟩, rfl⟩
    have same := evict_of_evictChecked fits checked
    rw [← same] at checked sweep
    obtain ⟨live, debts, bounded⟩ := sweep.spares
    exact ⟨checked, ⟨a, b, sweep⟩, live, debts, bounded⟩

/-- File a job that settled at `t`. -/
def fileSettled (s : JobStore) (id : JobId) (state : JobState) (t : Instant) : JobStore :=
  (s.insert id { repo := "t/r", treeId := id, callbackUrl := "" } .member 0 0).modify id
    (fun job => { job with state := state, settledAt := some t }) fun _ => rfl

/-- Three verdicts that Hull has, and one that it has not heard. -/
def threePaid : JobStore :=
  (((new.fileSettled "a" .reported 0).fileSettled "b" .reported 1).fileSettled "c" .reported 2)
    |>.fileSettled "d" .reportFailed 3

/-- **The sweep loses a debt with the store far below its cap.** When the third paid job goes, the
short count is `2 - 2`, and the pass over the debts computes `1 - 3`: a build that checks overflow
panics, and one that wraps takes the result for more than the cap. -/
theorem debt_lost : ¬ Meets threePaid 10 5 100 ∧ threePaid.len = 4 ∧
    threePaid.evictChecked 10 5 100 = none ∧
    (threePaid.evict 10 5 100).2 = ["a", "b", "c", "d"] := by
  have panics : threePaid.evictChecked 10 5 100 = none := Option.isNone_iff_eq_none.mp (by decide)
  refine ⟨fun meets => ?_, by decide, panics, by decide⟩
  have sound := meets.sound
  rw [panics] at sound
  cases sound

/-- With one of the paid jobs past the clock the sweep is the right one. -/
theorem meets_iff_one : Meets threePaid 10 10 100 :=
  (meets_iff threePaid (by decide) 10 10 100).mpr (by decide)

end JobStore

end HullCi.Control
