/-
**Retention is measured from the last use, when the last use is seen.**

A sweep reads a tree's stamp first and takes the table's lock later. What it removes had been
unused for the retention when the stamp was read; a use stamped in between is not looked at.

* `Stamped` — a stamp on disk is no older than any use stamped before it.
* `retention_kept` — in runs where stamps land in the order of their clock readings and no use is
  stamped between a sweep's reading and its removal, only trees past their retention are removed.
* `hit_reaped` — a tree opened, stamped and released in that window is removed.
-/

import HullCi.Fetch.Pins

namespace HullCi.Fetch

open HullCi.Base

namespace ContentStore

/-- A tree taken away: under which policy, and how many of the uses the sweep has seen. -/
structure Removal where
  key : PinKey
  policy : ReclaimPolicy
  seen : ℕ
  deriving DecidableEq, Repr

/-- The removal a step makes, if it makes one. -/
def removes (s : ContentStore) : Act → Option Removal
  | .sweep r ok =>
    match s.sweeps.lookup r with
    | some w =>
      match w.pc with
      | .evict treeId _ seen =>
        if (s.held.lookup (w.scope, treeId)).isNone ∧ ok ∧
            (s.trees.lookup (w.scope, treeId)).isSome then
          some ⟨(w.scope, treeId), w.policy, seen⟩
        else none
      | _ => none
    | none => none
  | _ => none

/-- The stamp a step writes, if it writes one. -/
def stamps (s : ContentStore) : Act → Option (PinKey × ℕ)
  | .caller t true =>
    match s.callers.lookup t with
    | some c => match c.pc with
      | .useWrite millis => some (c.key, millis)
      | _ => none
    | none => none
  | .sweep r true =>
    match s.sweeps.lookup r with
    | some w => match w.pc with
      | .useWrite treeId millis => some ((w.scope, treeId), millis)
      | _ => none
    | none => none
  | _ => none

/-- A use is at least the retention old. -/
def Old (policy : ReclaimPolicy) (use : PinKey × ℕ) : Prop :=
  stampTime use.2 + policy.treeRetention ≤ policy.now

instance (policy : ReclaimPolicy) (use : PinKey × ℕ) : Decidable (Old policy use) :=
  inferInstanceAs (Decidable (_ ≤ _))

/-- A step removes no tree that has a younger use. -/
def Retains (s : ContentStore) (act : Act) : Prop :=
  ∀ removal ∈ s.removes act, ∀ use ∈ s.uses, use.1 = removal.key → Old removal.policy use

/-- A step that writes a stamp writes one no older than the uses stamped before it. -/
def InOrder (s : ContentStore) (act : Act) : Prop :=
  ∀ stamp ∈ s.stamps act, ∀ use ∈ s.uses, use.1 = stamp.1 → use.2 ≤ stamp.2

/-- A step that removes a tree has seen its last use: a use stamped since is itself old. -/
def Seen (s : ContentStore) (act : Act) : Prop :=
  ∀ removal ∈ s.removes act, ∀ use ∈ s.uses.drop removal.seen, use.1 = removal.key →
    Old removal.policy use

/-- Stamps land in order, and removals are made on the last use. -/
def Timely (s : ContentStore) (act : Act) : Prop :=
  s.InOrder act ∧ s.Seen act

instance (s : ContentStore) (act : Act) : Decidable (s.Retains act) :=
  inferInstanceAs (Decidable (∀ removal ∈ s.removes act, ∀ use ∈ s.uses, _ → _))

instance (s : ContentStore) (act : Act) : Decidable (s.Timely act) :=
  inferInstanceAs (Decidable ((∀ stamp ∈ s.stamps act, ∀ use ∈ s.uses, _ → _) ∧
    ∀ removal ∈ s.removes act, ∀ use ∈ s.uses.drop removal.seen, _ → _))

/-- A stamp on disk is no older than any use stamped so far; a sweep about to remove a tree has
found the stamp old, and seen a first part of the uses. -/
structure Stamped (s : ContentStore) : Prop where
  latest : ∀ key millis, s.used.lookup key = some (some millis) →
    ∀ use ∈ s.uses, use.1 = key → use.2 ≤ millis
  read : ∀ r w, s.sweeps.lookup r = some w → ∀ treeId used seen, w.pc = .evict treeId used seen →
    expired w.policy used = true ∧ seen ≤ s.uses.length ∧
      ∀ use ∈ s.uses.take seen, use.1 = (w.scope, treeId) → use.2 ≤ used

/-! ### One step -/

theorem stampTime_mono {a b : ℕ} (le : a ≤ b) : stampTime a ≤ stampTime b :=
  Nat.mul_le_mul_right _ le

/-- Steps that take no sweep to a removal keep what the sweeps have read. -/
theorem Stamped.frame {s s' : ContentStore} (stamped : Stamped s) (uses : s.uses <+: s'.uses)
    (latest : ∀ key millis, s'.used.lookup key = some (some millis) →
      ∀ use ∈ s'.uses, use.1 = key → use.2 ≤ millis)
    (sweeps : ∀ r w, s'.sweeps.lookup r = some w → s.sweeps.lookup r = some w ∨
      ∀ treeId used seen, w.pc ≠ .evict treeId used seen) : Stamped s' := by
  refine ⟨latest, fun r w known treeId used seen pc => ?_⟩
  rcases sweeps r w known with before | other
  · obtain ⟨old, within, read⟩ := stamped.read r w before treeId used seen pc
    obtain ⟨more, grown⟩ := uses
    refine ⟨old, within.trans (by rw [← grown, List.length_append]; omega), ?_⟩
    rw [← grown, List.take_append_of_le_length within]
    exact read
  · exact absurd pc (other treeId used seen)

theorem Stamped.same {s s' : ContentStore} (stamped : Stamped s) (uses : s'.uses = s.uses)
    (used : s'.used = s.used) (sweeps : s'.sweeps = s.sweeps) : Stamped s' := by
  refine stamped.frame (uses ▸ List.prefix_refl _) ?_ fun r w known => .inl ?_
  · rw [used, uses]
    exact stamped.latest
  · rw [← sweeps]
    exact known

theorem latest_emptied {s : ContentStore} (stamped : Stamped s) (used : Table PinKey (Option ℕ))
    (emptied : ∀ key', used.lookup key' = s.used.lookup key' ∨ ∀ m, used.lookup key' ≠ some (some m)) :
    ∀ key millis, used.lookup key = some (some millis) →
      ∀ use ∈ s.uses, use.1 = key → use.2 ≤ millis := by
  intro key' millis found
  rcases emptied key' with same | nothing
  · exact stamped.latest key' millis (same ▸ found)
  · exact absurd found (nothing millis)

theorem emptied_insert (used : Table PinKey (Option ℕ)) (key key' : PinKey) :
    (used.insert key none).lookup key' = used.lookup key' ∨
      ∀ m, (used.insert key none).lookup key' ≠ some (some m) := by
  rw [Table.lookup_insert]
  split
  · exact .inr fun m impossible => by cases impossible
  · exact .inl rfl

theorem emptied_erase (used : Table PinKey (Option ℕ)) (key key' : PinKey) :
    (used.erase key).lookup key' = used.lookup key' ∨
      ∀ m, (used.erase key).lookup key' ≠ some (some m) := by
  rw [Table.lookup_erase]
  split
  · exact .inr fun m impossible => by cases impossible
  · exact .inl rfl

theorem latest_written {s : ContentStore} (stamped : Stamped s) {key : PinKey} {millis : ℕ}
    (order : ∀ use ∈ s.uses, use.1 = key → use.2 ≤ millis) :
    ∀ key' millis', (s.used.insert key (some millis)).lookup key' = some (some millis') →
      ∀ use ∈ s.uses, use.1 = key' → use.2 ≤ millis' := by
  intro key' millis' found
  rw [Table.lookup_insert] at found
  split at found
  · rename_i same
    obtain rfl := Option.some.inj (Option.some.inj found)
    rw [same]
    exact order
  · exact stamped.latest key' millis' found

theorem stamped_callerStep {s : ContentStore} (stamped : Stamped s) {t : ℕ} {c : Caller}
    (known : s.callers.lookup t = some c) {ok : Bool} (order : s.InOrder (.caller t ok)) :
    Stamped (s.callerStep t c ok) := by
  unfold callerStep
  cases pc : c.pc <;> dsimp only
  case useOpen millis =>
    split
    · exact stamped.frame (List.prefix_refl _)
        (latest_emptied stamped _ (emptied_insert s.used c.key)) fun r w found => .inl found
    · exact stamped.same rfl rfl rfl
  case useWrite millis =>
    cases ok with
    | false => exact stamped.same rfl rfl rfl
    | true =>
      have before : ∀ use ∈ s.uses, use.1 = c.key → use.2 ≤ millis := by
        refine order (c.key, millis) ?_
        unfold stamps
        simp only [known, pc, Option.mem_some_self]
      refine stamped.frame ⟨[(c.key, millis)], rfl⟩ ?_ fun r w found => .inl found
      intro key millis' found use member same
      rcases List.mem_append.mp member with earlier | now
      · exact latest_written stamped before key millis' found use earlier same
      · rw [List.mem_singleton.mp now] at same ⊢
        change (s.used.insert c.key (some millis)).lookup key = _ at found
        rw [Table.lookup_insert, if_pos same.symm] at found
        rw [Option.some.inj (Option.some.inj found)]
  all_goals repeat' split
  all_goals exact stamped.same rfl rfl rfl

theorem sweeps_turn (s : ContentStore) (r : ℕ) (w : Sweep) (pc : SweepPc)
    (other : ∀ treeId used seen, pc ≠ .evict treeId used seen) (r' : ℕ) (w' : Sweep)
    (found : (s.sweeps.insert r { w with pc := pc }).lookup r' = some w') :
    s.sweeps.lookup r' = some w' ∨ ∀ treeId used seen, w'.pc ≠ .evict treeId used seen := by
  rw [Table.lookup_insert] at found
  split at found
  · obtain rfl := Option.some.inj found
    exact .inr other
  · exact .inl found

/-- A turn of a sweep that neither stamps nor finds a tree to remove. -/
theorem stamped_turn {s s' : ContentStore} (stamped : Stamped s) {r : ℕ} {w : Sweep} {pc : SweepPc}
    (other : ∀ treeId used seen, pc ≠ .evict treeId used seen) (uses : s'.uses = s.uses)
    (used : s'.used = s.used) (sweeps : s'.sweeps = s.sweeps) : Stamped (s'.turn r w pc) := by
  refine stamped.frame (show s.uses <+: s'.uses from uses ▸ List.prefix_refl _) ?_ ?_
  · show ∀ key millis, s'.used.lookup key = some (some millis) → ∀ use ∈ s'.uses, _
    rw [used, uses]
    exact stamped.latest
  · show ∀ r' w', (s'.sweeps.insert r { w with pc := pc }).lookup r' = some w' → _
    rw [sweeps]
    exact sweeps_turn s r w pc other

theorem stamped_sweepStep {s : ContentStore} (stamped : Stamped s) {r : ℕ} {w : Sweep}
    (known : s.sweeps.lookup r = some w) {ok : Bool} (order : s.InOrder (.sweep r ok)) :
    Stamped (s.sweepStep r w ok) := by
  unfold sweepStep
  cases pc : w.pc <;> dsimp only
  case lastUsed treeId =>
    split
    · exact stamped_turn stamped (fun _ _ _ => nofun) rfl rfl rfl
    · rename_i used read
      split
      · rename_i past
        -- The sweep has read the stamp, so it has seen every use so far.
        refine ⟨stamped.latest, fun r' w' found treeId' used' seen' at' => ?_⟩
        change (s.sweeps.insert r _).lookup r' = some w' at found
        rw [Table.lookup_insert] at found
        split at found
        · obtain rfl := Option.some.inj found
          obtain ⟨rfl, rfl, rfl⟩ := SweepPc.evict.inj at'
          refine ⟨past, le_rfl, ?_⟩
          show ∀ use ∈ s.uses.take s.uses.length, _
          rw [List.take_length]
          refine stamped.latest _ _ ?_
          cases ok with
          | false => cases read
          | true =>
            rw [if_pos rfl] at read
            exact Option.join_eq_some_iff.mp read
        · exact stamped.read r' w' found treeId' used' seen' at'
      · exact stamped_turn stamped (fun _ _ _ => nofun) rfl rfl rfl
  case useOpen treeId millis =>
    split
    · exact stamped.frame (List.prefix_refl _)
        (latest_emptied stamped _ (emptied_insert s.used (w.scope, treeId)))
        (sweeps_turn s r w _ fun _ _ _ => nofun)
    · exact stamped_turn stamped (fun _ _ _ => nofun) rfl rfl rfl
  case useWrite treeId millis =>
    cases ok with
    | false => exact stamped_turn stamped (fun _ _ _ => nofun) rfl rfl rfl
    | true =>
      refine stamped.frame (List.prefix_refl _) (latest_written stamped ?_)
        (sweeps_turn s r w _ fun _ _ _ => nofun)
      refine order ((w.scope, treeId), millis) ?_
      unfold stamps
      simp only [known, pc, Option.mem_some_self]
  case removeStamp treeId =>
    split
    · exact stamped.frame (List.prefix_refl _)
        (latest_emptied stamped _ (emptied_erase s.used (w.scope, treeId)))
        (sweeps_turn s r w _ fun _ _ _ => nofun)
    · exact stamped_turn stamped (fun _ _ _ => nofun) rfl rfl rfl
  case trees => exact stamped
  case stamps => exact stamped
  case useClock treeId => exact stamped_turn stamped (fun _ _ _ => nofun) rfl rfl rfl
  case evict treeId used seen =>
    split
    · exact stamped_turn stamped (fun _ _ _ => nofun) rfl rfl rfl
    · split
      · exact @stamped_turn s { s with trees := s.trees.erase (w.scope, treeId) } stamped r w _
          (fun _ _ _ => nofun) rfl rfl rfl
      · exact stamped_turn stamped (fun _ _ _ => nofun) rfl rfl rfl
  case stampTree treeId =>
    refine stamped_turn stamped (fun _ _ _ => ?_) rfl rfl rfl
    split <;> exact nofun

/-- **A step in order keeps the stamps.** -/
theorem stamped_step {s : ContentStore} (stamped : Stamped s) {act : Act} (order : s.InOrder act) :
    Stamped (s.step act) := by
  cases act with
  | call t request key =>
    unfold step
    dsimp only
    split
    · exact stamped
    · exact stamped.same rfl rfl rfl
  | caller t ok =>
    show Stamped (s.onCaller t _)
    unfold onCaller
    split
    · exact stamped
    · rename_i c known
      exact stamped_callerStep stamped known order
  | clone t =>
    show Stamped (s.onCaller t _)
    unfold onCaller clonePin
    split
    · exact stamped
    · dsimp only
      split
      · exact stamped.same rfl rfl rfl
      · exact stamped
  | drop t =>
    show Stamped (s.onCaller t _)
    unfold onCaller dropClone
    split
    · exact stamped
    · dsimp only
      split
      · split
        · exact stamped.same rfl rfl rfl
        · exact stamped.same rfl rfl rfl
      · exact stamped
  | reclaim r scope policy =>
    unfold step
    dsimp only
    split
    · exact stamped
    · refine stamped.frame (List.prefix_refl _) stamped.latest fun r' w found => ?_
      change (s.sweeps.insert r _).lookup r' = some w at found
      rw [Table.lookup_insert] at found
      split at found
      · obtain rfl := Option.some.inj found
        exact .inr fun _ _ _ => nofun
      · exact .inl found
  | visit r treeId =>
    show Stamped (s.onSweep r _)
    unfold onSweep visit
    split
    · exact stamped
    · dsimp only
      split
      · exact stamped_turn stamped (fun _ _ _ => nofun) rfl rfl rfl
      · exact stamped_turn stamped (fun _ _ _ => nofun) rfl rfl rfl
      · exact stamped
  | sweep r ok =>
    show Stamped (s.onSweep r _)
    unfold onSweep
    split
    · exact stamped
    · rename_i w known
      exact stamped_sweepStep stamped known order
  | finishLoop r =>
    show Stamped (s.onSweep r _)
    unfold onSweep finishLoop
    split
    · exact stamped
    · dsimp only
      split
      · exact stamped_turn stamped (fun _ _ _ => nofun) rfl rfl rfl
      · refine stamped.frame (List.prefix_refl _) stamped.latest fun r' w found => ?_
        change (s.sweeps.erase r).lookup r' = some w at found
        rw [Table.lookup_erase] at found
        split at found
        · cases found
        · exact .inl found
      · exact stamped
  | tick elapsed => exact stamped.same rfl rfl rfl

theorem retains_of_timely {s : ContentStore} (stamped : Stamped s) {act : Act}
    (timely : s.Timely act) : s.Retains act := by
  intro removal removed use member same
  have since := timely.2 removal removed
  rw [Option.mem_def] at removed
  unfold removes at removed
  split at removed
  · rename_i r ok
    split at removed
    · rename_i w known
      split at removed
      · rename_i treeId used seen pc
        split at removed
        · obtain rfl := Option.some.inj removed
          obtain ⟨past, -, read⟩ := stamped.read r w known treeId used seen pc
          rw [← List.take_append_drop seen s.uses] at member
          rcases List.mem_append.mp member with earlier | later
          · have no_later := stampTime_mono (read use earlier same)
            unfold expired at past
            rw [Bool.and_eq_true, decide_eq_true_eq, decide_eq_true_eq] at past
            unfold Old
            dsimp only
            omega
          · exact since use later same
        · cases removed
      · cases removed
    · cases removed
  · cases removed

theorem stamped_start (trees : Table PinKey Bool) (used : Table PinKey (Option ℕ)) (clock : ℕ) :
    Stamped { trees := trees, used := used, clock := clock } where
  latest := fun key millis _ use member => by cases member
  read := fun r w known => by cases known

/-- **Timely runs keep the retention.** In every run whose steps stamp in order and remove on the
last use, no step removes a tree that has a use younger than the retention. -/
theorem retention_kept (trees : Table PinKey Bool) (used : Table PinKey (Option ℕ)) (clock : ℕ)
    (acts : List Act)
    (timely : Along step Timely { trees := trees, used := used, clock := clock } acts) :
    Along step Retains { trees := trees, used := used, clock := clock } acts := by
  suffices from' : ∀ s, Stamped s → Along step Timely s acts → Along step Retains s acts from
    from' _ (stamped_start trees used clock) timely
  clear timely
  induction acts with
  | nil => exact fun _ _ _ => trivial
  | cons act acts ih =>
    rintro s stamped ⟨first, rest⟩
    exact ⟨retains_of_timely stamped first, ih _ (stamped_step stamped first.1) rest⟩

/-! ### Two runs -/

/-- A tree is committed, released, and left alone for a week. -/
def agedTree : List Act :=
  .call 0 (.commit false) ("acme", "tree") :: List.replicate 7 (.caller 0 true) ++
    [.drop 0, .caller 0 true, .tick (7 * 24 * 60 * 60 * 1000000000),
      .reclaim 1 "acme" { now := 7 * 24 * 60 * 60 * 1000000000 }, .visit 1 "tree", .sweep 1 true]

/-- The sweep has read the stamp; before it takes the lock the tree is opened and released. -/
def hitInBetween : List Act :=
  .call 2 .open' ("acme", "tree") :: List.replicate 5 (.caller 2 true) ++ [.drop 2, .caller 2 true]

theorem retention_kept_aged :
    Along step Retains { trees := ∅, used := ∅, clock := 0 } (agedTree ++ [.sweep 1 true]) :=
  retention_kept ∅ ∅ 0 (agedTree ++ [.sweep 1 true]) (by decide +kernel)

/-- **A hit just stamped is reaped.** -/
theorem hit_reaped :
    ¬ Along step Retains { trees := ∅, used := ∅, clock := 0 }
      (agedTree ++ hitInBetween ++ [.sweep 1 true]) := by
  decide +kernel

end ContentStore

end HullCi.Fetch
