/-
**A pinned tree stays.**

Every caller past its first step has one count in the pin table, and gives it back in its last. A
sweep renames a tree away only under the table's lock, when the table has no entry for it.

* `Moves` — what a caller's step does to the pins, the trees and the callers.
* `Pinned` — the table counts the guards, and every tree a caller found is still there.
* `pins_shelter` — so it is in every state that any interleaving reaches.
-/

import HullCi.Fetch.Pins

namespace HullCi.Fetch

open HullCi.Base

namespace ContentStore

/-- How many guards there are for an address. -/
def guardCount (s : ContentStore) (key : PinKey) : ℕ :=
  Table.total (fun c : Caller => if c.guards ∧ c.key = key then 1 else 0) s.callers

/-- The pin table counts the guards, and the trees that callers found are there. -/
structure Pinned (s : ContentStore) : Prop where
  counted : ∀ key, (s.held.lookup key).getD 0 = s.guardCount key
  cleared : ∀ key, s.held.lookup key ≠ some 0
  present : ∀ t c, s.callers.lookup t = some c → c.shelters → (s.trees.lookup c.key).isSome

/-- What a caller's step does to the pins, the trees and the callers. -/
inductive Moves (s : ContentStore) (t : ℕ) (c : Caller) (s' : ContentStore) : Prop
  | still (same : s' = s)
  | pins (c' : Caller) (new : c.guards = false) (guards : c'.guards) (key : c'.key = c.key)
      (alone : c'.shelters = false) (held : s'.held = addPin s.held c.key)
      (trees : s'.trees = s.trees) (callers : s'.callers = s.callers.insert t c')
  | goes (c' : Caller) (guards : c.guards) (still : c'.guards) (key : c'.key = c.key)
      (held : s'.held = s.held) (callers : s'.callers = s.callers.insert t c')
      (trees : ∀ key, (s.trees.lookup key).isSome → (s'.trees.lookup key).isSome)
      (found : c'.shelters → c.shelters ∨ (s'.trees.lookup c.key).isSome)
  | leaves (guards : c.guards) (held : s'.held = dropPin s.held c.key)
      (trees : s'.trees = s.trees) (callers : s'.callers = s.callers.erase t)

theorem isDir_present {s : ContentStore} {key : PinKey} {ok : Bool} (found : s.isDir key ok = true) :
    (s.trees.lookup key).isSome :=
  (Bool.and_eq_true _ _ ▸ found).2

theorem moves_callerStep (s : ContentStore) (t : ℕ) (c : Caller) (ok : Bool) :
    Moves s t c (s.callerStep t c ok) := by
  have goes : ∀ (s' : ContentStore) (c' : Caller), c.guards → c'.guards → c'.key = c.key →
      s'.held = s.held → s'.callers = s.callers.insert t c' →
      s'.trees = s.trees → (c'.shelters → c.shelters ∨ (s.trees.lookup c.key).isSome) →
      Moves s t c s' := by
    intro s' c' guards still key held callers trees found
    refine .goes c' guards still key held callers (fun key present => ?_) ?_
    · rw [trees]
      exact present
    · rw [trees]
      exact found
  have idle : ∀ found : (Caller.mk c.request c.key .dropGuard c.clones).shelters = true,
      c.shelters = true ∨ (s.trees.lookup c.key).isSome = true := fun found => by cases found
  unfold callerStep
  cases pc : c.pc <;> dsimp only
  case pin =>
    have new : c.guards = false := by
      unfold Caller.guards
      rw [pc]
      rfl
    cases c.request with
    | pin => exact .pins { c with pc := .holding false, clones := 1 } new rfl rfl rfl rfl rfl rfl
    | open' => exact .pins { c with pc := .isDir } new rfl rfl rfl rfl rfl rfl
    | commit blank => exact .pins { c with pc := .isDir } new rfl rfl rfl rfl rfl rfl
  all_goals have guards : c.guards = true := by simp [Caller.guards, pc]
  case isDir =>
    split
    · rename_i found
      exact goes _ { c with pc := .useClock } guards rfl rfl rfl rfl rfl fun _ =>
        .inr (isDir_present found)
    · cases c.request with
      | commit blank =>
        exact goes _ { c with pc := .link blank } guards rfl rfl rfl rfl rfl fun found => by
          cases found
      | open' => exact goes _ { c with pc := .dropGuard } guards rfl rfl rfl rfl rfl idle
      | pin => exact goes _ { c with pc := .dropGuard } guards rfl rfl rfl rfl rfl idle
  case link blank =>
    cases ok with
    | true =>
      exact goes _ { c with pc := .rename blank } guards rfl rfl rfl rfl rfl fun found => by
        cases found
    | false => exact goes _ { c with pc := .dropGuard } guards rfl rfl rfl rfl rfl idle
  case rename blank =>
    split
    · refine .goes { c with pc := .useClock } guards rfl rfl rfl rfl (fun key present => ?_)
        fun _ => .inr ?_
      · show ((s.trees.insert c.key blank).lookup key).isSome
        rw [Table.lookup_insert]
        split
        · rfl
        · exact present
      · show ((s.trees.insert c.key blank).lookup c.key).isSome
        rw [Table.lookup_insert, if_pos rfl]
        rfl
    · exact goes _ { c with pc := .lostRace } guards rfl rfl rfl rfl rfl fun found => by cases found
  case lostRace =>
    split
    · rename_i found
      exact goes _ { c with pc := .useClock } guards rfl rfl rfl rfl rfl fun _ =>
        .inr (isDir_present found)
    · exact goes _ { c with pc := .dropGuard } guards rfl rfl rfl rfl rfl idle
  case useClock =>
    exact goes _ { c with pc := .useOpen (millisAt s.clock) } guards rfl rfl rfl rfl rfl fun _ =>
      .inl (by unfold Caller.shelters; rw [pc])
  case useOpen millis =>
    have sheltered : c.shelters = true := by
      unfold Caller.shelters
      rw [pc]
    split
    · exact goes _ { c with pc := .useWrite millis } guards rfl rfl rfl rfl rfl fun _ =>
        .inl sheltered
    · exact goes _ { c with pc := .holding true, clones := 1 } guards rfl rfl rfl rfl rfl fun _ =>
        .inl sheltered
  case useWrite millis =>
    have sheltered : c.shelters = true := by
      unfold Caller.shelters
      rw [pc]
    split
    · exact goes _ { c with pc := .holding true, clones := 1 } guards rfl rfl rfl rfl rfl fun _ =>
        .inl sheltered
    · exact goes _ { c with pc := .holding true, clones := 1 } guards rfl rfl rfl rfl rfl fun _ =>
        .inl sheltered
  case holding found => exact .still rfl
  case dropGuard => exact .leaves guards rfl rfl rfl

theorem moves_clonePin (s : ContentStore) (t : ℕ) (c : Caller) : Moves s t c (s.clonePin t c) := by
  unfold clonePin
  split
  · rename_i found pc
    have guards : c.guards = true := by
      unfold Caller.guards
      rw [pc]
      rfl
    exact .goes { c with clones := c.clones + 1 } guards guards rfl rfl rfl (fun _ present => present)
      fun sheltered => .inl sheltered
  · exact .still rfl

theorem moves_dropClone (s : ContentStore) (t : ℕ) (c : Caller) :
    Moves s t c (s.dropClone t c) := by
  unfold dropClone
  split
  · rename_i found pc
    have guards : c.guards = true := by
      unfold Caller.guards
      rw [pc]
      rfl
    split
    · exact .goes { c with clones := 0, pc := .dropGuard } guards rfl rfl rfl rfl
        (fun _ present => present) fun sheltered => by cases sheltered
    · exact .goes { c with clones := c.clones - 1 } guards guards rfl rfl rfl
        (fun _ present => present) fun sheltered => .inl sheltered
  · exact .still rfl

/-! ### The pin table -/

theorem lookup_addPin (held : Table PinKey ℕ) (key key' : PinKey) :
    (addPin held key).lookup key' =
      if key' = key then some ((held.lookup key).getD 0 + 1) else held.lookup key' := by
  unfold addPin
  rw [Table.lookup_insert]

theorem count_dropPin (held : Table PinKey ℕ) (key key' : PinKey) :
    ((dropPin held key).lookup key').getD 0 =
      if key' = key then (held.lookup key).getD 0 - 1 else (held.lookup key').getD 0 := by
  unfold dropPin
  cases known : held.lookup key with
  | none =>
    dsimp only
    split
    · rename_i same
      rw [same, known]
      rfl
    · rfl
  | some n =>
    dsimp only
    split
    · rename_i last
      rw [Table.lookup_erase]
      split
      · rw [Option.getD_some, last]
        rfl
      · rfl
    · rw [Table.lookup_insert]
      split <;> rfl

theorem dropPin_cleared {held : Table PinKey ℕ} (cleared : ∀ key, held.lookup key ≠ some 0)
    (key key' : PinKey) : (dropPin held key).lookup key' ≠ some 0 := by
  unfold dropPin
  split
  · exact cleared key'
  · split
    · rw [Table.lookup_erase]
      split
      · simp
      · exact cleared key'
    · rename_i left
      rw [Table.lookup_insert]
      split
      · simpa using left
      · exact cleared key'

/-! ### One step -/

theorem guardCount_insert {s : ContentStore} {t : ℕ} {c : Caller}
    (known : s.callers.lookup t = some c) (c' : Caller) (same : c'.key = c.key) (key : PinKey) :
    Table.total (fun c : Caller => if c.guards ∧ c.key = key then 1 else 0) (s.callers.insert t c')
        + (if c.guards ∧ c.key = key then 1 else 0) =
      s.guardCount key + (if c'.guards ∧ c.key = key then 1 else 0) := by
  have moved := Table.total_insert (fun c : Caller => if c.guards ∧ c.key = key then 1 else 0)
    s.callers t c'
  unfold Table.share at moved
  rw [known, Option.map_some, Option.getD_some, same] at moved
  exact moved

theorem pinned_moves {s s' : ContentStore} (pinned : Pinned s) {t : ℕ} {c : Caller}
    (known : s.callers.lookup t = some c) (moves : Moves s t c s') : Pinned s' := by
  cases moves with
  | still same =>
    rw [same]
    exact pinned
  | pins c' new guards key alone held trees callers =>
    refine ⟨fun key' => ?_, fun key' => ?_, fun t' d found sheltered => ?_⟩
    · have counted := pinned.counted key'
      have moved := guardCount_insert known c' key key'
      unfold guardCount
      rw [callers, held, lookup_addPin]
      rw [new, guards] at moved
      by_cases same : key' = c.key
      · subst same
        simp at moved counted ⊢
        omega
      · rw [if_neg same]
        have other : ¬ c.key = key' := fun again => same again.symm
        simp [other] at moved
        omega
    · rw [held, lookup_addPin]
      split
      · simp
      · exact pinned.cleared key'
    · rw [callers, Table.lookup_insert] at found
      rw [trees]
      split at found
      · obtain rfl := Option.some.inj found
        rw [alone] at sheltered
        cases sheltered
      · exact pinned.present t' d found sheltered
  | goes c' guards still key held callers trees found =>
    refine ⟨fun key' => ?_, fun key' => ?_, fun t' d known' sheltered => ?_⟩
    · have counted := pinned.counted key'
      have moved := guardCount_insert known c' key key'
      unfold guardCount
      rw [callers, held]
      rw [guards, still] at moved
      omega
    · rw [held]
      exact pinned.cleared key'
    · rw [callers, Table.lookup_insert] at known'
      split at known'
      · obtain rfl := Option.some.inj known'
        rw [key]
        rcases found sheltered with before | now
        · exact trees _ (pinned.present t c known before)
        · exact now
      · exact trees _ (pinned.present t' d known' sheltered)
  | leaves guards held trees callers =>
    refine ⟨fun key' => ?_, fun key' => ?_, fun t' d found sheltered => ?_⟩
    · have counted := pinned.counted key'
      have erased := Table.total_erase
        (fun c : Caller => if c.guards ∧ c.key = key' then 1 else 0) s.callers t
      unfold Table.share at erased
      rw [known, Option.map_some, Option.getD_some, guards] at erased
      unfold guardCount at counted ⊢
      rw [callers, held, count_dropPin]
      by_cases same : key' = c.key
      · subst same
        simp at erased counted ⊢
        omega
      · rw [if_neg same]
        have other : ¬ c.key = key' := fun again => same again.symm
        simp [other] at erased
        omega
    · rw [held]
      exact dropPin_cleared pinned.cleared _ _
    · rw [callers, Table.lookup_erase] at found
      rw [trees]
      split at found
      · cases found
      · exact pinned.present t' d found sheltered

/-- A sweep takes away a tree only when the table has no entry for it. -/
theorem sweepStep_effect (s : ContentStore) (r : ℕ) (w : Sweep) (ok : Bool) :
    (s.sweepStep r w ok).held = s.held ∧ (s.sweepStep r w ok).callers = s.callers ∧
      ∀ key, (s.trees.lookup key).isSome →
        ((s.sweepStep r w ok).trees.lookup key).isSome ∨ s.held.lookup key = none := by
  have kept : ∀ s' : ContentStore, s'.held = s.held → s'.callers = s.callers →
      s'.trees = s.trees → s'.held = s.held ∧ s'.callers = s.callers ∧
        ∀ key, (s.trees.lookup key).isSome →
          (s'.trees.lookup key).isSome ∨ s.held.lookup key = none := by
    intro s' held callers trees
    refine ⟨held, callers, fun key present => .inl ?_⟩
    rw [trees]
    exact present
  unfold sweepStep
  cases w.pc <;> dsimp only
  case evict treeId used seen =>
    split
    · exact kept _ rfl rfl rfl
    · rename_i unpinned
      split
      · refine ⟨rfl, rfl, fun key present => ?_⟩
        show ((s.trees.erase (w.scope, treeId)).lookup key).isSome ∨ _
        rw [Table.lookup_erase]
        by_cases same : key = (w.scope, treeId)
        · right
          rw [same]
          exact Option.not_isSome_iff_eq_none.mp unpinned
        · rw [if_neg same]
          exact .inl present
      · exact kept _ rfl rfl rfl
  all_goals repeat' split
  all_goals exact kept _ rfl rfl rfl

/-- A guard is counted, so the table has an entry for its address. -/
theorem Pinned.entry {s : ContentStore} (pinned : Pinned s) {t : ℕ} {c : Caller}
    (known : s.callers.lookup t = some c) (guards : c.guards) : s.held.lookup c.key ≠ none := by
  intro absent
  have counted := pinned.counted c.key
  have erased := Table.total_erase
    (fun d : Caller => if d.guards ∧ d.key = c.key then 1 else 0) s.callers t
  unfold Table.share at erased
  rw [known, Option.map_some, Option.getD_some, if_pos ⟨guards, rfl⟩] at erased
  unfold guardCount at counted
  rw [absent, Option.getD_none] at counted
  omega

theorem guards_of_shelters {c : Caller} (sheltered : c.shelters) : c.guards := by
  unfold Caller.shelters at sheltered
  unfold Caller.guards
  cases pc : c.pc <;> rw [pc] at sheltered <;> first | rfl | cases sheltered

theorem Pinned.frame {s s' : ContentStore} (pinned : Pinned s) (held : s'.held = s.held)
    (callers : s'.callers = s.callers) (trees : ∀ key, (s.trees.lookup key).isSome →
      (s'.trees.lookup key).isSome ∨ s.held.lookup key = none) : Pinned s' := by
  refine ⟨fun key => ?_, fun key => ?_, fun t c known sheltered => ?_⟩
  · unfold guardCount
    rw [held, callers]
    exact pinned.counted key
  · rw [held]
    exact pinned.cleared key
  · rw [callers] at known
    exact (trees c.key (pinned.present t c known sheltered)).resolve_right
      (pinned.entry known (guards_of_shelters sheltered))

/-- **Every step keeps the pins.** -/
theorem pinned_step {s : ContentStore} (pinned : Pinned s) (act : Act) : Pinned (s.step act) := by
  cases act with
  | call t request key =>
    unfold step
    dsimp only
    split
    · exact pinned
    · rename_i free
      refine ⟨fun key' => ?_, pinned.cleared, fun t' c found sheltered => ?_⟩
      · have moved := Table.total_insert
          (fun c : Caller => if c.guards ∧ c.key = key' then 1 else 0) s.callers t
          { request := request, key := key }
        unfold Table.share at moved
        rw [Option.not_isSome_iff_eq_none.mp free] at moved
        have counted := pinned.counted key'
        unfold guardCount at counted ⊢
        simp [Caller.guards] at moved counted ⊢
        omega
      · rw [Table.lookup_insert] at found
        split at found
        · obtain rfl := Option.some.inj found
          cases sheltered
        · exact pinned.present t' c found sheltered
  | caller t ok =>
    show Pinned (s.onCaller t _)
    unfold onCaller
    split
    · exact pinned
    · rename_i c known
      exact pinned_moves pinned known (moves_callerStep s t c ok)
  | clone t =>
    show Pinned (s.onCaller t _)
    unfold onCaller
    split
    · exact pinned
    · rename_i c known
      exact pinned_moves pinned known (moves_clonePin s t c)
  | drop t =>
    show Pinned (s.onCaller t _)
    unfold onCaller
    split
    · exact pinned
    · rename_i c known
      exact pinned_moves pinned known (moves_dropClone s t c)
  | reclaim r scope policy =>
    unfold step
    dsimp only
    split
    · exact pinned
    · exact pinned.frame rfl rfl fun _ present => .inl present
  | visit r treeId =>
    show Pinned (s.onSweep r _)
    unfold onSweep visit
    split
    · exact pinned
    · dsimp only
      split
      · exact pinned.frame rfl rfl fun _ present => .inl present
      · exact pinned.frame rfl rfl fun _ present => .inl present
      · exact pinned
  | sweep r ok =>
    show Pinned (s.onSweep r _)
    unfold onSweep
    split
    · exact pinned
    · rename_i w known
      obtain ⟨held, callers, trees⟩ := sweepStep_effect s r w ok
      exact pinned.frame held callers trees
  | finishLoop r =>
    show Pinned (s.onSweep r _)
    unfold onSweep finishLoop
    split
    · exact pinned
    · dsimp only
      split
      · exact pinned.frame rfl rfl fun _ present => .inl present
      · exact pinned.frame rfl rfl fun _ present => .inl present
      · exact pinned
  | tick elapsed => exact pinned.frame rfl rfl fun _ present => .inl present

theorem moves_trees {s s' : ContentStore} {t : ℕ} {c : Caller} (moves : Moves s t c s')
    {key : PinKey} (present : (s.trees.lookup key).isSome) : (s'.trees.lookup key).isSome := by
  cases moves with
  | still same => rwa [same]
  | pins c' new guards key' alone held trees callers => rwa [trees]
  | goes c' guards still key' held callers trees found => exact trees key present
  | leaves guards held trees callers => rwa [trees]

/-- No step takes away a tree that the table has an entry for. -/
theorem step_trees (s : ContentStore) (act : Act) {key : PinKey}
    (present : (s.trees.lookup key).isSome) :
    ((s.step act).trees.lookup key).isSome ∨ s.held.lookup key = none := by
  have onCallers : ∀ t (f : Caller → ContentStore),
      (∀ c, s.callers.lookup t = some c → Moves s t c (f c)) →
      ((s.onCaller t f).trees.lookup key).isSome := by
    intro t f moves
    unfold onCaller
    split
    · exact present
    · rename_i c known
      exact moves_trees (moves c known) present
  cases act with
  | call t request key' =>
    left
    unfold step
    dsimp only
    split <;> exact present
  | caller t ok => exact .inl (onCallers t _ fun c _ => moves_callerStep s t c ok)
  | clone t => exact .inl (onCallers t _ fun c _ => moves_clonePin s t c)
  | drop t => exact .inl (onCallers t _ fun c _ => moves_dropClone s t c)
  | reclaim r scope policy =>
    left
    unfold step
    dsimp only
    split <;> exact present
  | visit r treeId =>
    left
    show ((s.onSweep r _).trees.lookup key).isSome
    unfold onSweep visit
    split
    · exact present
    · dsimp only
      split <;> exact present
  | sweep r ok =>
    show ((s.onSweep r _).trees.lookup key).isSome ∨ _
    unfold onSweep
    split
    · exact .inl present
    · exact (sweepStep_effect s r _ ok).2.2 key present
  | finishLoop r =>
    left
    show ((s.onSweep r _).trees.lookup key).isSome
    unfold onSweep finishLoop
    split
    · exact present
    · dsimp only
      split <;> exact present
  | tick elapsed => exact .inl present

theorem pinned_start (trees : Table PinKey Bool) (used : Table PinKey (Option ℕ)) (clock : ℕ) :
    Pinned { trees := trees, used := used, clock := clock } where
  counted := fun key => rfl
  cleared := fun key impossible => by cases impossible
  present := fun t c known => by cases known

/-- **Pin safety.** Whatever the store holds at first and in whatever order its callers and sweeps
take their steps: while a pin handed out by `open` or `commit` has a live clone, its tree is present
at its address and no step takes it away; the table never counts below the number of live guards,
and has no entry for an address without one. -/
theorem pins_shelter (trees : Table PinKey Bool) (used : Table PinKey (Option ℕ)) (clock : ℕ)
    (acts : List Act) :
    (∀ t c, (run step { trees := trees, used := used, clock := clock } acts).callers.lookup t
        = some c → c.pc = .holding true →
      ((run step { trees := trees, used := used, clock := clock } acts).trees.lookup c.key).isSome ∧
      ∀ act, (((run step { trees := trees, used := used, clock := clock } acts).step act).trees.lookup
        c.key).isSome) ∧
    (∀ key, (run step { trees := trees, used := used, clock := clock } acts).guardCount key ≤
      ((run step { trees := trees, used := used, clock := clock } acts).held.lookup key).getD 0) ∧
    ∀ key, (run step { trees := trees, used := used, clock := clock } acts).guardCount key = 0 →
      (run step { trees := trees, used := used, clock := clock } acts).held.lookup key = none := by
  have pinned := run_invariant (I := Pinned) (fun s act pinned => pinned_step pinned act)
    (pinned_start trees used clock) acts
  refine ⟨fun t c known pc => ?_, fun key => (pinned.counted key).ge, fun key nobody => ?_⟩
  · have sheltered : c.shelters = true := by
      unfold Caller.shelters
      rw [pc]
    have present := pinned.present t c known sheltered
    exact ⟨present, fun act => (step_trees _ act present).resolve_right
      (pinned.entry known (guards_of_shelters sheltered))⟩
  · have counted := pinned.counted key
    have cleared := pinned.cleared key
    rw [nobody] at counted
    revert counted cleared
    cases (run step { trees := trees, used := used, clock := clock } acts).held.lookup key with
    | none => exact fun _ _ => rfl
    | some n =>
      intro counted cleared
      rw [Option.getD_some] at counted
      exact absurd (congrArg some counted) cleared

end ContentStore

end HullCi.Fetch
