/-
**A job's workspace moves into a warm sandbox.**

The mount of a pool member was fixed when it was made, so the entries of the workspace are renamed
into its directory one by one. A rename that fails has the entries that were moved renamed back. Any
error, whatever it says, sends the job down the cold path, where it sees what its directory still
holds.

* `adopt`, `spawn` — the move with its probe and its way back, and the caller of it.
* `good_moveAll` — the loop leaves the entries together exactly when its first failure comes before
  anything was moved, or is a rename and every rename back succeeds.
* `never_half_iff` — no job runs on half a workspace exactly when the failures are `Harmless`.
-/

import Mathlib.Data.List.Nodup
import Mathlib.Data.List.Perm.Basic

namespace HullCi.Node.Adopt

universe u v

/-- Which of the calls on the two directories fail. -/
structure Faults where
  /-- `read_dir(into)`. -/
  readInto : Bool := false
  /-- The first entry of `into`. -/
  entryInto : Bool := false
  /-- The write of the probe. -/
  write : Bool := false
  /-- The rename of the probe. -/
  probe : Bool := false
  /-- `read_dir(from)`. -/
  readFrom : Bool := false
  /-- The `i`-th entry of `from`, the end of the listing included. -/
  entry : ℕ → Bool := fun _ => false
  /-- The rename of the `i`-th entry. -/
  move : ℕ → Bool := fun _ => false
  /-- The rename back of the `j`-th entry that was moved. -/
  back : ℕ → Bool := fun _ => false

inductive AdoptError where
  | notEmpty
  /-- The two directories cannot be renamed between; nothing has been moved. -/
  | unmovable
  /-- A directory could not be read. -/
  | unread
  /-- A rename failed, and all that was moved is back. -/
  | rename
  /-- The workspace is now split across two directories. -/
  | split
  deriving DecidableEq, Repr

/-- How a move ends, with the names in the two directories. -/
structure Outcome (N : Type u) where
  result : Except AdoptError Unit
  source : List N
  target : List N

variable {N : Type u} [DecidableEq N]

/-- `rename(2)` of one entry: what was under its name at the other side is replaced. -/
def rename (fails : Bool) (source target : List N) (name : N) : Option (List N × List N) :=
  if fails = true ∨ name ∉ source then none
  else some (source.erase name, target.erase name ++ [name])

/-- The way back: the entries that were moved, in the order they were. -/
def rollback (faults : Faults) : ℕ → List N → List N → List N → Outcome N
  | _, [], source, target => ⟨.error .rename, source, target⟩
  | j, done :: moved, source, target =>
    match rename (faults.back j) target source done with
    | none => ⟨.error .split, source, target⟩
    | some (target, source) => rollback faults (j + 1) moved source target

/-- The loop over the listing of the workspace. -/
def moveAll (faults : Faults) : ℕ → List N → List N → List N → List N → Outcome N
  | i, [], _, source, target =>
    if faults.entry i then ⟨.error .unread, source, target⟩ else ⟨.ok (), source, target⟩
  | i, name :: left, moved, source, target =>
    if faults.entry i then ⟨.error .unread, source, target⟩
    else
      match rename (faults.move i) source target name with
      | none => rollback faults 0 moved source target
      | some (source, target) => moveAll faults (i + 1) left (moved ++ [name]) source target

/-- `probe_rename`: a throwaway file is written, renamed, and removed on whichever side it is. -/
def probeRename (faults : Faults) (isDir : N → Bool) (probe : N) (source target : List N) :
    Outcome N :=
  if faults.write = true ∨ probe ∈ source ∧ isDir probe = true then
    ⟨.error .unmovable, source, target⟩
  else
    let written := if probe ∈ source then source else source ++ [probe]
    match rename faults.probe written target probe with
    | none => ⟨.error .unmovable, written.erase probe, target.erase probe⟩
    | some (source, target) => ⟨.ok (), source.erase probe, target.erase probe⟩

/-- `adopt_workspace`: the workspace `source` moves into the directory `target`. -/
def adopt (faults : Faults) (isDir : N → Bool) (probe : N) (source target : List N) : Outcome N :=
  if faults.readInto then ⟨.error .unread, source, target⟩
  else if faults.entryInto = true ∨ target ≠ [] then ⟨.error .notEmpty, source, target⟩
  else
    match probeRename faults isDir probe source target with
    | ⟨.error e, source, target⟩ => ⟨.error e, source, target⟩
    | ⟨.ok (), source, target⟩ =>
      if faults.readFrom then ⟨.error .unread, source, target⟩
      else moveAll faults 0 source [] source target

/-! ### The caller -/

inductive Slot where
  | cold
  | warm
  deriving DecidableEq, Repr

/-- A sandbox that was spawned, with the names in the job's workspace and in the member's mount
directory. -/
structure Spawned (N : Type u) where
  slot : Slot
  workspace : List N
  mount : List N

/-- `claim_warm`, when the pool had a member: one that never ran a job, so its directory is empty.
A member that could not be handed over is destroyed with its directory. -/
def claimWarm (faults : Faults) (isDir : N → Bool) (probe : N) (workspace : List N) : Spawned N :=
  match adopt faults isDir probe workspace [] with
  | ⟨.ok (), source, target⟩ => ⟨.warm, source, target⟩
  | ⟨.error _, source, _⟩ => ⟨.cold, source, []⟩

/-- `ContainerBackend::spawn`: the checks of the spec, and whether the pool has a member. -/
def spawn {E : Type v} (checked : Except E Unit) (claimed : Bool) (faults : Faults)
    (isDir : N → Bool) (probe : N) (workspace : List N) : Except E (Spawned N) :=
  match checked with
  | .error e => .error e
  | .ok () =>
    if claimed then .ok (claimWarm faults isDir probe workspace)
    else .ok ⟨.cold, workspace, []⟩

/-- The directory that is mounted where the job runs. -/
def Spawned.sees (s : Spawned N) : List N :=
  match s.slot with
  | .warm => s.mount
  | .cold => s.workspace

/-! ### The property -/

/-- A job that was spawned sees the entries of its workspace, each once; and an error that does not
say that the workspace is split leaves it where it was. -/
structure NeverHalf (faults : Faults) (isDir : N → Bool) (probe : N) (workspace : List N) :
    Prop where
  sees : ∀ (checked : Except String Unit) (claimed : Bool) (s : Spawned N),
    spawn checked claimed faults isDir probe workspace = .ok s → s.sees.Perm workspace
  stays : ∀ e source target, adopt faults isDir probe workspace [] = ⟨.error e, source, target⟩ →
    e ≠ .split → source.Perm workspace ∧ target = []

/-- The move gets as far as the probe. -/
def Faults.probes (faults : Faults) : Prop :=
  faults.readInto = false ∧ faults.entryInto = false ∧ faults.write = false

/-- The move gets as far as the listing of the workspace. -/
def Faults.moves (faults : Faults) : Prop :=
  faults.probes ∧ faults.probe = false ∧ faults.readFrom = false

/-- The first failure from the `i`-th entry on, with `n` entries left and `m` moved: a listing that
fails has moved nothing yet, and every rename back after a rename that fails succeeds. -/
def Faults.Recovers (faults : Faults) (i n m : ℕ) : Prop :=
  ∀ k ≤ n, (∀ l < k, faults.entry (i + l) = false ∧ faults.move (i + l) = false) →
    (faults.entry (i + k) = true → m + k = 0) ∧
      (k < n → faults.entry (i + k) = false → faults.move (i + k) = true →
        ∀ j < m + k, faults.back j = false)

/-- The failures that leave the workspace in one piece; the probe must not meet a file of the
workspace under its own name. -/
def Harmless (faults : Faults) (isDir : N → Bool) (probe : N) (workspace : List N) : Prop :=
  (faults.probes → probe ∈ workspace → isDir probe = true) ∧
    (faults.moves → probe ∉ workspace → faults.Recovers 0 workspace.length 0)

/-- An outcome that keeps the workspace in one piece. -/
def Outcome.Good (o : Outcome N) (workspace : List N) : Prop :=
  match o.result with
  | .ok () => o.target.Perm workspace
  | .error _ => o.source.Perm workspace ∧ o.target = []

theorem never_half_iff_good {faults : Faults} {isDir : N → Bool} {probe : N} {workspace : List N}
    (split : (adopt faults isDir probe workspace []).result = .error .split →
      ¬ (adopt faults isDir probe workspace []).source.Perm workspace) :
    NeverHalf faults isDir probe workspace ↔
      (adopt faults isDir probe workspace []).Good workspace := by
  have seen : spawn (.ok () : Except String Unit) true faults isDir probe workspace =
      .ok (claimWarm faults isDir probe workspace) := rfl
  unfold claimWarm at seen
  unfold Outcome.Good
  cases ended : adopt faults isDir probe workspace [] with
  | mk result source target =>
    rw [ended] at seen split
    cases result with
    | ok _ =>
      dsimp only at seen ⊢
      constructor
      · exact fun never => never.sees _ _ _ seen
      · intro good
        refine ⟨?_, ?_⟩
        · intro checked claimed s spawned
          unfold spawn claimWarm at spawned
          rw [ended] at spawned
          cases checked with
          | error _ => cases spawned
          | ok _ =>
            cases claimed with
            | false =>
              cases spawned
              exact List.Perm.refl _
            | true =>
              cases spawned
              exact good
        · intro e source' target' failed
          rw [ended] at failed
          cases failed
    | error e =>
      dsimp only at seen split ⊢
      constructor
      · intro never
        by_cases torn : e = .split
        · exact absurd (never.sees _ _ _ seen) (split (by rw [torn]))
        · exact never.stays e source target ended torn
      · intro good
        refine ⟨?_, ?_⟩
        · intro checked claimed s spawned
          unfold spawn claimWarm at spawned
          rw [ended] at spawned
          cases checked with
          | error _ => cases spawned
          | ok _ =>
            cases claimed with
            | false =>
              cases spawned
              exact List.Perm.refl _
            | true =>
              cases spawned
              exact good.1
        · intro e' source' target' failed _
          rw [ended] at failed
          cases failed
          exact good

/-! ### The way back -/

theorem rename_head {fails : Bool} {name : N} {left target : List N} (new : name ∉ target) :
    rename fails (name :: left) target name =
      if fails then none else some (left, target ++ [name]) := by
  unfold rename
  cases fails with
  | true => rfl
  | false =>
    rw [if_neg (by simp), if_neg Bool.false_ne_true, List.erase_cons_head,
      List.erase_of_not_mem new]

/-- **The way back**: everything is back exactly when every rename succeeds. -/
theorem rollback_spec (faults : Faults) (moved source : List N) (j : ℕ)
    (distinct : (moved ++ source).Nodup) :
    (∃ k < moved.length, faults.back (j + k) = true ∧
        (rollback faults j moved source moved).result = .error .split ∧
        (rollback faults j moved source moved).source.length < (moved ++ source).length) ∨
      ((∀ k < moved.length, faults.back (j + k) = false) ∧
        rollback faults j moved source moved = ⟨.error .rename, source ++ moved, []⟩) := by
  induction moved generalizing source j with
  | nil =>
    right
    refine ⟨fun k less => absurd less (Nat.not_lt_zero k), ?_⟩
    rw [List.append_nil]
    rfl
  | cons done moved ih =>
    rw [List.cons_append, List.nodup_cons, List.mem_append, not_or] at distinct
    obtain ⟨⟨fresh, new⟩, rest⟩ := distinct
    unfold rollback
    rw [rename_head new]
    cases fails : faults.back j with
    | true =>
      left
      refine ⟨0, Nat.succ_pos _, fails, rfl, ?_⟩
      simp only [if_true, List.cons_append, List.length_cons, List.length_append]
      omega
    | false =>
      rw [if_neg Bool.false_ne_true]
      dsimp only
      have shuffled : (moved ++ (source ++ [done])).Nodup := by
        have perm : (moved ++ (source ++ [done])).Perm (done :: (moved ++ source)) := by
          rw [← List.append_assoc]
          exact List.perm_append_singleton done _
        rw [perm.nodup_iff, List.nodup_cons, List.mem_append, not_or]
        exact ⟨⟨fresh, new⟩, rest⟩
      rcases ih (source ++ [done]) (j + 1) shuffled with
        ⟨k, less, back, split, short⟩ | ⟨all, whole⟩
      · left
        refine ⟨k + 1, Nat.succ_lt_succ less, by rw [← back]; congr 1; omega, split, ?_⟩
        simp only [List.length_append, List.length_cons] at short ⊢
        simp only [List.length_nil] at short
        omega
      · right
        refine ⟨?_, ?_⟩
        · intro k less
          cases k with
          | zero => exact fails
          | succ k =>
            rw [← all k (Nat.lt_of_succ_lt_succ less)]
            congr 1
            omega
        · rw [whole, List.append_assoc]
          rfl

/-! ### The move -/

theorem recovers_fails {faults : Faults} {i n m : ℕ} (fails : faults.entry i = true) :
    faults.Recovers i n m ↔ m = 0 := by
  constructor
  · intro recovers
    exact ((recovers 0 (Nat.zero_le n) (fun l less => absurd less (Nat.not_lt_zero l))).1 fails)
  · intro none k le before
    cases k with
    | zero =>
      refine ⟨fun _ => none, fun _ reads => ?_⟩
      rw [Nat.add_zero, fails] at reads
      cases reads
    | succ k =>
      have read := (before 0 (Nat.succ_pos k)).1
      rw [Nat.add_zero, fails] at read
      cases read

theorem recovers_stuck {faults : Faults} {i n m : ℕ} (reads : faults.entry i = false)
    (stuck : faults.move i = true) :
    faults.Recovers i (n + 1) m ↔ ∀ j < m, faults.back j = false := by
  constructor
  · intro recovers
    exact (recovers 0 (Nat.zero_le _) (fun l less => absurd less (Nat.not_lt_zero l))).2
      (Nat.succ_pos n) reads stuck
  · intro back k le before
    cases k with
    | zero =>
      refine ⟨fun fails => ?_, fun _ _ _ => back⟩
      rw [Nat.add_zero, reads] at fails
      cases fails
    | succ k =>
      have moves := (before 0 (Nat.succ_pos k)).2
      rw [Nat.add_zero, stuck] at moves
      cases moves

theorem recovers_moves {faults : Faults} {i n m : ℕ} (reads : faults.entry i = false)
    (moves : faults.move i = false) :
    faults.Recovers i (n + 1) m ↔ faults.Recovers (i + 1) n (m + 1) := by
  constructor
  · intro recovers k le before
    have later := recovers (k + 1) (Nat.succ_le_succ le) fun l less => by
      cases l with
      | zero => exact ⟨reads, moves⟩
      | succ l =>
        have at' := before l (Nat.lt_of_succ_lt_succ less)
        rw [Nat.add_assoc, Nat.add_comm 1 l] at at'
        exact at'
    rw [← Nat.add_assoc, Nat.add_right_comm i k 1, ← Nat.add_assoc,
      Nat.add_right_comm m k 1] at later
    exact ⟨later.1, fun less => later.2 (Nat.succ_lt_succ less)⟩
  · intro recovers k le before
    cases k with
    | zero =>
      refine ⟨fun fails => ?_, fun _ _ stuck => ?_⟩
      · rw [Nat.add_zero, reads] at fails
        cases fails
      · rw [Nat.add_zero, moves] at stuck
        cases stuck
    | succ k =>
      have later := recovers k (Nat.le_of_succ_le_succ le) fun l less => by
        have at' := before (l + 1) (Nat.succ_lt_succ less)
        rw [Nat.add_assoc, Nat.add_comm 1 l]
        exact at'
      rw [← Nat.add_assoc, Nat.add_right_comm i k 1, ← Nat.add_assoc, Nat.add_right_comm m k 1]
      exact ⟨later.1, fun less => later.2 (Nat.lt_of_succ_lt_succ less)⟩

omit [DecidableEq N] in
theorem not_perm_of_shorter {source workspace : List N} (short : source.length < workspace.length) :
    ¬ source.Perm workspace := fun same => absurd same.length_eq (Nat.ne_of_lt short)

/-- **The loop**: the source holds what is left, the target what was moved, at every turn. -/
theorem good_moveAll (faults : Faults) {workspace : List N} (left moved : List N) (i : ℕ)
    (distinct : (moved ++ left).Nodup) (whole : (moved ++ left).Perm workspace) :
    ((moveAll faults i left moved left moved).Good workspace ↔
        faults.Recovers i left.length moved.length) ∧
      ((moveAll faults i left moved left moved).result = .error .split →
        ¬ (moveAll faults i left moved left moved).source.Perm workspace) := by
  have length := whole.length_eq
  rw [List.length_append] at length
  -- a listing that fails keeps the workspace in one piece if nothing was moved
  have unread : (⟨.error .unread, left, moved⟩ : Outcome N).Good workspace ↔ moved.length = 0 := by
    rw [List.length_eq_zero_iff]
    constructor
    · exact fun good => good.2
    · rintro rfl
      exact ⟨whole, rfl⟩
  induction left generalizing moved i with
  | nil =>
    unfold moveAll
    cases fails : faults.entry i with
    | true =>
      rw [if_pos rfl]
      exact ⟨unread.trans (recovers_fails fails).symm, nofun⟩
    | false =>
      rw [if_neg Bool.false_ne_true]
      rw [List.append_nil] at whole
      refine ⟨⟨fun _ k le _ => ?_, fun _ => whole⟩, nofun⟩
      obtain rfl := Nat.le_zero.mp le
      refine ⟨fun now => ?_, fun less => absurd less (Nat.lt_irrefl 0)⟩
      rw [Nat.add_zero, fails] at now
      cases now
  | cons name left ih =>
    have new : name ∉ moved := fun member =>
      (List.nodup_append.mp distinct).2.2 name member name List.mem_cons_self rfl
    unfold moveAll
    cases fails : faults.entry i with
    | true =>
      rw [if_pos rfl]
      exact ⟨unread.trans (recovers_fails fails).symm, nofun⟩
    | false =>
      rw [if_neg Bool.false_ne_true, rename_head new]
      cases stuck : faults.move i with
      | true =>
        rw [if_pos rfl]
        dsimp only
        rw [List.length_cons, recovers_stuck fails stuck]
        rcases rollback_spec faults moved (name :: left) 0 distinct with
          ⟨k, less, back, split, short⟩ | ⟨all, back⟩
        · rw [Nat.zero_add] at back
          rw [whole.length_eq] at short
          refine ⟨⟨fun good => ?_, fun all => ?_⟩, fun _ => not_perm_of_shorter short⟩
          · unfold Outcome.Good at good
            rw [split] at good
            exact absurd good.1 (not_perm_of_shorter short)
          · rw [all k less] at back
            cases back
        · rw [back]
          refine ⟨⟨fun _ j less => ?_, fun _ => ⟨?_, rfl⟩⟩, nofun⟩
          · rw [← all j less, Nat.zero_add]
          · exact List.perm_append_comm.trans whole
      | false =>
        rw [if_neg Bool.false_ne_true]
        dsimp only
        have shifted : moved ++ name :: left = (moved ++ [name]) ++ left := by simp
        rw [shifted] at distinct whole
        have next := ih (moved ++ [name]) (i + 1) distinct whole
        rw [List.length_append, List.length_singleton] at next
        rw [List.length_cons, recovers_moves fails stuck]
        refine next ?_ ?_
        · rw [← length, List.length_cons]
          omega
        · constructor
          · intro good
            exact absurd good.2 (List.append_ne_nil_of_right_ne_nil _ (List.cons_ne_nil _ _))
          · intro none
            omega

/-! ### Nothing appears -/

/-- How many names the two directories hold. -/
def Outcome.size (o : Outcome N) : ℕ :=
  o.source.length + o.target.length

theorem rename_size {fails : Bool} {source target : List N} {name : N}
    {renamed : List N × List N} (made : rename fails source target name = some renamed) :
    renamed.1.length + renamed.2.length ≤ source.length + target.length := by
  unfold rename at made
  split_ifs at made with refused
  cases made
  rw [not_or, not_not] at refused
  have fewer := List.length_erase_of_mem refused.2
  have some' := List.length_pos_of_mem refused.2
  have most := (List.erase_sublist (a := name) (l := target)).length_le
  rw [List.length_append, List.length_singleton]
  dsimp only
  omega

theorem rollback_size (faults : Faults) (moved : List N) (j : ℕ) (source target : List N) :
    (rollback faults j moved source target).size ≤ source.length + target.length := by
  induction moved generalizing j source target with
  | nil => exact Nat.le_refl _
  | cons done moved ih =>
    unfold rollback
    cases made : rename (faults.back j) target source done with
    | none => exact Nat.le_refl _
    | some renamed =>
      have fewer := rename_size made
      have rest := ih (j + 1) renamed.2 renamed.1
      dsimp only
      omega

theorem moveAll_size (faults : Faults) (left moved : List N) (i : ℕ) (source target : List N) :
    (moveAll faults i left moved source target).size ≤ source.length + target.length := by
  induction left generalizing moved i source target with
  | nil =>
    unfold moveAll
    split <;> exact Nat.le_refl _
  | cons name left ih =>
    unfold moveAll
    split
    · exact Nat.le_refl _
    · cases made : rename (faults.move i) source target name with
      | none => exact rollback_size faults moved 0 source target
      | some renamed =>
        have fewer := rename_size made
        have rest := ih (moved ++ [name]) (i + 1) renamed.1 renamed.2
        dsimp only
        omega

omit [DecidableEq N] in
theorem not_good_of_size {o : Outcome N} {workspace : List N} (lost : o.size < workspace.length) :
    ¬ o.Good workspace ∧ ¬ o.source.Perm workspace := by
  have short : ¬ o.source.Perm workspace := by
    refine not_perm_of_shorter (Nat.lt_of_le_of_lt ?_ lost)
    exact Nat.le_add_right _ _
  refine ⟨?_, short⟩
  unfold Outcome.Good
  cases o.result with
  | ok _ =>
    refine not_perm_of_shorter (Nat.lt_of_le_of_lt ?_ lost)
    exact Nat.le_add_left _ _
  | error _ => exact fun good => short good.1

/-! ### The whole move -/

/-- The probe comes and goes, when it meets no file of the workspace. -/
theorem probeRename_apart {faults : Faults} {isDir : N → Bool} {probe : N} {workspace : List N}
    (apart : faults.write = true ∨ (probe ∈ workspace → isDir probe = true)) :
    ∃ result, probeRename faults isDir probe workspace [] = ⟨result, workspace, []⟩ ∧
      result ≠ .error .split ∧ (result = .ok () ↔
        faults.write = false ∧ faults.probe = false ∧ probe ∉ workspace) := by
  unfold probeRename
  by_cases refused : faults.write = true ∨ probe ∈ workspace ∧ isDir probe = true
  · rw [if_pos refused]
    refine ⟨_, rfl, nofun, nofun, ?_⟩
    rintro ⟨written, -, new⟩
    rcases refused with fails | ⟨there, -⟩
    · rw [written] at fails
      cases fails
    · exact absurd there new
  · have written : faults.write = false :=
      Bool.eq_false_iff.mpr fun fails => refused (.inl fails)
    have new : probe ∉ workspace := fun there => by
      rcases apart with fails | dir
      · exact refused (.inl fails)
      · exact refused (.inr ⟨there, dir there⟩)
    have back : (workspace ++ [probe]).erase probe = workspace := by
      rw [List.erase_append_right _ new, List.erase_cons_head, List.append_nil]
    rw [if_neg refused, if_neg new]
    unfold rename
    dsimp only
    cases stuck : faults.probe with
    | true =>
      rw [if_pos (.inl rfl)]
      dsimp only
      rw [back]
      exact ⟨_, rfl, nofun, nofun, fun all => nomatch all.2.1⟩
    | false =>
      rw [if_neg (by simp)]
      dsimp only
      rw [back, List.erase_of_not_mem new]
      refine ⟨.ok (), by simp, nofun, fun _ => ⟨written, rfl, new⟩, fun _ => rfl⟩

/-- A probe that meets a file of the workspace takes it away. -/
theorem probeRename_meets {faults : Faults} {isDir : N → Bool} {probe : N} {workspace : List N}
    (written : faults.write = false) (there : probe ∈ workspace) (file : isDir probe = false) :
    (probeRename faults isDir probe workspace []).size < workspace.length := by
  have fewer := List.length_erase_of_mem there
  have some' := List.length_pos_of_mem there
  have most := (List.erase_sublist (a := probe) (l := workspace.erase probe)).length_le
  unfold probeRename
  rw [if_neg (by simp [written, file]), if_pos there]
  unfold rename
  dsimp only
  cases stuck : faults.probe with
  | true =>
    rw [if_pos (.inl rfl)]
    show (workspace.erase probe).length + 0 < _
    omega
  | false =>
    rw [if_neg (by simp [there])]
    unfold Outcome.size
    simp only [List.erase_nil, List.nil_append, List.erase_cons_head, List.length_nil]
    omega

theorem adopt_meets {faults : Faults} {isDir : N → Bool} {probe : N} {workspace : List N}
    (probes : faults.probes) (there : probe ∈ workspace) (file : isDir probe = false) :
    (adopt faults isDir probe workspace []).size < workspace.length := by
  obtain ⟨into, first, written⟩ := probes
  have lost := probeRename_meets written there file
  unfold adopt
  rw [if_neg (by simp [into]), if_neg (by simp [first])]
  revert lost
  cases probeRename faults isDir probe workspace [] with
  | mk result source target =>
    intro lost
    cases result with
    | error e => exact lost
    | ok _ =>
      dsimp only
      split
      · exact lost
      · exact Nat.lt_of_le_of_lt (moveAll_size faults source [] 0 source target) lost

/-- **The whole move.** -/
theorem adopt_spec {faults : Faults} {isDir : N → Bool} {probe : N} {workspace : List N}
    (distinct : workspace.Nodup) :
    ((adopt faults isDir probe workspace []).Good workspace ↔
        Harmless faults isDir probe workspace) ∧
      ((adopt faults isDir probe workspace []).result = .error .split →
        ¬ (adopt faults isDir probe workspace []).source.Perm workspace) := by
  have whole : ∀ e, (⟨.error e, workspace, []⟩ : Outcome N).Good workspace :=
    fun _ => ⟨List.Perm.refl _, rfl⟩
  -- nothing happened before the probe
  have early : ¬ faults.probes → Harmless faults isDir probe workspace :=
    fun not => ⟨fun probes => absurd probes not, fun moves => absurd moves.1 not⟩
  by_cases meets : faults.probes ∧ probe ∈ workspace ∧ isDir probe = false
  · obtain ⟨probes, there, file⟩ := meets
    obtain ⟨bad, short⟩ := not_good_of_size (adopt_meets probes there file)
    refine ⟨iff_of_false bad fun safe => ?_, fun _ => short⟩
    rw [safe.1 probes there] at file
    cases file
  unfold adopt
  cases into : faults.readInto with
  | true =>
    rw [if_pos rfl]
    refine ⟨⟨fun _ => early fun probes => ?_, fun _ => whole _⟩, nofun⟩
    rw [probes.1] at into
    cases into
  | false =>
    rw [if_neg Bool.false_ne_true]
    cases first : faults.entryInto with
    | true =>
      rw [if_pos (.inl rfl)]
      refine ⟨⟨fun _ => early fun probes => ?_, fun _ => whole _⟩, nofun⟩
      rw [probes.2.1] at first
      cases first
    | false =>
      rw [if_neg (by simp)]
      have apart : faults.write = true ∨ (probe ∈ workspace → isDir probe = true) := by
        by_contra both
        rw [not_or, Bool.not_eq_true, Classical.not_imp, Bool.not_eq_true] at both
        exact meets ⟨⟨into, first, both.1⟩, both.2⟩
      obtain ⟨result, probed, never, ok⟩ := probeRename_apart apart
      rw [probed]
      have harmless : (faults.moves → probe ∉ workspace →
          faults.Recovers 0 workspace.length 0) → Harmless faults isDir probe workspace := by
        refine fun recovers => ⟨fun probes there => ?_, recovers⟩
        rcases apart with fails | dir
        · rw [probes.2.2] at fails
          cases fails
        · exact dir there
      cases result with
      | error e =>
        dsimp only
        refine ⟨⟨fun _ => harmless fun moves new => ?_, fun _ => whole _⟩, fun split => ?_⟩
        · exact nomatch ok.mpr ⟨moves.1.2.2, moves.2.1, new⟩
        · exact absurd split never
      | ok _ =>
        obtain ⟨written, renamed, new⟩ := ok.mp rfl
        dsimp only
        cases read : faults.readFrom with
        | true =>
          rw [if_pos rfl]
          refine ⟨⟨fun _ => harmless fun moves _ => ?_, fun _ => whole _⟩, nofun⟩
          rw [moves.2.2] at read
          cases read
        | false =>
          rw [if_neg Bool.false_ne_true]
          obtain ⟨good, torn⟩ := good_moveAll faults workspace [] 0 distinct (List.Perm.refl _)
          refine ⟨good.trans ⟨fun recovers => harmless fun _ _ => recovers, ?_⟩, torn⟩
          exact fun safe => safe.2 ⟨⟨into, first, written⟩, renamed, read⟩ new

/-- **No job runs on half a workspace exactly when the failures are harmless.** -/
theorem never_half_iff (faults : Faults) (isDir : N → Bool) (probe : N) {workspace : List N}
    (distinct : workspace.Nodup) :
    NeverHalf faults isDir probe workspace ↔ Harmless faults isDir probe workspace := by
  obtain ⟨good, split⟩ := adopt_spec (N := N) distinct
  exact (never_half_iff_good split).trans good

/-- Nothing fails. -/
theorem never_half_iff_sound : NeverHalf {} (fun _ => false) 9 [1, 2] ↔
    Harmless {} (fun _ => false) 9 [1, 2] :=
  never_half_iff {} (fun _ => false) 9 (by decide)

/-- **A listing that fails after the first entry leaves half a workspace to the job.** The error has
not say so, nothing is moved back, and the member is destroyed with the entry it was given. -/
theorem listing_stops_halfway :
    ¬ NeverHalf { entry := fun i => i == 1 } (fun _ => false) 9 [1, 2] := by
  intro never
  have seen := never.sees (.ok ()) true ⟨.cold, [2], []⟩ rfl
  exact absurd seen.length_eq (by decide)

end HullCi.Node.Adopt
