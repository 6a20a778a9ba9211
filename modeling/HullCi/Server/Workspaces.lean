/-
**The workspace of a step, from its materialization to its removal.**

An in-process fleet runs each step as a task of its own. The task hands the copy of the verified
tree to a blocking thread, runs the job in it and hands the removal to a blocking thread again. A
cancel aborts the task, which takes effect only between two polls of its future, and hands a removal
of its own to a blocking thread; what is already handed over goes on. The threads take the queued
work in any order, and a copy and a removal of the same directory may run side by side.

* `Work.step`, `Task.act`, `Fleet.step` — one file-system call of a copy, one act on a task, and the
  fleet with the file system all its steps share.
* `Sound`, `Task.sound_act` — what holds of one step and its directory, and that every act keeps it.
* `workspace_gone` — once the task and all its blocking work have ended nothing exists at the
  workspace, in every run in which no removal fails and none ends while the step can still write.
* `copied_after_discard` — a cancel whose removal runs before the queued copy leaves the whole copy.

The bytes and modes of the files, and the node's admission of an assignment, decide nothing here.
-/

import HullCi.Base.Run
import Mathlib.Data.Finset.Basic
import Mathlib.Data.List.Infix
import Mathlib.Data.List.Basic
import Mathlib.Logic.Function.Basic
import Mathlib.Data.Finset.Dedup

namespace HullCi.Server.Workspace

open HullCi.Base (run Along along_append run_invariant_along)

/-- A path, as its components. -/
abbrev Path := List String

/-- The two ids of a step. -/
structure StepKey where
  jobId : String
  stepId : String
  deriving DecidableEq

/-- What the stored tree holds under one name. -/
inductive Entry where
  | dir (entries : List (String × Entry))
  | symlink
  | file
  | other

/-! ### The copy -/

/-- How far `materialize_with` has come. -/
inductive Work where
  | idle
  | queued
  /-- There was nothing at the destination. -/
  | absent
  /-- The parent of the destination has been made. -/
  | parented
  /-- Inside `copy_dir`: the directory at hand, what is left of it, and the `pending` stack. -/
  | copying (dst : Path) (entries : List (String × Entry))
      (pending : List (Path × List (String × Entry)))
  | ended (ok : Bool)

/-- How the system answers a call. One that fails may have made its entry before: the mode is set
after the entry is made, and a copy may stop half way. -/
inductive Outcome where
  | ok
  | failed (made : Bool)

/-- The work of a thread that has not been handed over or has returned. -/
def Work.still : Work → Bool
  | .idle => true
  | .ended _ => true
  | _ => false

/-- A call that makes a new entry: it fails on an existing one and in a missing directory. -/
def create (fs : Finset Path) (path : Path) (next : Work) : Work × Finset Path :=
  if path ∈ fs ∨ path.dropLast ∉ fs then (.ended false, fs) else (next, insert path fs)

/-- `place_file`: a file that is in the way is removed before the copy. -/
def place (fs : Finset Path) (path : Path) (next : Work) : Work × Finset Path :=
  if path.dropLast ∉ fs then (.ended false, fs) else (next, insert path fs)

/-- What a failed call leaves. -/
def stop (fs : Finset Path) (path : Path) (made : Bool) : Work × Finset Path :=
  (.ended false, if made = true ∧ path.dropLast ∈ fs then insert path fs else fs)

/-- The next call of `materialize_with`, as the system answers it. -/
def Work.step (dest : Path) (tree : List (String × Entry)) (fs : Finset Path) :
    Outcome → Work → Work × Finset Path
  | _, .idle => (.idle, fs)
  | _, .ended ok => (.ended ok, fs)
  | _, .queued => if dest ∈ fs then (.ended false, fs) else (.absent, fs)
  | .ok, .absent => (.parented, fs ∪ dest.dropLast.inits.toFinset)
  | .failed _, .absent => (.ended false, fs)
  | .ok, .parented => create fs dest (.copying dest tree [])
  | .failed _, .parented => (.ended false, fs)
  | .failed _, .copying _ [] _ => (.ended false, fs)
  | .ok, .copying _ [] [] => (.ended true, fs)
  | .ok, .copying _ [] ((dst, entries) :: pending) => (.copying dst entries pending, fs)
  | .failed made, .copying dst ((name, _) :: _) _ => stop fs (dst ++ [name]) made
  | .ok, .copying dst ((name, .dir below) :: entries) pending =>
    create fs (dst ++ [name]) (.copying dst entries ((dst ++ [name], below) :: pending))
  | .ok, .copying dst ((name, .symlink) :: entries) pending =>
    create fs (dst ++ [name]) (.copying dst entries pending)
  | .ok, .copying dst ((name, .file) :: entries) pending =>
    place fs (dst ++ [name]) (.copying dst entries pending)
  | .ok, .copying _ ((_, .other) :: _) _ => (.ended false, fs)

/-! ### One step of the fleet -/

/-- A `discard` handed to a blocking thread. -/
inductive Removal where
  | queued
  | active
  /-- It found nothing at the workspace any more. -/
  | gone
  /-- It met an error, logged it and returned. -/
  | left
  deriving DecidableEq

/-- Where `Run::execute` is. -/
inductive Phase where
  | spawned
  | materializing
  | running
  /-- Inside `deliver`. -/
  | reporting
  /-- Waiting for its own removal. -/
  | discarding (own : ℕ)
  /-- Returned, or dropped. -/
  | ended
  deriving DecidableEq

/-- One assignment, with the work that its task and its cancel have handed over. -/
structure Task where
  tree : List (String × Entry)
  phase : Phase
  /-- Its future is being polled. -/
  polling : Bool
  aborted : Bool
  /-- The `running` map holds its handle. -/
  handle : Bool
  work : Work
  removals : List Removal

/-- A task as `assign` spawns it. -/
def Task.spawn (tree : List (String × Entry)) : Task where
  tree := tree
  phase := .spawned
  polling := false
  aborted := false
  handle := true
  work := .idle
  removals := []

/-- A removal that has returned. -/
def Removal.over : Removal → Bool
  | .gone => true
  | .left => true
  | _ => false

/-- The task's future, up to its next await. -/
def Task.advance (t : Task) : Task :=
  match t.phase with
  | .spawned => { t with phase := .materializing, work := .queued }
  | .materializing =>
    match t.work with
    | .ended true => { t with phase := .running }
    | .ended false => { t with phase := .reporting }
    | _ => t
  | .running => { t with phase := .reporting }
  | .reporting =>
    { t with phase := .discarding t.removals.length, removals := t.removals ++ [.queued] }
  | .discarding own =>
    if (t.removals[own]?.map Removal.over) = some true then { t with phase := .ended } else t
  | .ended => t

/-- `InProcessFleet::cancel`. -/
def Task.cancel (t : Task) : Task :=
  if t.handle then
    { t with handle := false, aborted := true, removals := t.removals ++ [.queued] }
  else t

/-- Nothing in the directory but itself. -/
def Leaf (fs : Finset Path) (path : Path) : Prop :=
  ∀ q ∈ fs, path <+: q → q = path

instance (fs : Finset Path) (path : Path) : Decidable (Leaf fs path) :=
  inferInstanceAs (Decidable (∀ q ∈ fs, path <+: q → q = path))

/-- What can happen to a step that has been assigned. -/
inductive Act where
  | cancel
  /-- A poll of the future begins; one that is aborted is not polled again. -/
  | enter
  | advance
  /-- The poll returns. -/
  | leave
  /-- An aborted future is dropped, and its job dies with it. -/
  | drop
  | copy (outcome : Outcome)
  | begin (i : ℕ)
  /-- A removal removes one file or empty directory. -/
  | remove (i : ℕ) (path : Path)
  /-- A removal finds nothing at the workspace and returns. -/
  | finish (i : ℕ)
  /-- A removal meets an error and returns. -/
  | giveUp (i : ℕ)
  /-- The job makes or removes an entry at its workspace. -/
  | makes (path : Path)
  | unmakes (path : Path)

/-- A removal at another place. -/
def Task.mark (t : Task) (i : ℕ) (r : Removal) : Task :=
  { t with removals := t.removals.set i r }

/-- One act on a step whose workspace is `dest`. -/
def Task.act (dest : Path) (fs : Finset Path) (t : Task) : Act → Task × Finset Path
  | .cancel => (t.cancel, fs)
  | .enter =>
    if t.aborted = false ∧ t.phase ≠ .ended then ({ t with polling := true }, fs) else (t, fs)
  | .advance => if t.polling then (t.advance, fs) else (t, fs)
  | .leave => ({ t with polling := false }, fs)
  | .drop =>
    if t.aborted = true ∧ t.polling = false then ({ t with phase := .ended }, fs) else (t, fs)
  | .copy outcome =>
    let (work, fs') := t.work.step dest t.tree fs outcome
    ({ t with work := work }, fs')
  | .begin i => if t.removals[i]? = some .queued then (t.mark i .active, fs) else (t, fs)
  | .remove i path =>
    if t.removals[i]? = some .active ∧ dest <+: path ∧ Leaf fs path then (t, fs.erase path)
    else (t, fs)
  | .finish i =>
    if t.removals[i]? = some .active ∧ dest ∉ fs then (t.mark i .gone, fs) else (t, fs)
  | .giveUp i => if t.removals[i]? = some .active then (t.mark i .left, fs) else (t, fs)
  | .makes path =>
    if t.phase = .running ∧ dest <+: path ∧ path.dropLast ∈ fs then (t, insert path fs)
    else (t, fs)
  | .unmakes path =>
    if t.phase = .running ∧ dest <+: path ∧ Leaf fs path then (t, fs.erase path) else (t, fs)

/-! ### The fleet -/

/-- The file system and the steps that have been assigned. -/
structure Fleet where
  fs : Finset Path
  tasks : StepKey → Option Task

/-- A step is dispatched once: its claim is kept forever. -/
inductive Event where
  | assign (key : StepKey) (tree : List (String × Entry))
  | act (key : StepKey) (a : Act)

variable (workRoot : Path)

/-- `workspace_path`. -/
def workspacePath (key : StepKey) : Path :=
  workRoot ++ [key.jobId, key.stepId]

def Fleet.step (f : Fleet) : Event → Fleet
  | .assign key tree =>
    match f.tasks key with
    | none => { f with tasks := Function.update f.tasks key (some (Task.spawn tree)) }
    | some _ => f
  | .act key a =>
    match f.tasks key with
    | none => f
    | some t =>
      let (t', fs') := t.act (workspacePath workRoot key) f.fs a
      { fs := fs', tasks := Function.update f.tasks key (some t') }

/-- A node that has been assigned nothing: its work root exists and is empty. -/
def Fleet.new : Fleet where
  fs := workRoot.inits.toFinset
  tasks := fun _ => none

/-! ### The property -/

/-- The task has ended, and with it all the blocking work that it or its cancel handed over. -/
def Task.Over (t : Task) : Prop :=
  t.phase = .ended ∧ t.work.still = true ∧ ∀ r ∈ t.removals, r.over = true

instance (t : Task) : Decidable t.Over :=
  inferInstanceAs (Decidable (_ ∧ _ ∧ _))

/-- No workspace outlives its step. -/
def Swept (f : Fleet) : Prop :=
  ∀ key t, f.tasks key = some t → t.Over → workspacePath workRoot key ∉ f.fs

/-- The future is past its copy and its job. -/
def Phase.past : Phase → Bool
  | .reporting => true
  | .discarding _ => true
  | .ended => true
  | _ => false

/-- Nothing that the step has handed over or may still do can make anything at its workspace: no
copy is queued or under way, no job runs, and the task is past its copy or will not be polled
again. -/
def Task.Settled (t : Task) : Prop :=
  t.work.still = true ∧ t.phase ≠ .running ∧
    (t.phase.past = true ∨ t.aborted = true ∧ t.polling = false)

instance (t : Task) : Decidable t.Settled :=
  inferInstanceAs (Decidable (_ ∧ _ ∧ (_ ∨ _ ∧ _)))

/-- A condition on one act: no removal fails, and after a cancel none ends before the step is
settled. -/
def Task.Orderly (dest : Path) (fs : Finset Path) (t : Task) : Act → Prop
  | .finish i => t.removals[i]? = some .active → dest ∉ fs → t.aborted = true → t.Settled
  | .giveUp i => t.removals[i]? ≠ some .active
  | _ => True

def Orderly (f : Fleet) : Event → Prop
  | .assign _ _ => True
  | .act key a => ∀ t, f.tasks key = some t → t.Orderly (workspacePath workRoot key) f.fs a

instance (dest : Path) (fs : Finset Path) (t : Task) : ∀ a, Decidable (t.Orderly dest fs a)
  | .finish _ => inferInstanceAs (Decidable (_ → _ → _ → _))
  | .giveUp _ => inferInstanceAs (Decidable (_ ≠ _))
  | .cancel | .enter | .advance | .leave | .drop | .copy _ | .begin _ | .remove _ _ | .makes _
  | .unmakes _ => .isTrue trivial

instance (f : Fleet) : ∀ l, Decidable (Orderly workRoot f l)
  | .assign _ _ => .isTrue trivial
  | .act key a => inferInstanceAs (Decidable (∀ t ∈ f.tasks key,
      t.Orderly (workspacePath workRoot key) f.fs a))

/-! ### Directories -/

/-- Nothing at the workspace or under it. -/
def Clear (dest : Path) (fs : Finset Path) : Prop :=
  ∀ p ∈ fs, ¬ dest <+: p

/-- What is under the workspace is in it. -/
def Rooted (dest : Path) (fs : Finset Path) : Prop :=
  ∀ p ∈ fs, dest <+: p → dest ∈ fs

/-- What the work of a step does to the file system. -/
inductive Change (dest : Path) (fs : Finset Path) : Finset Path → Prop where
  | same : Change dest fs fs
  | parents : Change dest fs (fs ∪ dest.dropLast.inits.toFinset)
  | made (p : Path) (below : dest <+: p) (parent : p.dropLast ∈ fs) : Change dest fs (insert p fs)
  | removed (p : Path) (below : dest <+: p) (leaf : Leaf fs p) : Change dest fs (fs.erase p)

variable {workRoot}

theorem Rooted.clear {dest : Path} {fs : Finset Path} (rooted : Rooted dest fs)
    (absent : dest ∉ fs) : Clear dest fs :=
  fun p member below => absent (rooted p member below)

theorem Clear.absent {dest : Path} {fs : Finset Path} (clear : Clear dest fs) : dest ∉ fs :=
  fun member => clear dest member List.prefix_rfl

/-- What is as long as a directory is not among its parents. -/
theorem not_parent {dest p : Path} (nonempty : dest ≠ []) (long : dest.length ≤ p.length) :
    p ∉ dest.dropLast.inits.toFinset := by
  intro member
  have short := (List.mem_inits _ _).mp (List.mem_toFinset.mp member) |>.length_le
  rw [List.length_dropLast] at short
  have := List.length_pos_of_ne_nil nonempty
  omega

theorem mem_parents {dest p : Path} (nonempty : dest ≠ []) (long : dest.length ≤ p.length)
    {fs : Finset Path} : p ∈ fs ∪ dest.dropLast.inits.toFinset ↔ p ∈ fs := by
  rw [Finset.mem_union]
  exact ⟨fun member => member.resolve_right (not_parent nonempty long), Or.inl⟩

/-- An entry under a directory is the directory or has its parent there. -/
theorem below_parent {dest p : Path} (below : dest <+: p) : p = dest ∨ dest <+: p.dropLast := by
  obtain ⟨rest, rfl⟩ := below
  rcases List.eq_nil_or_concat rest with rfl | ⟨front, last, rfl⟩
  · exact .inl (List.append_nil _)
  · refine .inr ⟨front, ?_⟩
    rw [List.concat_eq_append, ← List.append_assoc, List.dropLast_concat]

theorem Change.rooted {dest : Path} (nonempty : dest ≠ []) {fs fs' : Finset Path}
    (change : Change dest fs fs') (rooted : Rooted dest fs) : Rooted dest fs' := by
  cases change with
  | same => exact rooted
  | parents =>
    intro p member below
    rw [mem_parents nonempty le_rfl]
    exact rooted p ((mem_parents nonempty below.length_le).mp member) below
  | made p below parent =>
    intro q member under
    rcases Finset.mem_insert.mp member with rfl | old
    · rcases below_parent below with same | inside
      · exact Finset.mem_insert.mpr (.inl same.symm)
      · exact Finset.mem_insert_of_mem (rooted _ parent inside)
    · exact Finset.mem_insert_of_mem (rooted q old under)
  | removed p below leaf =>
    intro q member under
    obtain ⟨other, old⟩ := Finset.mem_erase.mp member
    refine Finset.mem_erase.mpr ⟨?_, rooted q old under⟩
    rintro rfl
    exact other (leaf q old under)

theorem Change.frame {dest dest' : Path} (nonempty : dest ≠ []) (long : dest.length = dest'.length)
    (other : dest ≠ dest') {fs fs' : Finset Path} (change : Change dest fs fs') {p : Path}
    (below : dest' <+: p) : p ∈ fs' ↔ p ∈ fs := by
  have apart : ∀ q, dest <+: q → p ≠ q := by
    rintro q inside rfl
    refine other ?_
    exact (List.prefix_of_prefix_length_le inside below long.le).eq_of_length long
  cases change with
  | same => exact Iff.rfl
  | parents => exact mem_parents nonempty (long.trans_le below.length_le)
  | made q inside _ =>
    rw [Finset.mem_insert]
    exact ⟨fun member => member.resolve_left (apart q inside), Or.inr⟩
  | removed q inside _ =>
    rw [Finset.mem_erase]
    exact ⟨And.right, fun member => ⟨apart q inside, member⟩⟩

theorem Change.clear {dest dest' : Path} (nonempty : dest ≠ []) (long : dest.length = dest'.length)
    (other : dest ≠ dest') {fs fs' : Finset Path} (change : Change dest fs fs')
    (clear : Clear dest' fs) : Clear dest' fs' :=
  fun p member below => clear p ((change.frame nonempty long other below).mp member) below

theorem Change.rooted_other {dest dest' : Path} (nonempty : dest ≠ [])
    (long : dest.length = dest'.length) (other : dest ≠ dest') {fs fs' : Finset Path}
    (change : Change dest fs fs') (rooted : Rooted dest' fs) : Rooted dest' fs' := by
  intro p member below
  rw [change.frame nonempty long other List.prefix_rfl]
  exact rooted p ((change.frame nonempty long other below).mp member) below

theorem workspacePath_length (workRoot : Path) (key : StepKey) :
    (workspacePath workRoot key).length = workRoot.length + 2 := by
  unfold workspacePath
  rw [List.length_append]
  rfl

theorem workspacePath_ne_nil (workRoot : Path) (key : StepKey) :
    workspacePath workRoot key ≠ [] := by
  intro none
  have := workspacePath_length workRoot key
  rw [none] at this
  exact absurd this (by simp)

theorem workspacePath_injective {key key' : StepKey}
    (same : workspacePath workRoot key = workspacePath workRoot key') : key = key' := by
  unfold workspacePath at same
  have ids := List.append_cancel_left same
  cases key
  cases key'
  simp_all

/-! ### The copy, call by call -/

/-- The directories a copy still writes to are in the workspace. -/
def Work.Within (dest : Path) : Work → Prop
  | .copying dst _ pending => dest <+: dst ∧ ∀ d ∈ pending, dest <+: d.1
  | _ => True

/-- The copy has made nothing at its destination. -/
def Work.fresh : Work → Bool
  | .idle => true
  | .queued => true
  | .absent => true
  | .parented => true
  | _ => false

/-- What one call of a copy does. -/
structure Called (dest : Path) (w : Work) (fs : Finset Path) (w' : Work) (fs' : Finset Path) :
    Prop where
  within : w'.Within dest
  change : Change dest fs fs'
  fresh : w'.fresh = true → w.fresh = true ∧ (Clear dest fs → Clear dest fs')
  still : w.still = true → w' = w ∧ fs' = fs

theorem called_ended {dest : Path} {w : Work} {fs : Finset Path} (busy : w.still = false) (ok : Bool)
    {fs' : Finset Path} (change : Change dest fs fs') : Called dest w fs (.ended ok) fs' where
  within := trivial
  change := change
  fresh := fun fresh => absurd fresh (by simp [Work.fresh])
  still := fun still => absurd (busy.symm.trans still) (by simp)

theorem called_on {dest : Path} {w w' : Work} {fs fs' : Finset Path} (busy : w.still = false)
    (within : w'.Within dest) (started : w'.fresh = false) (change : Change dest fs fs') :
    Called dest w fs w' fs' where
  within := within
  change := change
  fresh := fun fresh => absurd (started.symm.trans fresh) (by simp)
  still := fun still => absurd (busy.symm.trans still) (by simp)

theorem called_create {dest path : Path} {w next : Work} {fs : Finset Path} (below : dest <+: path)
    (busy : w.still = false) (within : next.Within dest) (started : next.fresh = false) :
    Called dest w fs (create fs path next).1 (create fs path next).2 := by
  unfold create
  split
  · exact called_ended busy _ .same
  · next free =>
    exact called_on busy within started (.made path below (not_not.mp fun out => free (.inr out)))

theorem called_place {dest path : Path} {w next : Work} {fs : Finset Path} (below : dest <+: path)
    (busy : w.still = false) (within : next.Within dest) (started : next.fresh = false) :
    Called dest w fs (place fs path next).1 (place fs path next).2 := by
  unfold place
  split
  · exact called_ended busy _ .same
  · next free => exact called_on busy within started (.made path below (not_not.mp free))

theorem called_stop {dest path : Path} {w : Work} {fs : Finset Path} (below : dest <+: path)
    (busy : w.still = false) (made : Bool) :
    Called dest w fs (stop fs path made).1 (stop fs path made).2 := by
  unfold stop
  refine called_ended busy false ?_
  split
  · next there => exact .made path below there.2
  · exact .same

/-- **One call of a copy.** -/
theorem Work.called {dest : Path} (nonempty : dest ≠ []) (tree : List (String × Entry))
    (fs : Finset Path) (o : Outcome) (w : Work) (within : w.Within dest) :
    Called dest w fs (w.step dest tree fs o).1 (w.step dest tree fs o).2 := by
  have under : ∀ {dst : Path} (name : String), dest <+: dst → dest <+: dst ++ [name] :=
    fun name inside => inside.trans (List.prefix_append _ _)
  fun_cases Work.step dest tree fs o w with
  | case1 => exact ⟨trivial, .same, fun fresh => ⟨fresh, id⟩, fun _ => ⟨rfl, rfl⟩⟩
  | case2 => exact ⟨trivial, .same, fun fresh => ⟨fresh, id⟩, fun _ => ⟨rfl, rfl⟩⟩
  | case3 => exact called_ended rfl _ .same
  | case4 => exact ⟨trivial, .same, fun _ => ⟨rfl, id⟩, fun still => absurd still (by decide)⟩
  | case5 =>
    refine ⟨trivial, .parents, fun _ => ⟨rfl, ?_⟩, fun still => absurd still (by decide)⟩
    intro clear p member below
    exact clear p ((mem_parents nonempty below.length_le).mp member) below
  | case6 => exact called_ended rfl _ .same
  | case7 =>
    refine called_create List.prefix_rfl rfl ⟨List.prefix_rfl, fun d none => ?_⟩ rfl
    exact absurd none (by simp)
  | case8 => exact called_ended rfl _ .same
  | case9 => exact called_ended rfl _ .same
  | case10 => exact called_ended rfl _ .same
  | case11 =>
    refine called_on rfl ⟨within.2 _ List.mem_cons_self, ?_⟩ rfl .same
    exact fun d member => within.2 d (List.mem_cons_of_mem _ member)
  | case12 => exact called_stop (under _ within.1) rfl _
  | case13 =>
    refine called_create (under _ within.1) rfl ⟨within.1, fun d member => ?_⟩ rfl
    rcases List.mem_cons.mp member with rfl | old
    · exact under _ within.1
    · exact within.2 d old
  | case14 => exact called_create (under _ within.1) rfl within rfl
  | case15 => exact called_place (under _ within.1) rfl within rfl
  | case16 => exact called_ended rfl _ .same

/-! ### One step -/

/-- What holds of a step and its workspace. -/
structure Sound (dest : Path) (fs : Finset Path) (t : Task) : Prop where
  within : t.work.Within dest
  fresh : t.work.fresh = true → Clear dest fs
  spawned : t.phase = .spawned → t.work = .idle
  running : t.phase = .running → ∃ ok, t.work = .ended ok
  scheduled : t.aborted = true ∨ t.phase = .ended → t.removals ≠ []
  gone : .gone ∈ t.removals → t.Settled ∧ Clear dest fs
  kept : .left ∉ t.removals
  own : ∀ i, t.phase = .discarding i → t.removals ≠ []
  past : t.phase = .reporting ∨ (∃ i, t.phase = .discarding i) ∨
    t.phase = .ended ∧ t.aborted = false → t.work.still = true
  alone : t.aborted = false → t.removals ≠ [] → (∃ i, t.phase = .discarding i) ∨ t.phase = .ended

theorem Sound.spawn {dest : Path} {fs : Finset Path} (clear : Clear dest fs)
    (tree : List (String × Entry)) : Sound dest fs (Task.spawn tree) where
  within := trivial
  fresh := fun _ => clear
  spawned := fun _ => rfl
  running := fun running => absurd running (by simp [Task.spawn])
  scheduled := fun ended => absurd ended (by simp [Task.spawn])
  gone := fun member => absurd member (by simp [Task.spawn])
  kept := by simp [Task.spawn]
  own := fun i discarding => absurd discarding (by simp [Task.spawn])
  past := fun past => absurd past (by simp [Task.spawn])
  alone := fun _ some => absurd rfl some

theorem Sound.congr {dest : Path} {fs fs' : Finset Path} {t : Task} (sound : Sound dest fs t)
    (clear : Clear dest fs → Clear dest fs') : Sound dest fs' t where
  within := sound.within
  fresh := fun fresh => clear (sound.fresh fresh)
  spawned := sound.spawned
  running := sound.running
  scheduled := sound.scheduled
  gone := fun member => ⟨(sound.gone member).1, clear (sound.gone member).2⟩
  kept := sound.kept
  own := sound.own
  past := sound.past
  alone := sound.alone

theorem Task.Settled.of_settled {t t' : Task} (settled : t.Settled) (work : t'.work = t.work)
    (phase : t'.phase = t.phase) (aborted : t.aborted = true → t'.aborted = true)
    (polling : t.polling = false → t'.polling = false) : t'.Settled := by
  obtain ⟨still, idle, past⟩ := settled
  refine ⟨work ▸ still, phase ▸ idle, ?_⟩
  rw [phase]
  exact past.imp_right (And.imp aborted polling)

theorem mem_of_handed {removals : List Removal} {r : Removal}
    (member : r ∈ removals ++ [Removal.queued]) (other : r ≠ .queued) : r ∈ removals :=
  (List.mem_append.mp member).resolve_right fun new => other (List.mem_singleton.mp new)

theorem Sound.cancel {dest : Path} {fs : Finset Path} {t : Task} (sound : Sound dest fs t) :
    Sound dest fs t.cancel := by
  unfold Task.cancel
  split
  · exact
    { within := sound.within
      fresh := sound.fresh
      spawned := sound.spawned
      running := sound.running
      scheduled := fun _ => by simp
      gone := fun member => by
        have old := mem_of_handed member (by simp)
        exact ⟨(sound.gone old).1.of_settled rfl rfl (fun _ => rfl) id, (sound.gone old).2⟩
      kept := fun member => sound.kept (mem_of_handed member (by simp))
      own := fun _ _ => by simp
      past := fun past => sound.past (past.imp_right (Or.imp_right fun ended => by simp at ended))
      alone := fun live => absurd live (by simp) }
  · exact sound

theorem Sound.advance {dest : Path} {fs : Finset Path} {t : Task} (sound : Sound dest fs t)
    (polling : t.polling = true) : Sound dest fs t.advance := by
  have unsettled : ∀ {p : Phase}, t.phase = p → p = .spawned ∨ p = .materializing ∨ p = .running →
      ¬ t.Settled := by
    rintro p at_ early ⟨-, idle, past⟩
    rw [at_] at idle past
    rw [polling] at past
    rcases early with rfl | rfl | rfl <;> simp_all [Phase.past]
  have early : t.phase = .spawned ∨ t.phase = .materializing ∨ t.phase = .running →
      t.aborted = false → ¬ t.removals ≠ [] := by
    intro early live some
    rcases sound.alone live some with ⟨i, discarding⟩ | ended
    · simp [discarding] at early
    · simp [ended] at early
  have on : ∀ {p p' : Phase} (ok : Bool), t.phase = p → p = .materializing ∨ p = .running →
      t.work = .ended ok → p' = .running ∨ p' = .reporting →
      Sound dest fs { t with phase := p' } := by
    intro p p' ok at_ before made later
    exact
    { within := sound.within
      fresh := sound.fresh
      spawned := fun spawned => by rcases later with rfl | rfl <;> simp at spawned
      running := fun _ => ⟨ok, made⟩
      scheduled := fun ended => by
        refine sound.scheduled (ended.imp_right fun ended => ?_)
        rcases later with rfl | rfl <;> simp at ended
      gone := fun member => absurd (sound.gone member).1 (unsettled at_ (.inr before))
      kept := sound.kept
      own := fun i discarding => by rcases later with rfl | rfl <;> simp at discarding
      past := fun _ => by rw [made]; rfl
      alone := fun live some => absurd some (early (.inr (by rwa [at_])) live) }
  fun_cases Task.advance t with
  | case1 at_ =>
    exact
    { within := trivial
      fresh := fun _ => sound.fresh (by rw [sound.spawned at_]; rfl)
      spawned := fun spawned => absurd spawned (by simp)
      running := fun running => absurd running (by simp)
      scheduled := fun ended => sound.scheduled (.inl (ended.resolve_right (by simp)))
      gone := fun member => absurd (sound.gone member).1 (unsettled at_ (.inl rfl))
      kept := sound.kept
      own := fun i discarding => absurd discarding (by simp)
      past := fun past => absurd past (by simp)
      alone := fun live some => absurd some (early (.inl at_) live) }
  | case2 at_ made => exact on true at_ (.inl rfl) made (.inl rfl)
  | case3 at_ made => exact on false at_ (.inl rfl) made (.inr rfl)
  | case4 => exact sound
  | case5 at_ =>
    obtain ⟨ok, made⟩ := sound.running at_
    exact on ok at_ (.inr rfl) made (.inr rfl)
  | case6 at_ =>
    exact
    { within := sound.within
      fresh := sound.fresh
      spawned := fun spawned => absurd spawned (by simp)
      running := fun running => absurd running (by simp)
      scheduled := fun _ => by simp
      gone := fun member => by
        have old := mem_of_handed member (by simp)
        exact ⟨⟨(sound.gone old).1.1, by simp, .inl rfl⟩, (sound.gone old).2⟩
      kept := fun member => sound.kept (mem_of_handed member (by simp))
      own := fun _ _ => by simp
      past := fun _ => sound.past (.inl at_)
      alone := fun _ _ => .inl ⟨_, rfl⟩ }
  | case7 own at_ _ =>
    exact
    { within := sound.within
      fresh := sound.fresh
      spawned := fun spawned => absurd spawned (by simp)
      running := fun running => absurd running (by simp)
      scheduled := fun _ => sound.own own at_
      gone := fun member =>
        ⟨⟨(sound.gone member).1.1, by simp, .inl rfl⟩, (sound.gone member).2⟩
      kept := sound.kept
      own := fun i discarding => absurd discarding (by simp)
      past := fun _ => sound.past (.inr (.inl ⟨own, at_⟩))
      alone := fun _ _ => .inr rfl }
  | case8 => exact sound
  | case9 => exact sound

theorem Sound.mark {dest : Path} {fs : Finset Path} {t : Task} (sound : Sound dest fs t) (i : ℕ)
    {r : Removal} (kept : r ≠ .left) (gone : r = .gone → t.Settled ∧ Clear dest fs) :
    Sound dest fs (t.mark i r) where
  within := sound.within
  fresh := sound.fresh
  spawned := sound.spawned
  running := sound.running
  scheduled := fun closed none => sound.scheduled closed (by simpa [Task.mark] using none)
  gone := fun member => by
    rcases List.mem_or_eq_of_mem_set member with old | rfl
    · exact sound.gone old
    · exact gone rfl
  kept := fun member => by
    rcases List.mem_or_eq_of_mem_set member with old | same
    · exact sound.kept old
    · exact kept same.symm
  own := fun i discarding none => sound.own i discarding (by simpa [Task.mark] using none)
  past := sound.past
  alone := fun live some => sound.alone live fun none => some (by simp [Task.mark, none])

theorem Sound.copy {dest : Path} {fs fs' : Finset Path} {t : Task} {w : Work}
    (sound : Sound dest fs t) (called : Called dest t.work fs w fs') :
    Sound dest fs' { t with work := w } where
  within := called.within
  fresh := fun fresh => (called.fresh fresh).2 (sound.fresh (called.fresh fresh).1)
  spawned := fun spawned => by
    have idle := sound.spawned spawned
    rw [(called.still (by rw [idle]; rfl)).1, idle]
  running := fun running => by
    obtain ⟨ok, ended⟩ := sound.running running
    exact ⟨ok, by rw [(called.still (by rw [ended]; rfl)).1, ended]⟩
  scheduled := sound.scheduled
  gone := fun member => by
    obtain ⟨settled, clear⟩ := sound.gone member
    obtain ⟨rfl, rfl⟩ := called.still settled.1
    exact ⟨settled, clear⟩
  kept := sound.kept
  own := sound.own
  past := fun past => by
    have still := sound.past past
    rwa [(called.still still).1]
  alone := sound.alone

theorem Sound.job {dest : Path} {fs fs' : Finset Path} {t : Task} (sound : Sound dest fs t)
    (running : t.phase = .running) : Sound dest fs' t where
  within := sound.within
  fresh := fun fresh => by
    obtain ⟨ok, ended⟩ := sound.running running
    rw [ended] at fresh
    exact absurd fresh (by simp [Work.fresh])
  spawned := sound.spawned
  running := sound.running
  scheduled := sound.scheduled
  gone := fun member => absurd running (sound.gone member).1.2.1
  kept := sound.kept
  own := sound.own
  past := sound.past
  alone := sound.alone

/-- A removal of a step that has not been cancelled is its own, and comes after its copy. -/
theorem Sound.settled {dest : Path} {fs : Finset Path} {t : Task} (sound : Sound dest fs t)
    (live : t.aborted = false) (some : t.removals ≠ []) : t.Settled := by
  rcases sound.alone live some with ⟨i, discarding⟩ | ended
  · exact ⟨sound.past (.inr (.inl ⟨i, discarding⟩)), by simp [discarding],
      .inl (by rw [discarding]; rfl)⟩
  · exact ⟨sound.past (.inr (.inr ⟨ended, live⟩)), by simp [ended], .inl (by rw [ended]; rfl)⟩

/-- **Every act keeps what holds of the step, and changes the file system only as its work does.** -/
theorem Task.sound_act {dest : Path} (nonempty : dest ≠ []) {fs : Finset Path} {t : Task}
    (rooted : Rooted dest fs) (sound : Sound dest fs t) (a : Act)
    (orderly : t.Orderly dest fs a) :
    Sound dest (t.act dest fs a).2 (t.act dest fs a).1 ∧ Change dest fs (t.act dest fs a).2 := by
  cases a with
  | cancel => exact ⟨sound.cancel, .same⟩
  | enter =>
    simp only [Task.act]
    split
    · next live =>
      refine ⟨{ sound with gone := fun member => ?_ }, .same⟩
      obtain ⟨⟨still, idle, past⟩, clear⟩ := sound.gone member
      refine ⟨⟨still, idle, past.imp_right fun dropped => ?_⟩, clear⟩
      exact absurd dropped.1 (by simp [live.1])
    · exact ⟨sound, .same⟩
  | advance =>
    simp only [Task.act]
    split
    · next polling => exact ⟨sound.advance polling, .same⟩
    · exact ⟨sound, .same⟩
  | leave =>
    refine ⟨{ sound with gone := fun member => ?_ }, .same⟩
    exact ⟨(sound.gone member).1.of_settled rfl rfl id (fun _ => rfl), (sound.gone member).2⟩
  | drop =>
    simp only [Task.act]
    split
    · next dropped =>
      refine ⟨?_, .same⟩
      exact
      { within := sound.within
        fresh := sound.fresh
        spawned := fun spawned => absurd spawned (by simp)
        running := fun running => absurd running (by simp)
        scheduled := fun _ => sound.scheduled (.inl dropped.1)
        gone := fun member =>
          ⟨⟨(sound.gone member).1.1, by simp, .inl rfl⟩, (sound.gone member).2⟩
        kept := sound.kept
        own := fun i discarding => absurd discarding (by simp)
        past := fun past => absurd past (by simp [dropped.1])
        alone := fun _ _ => .inr rfl }
    · exact ⟨sound, .same⟩
  | copy outcome =>
    have called := Work.called nonempty t.tree fs outcome t.work sound.within
    exact ⟨sound.copy called, called.change⟩
  | begin i =>
    simp only [Task.act]
    split
    · exact ⟨sound.mark i (by simp) (by simp), .same⟩
    · exact ⟨sound, .same⟩
  | remove i path =>
    simp only [Task.act]
    split
    · next removes =>
      refine ⟨sound.congr fun clear p member => clear p (Finset.mem_of_mem_erase member), ?_⟩
      exact .removed path removes.2.1 removes.2.2
    · exact ⟨sound, .same⟩
  | finish i =>
    simp only [Task.act]
    split
    · next ends =>
      have settled : t.Settled := by
        cases aborted : t.aborted with
        | true => exact orderly ends.1 ends.2 aborted
        | false => exact sound.settled aborted (List.ne_nil_of_mem (List.mem_of_getElem? ends.1))
      exact ⟨sound.mark i (by simp) fun _ => ⟨settled, rooted.clear ends.2⟩, .same⟩
    · exact ⟨sound, .same⟩
  | giveUp i =>
    simp only [Task.act]
    split
    · next fails => exact absurd fails orderly
    · exact ⟨sound, .same⟩
  | makes path =>
    simp only [Task.act]
    split
    · next makes => exact ⟨sound.job makes.1, .made path makes.2.1 makes.2.2⟩
    · exact ⟨sound, .same⟩
  | unmakes path =>
    simp only [Task.act]
    split
    · next removes => exact ⟨sound.job removes.1, .removed path removes.2.1 removes.2.2⟩
    · exact ⟨sound, .same⟩

/-! ### The fleet -/

/-- What holds of every state of an orderly run. -/
structure Kept (workRoot : Path) (f : Fleet) : Prop where
  rooted : ∀ key, Rooted (workspacePath workRoot key) f.fs
  clear : ∀ key, f.tasks key = none → Clear (workspacePath workRoot key) f.fs
  sound : ∀ key t, f.tasks key = some t → Sound (workspacePath workRoot key) f.fs t

theorem new_clear (key : StepKey) : Clear (workspacePath workRoot key) (Fleet.new workRoot).fs := by
  intro p member below
  have short := ((List.mem_inits _ _).mp (List.mem_toFinset.mp member)).length_le
  have long := below.length_le
  rw [workspacePath_length] at long
  omega

theorem kept_new : Kept workRoot (Fleet.new workRoot) where
  rooted := fun key p member below => absurd below (new_clear key p member)
  clear := fun key _ => new_clear key
  sound := fun key t none => absurd none (by simp [Fleet.new])

/-- **Every step of the fleet keeps it.** -/
theorem kept_step (f : Fleet) (l : Event) (kept : Kept workRoot f)
    (orderly : Orderly workRoot f l) : Kept workRoot (f.step workRoot l) := by
  cases l with
  | assign key tree =>
    cases found : f.tasks key with
    | some t => simpa only [Fleet.step, found] using kept
    | none =>
      simp only [Fleet.step, found]
      refine ⟨kept.rooted, fun key' unassigned => ?_, fun key' t assigned => ?_⟩
      · by_cases same : key' = key
        · subst same
          exact kept.clear key' found
        · simp only [Function.update_of_ne same] at unassigned
          exact kept.clear key' unassigned
      · by_cases same : key' = key
        · subst same
          simp only [Function.update_self] at assigned
          obtain rfl := Option.some.inj assigned
          exact .spawn (kept.clear key' found) tree
        · simp only [Function.update_of_ne same] at assigned
          exact kept.sound key' t assigned
  | act key a =>
    cases found : f.tasks key with
    | none => simpa only [Fleet.step, found] using kept
    | some t =>
      have nonempty := workspacePath_ne_nil workRoot key
      obtain ⟨sound, change⟩ := Task.sound_act nonempty (kept.rooted key)
        (kept.sound key t found) a (orderly t found)
      have long : ∀ key', (workspacePath workRoot key).length =
          (workspacePath workRoot key').length := fun key' => by
        rw [workspacePath_length, workspacePath_length]
      have apart : ∀ {key'}, ¬ key' = key →
          workspacePath workRoot key ≠ workspacePath workRoot key' :=
        fun other same => other (workspacePath_injective same).symm
      simp only [Fleet.step, found]
      refine ⟨fun key' => ?_, fun key' unassigned => ?_, fun key' t' assigned => ?_⟩
      · by_cases same : key' = key
        · subst same
          exact change.rooted nonempty (kept.rooted key')
        · exact change.rooted_other nonempty (long key') (apart same) (kept.rooted key')
      · by_cases same : key' = key
        · subst same
          simp only [Function.update_self] at unassigned
          exact absurd unassigned (by simp)
        · simp only [Function.update_of_ne same] at unassigned
          exact change.clear nonempty (long key') (apart same) (kept.clear key' unassigned)
      · by_cases same : key' = key
        · subst same
          simp only [Function.update_self] at assigned
          obtain rfl := Option.some.inj assigned
          exact sound
        · simp only [Function.update_of_ne same] at assigned
          exact (kept.sound key' t' assigned).congr (change.clear nonempty (long key') (apart same))

/-- When everything has ended, some removal has, and it was the last to touch the workspace. -/
theorem Sound.swept {dest : Path} {fs : Finset Path} {t : Task} (sound : Sound dest fs t)
    (ended : t.Over) : dest ∉ fs := by
  obtain ⟨phase, -, removals⟩ := ended
  obtain ⟨r, member⟩ := List.exists_mem_of_ne_nil _ (sound.scheduled (.inr phase))
  have returned := removals r member
  cases r with
  | queued => simp [Removal.over] at returned
  | active => simp [Removal.over] at returned
  | gone => exact (sound.gone member).2.absent
  | left => exact absurd member sound.kept

/-- **No workspace outlives its step** in a run in which no removal fails and, after a cancel, none
ends before its step is settled. -/
theorem workspace_gone (workRoot : Path) (labels : List Event)
    (orderly : Along (Fleet.step workRoot) (Orderly workRoot) (Fleet.new workRoot) labels) (n : ℕ) :
    Swept workRoot (run (Fleet.step workRoot) (Fleet.new workRoot) (labels.take n)) := by
  rw [← List.take_append_drop n labels, along_append] at orderly
  have kept := run_invariant_along kept_step kept_new orderly.1
  exact fun key t assigned ended => (kept.sound key t assigned).swept ended

/-! ### Two runs -/

/-- A removal meets an error. -/
def Event.fails : Event → Bool
  | .act _ (.giveUp _) => true
  | _ => false

/-- A step that is cancelled once its copy has been handed to a thread. -/
def cancelled (key : StepKey) (tree : List (String × Entry)) : List Event :=
  [.assign key tree, .act key .enter, .act key .advance, .act key .leave, .act key .cancel,
    .act key .drop]

/-- A copy of one file, call by call. -/
def copyOne (key : StepKey) : List Event :=
  List.replicate 5 (.act key (.copy .ok))

/-- The removal that the cancel handed over. -/
def removeOne (key : StepKey) (paths : List Path) : List Event :=
  .act key (.begin 0) :: paths.map (fun path => .act key (.remove 0 path)) ++ [.act key (.finish 0)]

/-- The step of both runs. -/
def someKey : StepKey := ⟨"job_1", "step_1"⟩

/-- Its tree: one file. -/
def oneFile : List (String × Entry) := [("main.rs", .file)]

/-- The removal after the copy. -/
def removedLast : List Event :=
  cancelled someKey oneFile ++ copyOne someKey ++
    removeOne someKey [["work", "job_1", "step_1", "main.rs"], ["work", "job_1", "step_1"]]

/-- The removal first. -/
def removedFirst : List Event :=
  cancelled someKey oneFile ++ removeOne someKey [] ++ copyOne someKey

theorem workspace_gone_once : ["work", "job_1", "step_1"] ∉
    (run (Fleet.step ["work"]) (Fleet.new ["work"]) (removedLast.take 15)).fs := by
  have ended : ((run (Fleet.step ["work"]) (Fleet.new ["work"]) (removedLast.take 15)).tasks
      someKey).any (fun t => decide t.Over) = true := by
    decide +kernel
  obtain ⟨t, assigned, closed⟩ := (Option.any_eq_true _ _).mp ended
  exact workspace_gone ["work"] removedLast (by decide +kernel) 15 someKey t assigned
    (of_decide_eq_true closed)

/-- **A cancel whose removal runs first leaves the copy.** Everything has ended, no call failed, and
the whole copy is at the workspace. -/
theorem copied_after_discard : ¬ ∀ (workRoot : Path) (labels : List Event),
    (∀ l ∈ labels, l.fails = false) →
      Swept workRoot (run (Fleet.step workRoot) (Fleet.new workRoot) labels) := by
  intro all
  have ended : ((run (Fleet.step ["work"]) (Fleet.new ["work"]) removedFirst).tasks
      someKey).any (fun t => decide t.Over) = true := by
    decide +kernel
  have left : ["work", "job_1", "step_1"] ∈
      (run (Fleet.step ["work"]) (Fleet.new ["work"]) removedFirst).fs := by
    decide +kernel
  obtain ⟨t, assigned, closed⟩ := (Option.any_eq_true _ _).mp ended
  exact all ["work"] removedFirst (by decide) someKey t assigned (of_decide_eq_true closed) left

end HullCi.Server.Workspace
