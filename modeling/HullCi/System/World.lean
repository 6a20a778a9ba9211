/-
**A run of the control plane: many tasks over one state.**

A task is a stack of frames, the running one first. A label starts a task on a call from outside, or
lets one task take one step; a label that is not enabled leaves the world alone, so every list of
labels is a run. Job ids are drawn without repetition.

* `step_fires` — a step of a task replaces one frame of the bag of frames by those it pushes and
  spawns.
* `invariant`, `invariant_over` — what calls and fired frames keep holds in every state a run reaches.
-/

import HullCi.Base.Run
import HullCi.Base.Bag
import HullCi.System.Control

namespace HullCi.System

open HullCi.Proto HullCi.Base HullCi.Control

/-- The control plane, its tasks, the ids drawn so far, and what was observed. -/
structure World where
  control : Control
  tasks : List (List Frame) := []
  minted : List JobId := []
  history : List Obs := []

def World.init (config : ControlConfig) : World where
  control := .new config

/-- A call from outside. -/
inductive Call
  | accept (dispatch : Dispatch) (authorClass : AuthorClass) (now : Instant)
  | recordStepReport (report : StepReport) (fromNode : String)
  | renewLease (jobId : JobId) (stepId : StepId) (fromNode : String)

/-- The frame a call starts with. -/
def Call.frame : Call → Frame
  | .accept dispatch authorClass now => .accept ⟨dispatch, authorClass, now, .evict⟩
  | .recordStepReport report fromNode => .recordStepReport report fromNode
  | .renewLease jobId stepId fromNode => .renewLease jobId stepId fromNode

/-- What happens next. -/
inductive Label
  | call (call : Call)
  | run (task : ℕ) (env : Env)

/-- Some steps of one task, with ids of their own and otherwise one answer from outside. -/
def Label.steps (task first count : ℕ) (answers : Env → Env := id) : List Label :=
  (List.range count).map fun i => .run task (answers { proposed := toString (first + i) })

/-- A dispatch of one tree, answered to `url`. -/
def dispatchTo (url : String) : Dispatch :=
  { repo := "team/app", treeId := "tree", callbackUrl := url }

namespace World

/-- Every frame of every task. -/
def frames (w : World) : List Frame :=
  w.tasks.flatten

/-- The world after a frame's step: `tasks` are those left. -/
def after (w : World) (o : Outcome) (tasks : List (List Frame)) (minted : List JobId) : World where
  control := o.control
  tasks := tasks
  minted := minted
  history := w.history ++ o.observed

def step (w : World) : Label → World
  | .call call => { w with tasks := w.tasks ++ [[call.frame]] }
  | .run task env =>
    match w.tasks[task]? with
    | some (f :: rest) =>
      if env.proposed ∈ w.minted then w
      else
        let o := f.step env w.control
        w.after o (w.tasks.set task (o.push ++ rest) ++ o.spawned.map fun f => [f])
          (env.proposed :: w.minted)
    | _ => w

/-- The frame a label lets run, when it is enabled. -/
def running (w : World) : Label → Option (Frame × Env)
  | .run task env =>
    if env.proposed ∈ w.minted then none
    else (w.tasks[task]?.bind List.head?).map fun f => (f, env)
  | _ => none

/-- One frame of the bag runs, with the outcome `o`, and is replaced. -/
structure Fires (w : World) (env : Env) (f : Frame) (o : Outcome) (others : List Frame)
    (w' : World) : Prop where
  stepped : f.step env w.control = o
  frames : Replaces f (o.push ++ o.spawned) others w.frames w'.frames
  fresh : env.proposed ∉ w.minted
  control : w'.control = o.control
  minted : w'.minted = env.proposed :: w.minted
  history : w'.history = w.history ++ o.observed

theorem flatten_set_perm {tasks : List (List Frame)} {i : ℕ} {f : Frame} {rest : List Frame}
    (found : tasks[i]? = some (f :: rest)) :
    ∃ others, tasks.flatten.Perm (f :: others) ∧
      ∀ push, (tasks.set i (push ++ rest)).flatten.Perm (push ++ others) := by
  induction tasks generalizing i with
  | nil => cases found
  | cons t ts ih =>
    cases i with
    | zero =>
      obtain rfl := Option.some.inj found
      refine ⟨rest ++ ts.flatten, ?_, fun push => ?_⟩
      · exact List.Perm.refl _
      · show ((push ++ rest) ++ ts.flatten).Perm (push ++ (rest ++ ts.flatten))
        rw [List.append_assoc]
    | succ i =>
      obtain ⟨others, before, after⟩ := ih (i := i) found
      refine ⟨t ++ others, ?_, fun push => ?_⟩
      · exact (before.append_left t).trans List.perm_middle
      · show (t ++ (ts.set i (push ++ rest)).flatten).Perm (push ++ (t ++ others))
        refine ((after push).append_left t).trans ?_
        rw [← List.append_assoc, ← List.append_assoc]
        exact List.perm_append_comm.append_right others

theorem flatten_singletons (fs : List Frame) : (fs.map fun f => [f]).flatten = fs := by
  induction fs with
  | nil => rfl
  | cons f fs ih =>
    rw [List.map_cons, List.flatten_cons, ih]
    rfl

/-- **An enabled step of a task fires one frame.** -/
theorem step_fires {w : World} {task : ℕ} {env : Env} {f : Frame} {env' : Env}
    (runs : w.running (.run task env) = some (f, env')) :
    env' = env ∧ ∃ o others, Fires w env f o others (w.step (.run task env)) := by
  unfold running at runs
  dsimp only at runs
  by_cases used : env.proposed ∈ w.minted
  · rw [if_pos used] at runs
    cases runs
  · rw [if_neg used] at runs
    obtain ⟨f', top, same⟩ := Option.map_eq_some_iff.mp runs
    obtain ⟨rfl, rfl⟩ := Prod.mk.inj same
    obtain ⟨stack, found, first⟩ := Option.bind_eq_some_iff.mp top
    obtain ⟨rest, rfl⟩ : ∃ rest, stack = f' :: rest := by
      cases stack with
      | nil => cases first
      | cons g rest => exact ⟨rest, by rw [Option.some.inj first]⟩
    obtain ⟨others, before, after⟩ := flatten_set_perm found
    have stepped : w.step (.run task env) = w.after (f'.step env w.control)
        (w.tasks.set task ((f'.step env w.control).push ++ rest)
          ++ (f'.step env w.control).spawned.map fun f => [f]) (env.proposed :: w.minted) := by
      unfold step
      dsimp only
      rw [found]
      dsimp only
      rw [if_neg used]
    rw [stepped]
    refine ⟨rfl, _, others, rfl, ⟨before, ?_⟩, used, rfl, rfl, rfl⟩
    unfold World.after frames
    rw [List.flatten_append, flatten_singletons, List.append_assoc]
    refine ((after _).append_right _).trans ?_
    rw [List.append_assoc]
    exact List.perm_append_comm.append_left _

theorem step_still {w : World} {task : ℕ} {env : Env}
    (idle : w.running (.run task env) = none) : w.step (.run task env) = w := by
  unfold running at idle
  dsimp only at idle
  unfold step
  dsimp only
  cases found : w.tasks[task]? with
  | none => rfl
  | some stack =>
    cases stack with
    | nil => rfl
    | cons f rest =>
      dsimp only
      by_cases used : env.proposed ∈ w.minted
      · rw [if_pos used]
      · rw [if_neg used, found] at idle
        cases idle

theorem frames_call (w : World) (call : Call) :
    (w.step (.call call)).frames = w.frames ++ [call.frame] := by
  show (w.tasks ++ [[call.frame]]).flatten = _
  rw [List.flatten_append]
  rfl

section Fired

variable {w w' : World} {env : Env} {f : Frame} {o : Outcome} {others : List Frame}

theorem Fires.seen (fires : Fires w env f o others w') {x : Obs} :
    x ∈ w'.history ↔ x ∈ w.history ∨ x ∈ o.observed := by
  rw [fires.history, List.mem_append]

theorem Fires.drawn (fires : Fires w env f o others w') {j : JobId} (member : j ∈ w.minted) :
    j ∈ w'.minted := by
  rw [fires.minted]
  exact List.mem_cons_of_mem _ member

/-- What holds of the frames a step leaves, and stays true of the others, holds of every frame. -/
theorem Fires.all_frames {P Q : Frame → Prop} (fires : Fires w env f o others w')
    (all : ∀ g ∈ w.frames, P g) (keeps : ∀ g, P g → Q g) (new : ∀ g ∈ o.push ++ o.spawned, Q g) :
    ∀ g ∈ w'.frames, Q g := by
  intro g member
  rcases fires.frames.mem_after member with fresh | old
  · exact new g fresh
  · exact keeps g (all g old)

end Fired

/-- A condition on the frame that runs, read at the world before its step. -/
def Meets (C : World → Frame → Env → Prop) (w : World) (l : Label) : Prop :=
  ∀ p ∈ w.running l, C w p.1 p.2

instance {C : World → Frame → Env → Prop} [∀ w f env, Decidable (C w f env)] (w : World)
    (l : Label) : Decidable (Meets C w l) :=
  inferInstanceAs (Decidable (∀ p ∈ w.running l, _))

theorem fires_at {w : World} {labels : List Label} {n : ℕ} {l : Label} {f : Frame} {env : Env}
    (next : labels[n]? = some l)
    (enabled : (run step w (labels.take n)).running l = some (f, env)) :
    ∃ o others, Fires (run step w (labels.take n)) env f o others
      (run step w (labels.take (n + 1))) := by
  rw [run_take_succ next]
  cases l with
  | call call => cases enabled
  | run task env' =>
    obtain ⟨rfl, o, others, fires⟩ := step_fires enabled
    exact ⟨o, others, fires⟩

/-- **What calls and fired frames keep holds in every state a run reaches**, given what is known of
all its states. -/
theorem invariant_over {B I : World → Prop} {C : World → Frame → Env → Prop}
    (called : ∀ w call, I w → I (w.step (.call call)))
    (fired : ∀ w env f o others w', B w → I w → C w f env → Fires w env f o others w' → I w')
    {w : World} (known : ∀ labels, B (run step w labels)) (start : I w) {labels : List Label}
    (along : Along step (Meets C) w labels) : I (run step w labels) := by
  induction labels generalizing w with
  | nil => exact start
  | cons l labels ih =>
    refine ih (fun labels => known (l :: labels)) ?_ along.2
    cases l with
    | call call => exact called w call start
    | run task env =>
      cases runs : w.running (.run task env) with
      | none =>
        rw [step_still runs]
        exact start
      | some p =>
        obtain ⟨f, env'⟩ := p
        obtain ⟨rfl, o, others, fires⟩ := step_fires runs
        exact fired w env' f o others _ (known []) start (along.1 (f, env') runs) fires

theorem invariant {I : World → Prop} {C : World → Frame → Env → Prop}
    (called : ∀ w call, I w → I (w.step (.call call)))
    (fired : ∀ w env f o others w', I w → C w f env → Fires w env f o others w' → I w')
    {w : World} (start : I w) {labels : List Label} (along : Along step (Meets C) w labels) :
    I (run step w labels) :=
  invariant_over (B := fun _ => True) called (fun w env f o others w' _ => fired w env f o others w')
    (fun _ => trivial) start along

theorem invariant_always {I : World → Prop}
    (called : ∀ w call, I w → I (w.step (.call call)))
    (fired : ∀ w env f o others w', I w → Fires w env f o others w' → I w')
    {w : World} (start : I w) (labels : List Label) : I (run step w labels) := by
  have along : Along step (Meets fun _ _ _ => True) w labels :=
    along_iff.mpr fun _ _ _ _ _ => trivial
  exact invariant called (fun w env f o others w' holds _ => fired w env f o others w' holds) start
    along

end World

end HullCi.System
