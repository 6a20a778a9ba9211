/-
**Runners that share a daemon, and what each of them reaps.**

Every container a runner makes carries its label, whichever of the four ways it is made; a runner
that starts removes what has the label. The label is the runner's id after `sanitize_name`, which
is not injective.

* `runner_label_iff` — the one runner label of a command is its own runner's.
* `made_step`, `made_run` — so each container on the daemon is labelled for the runner that made it.
* `reaps_own_iff` — each runner reaps only its own, over every history, exactly when no two runner
  ids are sanitized to one name.
-/

import HullCi.Base.Run
import HullCi.Node.Container

namespace HullCi.Node.Container

open HullCi.Base

universe u v w

/-! ### The probes' containers -/

def probeImage : String := "alpine:3"

section Commands

variable {P : Type u} {F : Type v} (display : P → String) (cpu : CpuText F)

/-- The peer of the posture probe. -/
def peerCommand (config : ContainerConfig P) (proxy : ProxyNetwork) (name : String) : Command where
  runtime := config.runtime
  verb := "run"
  options :=
    [.flag "--detach",
      .value "--name" name,
      .value "--network" proxy.network,
      .label "hull-ci.probe" "peer",
      config.runnerLabel]
  ended := false
  target := probeImage
  arguments := ["nc", "-l", "-p", "8080"]

/-- The posture probe itself: what it is told, and its script. -/
def postureCommand (config : ContainerConfig P) (proxy : ProxyNetwork) (env : Env)
    (script : String) : Command where
  runtime := config.runtime
  verb := "run"
  options :=
    [.flag "--rm",
      .value "--network" proxy.network,
      .value "--cap-drop" "ALL",
      .value "--security-opt" "no-new-privileges",
      .value "--user" config.user,
      .label "hull-ci.probe" "posture",
      config.runnerLabel] ++
    (env.map fun e => .env e.1 e.2) ++
    [.value "--entrypoint" "/bin/sh"]
  ended := false
  target := probeImage
  arguments := ["-c", script]

/-- The ways a runner makes a container. -/
inductive Making (P : Type u) (F : Type v) where
  | job (spec : BoxSpec P F) (name entry : String) (arguments : List String)
  /-- A member for the jobs of this shape. -/
  | warm (spec : BoxSpec P F) (mountDir : P) (name idle : String) (arguments : List String)
  | peer (proxy : ProxyNetwork) (name : String)
  | posture (proxy : ProxyNetwork) (env : Env) (script : String)

def Making.command (config : ContainerConfig P) : Making P F → Command
  | .job spec name entry arguments => createCommand display cpu config spec name entry arguments
  | .warm spec mountDir name idle arguments =>
    let key := PoolKey.forJob cpu config spec
    createCommand display cpu key.containerConfig (key.shapeSpec cpu mountDir) name idle arguments
  | .peer proxy name => peerCommand config proxy name
  | .posture proxy env script => postureCommand config proxy env script

/-- The labels a container is made with. -/
def Command.labels (c : Command) : List (String × String) :=
  c.options.filterMap fun o => match o with
    | .label key text => some (key, text)
    | _ => none

theorem labels_create (config : ContainerConfig P) (spec : BoxSpec P F) (name entry : String)
    (arguments : List String) :
    (createCommand display cpu config spec name entry arguments).labels =
      [(runnerLabelKey, sanitizeName config.runnerId), ("hull-ci.job", spec.jobId),
        ("hull-ci.step", spec.stepId)] := by
  unfold Command.labels createCommand envOptions ContainerConfig.runnerLabel
  cases config.seccompProfile <;>
    simp [List.filterMap_append, List.filterMap_map]

/-- **The one runner label of a command is its own runner's.** -/
theorem runner_label_iff (config : ContainerConfig P) (making : Making P F) (text : String) :
    (runnerLabelKey, text) ∈ (making.command display cpu config).labels ↔
      text = sanitizeName config.runnerId := by
  have job : runnerLabelKey ≠ "hull-ci.job" := by decide
  have step : runnerLabelKey ≠ "hull-ci.step" := by decide
  have probe : runnerLabelKey ≠ "hull-ci.probe" := by decide
  cases making with
  | job spec name entry arguments =>
    show _ ∈ (createCommand _ _ _ _ _ _ _).labels ↔ _
    rw [labels_create]
    simp [job, step]
  | warm spec mountDir name idle arguments =>
    show _ ∈ (createCommand _ _ _ _ _ _ _).labels ↔ _
    rw [labels_create]
    simp [job, step, PoolKey.containerConfig, PoolKey.forJob]
  | peer proxy name =>
    simp [Making.command, Command.labels, peerCommand, ContainerConfig.runnerLabel, probe]
  | posture proxy env script =>
    simp [Making.command, Command.labels, postureCommand, ContainerConfig.runnerLabel, probe,
      List.filterMap_map]

end Commands

/-! ### The daemon -/

/-- A container, and the runner that made it. -/
structure Box (R : Type w) where
  id : ℕ
  labels : List (String × String)
  owner : R

structure Daemon (R : Type w) where
  next : ℕ
  containers : List (Box R)

inductive Event (R : Type w) (P : Type u) (F : Type v) where
  | make (runner : R) (making : Making P F)
  /-- A container has ended and is removed, or was removed by its runner. -/
  | gone (id : ℕ)
  /-- A runner reaps; the containers whose removal fails stay. -/
  | reap (runner : R) (fails : ℕ → Bool)

section History

variable {P : Type u} {F : Type v} {R : Type w} (display : P → String) (cpu : CpuText F)
  (configs : R → ContainerConfig P)

/-- The reaper's filter: an exact key and value. -/
def Box.carries (c : Box R) (config : ContainerConfig P) : Bool :=
  (runnerLabelKey, sanitizeName config.runnerId) ∈ c.labels

def Daemon.step (d : Daemon R) : Event R P F → Daemon R
  | .make runner making =>
    { next := d.next + 1
      containers := d.containers ++
        [⟨d.next, (making.command display cpu (configs runner)).labels, runner⟩] }
  | .gone id => { d with containers := d.containers.filter fun c => c.id ≠ id }
  | .reap runner fails =>
    { d with containers := d.containers.filter fun c => !c.carries (configs runner) || fails c.id }

def Daemon.new : Daemon R := ⟨0, []⟩

/-- What one runner reaps is its own, and what it made carries the label that it reaps. -/
structure ReapsOwn (d : Daemon R) : Prop where
  own : ∀ (runner : R) (fails : ℕ → Bool), ∀ c ∈ d.containers,
    c ∉ (d.step display cpu configs (.reap runner fails)).containers → c.owner = runner
  labelled : ∀ c ∈ d.containers, c.carries (configs c.owner) = true

/-- The one runner label of every container is its maker's. -/
def Made (d : Daemon R) : Prop :=
  ∀ c ∈ d.containers, ∀ text, (runnerLabelKey, text) ∈ c.labels ↔
    text = sanitizeName (configs c.owner).runnerId

theorem made_step (d : Daemon R) (e : Event R P F) (made : Made configs d) :
    Made configs (d.step display cpu configs e) := by
  cases e with
  | make runner making =>
    intro c member
    rcases List.mem_append.mp member with old | new
    · exact made c old
    · obtain rfl := List.mem_singleton.mp new
      exact runner_label_iff display cpu (configs runner) making
  | gone id => exact fun c member => made c (List.mem_filter.mp member).1
  | reap runner fails => exact fun c member => made c (List.mem_filter.mp member).1

/-- **Each container on the daemon is labelled for the runner that made it**, after any history. -/
theorem made_run (events : List (Event R P F)) :
    Made configs (run (Daemon.step display cpu configs) Daemon.new events) :=
  run_invariant (made_step display cpu configs) (fun _ member => absurd member List.not_mem_nil)
    events

variable {display cpu configs}

theorem carries_iff {d : Daemon R} (made : Made configs d) {c : Box R}
    (member : c ∈ d.containers) (runner : R) : c.carries (configs runner) = true ↔
      sanitizeName (configs runner).runnerId = sanitizeName (configs c.owner).runnerId := by
  unfold Box.carries
  rw [decide_eq_true_eq]
  exact made c member _

theorem carries_of_reaped {d : Daemon R} {runner : R} {fails : ℕ → Bool} {c : Box R}
    (member : c ∈ d.containers)
    (gone : c ∉ (d.step display cpu configs (.reap runner fails)).containers) :
    c.carries (configs runner) = true := by
  by_contra other
  rw [Bool.not_eq_true] at other
  exact gone (List.mem_filter.mpr ⟨member, by rw [other]; rfl⟩)

/-- Runners that reap only their own have labels of their own. -/
theorem apart_of_reaps_own (display : P → String) (cpu : CpuText F)
    (configs : R → ContainerConfig P)
    (all : ∀ events : List (Event R P F), ReapsOwn display cpu configs
      (run (Daemon.step display cpu configs) Daemon.new events)) {runner runner' : R}
    (apart : runner ≠ runner') :
    sanitizeName (configs runner).runnerId ≠ sanitizeName (configs runner').runnerId := by
  intro same
  -- the other runner starts its probe's peer, and the first one starts
  let peer : Event R P F := .make runner' (.peer ⟨"", "", none⟩ "")
  have reaps := all [peer]
  have made := made_run display cpu configs [peer]
  let c : Box R := ⟨0, (peerCommand (configs runner') ⟨"", "", none⟩ "").labels, runner'⟩
  have member : c ∈ (run (Daemon.step display cpu configs) Daemon.new [peer]).containers :=
    List.mem_singleton.mpr rfl
  have carries := (carries_iff made member runner).mpr same
  refine apart (reaps.own runner (fun _ => false) c member ?_).symm
  intro stays
  have kept := (List.mem_filter.mp stays).2
  rw [carries] at kept
  cases kept

/-- **Each runner reaps only its own, over every history, exactly when no two runner ids are
sanitized to one name.** -/
theorem reaps_own_iff (display : P → String) (cpu : CpuText F) (configs : R → ContainerConfig P) :
    (∀ events : List (Event R P F), ReapsOwn display cpu configs
        (run (Daemon.step display cpu configs) Daemon.new events)) ↔
      ∀ runner runner', runner ≠ runner' →
        sanitizeName (configs runner).runnerId ≠ sanitizeName (configs runner').runnerId := by
  constructor
  · exact fun all _ _ => apart_of_reaps_own display cpu configs all
  · intro apart events
    have made := made_run display cpu configs events
    refine ⟨fun runner fails c member gone => ?_, fun c member => ?_⟩
    · have same := (carries_iff made member runner).mp (carries_of_reaped member gone)
      by_contra other
      exact apart runner c.owner (Ne.symm other) same
    · exact (carries_iff made member c.owner).mpr rfl

/-- **Two ids, one label**: `ci/a` and `ci-a` are different runners and reap each other. -/
theorem two_ids_one_label : ¬ ∀ configs : Bool → ContainerConfig String,
    (∀ runner runner', runner ≠ runner' → (configs runner).runnerId ≠ (configs runner').runnerId) →
      ∀ events : List (Event Bool String Unit), ReapsOwn id ⟨fun _ => "2.00", fun _ => some (), ()⟩
        configs (run (Daemon.step id ⟨fun _ => "2.00", fun _ => some (), ()⟩ configs) Daemon.new
          events) := by
  intro all
  let configs : Bool → ContainerConfig String := fun runner =>
    ⟨"docker", .none, "65534:65534", none, if runner then "ci/a" else "ci-a"⟩
  have different : ∀ runner runner', runner ≠ runner' →
      (configs runner).runnerId ≠ (configs runner').runnerId := by decide
  have apart := apart_of_reaps_own id ⟨fun _ => "2.00", fun _ => some (), ()⟩ configs
    (all configs different) (show true ≠ false by decide)
  exact apart (by decide)

end History

end HullCi.Node.Container
