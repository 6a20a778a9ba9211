/-
**The commands that make containers, and the key of a warm one.**

A job's container is made for it, or was made before it from a `PoolKey`, whose parts go back into a
configuration and a spec with a hole where the job will be. Both are the same `create`; what a warm
member could not know arrives with the `exec`.

* `createCommand`, `execCommand` — the options in the order the source pushes them.
* `fixed_create` — what a `create` decides without the job is a function of the key.
* `forJob_member` — and the key of a member's own configuration and spec is the key it was made of.
* `warm_equals_cold` — a member and the job's own container differ only in what the job varies, and
  the `exec` brings the rest.

`f32` and its text are a parameter (`CpuText`), as is the text of a path.
-/

import HullCi.Node.Env

namespace HullCi.Node.Container

universe u v

/-! ### Configuration -/

/-- What was observed about a sandbox network. -/
structure NetworkPosture where
  declaredInternal : Bool
  noDefaultRoute : Bool
  publicIpUnreachable : Bool
  publicDnsUnresolvable : Bool
  metadataUnreachable : Bool
  proxyReachable : Bool
  peerUnreachable : Bool
  cannotAddRoute : Bool
  gatewayPortsOpen : List ℕ
  failure : Option String
  deriving DecidableEq, Repr

structure ProxyNetwork where
  network : String
  endpoint : String
  posture : Option NetworkPosture
  deriving DecidableEq, Repr

inductive NetworkMode where
  | none
  | named (network : String)
  | proxyOnly (proxy : ProxyNetwork)
  deriving DecidableEq, Repr

/-- The fields of a `ContainerConfig` that a command is built from. -/
structure ContainerConfig (P : Type u) where
  runtime : String
  network : NetworkMode
  user : String
  seccompProfile : Option P
  runnerId : String
  deriving DecidableEq, Repr

/-- `format!("{:.2}")` of an `f32`, and reading it back. -/
structure CpuText (F : Type v) where
  render : F → String
  parse : String → Option F
  zero : F

/-- Rendered, read and rendered again: the same text. -/
def CpuText.Stable {F : Type v} (cpu : CpuText F) : Prop :=
  ∀ x, cpu.render ((cpu.parse (cpu.render x)).getD cpu.zero) = cpu.render x

structure ResourceLimits (F : Type v) where
  cpus : F
  memoryBytes : ℕ
  pids : ℕ
  tmpfsBytes : ℕ
  diskBytes : ℕ
  deriving DecidableEq, Repr

/-- What a box is made for. -/
structure BoxSpec (P : Type u) (F : Type v) extends SandboxSpec where
  jobId : String
  stepId : String
  image : String
  workspace : P
  workdir : String
  limits : ResourceLimits F

def sanitizeChar (c : Char) : Char :=
  if c.isAlphanum || c == '-' || c == '_' || c == '.' then c else '-'

/-- `sanitize_name`: 48 characters at most, each of `[A-Za-z0-9_.-]`. -/
def sanitizeName (name : String) : String :=
  let s := (name.toList.map sanitizeChar).take 48
  if s.isEmpty then "job" else String.ofList s

def runnerLabelKey : String := "hull-ci.runner"

/-! ### Commands -/

/-- One option of the runtime's command line. -/
inductive Opt where
  | flag (name : String)
  | value (name text : String)
  | mount (source target : String)
  | env (name text : String)
  /-- By name only: the runtime copies it out of its own environment. -/
  | envFrom (name : String)
  | label (key text : String)
  deriving DecidableEq, Repr

def Opt.render : Opt → List String
  | .flag name => [name]
  | .value name text => [name, text]
  | .mount source target => ["--mount", "type=bind,source=" ++ source ++ ",target=" ++ target]
  | .env name text => ["--env", name ++ "=" ++ text]
  | .envFrom name => ["--env", name]
  | .label key text => ["--label", key ++ "=" ++ text]

/-- A call of the runtime's CLI: its options, what they are about, and what follows. -/
structure Command where
  runtime : String
  verb : String
  options : List Opt
  /-- the options are ended by `--` -/
  ended : Bool
  target : String
  arguments : List String
  deriving DecidableEq, Repr

def Command.argv (c : Command) : List String :=
  [c.runtime, c.verb] ++ c.options.flatMap Opt.render ++ (if c.ended then ["--"] else []) ++
    c.target :: c.arguments

def networkName : NetworkMode → String
  | .none => "none"
  | .named network => network
  | .proxyOnly proxy => proxy.network

/-- `ContainerConfig::runner_label`, as an option and as the reaper's filter. -/
def ContainerConfig.runnerLabel {P : Type u} (config : ContainerConfig P) : Opt :=
  .label runnerLabelKey (sanitizeName config.runnerId)

variable {P : Type u} {F : Type v} (display : P → String) (cpu : CpuText F)

/-- The environment options: the allowlist by value, the delivered secrets by name. -/
def envOptions (spec : SandboxSpec) : List Opt :=
  (spec.env.map fun e => .env e.1 e.2) ++ spec.secretNames.map .envFrom

/-- The `create` of a box that runs `entry` with `arguments`. -/
def createCommand (config : ContainerConfig P) (spec : BoxSpec P F) (name entry : String)
    (arguments : List String) : Command where
  runtime := config.runtime
  verb := "create"
  options :=
    [.value "--name" name,
      .value "--user" config.user,
      .flag "--read-only",
      .value "--tmpfs" ("/tmp:rw,noexec,nosuid,nodev,size=" ++ toString spec.limits.tmpfsBytes),
      .value "--cap-drop" "ALL",
      .value "--security-opt" "no-new-privileges",
      .value "--cpus" (cpu.render spec.limits.cpus),
      .value "--memory" (toString spec.limits.memoryBytes),
      .value "--pids-limit" (toString spec.limits.pids)] ++
    (config.seccompProfile.toList.map fun p => .value "--security-opt" ("seccomp=" ++ display p)) ++
    [.value "--network" (networkName config.network),
      .mount (display spec.workspace) spec.workdir,
      .value "--workdir" spec.workdir] ++
    envOptions spec.toSandboxSpec ++
    [.flag "--rm",
      config.runnerLabel,
      .label "hull-ci.job" spec.jobId,
      .label "hull-ci.step" spec.stepId,
      .value "--entrypoint" entry]
  ended := true
  target := spec.image
  arguments := arguments

/-- `create_argv`: it indexes the argv at 0, and stops the program on an empty one. -/
def createArgv (config : ContainerConfig P) (spec : BoxSpec P F) (name : String) :
    List String → Option (List String)
  | [] => none
  | entry :: arguments => some (createCommand display cpu config spec name entry arguments).argv

/-- The `exec` into a member. -/
def execCommand (config : ContainerConfig P) (spec : BoxSpec P F) (name : String)
    (argv : List String) : Command where
  runtime := config.runtime
  verb := "exec"
  options := .value "--workdir" spec.workdir :: envOptions spec.toSandboxSpec
  ended := true
  target := name
  arguments := argv

def execArgv (config : ContainerConfig P) (spec : BoxSpec P F) (name : String)
    (argv : List String) : List String :=
  (execCommand config spec name argv).argv

/-! ### The key -/

inductive NetworkIdentity where
  | none
  | named (network : String)
  | proxyOnly (network endpoint : String) (posture : Option NetworkPosture)
  deriving DecidableEq, Repr

/-- The ceilings as the daemon reads them. -/
structure LimitsKey where
  cpus : String
  memoryBytes : ℕ
  pids : ℕ
  tmpfsBytes : ℕ
  deriving DecidableEq, Repr

/-- All that must be identical for two sandboxes to be interchangeable, and the recipe of one. -/
structure PoolKey (P : Type u) where
  runtime : String
  runnerId : String
  user : String
  seccompProfile : Option P
  network : NetworkIdentity
  image : String
  workdir : String
  limits : LimitsKey
  deriving DecidableEq, Repr

def LimitsKey.of (limits : ResourceLimits F) : LimitsKey where
  cpus := cpu.render limits.cpus
  memoryBytes := limits.memoryBytes
  pids := limits.pids
  tmpfsBytes := limits.tmpfsBytes

def LimitsKey.toLimits (limits : LimitsKey) : ResourceLimits F where
  cpus := (cpu.parse limits.cpus).getD cpu.zero
  memoryBytes := limits.memoryBytes
  pids := limits.pids
  tmpfsBytes := limits.tmpfsBytes
  diskBytes := 0

namespace PoolKey

def forJob (config : ContainerConfig P) (spec : BoxSpec P F) : PoolKey P where
  runtime := config.runtime
  runnerId := config.runnerId
  user := config.user
  seccompProfile := config.seccompProfile
  network :=
    match config.network with
    | .none => .none
    | .named network => .named network
    | .proxyOnly proxy => .proxyOnly proxy.network proxy.endpoint proxy.posture
  image := spec.image
  workdir := spec.workdir
  limits := .of cpu spec.limits

def networkMode (key : PoolKey P) : NetworkMode :=
  match key.network with
  | .none => .none
  | .named network => .named network
  | .proxyOnly network endpoint posture => .proxyOnly ⟨network, endpoint, posture⟩

def containerConfig (key : PoolKey P) : ContainerConfig P where
  runtime := key.runtime
  network := key.networkMode
  user := key.user
  seccompProfile := key.seccompProfile
  runnerId := key.runnerId

/-- The spec of a member: the key's shape, nobody's environment, and a directory for the job. -/
def shapeSpec (key : PoolKey P) (mountDir : P) : BoxSpec P F where
  env := []
  brokerAuthorised := []
  secretEnv := []
  jobId := "warm-pool"
  stepId := "unclaimed"
  image := key.image
  workspace := mountDir
  workdir := key.workdir
  limits := key.limits.toLimits cpu

end PoolKey

/-! ### What a job varies -/

/-- An option without what the job varies: the name, the source of the mount, the environment, the
labels of the job and the step, the entrypoint. -/
def Opt.fixed : Opt → Option Opt
  | .value name text => if name ∈ ["--name", "--entrypoint"] then none else some (.value name text)
  | .mount _ target => some (.mount "" target)
  | .env _ _ => none
  | .envFrom _ => none
  | .label key text =>
    if key ∈ ["hull-ci.job", "hull-ci.step"] then none else some (.label key text)
  | .flag name => some (.flag name)

/-- A command without what the job varies, its arguments among that. -/
def Command.fixed (c : Command) : Command :=
  { c with options := c.options.filterMap Opt.fixed, arguments := [] }

def Opt.isEnv : Opt → Bool
  | .env _ _ => true
  | .envFrom _ => true
  | _ => false

/-- The environment options of a command, in their order. -/
def Command.envs (c : Command) : List Opt :=
  c.options.filter Opt.isEnv

/-- The values of an option. -/
def Command.valuesOf (c : Command) (name : String) : List String :=
  c.options.filterMap fun o => match o with
    | .value n text => if n = name then some text else none
    | _ => none

/-- The program a command runs, with its arguments. -/
def Command.program (c : Command) : List String :=
  c.valuesOf "--entrypoint" ++ c.arguments

theorem fixed_envOptions (spec : SandboxSpec) : (envOptions spec).filterMap Opt.fixed = [] := by
  unfold envOptions
  rw [List.filterMap_append, List.filterMap_map, List.filterMap_map]
  simp [Function.comp_def, Opt.fixed]

theorem isEnv_envOptions (spec : SandboxSpec) :
    (envOptions spec).filter Opt.isEnv = envOptions spec := by
  rw [List.filter_eq_self]
  intro o member
  unfold envOptions at member
  rcases List.mem_append.mp member with plain | secret
  · obtain ⟨e, -, rfl⟩ := List.mem_map.mp plain
    rfl
  · obtain ⟨n, -, rfl⟩ := List.mem_map.mp secret
    rfl

theorem values_envOptions (spec : SandboxSpec) (name : String) :
    ((envOptions spec).filterMap fun o => match o with
      | .value n text => if n = name then some text else none
      | _ => none) = [] := by
  unfold envOptions
  rw [List.filterMap_append, List.filterMap_map, List.filterMap_map]
  simp

/-- **The key's own command**: what a `create` decides without the job. -/
def PoolKey.recipe (key : PoolKey P) : Command where
  runtime := key.runtime
  verb := "create"
  options :=
    [.value "--user" key.user,
      .flag "--read-only",
      .value "--tmpfs" ("/tmp:rw,noexec,nosuid,nodev,size=" ++ toString key.limits.tmpfsBytes),
      .value "--cap-drop" "ALL",
      .value "--security-opt" "no-new-privileges",
      .value "--cpus" key.limits.cpus,
      .value "--memory" (toString key.limits.memoryBytes),
      .value "--pids-limit" (toString key.limits.pids)] ++
    (key.seccompProfile.toList.map fun p => .value "--security-opt" ("seccomp=" ++ display p)) ++
    [.value "--network" (networkName key.networkMode),
      .mount "" key.workdir,
      .value "--workdir" key.workdir,
      .flag "--rm",
      .label runnerLabelKey (sanitizeName key.runnerId)]
  ended := true
  target := key.image
  arguments := []

theorem networkName_forJob (config : ContainerConfig P) (spec : BoxSpec P F) :
    networkName (PoolKey.forJob cpu config spec).networkMode = networkName config.network := by
  unfold PoolKey.forJob PoolKey.networkMode
  cases config.network <;> rfl

/-- **What a `create` decides without the job is its key's recipe.** -/
theorem fixed_create (config : ContainerConfig P) (spec : BoxSpec P F) (name entry : String)
    (arguments : List String) :
    (createCommand display cpu config spec name entry arguments).fixed =
      (PoolKey.forJob cpu config spec).recipe display := by
  have profile : (config.seccompProfile.toList.map fun p =>
      (Opt.value "--security-opt" ("seccomp=" ++ display p))).filterMap Opt.fixed =
        config.seccompProfile.toList.map fun p =>
          Opt.value "--security-opt" ("seccomp=" ++ display p) := by
    cases config.seccompProfile with
    | none => rfl
    | some p => simp [Opt.fixed]
  unfold Command.fixed createCommand PoolKey.recipe
  rw [networkName_forJob]
  congr 1
  simp [List.filterMap_append, profile, fixed_envOptions, Opt.fixed, PoolKey.forJob, LimitsKey.of,
    ContainerConfig.runnerLabel, runnerLabelKey]

theorem toLimits_of {cpu : CpuText F} (stable : cpu.Stable) (limits : ResourceLimits F) :
    LimitsKey.of cpu ((LimitsKey.of cpu limits).toLimits cpu) = LimitsKey.of cpu limits := by
  unfold LimitsKey.of LimitsKey.toLimits
  dsimp only
  rw [stable]

/-- **The key of a member's own configuration and spec is the key it was made from.** -/
theorem forJob_member {cpu : CpuText F} (stable : cpu.Stable) (config : ContainerConfig P)
    (spec : BoxSpec P F) (mountDir : P) :
    PoolKey.forJob cpu (PoolKey.forJob cpu config spec).containerConfig
      ((PoolKey.forJob cpu config spec).shapeSpec cpu mountDir) =
      PoolKey.forJob cpu config spec := by
  have limits := toLimits_of stable spec.limits
  obtain ⟨runtime, network, user, profile, runnerId⟩ := config
  unfold PoolKey.forJob PoolKey.containerConfig PoolKey.networkMode PoolKey.shapeSpec
  dsimp only
  rw [limits]
  cases network <;> rfl

theorem envs_create (config : ContainerConfig P) (spec : BoxSpec P F) (name entry : String)
    (arguments : List String) :
    (createCommand display cpu config spec name entry arguments).envs =
      envOptions spec.toSandboxSpec := by
  have profile : (config.seccompProfile.toList.map fun p =>
      (Opt.value "--security-opt" ("seccomp=" ++ display p))).filter Opt.isEnv = [] := by
    cases config.seccompProfile <;> rfl
  unfold Command.envs createCommand
  simp only [List.filter_append, profile, isEnv_envOptions]
  show [] ++ [] ++ [] ++ envOptions spec.toSandboxSpec ++ [] = _
  rw [List.append_nil, List.append_nil, List.append_nil, List.nil_append]

/-- **Warm equals cold.** -/
theorem warm_equals_cold (display : P → String) (cpu : CpuText F) (stable : cpu.Stable)
    (config : ContainerConfig P) (spec : BoxSpec P F) (mountDir : P) :
    let key := PoolKey.forJob cpu config spec
    (∀ name entry arguments member idle idleArguments,
      (createCommand display cpu key.containerConfig (key.shapeSpec cpu mountDir) member idle
          idleArguments).fixed =
        (createCommand display cpu config spec name entry arguments).fixed) ∧
    (∀ (config' : ContainerConfig P) (spec' : BoxSpec P F),
      PoolKey.forJob cpu config' spec' = key →
        ∀ name entry arguments name' entry' arguments',
          (createCommand display cpu config' spec' name' entry' arguments').fixed =
            (createCommand display cpu config spec name entry arguments).fixed) ∧
    ∀ name entry arguments member,
      let cold := createCommand display cpu config spec name entry arguments
      let exec := execCommand key.containerConfig spec member (entry :: arguments)
      exec.envs = cold.envs ∧ exec.valuesOf "--workdir" = cold.valuesOf "--workdir" ∧
        exec.program = cold.program := by
  intro key
  refine ⟨?member, ?equal, ?exec⟩
  case member =>
    intro name entry arguments member idle idleArguments
    rw [fixed_create, fixed_create, forJob_member stable]
  case equal =>
    intro config' spec' same name entry arguments name' entry' arguments'
    rw [fixed_create, fixed_create, same]
  case exec =>
    intro name entry arguments member cold exec
    have profile : ∀ option, option ≠ "--security-opt" →
        ((config.seccompProfile.toList.map fun p =>
          (Opt.value "--security-opt" ("seccomp=" ++ display p))).filterMap fun o => match o with
            | .value n text => if n = option then some text else none
            | _ => none) = [] := by
      intro option other
      cases config.seccompProfile with
      | none => rfl
      | some p => simp [Ne.symm other]
    refine ⟨?_, ?_, ?_⟩
    · rw [envs_create]
      unfold Command.envs exec execCommand
      rw [List.filter_cons_of_neg (by simp [Opt.isEnv]), isEnv_envOptions]
    · unfold Command.valuesOf exec cold execCommand createCommand
      simp only [List.filterMap_append, List.filterMap_cons, values_envOptions,
        profile "--workdir" (by decide)]
      rfl
    · unfold Command.program Command.valuesOf exec cold execCommand createCommand
      simp only [List.filterMap_append, List.filterMap_cons, values_envOptions,
        profile "--entrypoint" (by decide)]
      rfl

/-- The default job on a node with no network: two CPUs, rendered `2.00`. -/
theorem warm_equals_cold_default :
    let cpu : CpuText Unit := ⟨fun _ => "2.00", fun _ => some (), ()⟩
    let config : ContainerConfig String := ⟨"docker", .none, "65534:65534", none, "hull-ci-node-0"⟩
    let spec : BoxSpec String Unit :=
      { env := [("CI", "true")], brokerAuthorised := [], secretEnv := [], jobId := "job-1",
        stepId := "step-1", image := "hull-ci/base:1", workspace := "/work/1",
        workdir := "/workspace",
        limits := ⟨(), 4294967296, 2048, 1073741824, 0⟩ }
    let key := PoolKey.forJob cpu config spec
    (createCommand id cpu key.containerConfig (key.shapeSpec cpu "/pool/warm-1") "hull-ci-warm-1"
        "/bin/sleep" ["2147483647"]).fixed =
      (createCommand id cpu config spec "hull-ci-job-1-1" "cargo" ["test"]).fixed := by
  intro cpu config spec key
  exact (warm_equals_cold id cpu (fun _ => rfl) config spec "/pool/warm-1").1 "hull-ci-job-1-1"
    "cargo"
    ["test"] "hull-ci-warm-1" "/bin/sleep" ["2147483647"]

end HullCi.Node.Container
