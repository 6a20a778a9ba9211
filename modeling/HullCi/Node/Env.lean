/-
**The environments of a sandbox: the job's, and the runtime's own.**

The job's environment is built from a literal list. Values that must not appear on a command line
travel by name only: the runtime CLI copies them out of its own environment, where a later entry
overrides an earlier one.

* `get_append` — the later list wins.
* `get_of_nodup` — with distinct names, every entry is read back.
* `names_envVars` — which variables a package grant can set.
-/

import HullCi.Secrets.Broker

namespace HullCi.Node

open HullCi.Secrets (Bytes asBytes DeliveredSecrets)

/-- A single environment entry. -/
abbrev EnvVar := String × String

/-- The entries of an environment, in the order they are set. -/
abbrev Env := List EnvVar

namespace Env

def names (env : Env) : List String :=
  env.map Prod.fst

/-- What a process sees of a variable: the last entry under its name. -/
def get (env : Env) (name : String) : Option String :=
  (env.reverse.find? fun e => e.1 = name).map Prod.snd

theorem get_append (env more : Env) (name : String) :
    get (env ++ more) name = (get more name).or (get env name) := by
  unfold get
  rw [List.reverse_append, List.find?_append]
  cases more.reverse.find? fun e => e.1 = name <;> rfl

theorem get_eq_none {env : Env} {name : String} : env.get name = none ↔ name ∉ env.names := by
  unfold get names
  rw [Option.map_eq_none_iff, List.find?_eq_none]
  simp only [List.mem_reverse, decide_eq_true_eq, List.mem_map, not_exists, not_and]

theorem mem_of_get {env : Env} {name value : String} (found : env.get name = some value) :
    (name, value) ∈ env := by
  obtain ⟨e, there, same⟩ := Option.map_eq_some_iff.mp found
  have named : e.1 = name := by simpa using List.find?_some there
  have member := List.mem_reverse.mp (List.mem_of_find?_eq_some there)
  rw [← named, ← same]
  exact member

/-- **With distinct names, every entry is read back.** -/
theorem get_of_nodup {env : Env} (distinct : env.names.Nodup) {name value : String}
    (member : (name, value) ∈ env) : env.get name = some value := by
  cases found : env.get name with
  | none => exact absurd (List.mem_map_of_mem member) (get_eq_none.mp found)
  | some value' =>
    have same := List.inj_on_of_nodup_map distinct member (mem_of_get found) rfl
    rw [(Prod.mk.inj same).2]

theorem get_filterMap (names : List String) (value : String → Option String) {name : String}
    (listed : name ∈ names) :
    get (names.filterMap fun n => (value n).map fun v => (n, v)) name = value name := by
  cases found : get (names.filterMap fun n => (value n).map fun v => (n, v)) name with
  | none =>
    cases here : value name with
    | none => rfl
    | some v =>
      have copied : (name, v) ∈ names.filterMap fun n => (value n).map fun v => (n, v) :=
        List.mem_filterMap.mpr ⟨name, listed, by rw [here]; rfl⟩
      exact absurd (List.mem_map_of_mem copied) (get_eq_none.mp found)
  | some v =>
    obtain ⟨n, -, made⟩ := List.mem_filterMap.mp (mem_of_get found)
    obtain ⟨v', here, same⟩ := Option.map_eq_some_iff.mp made
    obtain ⟨rfl, rfl⟩ := Prod.mk.inj same
    exact here.symm

end Env

/-! ### The job's base environment -/

/-- The path a sandboxed job sees. -/
def sandboxPath : String :=
  "/usr/local/sbin:/usr/local/bin:/usr/sbin:/usr/bin:/sbin:/bin"

/-- The base environment every job gets. -/
def baseEnvWithPath (home path : String) : Env :=
  [("PATH", path), ("HOME", home), ("LANG", "C.UTF-8"), ("CI", "true"), ("TMPDIR", "/tmp")]

/-! ### Package access -/

/-- A job's package-proxy endpoint, as the sandbox sees it. -/
structure JobProxyEndpoint where
  baseUrl : String
  grant : String
  deriving DecidableEq, Repr

namespace JobProxyEndpoint

/-- The job-facing URL for one upstream label. -/
def upstreamUrl (endpoint : JobProxyEndpoint) (label : String) : String :=
  endpoint.baseUrl ++ "/j/" ++ endpoint.grant ++ "/u/" ++ label ++ "/"

/-- A text without the mark it begins with. -/
def afterMark (mark s : String) : Option (List Char) :=
  if mark.toList.isPrefixOf s.toList then some (s.toList.drop mark.toList.length) else none

/-- Host and port of the endpoint. -/
def host (endpoint : JobProxyEndpoint) : Option String :=
  ((afterMark "http://" endpoint.baseUrl).or (afterMark "https://" endpoint.baseUrl)).map
    fun rest => String.ofList (rest.takeWhile (· ≠ '/'))

/-- Environment variables for the ecosystems that are configured. -/
def envVars (endpoint : JobProxyEndpoint) (labels : List String) : Env :=
  (if "npm" ∈ labels then
    [("npm_config_registry", endpoint.upstreamUrl "npm"),
      ("NPM_CONFIG_REGISTRY", endpoint.upstreamUrl "npm")] else []) ++
  (if "pypi" ∈ labels then
    [("PIP_INDEX_URL", endpoint.upstreamUrl "pypi" ++ "simple/"),
      ("PIP_TRUSTED_HOST", endpoint.host.getD "")] else []) ++
  (if "crates" ∈ labels then
    [("CARGO_REGISTRIES_HULL_INDEX", "sparse+" ++ endpoint.upstreamUrl "crates")] else [])

/-- The variables a package grant can set. -/
def packageNames : List String :=
  ["npm_config_registry", "NPM_CONFIG_REGISTRY", "PIP_INDEX_URL", "PIP_TRUSTED_HOST",
    "CARGO_REGISTRIES_HULL_INDEX"]

theorem names_envVars (endpoint : JobProxyEndpoint) (labels : List String) :
    (endpoint.envVars labels).names.Sublist packageNames := by
  unfold envVars Env.names packageNames
  split_ifs <;> simp

end JobProxyEndpoint

/-! ### The runtime's own environment -/

/-- The variables `runtime_env` reads besides the path. -/
def runtimeVars : List String :=
  ["HOME", "DOCKER_HOST", "DOCKER_CONFIG", "DOCKER_CONTEXT", "DOCKER_CERT_PATH",
    "DOCKER_TLS_VERIFY"]

/-- The node's own tooling environment, out of the node's process environment. -/
def runtimeEnv (node : String → Option String) : Env :=
  ("PATH", (node "PATH").getD "/usr/local/bin:/usr/bin:/bin") ::
    runtimeVars.filterMap fun name => (node name).map fun v => (name, v)

/-- What a CLI process started with nothing more sees of the runtime's variables. -/
theorem get_runtimeEnv (node : String → Option String) {name : String} (listed : name ∈ runtimeVars) :
    (runtimeEnv node).get name = node name := by
  have other : name ≠ "PATH" := by
    rintro rfl
    exact absurd listed (by decide)
  have front : Env.get [("PATH", (node "PATH").getD "/usr/local/bin:/usr/bin:/bin")] name = none :=
    Env.get_eq_none.mpr fun member => other (List.mem_singleton.mp member)
  unfold runtimeEnv
  rw [← List.singleton_append, Env.get_append, Env.get_filterMap _ _ listed, front, Option.or_none]

/-! ### A sandbox -/

/-- What a backend is asked to run: the fields that its environments come from. -/
structure SandboxSpec where
  env : Env
  /-- names that were vouched for -/
  brokerAuthorised : List String
  /-- values that must never appear on a command line -/
  secretEnv : Env
  deriving DecidableEq, Repr

namespace SandboxSpec

/-- The environment a child process actually receives. -/
def fullEnv (spec : SandboxSpec) : Env :=
  spec.env ++ spec.secretEnv

def secretNames (spec : SandboxSpec) : List String :=
  spec.secretEnv.names

end SandboxSpec

/-- One runtime CLI process of a sandbox. -/
inductive CliProcess
  | create
  | start
  | exec
  | kill
  | remove
  deriving DecidableEq, Repr

/-- Where a sandbox comes from: made for the job, or out of the pool. -/
inductive Slot
  | cold
  | warm
  deriving DecidableEq, Repr

/-- The CLI processes a sandbox can start. -/
def Slot.processes : Slot → List CliProcess
  | .cold => [.create, .start, .kill, .remove]
  | .warm => [.exec, .kill, .remove]

/-- The environment of a CLI process: the runtime's own, and the secrets where the container is made
or a command is put into it. -/
def CliProcess.env (node : String → Option String) (spec : SandboxSpec) : CliProcess → Env
  | .create | .exec => runtimeEnv node ++ spec.secretEnv
  | .start | .kill | .remove => runtimeEnv node

/-- The environment options of `create_argv` and `exec_argv`, as the runtime resolves them: an entry
of the allowlist by value, a secret by name, out of the CLI's own environment. -/
def jobEnv (node : String → Option String) (spec : SandboxSpec) (process : CliProcess) : Env :=
  spec.env ++ spec.secretNames.filterMap fun name =>
    ((process.env node spec).get name).map fun v => (name, v)

/-! ### What `run_inner` asks for -/

/-- `DeliveredSecrets::to_env_vars`: a secret that is not UTF-8 is skipped. -/
def toEnvVars (delivered : List (String × Bytes)) : Env :=
  delivered.filterMap fun s => (String.fromUTF8? s.2.toByteArray).map fun v => (s.1, v)

/-- The spec of a step: the base environment, and everything else by name. -/
def sandboxSpec (jobPath : String) (delivered : List (String × Bytes)) (packageEnv : Env) :
    SandboxSpec where
  env := baseEnvWithPath "/tmp" jobPath
  brokerAuthorised := delivered.map Prod.fst ++ packageEnv.names
  secretEnv := toEnvVars delivered ++ packageEnv

end HullCi.Node
