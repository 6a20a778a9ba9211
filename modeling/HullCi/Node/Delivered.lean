/-
**Delivered variables, on the host and in the job.**

* `inert_iff` — the runtime CLI sees its own variables unchanged exactly when no delivered secret
  carries the name of one of them with another value than the node's.
* `faithful_iff` — the job's names are distinct and every secret has its value there exactly when no
  secret carries the name of a package variable and every value is text.
* `delivered_iff` — both.
-/

import HullCi.Node.Env

namespace HullCi.Node

open HullCi.Secrets (Bytes asBytes fromUTF8_some validateName reservedNames)

/-- What a broker delivers: distinct names, each of them valid. -/
structure Delivery where
  values : List (String × Bytes)
  distinct : (values.map Prod.fst).Nodup
  valid : ∀ s ∈ values, validateName s.1 = .ok ()

/-- The spec of a step with a delivery and a package grant. -/
def Delivery.spec (d : Delivery) (jobPath : String) (packageEnv : Env) : SandboxSpec :=
  sandboxSpec jobPath d.values packageEnv

/-- The same step with no secret delivered. -/
def bareSpec (jobPath : String) (packageEnv : Env) : SandboxSpec :=
  sandboxSpec jobPath [] packageEnv

/-- The variables of the runtime itself. -/
def ownVars : List String :=
  "PATH" :: runtimeVars

/-- Every CLI process of a sandbox sees the runtime's variables as with no secret delivered. -/
def Inert (node : String → Option String) (jobPath : String) (packageEnv : Env) (d : Delivery) :
    Prop :=
  ∀ slot : Slot, ∀ process ∈ slot.processes, ∀ name ∈ ownVars,
    (process.env node (d.spec jobPath packageEnv)).get name =
      (process.env node (bareSpec jobPath packageEnv)).get name

/-- The CLI process that hands the job its environment. -/
def Slot.enters : Slot → CliProcess
  | .cold => .create
  | .warm => .exec

/-- The names of the job's environment are distinct, and every secret has its value there. -/
def Faithful (node : String → Option String) (jobPath : String) (packageEnv : Env) (d : Delivery) :
    Prop :=
  (d.spec jobPath packageEnv).fullEnv.names.Nodup ∧
    ∀ slot : Slot, ∀ s ∈ d.values, ∃ value, asBytes value = s.2 ∧
      (jobEnv node (d.spec jobPath packageEnv) slot.enters).get s.1 = some value

/-! ### Names and values -/

theorem mem_toEnvVars {values : List (String × Bytes)} {name value : String} :
    (name, value) ∈ toEnvVars values ↔
      ∃ bytes, (name, bytes) ∈ values ∧ String.fromUTF8? bytes.toByteArray = some value := by
  unfold toEnvVars
  rw [List.mem_filterMap]
  constructor
  · rintro ⟨⟨n, bytes⟩, member, made⟩
    obtain ⟨v, read, same⟩ := Option.map_eq_some_iff.mp made
    obtain ⟨rfl, rfl⟩ := Prod.mk.inj same
    exact ⟨bytes, member, read⟩
  · rintro ⟨bytes, member, read⟩
    exact ⟨(name, bytes), member, by rw [read]; rfl⟩

theorem names_toEnvVars (values : List (String × Bytes)) :
    (toEnvVars values).names.Sublist (values.map Prod.fst) := by
  unfold toEnvVars Env.names
  induction values with
  | nil => exact List.Sublist.slnil
  | cons s rest ih =>
    rw [List.filterMap_cons]
    cases String.fromUTF8? s.2.toByteArray with
    | none => exact ih.cons _
    | some v => exact ih.cons_cons _

section Delivered

variable (node : String → Option String) (jobPath : String) (d : Delivery)

theorem nodup_secrets : (toEnvVars d.values).names.Nodup :=
  d.distinct.sublist (names_toEnvVars d.values)

/-- A delivered name is not one that the job environment owns. -/
theorem not_reserved {name : String} (member : name ∈ (toEnvVars d.values).names) :
    name ∉ reservedNames := by
  obtain ⟨s, there, rfl⟩ := List.mem_map.mp ((names_toEnvVars d.values).subset member)
  have valid := d.valid s there
  unfold validateName at valid
  split_ifs at valid with shaped listed
  exact listed

theorem base_reserved : ∀ name ∈ (baseEnvWithPath "/tmp" jobPath).names, name ∈ reservedNames := by
  intro name member
  have listed : name ∈ ["PATH", "HOME", "LANG", "CI", "TMPDIR"] := member
  have all : ∀ n ∈ ["PATH", "HOME", "LANG", "CI", "TMPDIR"], n ∈ reservedNames := by decide
  exact all name listed

/-! ### On the host -/

variable {packageEnv : Env} (granted : packageEnv.names.Sublist JobProxyEndpoint.packageNames)

include granted in
theorem package_not_own {name : String} (own : name ∈ ownVars) : packageEnv.get name = none := by
  refine Env.get_eq_none.mpr fun member => ?_
  have listed := granted.subset member
  have apart : ∀ n ∈ ownVars, n ∉ JobProxyEndpoint.packageNames := by decide
  exact apart name own listed

include granted in
/-- What a process that is handed the secrets sees of the runtime's variables. -/
theorem get_handed {name : String} (own : name ∈ ownVars) :
    (runtimeEnv node ++ (d.spec jobPath packageEnv).secretEnv).get name =
      ((toEnvVars d.values).get name).or ((runtimeEnv node).get name) := by
  show (runtimeEnv node ++ (toEnvVars d.values ++ packageEnv)).get name = _
  rw [Env.get_append, Env.get_append, package_not_own granted own, Option.none_or]

include granted in
theorem get_bare {name : String} (own : name ∈ ownVars) :
    (runtimeEnv node ++ (bareSpec jobPath packageEnv).secretEnv).get name =
      (runtimeEnv node).get name := by
  show (runtimeEnv node ++ ([] ++ packageEnv)).get name = _
  rw [List.nil_append, Env.get_append, package_not_own granted own, Option.none_or]

include granted in
/-- **Inert on the host**, exactly when no secret gives a variable of the runtime another value. -/
theorem inert_iff : Inert node jobPath packageEnv d ↔
    ∀ e ∈ toEnvVars d.values, e.1 ∈ runtimeVars → node e.1 = some e.2 := by
  constructor
  · rintro inert ⟨name, value⟩ member listed
    have own : name ∈ ownVars := List.mem_cons_of_mem _ listed
    have same := inert .cold .create (by decide) name own
    have handed := get_handed node jobPath d granted own
    have bare := get_bare node jobPath granted own
    rw [Env.get_of_nodup (nodup_secrets d) member, Option.some_or] at handed
    rw [get_runtimeEnv node listed] at bare
    exact bare.symm.trans (same.symm.trans handed)
  · intro agrees slot process _ name own
    have handed : ((toEnvVars d.values).get name).or ((runtimeEnv node).get name) =
        (runtimeEnv node).get name := by
      cases found : (toEnvVars d.values).get name with
      | none => rfl
      | some value =>
        have member := Env.mem_of_get found
        have free := not_reserved d (List.mem_map_of_mem member)
        have listed : name ∈ runtimeVars := by
          rcases List.mem_cons.mp own with rfl | listed
          · exact absurd (show "PATH" ∈ reservedNames by decide) free
          · exact listed
        rw [Option.some_or, get_runtimeEnv node listed, agrees _ member listed]
    cases process with
    | create | exec =>
      exact (get_handed node jobPath d granted own).trans
        (handed.trans (get_bare node jobPath granted own).symm)
    | start | kill | remove => rfl

/-! ### In the job -/

/-- What a process that is handed the secrets sees of a secret that no package variable hides. -/
theorem get_secret {name value : String} (member : (name, value) ∈ toEnvVars d.values)
    (apart : name ∉ packageEnv.names) (slot : Slot) :
    (jobEnv node (d.spec jobPath packageEnv) slot.enters).get name = some value := by
  have listed : name ∈ (d.spec jobPath packageEnv).secretNames := by
    show name ∈ (toEnvVars d.values ++ packageEnv).map Prod.fst
    rw [List.map_append]
    exact List.mem_append_left _ (List.mem_map_of_mem member)
  have handed : (slot.enters.env node (d.spec jobPath packageEnv)).get name = some value := by
    have entered : slot.enters.env node (d.spec jobPath packageEnv) =
        runtimeEnv node ++ (toEnvVars d.values ++ packageEnv) := by
      cases slot <;> rfl
    rw [entered, Env.get_append, Env.get_append, Env.get_eq_none.mpr apart, Option.none_or,
      Env.get_of_nodup (nodup_secrets d) member, Option.some_or]
  unfold jobEnv
  rw [Env.get_append, Env.get_filterMap _ _ listed, handed, Option.some_or]

include granted in
theorem nodup_fullEnv (apart : ∀ s ∈ d.values, s.1 ∉ packageEnv.names) :
    (d.spec jobPath packageEnv).fullEnv.names.Nodup := by
  have base : (baseEnvWithPath "/tmp" jobPath).names.Nodup := by
    show ["PATH", "HOME", "LANG", "CI", "TMPDIR"].Nodup
    decide
  have package : packageEnv.names.Nodup :=
    List.Nodup.sublist granted (show JobProxyEndpoint.packageNames.Nodup by decide)
  have secrets : ((toEnvVars d.values).names ++ packageEnv.names).Nodup := by
    refine List.nodup_append.mpr ⟨nodup_secrets d, package, fun name member name' member' same => ?_⟩
    obtain ⟨s, there, rfl⟩ := List.mem_map.mp ((names_toEnvVars d.values).subset member)
    exact apart s there (same ▸ member')
  show ((baseEnvWithPath "/tmp" jobPath ++ (toEnvVars d.values ++ packageEnv)).map Prod.fst).Nodup
  rw [List.map_append, List.map_append]
  refine List.nodup_append.mpr ⟨base, secrets, fun name member name' member' same => ?_⟩
  have reserved := base_reserved jobPath name member
  rcases List.mem_append.mp (same ▸ member') with secret | packaged
  · exact not_reserved d secret reserved
  · have free : ∀ n ∈ JobProxyEndpoint.packageNames, n ∉ reservedNames := by decide
    exact free name (granted.subset packaged) reserved

include granted in
/-- **Faithful in the job**, exactly when no secret has the name of a package variable, and every
value is text. -/
theorem faithful_iff : Faithful node jobPath packageEnv d ↔
    ∀ s ∈ d.values, s.1 ∉ packageEnv.names ∧ (String.fromUTF8? s.2.toByteArray).isSome := by
  constructor
  · rintro ⟨distinct, there⟩ ⟨name, bytes⟩ member
    obtain ⟨value, read, -⟩ := there .cold _ member
    have text := fromUTF8_some.mpr read
    refine ⟨fun packaged => ?_, by rw [text]; rfl⟩
    have secret : name ∈ (toEnvVars d.values).names :=
      List.mem_map_of_mem (mem_toEnvVars.mpr ⟨bytes, member, text⟩)
    have whole : ((baseEnvWithPath "/tmp" jobPath ++ (toEnvVars d.values ++ packageEnv)).map
        Prod.fst).Nodup := distinct
    rw [List.map_append, List.map_append] at whole
    have inner := (List.nodup_append.mp whole).2.1
    exact (List.nodup_append.mp inner).2.2 name secret name packaged rfl
  · intro each
    refine ⟨nodup_fullEnv jobPath d granted fun s member => (each s member).1, ?_⟩
    rintro slot ⟨name, bytes⟩ member
    obtain ⟨apart, text⟩ := each _ member
    obtain ⟨value, read⟩ := Option.isSome_iff_exists.mp text
    exact ⟨value, fromUTF8_some.mp read,
      get_secret node jobPath d (mem_toEnvVars.mpr ⟨bytes, member, read⟩) apart slot⟩

end Delivered

/-! ### Both -/

/-- **Delivered variables are inert on the host and faithful in the job**, exactly when no secret
carries the name of one of the runtime's own variables with another value than the node's, and no
secret carries the name of a package variable that the step has, and every value is text. -/
theorem delivered_iff (node : String → Option String) (jobPath : String) (d : Delivery)
    (endpoint : JobProxyEndpoint) (labels : List String) :
    (Inert node jobPath (endpoint.envVars labels) d ↔
        ∀ e ∈ toEnvVars d.values, e.1 ∈ runtimeVars → node e.1 = some e.2) ∧
      (Faithful node jobPath (endpoint.envVars labels) d ↔
        ∀ s ∈ d.values, s.1 ∉ (endpoint.envVars labels).names ∧
          (String.fromUTF8? s.2.toByteArray).isSome) :=
  have granted := JobProxyEndpoint.names_envVars endpoint labels
  ⟨inert_iff node jobPath d granted, faithful_iff node jobPath d granted⟩

/-- A tenant's two secrets: the address of a daemon, and a registry. -/
def hostileDelivery : Delivery where
  values := [("DOCKER_HOST", asBytes "tcp://198.51.100.7:2375"),
    ("NPM_CONFIG_REGISTRY", asBytes "https://npm.acme.example/")]
  distinct := by decide
  valid := by decide +kernel

/-- The endpoint of a step on a node with a package proxy. -/
def stepEndpoint : JobProxyEndpoint where
  baseUrl := "http://172.20.0.1:3128"
  grant := "hpkg_aa.bb"

/-- **A tenant chooses the daemon.** The CLI that creates the container reads a tenant's secret as the
address of its daemon, and the job gets the package proxy's registry in place of its secret. -/
theorem tenant_daemon :
    let env := stepEndpoint.envVars ["npm"]
    let spec := hostileDelivery.spec sandboxPath env
    let node := fun _ => none
    ¬ Inert node sandboxPath env hostileDelivery ∧ ¬ Faithful node sandboxPath env hostileDelivery ∧
      (CliProcess.create.env node spec).get "DOCKER_HOST" = some "tcp://198.51.100.7:2375" ∧
      (jobEnv node spec .create).get "NPM_CONFIG_REGISTRY" =
        some "http://172.20.0.1:3128/j/hpkg_aa.bb/u/npm/" := by
  refine ⟨fun inert => ?_, fun faithful => ?_, ?_, ?_⟩
  · have same := inert .cold .create (by decide) "DOCKER_HOST" (by decide)
    revert same
    decide +kernel
  · have distinct := faithful.1
    revert distinct
    decide +kernel
  · decide +kernel
  · decide +kernel

end HullCi.Node
