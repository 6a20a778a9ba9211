/-
**The recorder: what the five builtins append while a pipeline is evaluated.**

Each call checks its arguments and then writes the recording, or writes nothing and keeps the first
failure. `State.push` is the one place where a step joins the graph.

* `push_ok` — a step that is pushed has passed every check, and this is what it leaves behind.
* `call_refused` — a refused call keeps everything but the first failure.
* `after_cases` — the effect of one call on the graph: none, or one pushed step.
-/

import HullCi.Base.Run
import HullCi.Base.Table
import HullCi.Plan.Pipeline
import HullCi.Plan.Validate

namespace HullCi.Plan

open HullCi.Base

/-! ### The recording -/

structure State where
  limits : Limits
  actions : List String
  image : Option String
  trust : Option Trust
  cacheScope : Option String
  steps : List PlanStep
  /-- The longest path ending at the step of the same index. -/
  depths : List ℕ
  index : Table String ℕ
  /-- The first typed failure. -/
  failure : Option PlanErrorKind

/-- `Recorder::new`. -/
def State.new (limits : Limits) (actions : List String) : State where
  limits := limits
  actions := actions
  image := none
  trust := none
  cacheScope := none
  steps := []
  depths := []
  index := ∅
  failure := none

/-- `Recorder::into_pipeline`. -/
def State.intoPipeline (s : State) : Pipeline where
  image := s.image
  trust := s.trust
  cacheScope := s.cacheScope
  steps := s.steps

/-- An error shows at most this much of the author's text. -/
def truncate (s : String) : String :=
  let out := s.toList.take 32
  String.ofList (if out.length < s.length then out ++ ['…'] else out)

/-- A broken rule is an error of the plan. -/
def rule {α : Type} (checked : Except Invalid α) : Except PlanErrorKind α :=
  checked.mapError .invalid

/-- An early return. -/
def refuse (when : Prop) [Decidable when] (kind : PlanErrorKind) : Except PlanErrorKind Unit :=
  if when then .error kind else .ok ()

namespace State

/-- Keep the first failure; the message unwinds the evaluation. -/
def fail (s : State) (kind : PlanErrorKind) : String × State :=
  (kind.text, { s with failure := s.failure.or (some kind) })

/-! ### Settings -/

def setImage (s : State) (reference : String) : Except PlanErrorKind State :=
  if s.image.isSome then .error (.invalid (.redeclared "image"))
  else
    match rule (checkImageRef reference) with
    | .error e => .error e
    | .ok _ => .ok { s with image := some reference }

def setTrust (s : State) (tier : String) : Except PlanErrorKind State :=
  if s.trust.isSome then .error (.invalid (.redeclared "trust"))
  else if tier = "trusted" then .ok { s with trust := some .trusted }
  else if tier = "untrusted" then .ok { s with trust := some .untrusted }
  else .error (.invalid (.tier (truncate tier)))

def setCacheScope (s : State) (name : String) : Except PlanErrorKind State :=
  if s.cacheScope.isSome then .error (.invalid (.redeclared "cache_scope"))
  else
    match rule (checkCacheScope name) with
    | .error e => .error e
    | .ok _ => .ok { s with cacheScope := some name }

/-! ### Steps -/

/-- What a step does, against the registry. -/
def checkKind (s : State) (step : PlanStep) : Except Invalid Unit :=
  match step.kind with
  | .run command => checkRun step.name command
  | .action uses => checkAction uses s.actions

end State

/-- The entries of one list of a step. -/
def checkItems (field step : String) : List String → Except Invalid Unit
  | [] => .ok ()
  | item :: rest =>
    match checkListItem field step item with
    | .error e => .error e
    | .ok _ => checkItems field step rest

/-- The lists of a step, each with the name of its field. -/
def checkLists (step : String) : List (String × List String) → Except Invalid Unit
  | [] => .ok ()
  | (field, list) :: rest =>
    if maxListLen < list.length then .error (.listTooLong field step maxListLen)
    else
      match checkItems field step list with
      | .error e => .error e
      | .ok _ => checkLists step rest

/-- An image of its own, if the step has one. -/
def checkOwnImage (step : PlanStep) : Except Invalid Unit :=
  match step.image with
  | none => .ok ()
  | some reference => checkImageRef reference

namespace State

/-- The depth of a step, one `needs` entry after the other. The index never points past the depths,
so the default is not read. -/
def needsDepth (s : State) (name : String) : ℕ → List String → Except PlanErrorKind ℕ
  | depth, [] => .ok depth
  | depth, need :: rest =>
    match s.index.lookup need with
    | none => .error (.invalid (.danglingNeeds name (truncate need)))
    | some i => s.needsDepth name (max depth (s.depths.getD i 0 + 1)) rest

/-- What joins the recording with a step of this depth. -/
def record (s : State) (step : PlanStep) (depth : ℕ) : State :=
  { s with
    index := s.index.insert step.name s.steps.length
    depths := s.depths ++ [depth]
    steps := s.steps ++ [step] }

/-- The one place where a node joins the graph. -/
def push (s : State) (step : PlanStep) : Except PlanErrorKind (String × State) := do
  rule (checkStepName step.name)
  refuse ((s.index.lookup step.name).isSome) (.invalid (.duplicateName step.name))
  refuse (s.limits.maxSteps ≤ s.steps.length) (.exhausted (.steps s.limits.maxSteps))
  rule (s.checkKind step)
  rule (checkLists step.name
    [("inputs", step.inputs), ("cache", step.cache), ("secrets", step.secrets),
      ("needs", step.needs)])
  rule (checkOwnImage step)
  let depth ← s.needsDepth step.name 1 step.needs
  refuse (s.limits.maxDepth < depth) (.exhausted (.depth s.limits.maxDepth))
  return (step.name, s.record step depth)

end State

/-! ### The builtins -/

/-- What a Starlark value answers to each unpacking, and how it prints. -/
structure Value where
  str : Option String
  bool : Option Bool
  i32 : Option ℤ
  repr : String
  deriving DecidableEq, Repr

/-- `shard = "auto"` or a number up to the maximum. A boolean is not a number. -/
def unpackShard (value : Value) : Except Invalid Shard :=
  match value.str with
  | some s => if s = "auto" then .ok .auto else .error (.shard (truncate value.repr) maxShard)
  | none =>
    if value.bool.isSome then .error (.shard (truncate value.repr) maxShard)
    else
      match value.i32 with
      | some n =>
        if 1 ≤ n ∧ n ≤ maxShard then .ok (.fixed n.toNat)
        else .error (.shard (truncate value.repr) maxShard)
      | none => .error (.shard (truncate value.repr) maxShard)

/-- One call of a builtin, with its arguments. -/
inductive Call
  | image (reference : String)
  | trust (tier : String)
  | cacheScope (name : String)
  | step (name : String) (run : Option String) (inputs cache secrets needs : List String)
      (shard : Option Value) (timeout image : Option String) (continueOnError : Bool)
  | action (name uses : String) (needs : List String) (timeout : Option String)
      (continueOnError : Bool)

/-- An optional argument is read only where it is given. -/
def unpackOption {α β : Type} (read : α → Except Invalid β) : Option α → Except Invalid (Option β)
  | none => .ok none
  | some a => (read a).map some

/-- The step that one call describes, not yet checked. -/
def buildStep (name : String) (kind : StepKind) (inputs cache secrets needs : List String)
    (shard : Option Value) (timeout image : Option String) (continueOnError : Bool) :
    Except PlanErrorKind PlanStep := do
  let shard ← rule (unpackOption unpackShard shard)
  let timeout ← rule (unpackOption parseTimeout timeout)
  return { name, kind, inputs, cache, secrets, needs, shard, timeout, image, continueOnError }

namespace State

/-- What a call would do: its answer and the state it leaves, or the rule it breaks. -/
def attempt (s : State) : Call → Except PlanErrorKind (Option String × State)
  | .image reference => (s.setImage reference).map fun s' => (none, s')
  | .trust tier => (s.setTrust tier).map fun s' => (none, s')
  | .cacheScope name => (s.setCacheScope name).map fun s' => (none, s')
  | .step name run inputs cache secrets needs shard timeout image continueOnError =>
    match run with
    | none => .error (.invalid (.nothingToRun (truncate name)))
    | some command => do
      let step ← buildStep name (.run command) inputs cache secrets needs shard timeout image
        continueOnError
      let pushed ← s.push step
      return (some pushed.1, pushed.2)
  | .action name uses needs timeout continueOnError => do
    let step ← buildStep name (.action uses) [] [] [] needs none timeout none continueOnError
    let pushed ← s.push step
    return (some pushed.1, pushed.2)

/-- One call: a handle, nothing, or the message of a failure. -/
def call (s : State) (c : Call) : Except String (Option String) × State :=
  match s.attempt c with
  | .ok (answer, s') => (.ok answer, s')
  | .error kind => (.error (s.fail kind).1, (s.fail kind).2)

/-- The state after a call. -/
def after (s : State) (c : Call) : State :=
  (s.call c).2

/-! ### What a call can do -/

theorem bind_ok {ε α β : Type} {x : Except ε α} {f : α → Except ε β} {b : β} :
    (x >>= f) = .ok b ↔ ∃ a, x = .ok a ∧ f a = .ok b := by
  cases x with
  | error e => constructor <;> simp [bind, Except.bind]
  | ok a => simp [bind, Except.bind]

theorem rule_ok {α : Type} {checked : Except Invalid α} {a : α} :
    rule checked = .ok a ↔ checked = .ok a := by
  cases checked with
  | error e => simp [rule, Except.mapError]
  | ok b => simp [rule, Except.mapError]

theorem refuse_ok {when : Prop} [Decidable when] {kind : PlanErrorKind} {u : Unit} :
    refuse when kind = .ok u ↔ ¬ when := by
  unfold refuse
  split <;> simp_all

/-- What is known of a step that joins the recording. -/
structure Pushed (s : State) (step : PlanStep) (depth : ℕ) : Prop where
  name : LegalName step.name
  fresh : s.index.lookup step.name = none
  room : s.steps.length < s.limits.maxSteps
  kind : s.checkKind step = .ok ()
  lists : checkLists step.name
    [("inputs", step.inputs), ("cache", step.cache), ("secrets", step.secrets),
      ("needs", step.needs)] = .ok ()
  image : checkOwnImage step = .ok ()
  longest : s.needsDepth step.name 1 step.needs = .ok depth
  shallow : depth ≤ s.limits.maxDepth

theorem push_ok {s s' : State} {step : PlanStep} {handle : String}
    (pushed : s.push step = .ok (handle, s')) :
    ∃ depth, s.Pushed step depth ∧ handle = step.name ∧ s' = s.record step depth := by
  unfold push at pushed
  obtain ⟨_, name, pushed⟩ := bind_ok.mp pushed
  obtain ⟨_, fresh, pushed⟩ := bind_ok.mp pushed
  obtain ⟨_, room, pushed⟩ := bind_ok.mp pushed
  obtain ⟨_, kind, pushed⟩ := bind_ok.mp pushed
  obtain ⟨_, lists, pushed⟩ := bind_ok.mp pushed
  obtain ⟨_, image, pushed⟩ := bind_ok.mp pushed
  obtain ⟨depth, longest, pushed⟩ := bind_ok.mp pushed
  obtain ⟨_, shallow, pushed⟩ := bind_ok.mp pushed
  obtain ⟨rfl, rfl⟩ : step.name = handle ∧ s.record step depth = s' := by
    simpa [pure, Except.pure] using pushed
  refine ⟨depth, ?_, rfl, rfl⟩
  exact {
    name := checkStepName_ok.mp (rule_ok.mp name)
    fresh := by simpa using refuse_ok.mp fresh
    room := Nat.lt_of_not_le (refuse_ok.mp room)
    kind := rule_ok.mp kind
    lists := rule_ok.mp lists
    image := rule_ok.mp image
    longest := longest
    shallow := Nat.le_of_not_lt (refuse_ok.mp shallow) }

/-- The parts of the recording that the graph is made of. -/
structure SameGraph (s s' : State) : Prop where
  steps : s'.steps = s.steps
  depths : s'.depths = s.depths
  index : s'.index = s.index
  limits : s'.limits = s.limits

theorem setImage_same {s s' : State} {reference : String} (done : s.setImage reference = .ok s') :
    SameGraph s s' := by
  unfold setImage at done
  split at done
  · cases done
  split at done
  · cases done
  · cases done
    exact ⟨rfl, rfl, rfl, rfl⟩

theorem setTrust_same {s s' : State} {tier : String} (done : s.setTrust tier = .ok s') :
    SameGraph s s' := by
  unfold setTrust at done
  split_ifs at done
  all_goals
    cases done
    exact ⟨rfl, rfl, rfl, rfl⟩

theorem setCacheScope_same {s s' : State} {name : String} (done : s.setCacheScope name = .ok s') :
    SameGraph s s' := by
  unfold setCacheScope at done
  split at done
  · cases done
  split at done
  · cases done
  · cases done
    exact ⟨rfl, rfl, rfl, rfl⟩

theorem map_ok {ε α β : Type} {x : Except ε α} {f : α → β} {b : β} :
    x.map f = .ok b ↔ ∃ a, x = .ok a ∧ f a = b := by
  cases x <;> simp [Except.map]

/-- **The effect of an accepted call:** a setting, or one step pushed. -/
theorem attempt_cases {s s' : State} {c : Call} {answer : Option String}
    (done : s.attempt c = .ok (answer, s')) :
    SameGraph s s' ∨ ∃ step depth, s.Pushed step depth ∧ s' = s.record step depth := by
  cases c with
  | image reference =>
    obtain ⟨s'', set, same⟩ := map_ok.mp done
    cases same
    exact .inl (setImage_same set)
  | trust tier =>
    obtain ⟨s'', set, same⟩ := map_ok.mp done
    cases same
    exact .inl (setTrust_same set)
  | cacheScope name =>
    obtain ⟨s'', set, same⟩ := map_ok.mp done
    cases same
    exact .inl (setCacheScope_same set)
  | step name run inputs cache secrets needs shard timeout image continueOnError =>
    cases run with
    | none => cases done
    | some command =>
      obtain ⟨step, _, done⟩ := bind_ok.mp done
      obtain ⟨⟨handle, s''⟩, pushed, done⟩ := bind_ok.mp done
      cases done
      obtain ⟨depth, facts, _, rfl⟩ := push_ok pushed
      exact .inr ⟨step, depth, facts, rfl⟩
  | action name uses needs timeout continueOnError =>
    obtain ⟨step, _, done⟩ := bind_ok.mp done
    obtain ⟨⟨handle, s''⟩, pushed, done⟩ := bind_ok.mp done
    cases done
    obtain ⟨depth, facts, _, rfl⟩ := push_ok pushed
    exact .inr ⟨step, depth, facts, rfl⟩

theorem call_refused {s : State} {c : Call} {message : String}
    (refused : (s.call c).1 = .error message) :
    ∃ kind : PlanErrorKind, message = kind.text ∧
      s.after c = { s with failure := s.failure.or (some kind) } := by
  unfold after
  unfold call at refused ⊢
  cases outcome : s.attempt c with
  | ok answered =>
    rw [outcome] at refused
    cases refused
  | error kind =>
    rw [outcome] at refused
    cases refused
    exact ⟨kind, rfl, rfl⟩

/-- **The effect of one call.** -/
theorem after_cases (s : State) (c : Call) :
    SameGraph s (s.after c) ∨
      ∃ step depth, s.Pushed step depth ∧ s.after c = s.record step depth := by
  unfold after call
  cases outcome : s.attempt c with
  | error kind => exact .inl ⟨rfl, rfl, rfl, rfl⟩
  | ok answered => exact attempt_cases outcome

end State

end HullCi.Plan
