/-
**Renaming a step, and the memo keys of the others.**

A step's own name is hashed into its key, and its key into the keys of the steps that need it. So a
renamed step changes the key of every cacheable step below it, while a step that does not need it
keeps its key, and every step keeps its kind of refusal.

* `planStepKeys_getElem?` — each key is the round of its own step over the keys before it.
* `isOk_iff_cacheable` — which steps have a key, said of the plan alone.
* `similar_keys` — renaming keeps every kind of refusal.
* `rename_hit_iff` — a step keeps its result exactly when no key reaches it from the renamed step.
-/

import HullCi.Control.Memo

namespace HullCi.Control

open HullCi.Proto HullCi.Base

/-! ### One forward pass -/

section Rounds

variable {A B : Type} (f : List B → A → B)

/-- The loop of a forward pass: each round sees the results before it. -/
theorem take_rounds (items : List A) (before : List B) :
    (items.foldl (fun done a => done ++ [f done a]) before).take before.length = before := by
  induction items generalizing before with
  | nil => simp
  | cons a items ih =>
    have more := ih (before ++ [f before a])
    rw [List.foldl_cons]
    rw [List.length_append, List.length_singleton] at more
    have cut := congrArg (List.take before.length) more
    rw [List.take_take, min_eq_left (Nat.le_succ _), List.take_left] at cut
    exact cut

theorem getElem?_rounds (items : List A) (before : List B) (i : ℕ) :
    (items.foldl (fun done a => done ++ [f done a]) before)[before.length + i]? =
      items[i]?.map fun a =>
        f ((items.foldl (fun done a => done ++ [f done a]) before).take (before.length + i)) a := by
  induction items generalizing before i with
  | nil => simp
  | cons a items ih =>
    have length : (before ++ [f before a]).length = before.length + 1 := by simp
    rw [List.foldl_cons]
    cases i with
    | zero =>
      have first := take_rounds f items (before ++ [f before a])
      rw [length] at first
      have here := congrArg (·[before.length]?) first
      have cut := congrArg (List.take before.length) first
      rw [List.take_take, min_eq_left (Nat.le_succ _), List.take_left] at cut
      rw [Nat.add_zero, List.getElem?_cons_zero, Option.map_some, cut]
      simpa [List.getElem?_take] using here
    | succ i =>
      have later := ih (before ++ [f before a]) i
      rw [length, Nat.add_assoc, Nat.add_comm 1 i] at later
      rw [List.getElem?_cons_succ]
      exact later

end Rounds

section Plan

variable {Tree : Type} (blake3 : List UInt8 → Vector UInt8 32) (memo : MemoConfig Tree)
  (ctx : JobKeyContext) (tree : Tree) (specs : List StepSpec)

/-- **Each key is the round of its own step**, over the keys before it. -/
theorem planStepKeys_getElem? (i : ℕ) :
    (planStepKeys blake3 memo ctx tree specs)[i]? = specs[i]?.map fun spec =>
      nextKey blake3 memo ctx tree specs ((planStepKeys blake3 memo ctx tree specs).take i)
        spec := by
  have round := getElem?_rounds (nextKey blake3 memo ctx tree specs) specs [] i
  simpa [planStepKeys] using round

end Plan

/-! ### Which steps have a key -/

/-- Its own inputs give the step a key. -/
structure Keyable {Tree : Type} (memo : MemoConfig Tree) (ctx : JobKeyContext) (tree : Tree)
    (spec : StepSpec) : Prop where
  inputs : spec.inputs ≠ []
  resolved : ∀ glob ∈ spec.inputs, ∃ d, memo.digest ctx.tenant tree (trim glob) = .ok d
  selects : ∃ glob ∈ spec.inputs, ∃ d, memo.digest ctx.tenant tree (trim glob) = .ok d ∧
    0 < d.selected

/-- Where the plan declares a name first. -/
def position (specs : List StepSpec) (name : String) : Option ℕ :=
  specs.findIdx? (·.name = name)

/-- The step has a key: its inputs give it one, and every step it needs is earlier and has one. -/
inductive Cacheable {Tree : Type} (memo : MemoConfig Tree) (ctx : JobKeyContext) (tree : Tree)
    (specs : List StepSpec) : ℕ → Prop
  | mk {i : ℕ} {spec : StepSpec} (index : String → ℕ) (here : specs[i]? = some spec)
      (keyable : Keyable memo ctx tree spec)
      (declared : ∀ need ∈ spec.needs, position specs need = some (index need))
      (earlier : ∀ need ∈ spec.needs, index need < i)
      (cacheable : ∀ need ∈ spec.needs, Cacheable memo ctx tree specs (index need)) :
      Cacheable memo ctx tree specs i

/-- The step needs `d`, directly or through the steps it needs. -/
inductive Downstream (specs : List StepSpec) (d : String) : StepSpec → Prop
  | direct {spec : StepSpec} (needs : d ∈ spec.needs) : Downstream specs d spec
  | through {spec dep : StepSpec} {need : String} {k : ℕ} (needs : need ∈ spec.needs)
      (found : position specs need = some k) (here : specs[k]? = some dep)
      (below : Downstream specs d dep) : Downstream specs d spec

/-- Two results of one kind: two keys, or two refusals of one constructor. -/
def Alike : KeyResult → KeyResult → Prop
  | .ok _, .ok _ => True
  | .error .noInputs, .error .noInputs => True
  | .error .inputsSelectedNothing, .error .inputsSelectedNothing => True
  | .error (.digestUnavailable _), .error (.digestUnavailable _) => True
  | .error (.dependencyNotCacheable _), .error (.dependencyNotCacheable _) => True
  | .error (.undeclaredDependency _), .error (.undeclaredDependency _) => True
  | _, _ => False

/-- The same result: the same key, or the same kind of refusal. -/
def SameResult (r r' : KeyResult) : Prop :=
  Alike r r' ∧ ∀ k k', r = .ok k → r' = .ok k' → k = k'

theorem Alike.refl (r : KeyResult) : Alike r r := by
  cases r with
  | ok k => trivial
  | error e => cases e <;> trivial

/-! ### One key -/

section Key

variable {Tree : Type} {memo : MemoConfig Tree} {ctx : JobKeyContext} {tree : Tree}
  {spec spec' : StepSpec} {deps deps' : List StepKey}

theorem digestGlobs_isOk {answer : String → Except DigestError InputDigest} {globs : List String}
    (resolved : ∀ glob ∈ globs, ∃ d, answer glob = .ok d) :
    ∃ found, digestGlobs answer globs = .ok found := by
  induction globs with
  | nil => exact ⟨_, rfl⟩
  | cons glob globs ih =>
    obtain ⟨d, first⟩ := resolved glob List.mem_cons_self
    obtain ⟨⟨digests, selected⟩, rest⟩ := ih fun glob member =>
      resolved glob (List.mem_cons_of_mem _ member)
    unfold digestGlobs
    simp only [first, rest]
    exact ⟨_, rfl⟩

theorem mem_keyGlobs {glob : String} :
    glob ∈ keyGlobs spec ↔ ∃ raw ∈ spec.inputs, trim raw = glob := by
  unfold keyGlobs
  rw [mem_canon, List.mem_map]

/-- The inputs alone decide whether there are bytes to hash. -/
theorem keyInput_isOk : (∃ bytes, keyInput memo ctx tree spec deps = .ok bytes) ↔
    Keyable memo ctx tree spec := by
  unfold keyInput
  constructor
  · rintro ⟨bytes, ok⟩
    split_ifs at ok with empty
    cases answered : digestGlobs (memo.digest ctx.tenant tree) (keyGlobs spec) with
    | error e =>
      rw [answered] at ok
      cases ok
    | ok found =>
      obtain ⟨digests, selected⟩ := found
      simp only [answered] at ok
      split_ifs at ok with some
      obtain ⟨globs, answers, selects⟩ := digestGlobs_ok answered
      refine ⟨fun none => empty (by rw [none]; rfl), fun raw member => ?_, ?_⟩
      · have listed : trim raw ∈ digests.map Prod.fst := by
          rw [globs]
          exact mem_keyGlobs.mpr ⟨raw, member, rfl⟩
        obtain ⟨p, present, same⟩ := List.mem_map.mp listed
        obtain ⟨d, answer, -⟩ := answers p present
        exact ⟨d, same ▸ answer⟩
      · obtain ⟨glob, member, d, answer, some⟩ := selects.mp some
        obtain ⟨raw, present, rfl⟩ := mem_keyGlobs.mp member
        exact ⟨raw, present, d, answer, some⟩
  · rintro ⟨inputs, resolved, selects⟩
    obtain ⟨⟨digests, selected⟩, answered⟩ : ∃ found,
        digestGlobs (memo.digest ctx.tenant tree) (keyGlobs spec) = .ok found := by
      refine digestGlobs_isOk fun glob member => ?_
      obtain ⟨raw, present, rfl⟩ := mem_keyGlobs.mp member
      exact resolved raw present
    have some : selected = true := by
      obtain ⟨raw, present, d, answer, some⟩ := selects
      exact (digestGlobs_ok answered).2.2.mpr
        ⟨trim raw, mem_keyGlobs.mpr ⟨raw, present, rfl⟩, d, answer, some⟩
    rw [if_neg (by simpa using inputs), answered]
    simp only [some, if_true]
    exact ⟨_, rfl⟩

/-- A refusal of the inputs does not depend on anything else about the step. -/
theorem keyInput_error {e : NotCacheable} (refused : keyInput memo ctx tree spec deps = .error e)
    (inputs : spec'.inputs = spec.inputs) : keyInput memo ctx tree spec' deps' = .error e := by
  unfold keyInput keyGlobs at refused ⊢
  rw [inputs]
  split_ifs at refused ⊢ with empty
  · exact refused
  · cases answered : digestGlobs (memo.digest ctx.tenant tree) (canon (spec.inputs.map trim)) with
    | error e' =>
      rw [answered] at refused
      exact refused
    | ok found =>
      obtain ⟨digests, selected⟩ := found
      simp only [answered] at refused ⊢
      split_ifs at refused ⊢ with some
      exact refused

theorem alike_stepKey (blake3 : List UInt8 → Vector UInt8 32)
    (inputs : spec'.inputs = spec.inputs) :
    Alike (stepKey blake3 memo ctx tree spec deps) (stepKey blake3 memo ctx tree spec' deps') := by
  unfold stepKey
  cases refused : keyInput memo ctx tree spec deps with
  | error e =>
    rw [keyInput_error refused inputs]
    exact .refl (.error e)
  | ok bytes =>
    cases refused' : keyInput memo ctx tree spec' deps' with
    | error e =>
      rw [keyInput_error refused' inputs.symm] at refused
      cases refused
    | ok bytes' => trivial

end Key

/-! ### What a key says -/

theorem length_utf8_le (chars : List Char) :
    (utf8 (String.ofList chars)).length ≤ 4 * chars.length := by
  have encoded : (utf8 (String.ofList chars)).length =
      (chars.flatMap String.utf8EncodeChar).length := by
    simp [utf8, List.utf8Encode]
  rw [encoded]
  induction chars with
  | nil => exact Nat.zero_le _
  | cons c rest ih =>
    have first := c.utf8Size_le_four
    simp only [List.flatMap_cons, List.length_append, List.length_cons,
      String.length_utf8EncodeChar] at ih ⊢
    have rest' := ih (by simp [utf8, List.utf8Encode])
    omega

theorem sized_hex (bytes : Vector UInt8 32) : Sized (utf8 (hex bytes)) := by
  unfold Sized hex
  refine (length_utf8_le _).trans_lt ?_
  have length : (bytes.toList.flatMap fun b =>
      [hexDigit (b.toNat / 16), hexDigit (b.toNat % 16)]).length = 64 := by
    simp [List.length_flatMap]
  rw [length]
  decide

/-- Equal keys of inputs that do not collide were made of one name and the same keys. -/
theorem parts_of_key {Tree : Type} {blake3 : List UInt8 → Vector UInt8 32}
    {inputs : Set (List UInt8)} (collisionFree : Set.InjOn blake3 inputs)
    {memo : MemoConfig Tree} {ctx : JobKeyContext} {tree : Tree} {spec spec' : StepSpec} {deps deps' : List StepKey} {key : StepKey}
    (sizes : Sizes memo ctx tree spec) (sizes' : Sizes memo ctx tree spec')
    (keys : SizedTexts deps) (keys' : SizedTexts deps')
    (fed : ∀ bytes, keyInput memo ctx tree spec deps = .ok bytes → bytes ∈ inputs)
    (fed' : ∀ bytes, keyInput memo ctx tree spec' deps' = .ok bytes → bytes ∈ inputs)
    (ok : stepKey blake3 memo ctx tree spec deps = .ok key)
    (ok' : stepKey blake3 memo ctx tree spec' deps' = .ok key) :
    spec.name = spec'.name ∧ ∀ k, k ∈ deps ↔ k ∈ deps' := by
  unfold stepKey at ok ok'
  cases hashed : keyInput memo ctx tree spec deps with
  | error e => simp only [hashed, Except.map, reduceCtorEq] at ok
  | ok bytes =>
    cases hashed' : keyInput memo ctx tree spec' deps' with
    | error e => simp only [hashed', Except.map, reduceCtorEq] at ok'
    | ok bytes' =>
      simp only [hashed, Except.map, Except.ok.injEq] at ok
      simp only [hashed', Except.map, Except.ok.injEq] at ok'
      have same : bytes = bytes' :=
        collisionFree (fed bytes hashed) (fed' bytes' hashed') (hex_injective (ok.trans ok'.symm))
      obtain ⟨digests, made, globs, listed⟩ := keyInput_ok hashed
      obtain ⟨digests', made', globs', listed'⟩ := keyInput_ok hashed'
      rw [made, made'] at same
      exact (keyBytes_parts sizes sizes' keys keys' globs globs' listed listed' same).1.2

theorem key_hex {Tree : Type} {blake3 : List UInt8 → Vector UInt8 32} {memo : MemoConfig Tree}
    {ctx : JobKeyContext} {tree : Tree} {spec : StepSpec} {deps : List StepKey} {key : StepKey}
    (ok : stepKey blake3 memo ctx tree spec deps = .ok key) : Sized (utf8 key) := by
  unfold stepKey at ok
  cases hashed : keyInput memo ctx tree spec deps with
  | error e => simp only [hashed, Except.map, reduceCtorEq] at ok
  | ok bytes =>
    simp only [hashed, Except.map, Except.ok.injEq] at ok
    rw [← ok]
    exact sized_hex _

/-! ### The keys a step needs -/

/-- What the pass has for a name. -/
def needed (specs : List StepSpec) (keys : List KeyResult) (need : String) : Option KeyResult :=
  (position specs need).bind (keys[·]?)

section Needs

variable {specs specs' : List StepSpec} {keys keys' : List KeyResult} {needs : List String}

theorem dependencyKeys_cons (need : String) :
    dependencyKeys specs keys (need :: needs) =
      match needed specs keys need with
      | some (.ok key) => (dependencyKeys specs keys needs).map (key :: ·)
      | some (.error _) => .error (.dependencyNotCacheable need)
      | none => .error (.undeclaredDependency need) := rfl

/-- With a key for every need, these keys are what is hashed. -/
theorem mem_dependencyKeys {deps : List StepKey} (ok : dependencyKeys specs keys needs = .ok deps)
    (key : StepKey) : key ∈ deps ↔ ∃ need ∈ needs, needed specs keys need = some (.ok key) := by
  induction needs generalizing deps with
  | nil =>
    obtain rfl := Except.ok.inj ok
    simp
  | cons need needs ih =>
    rw [dependencyKeys_cons] at ok
    cases first : needed specs keys need with
    | none => simp only [first, reduceCtorEq] at ok
    | some result =>
      cases result with
      | error e => simp only [first, reduceCtorEq] at ok
      | ok head =>
        simp only [first] at ok
        cases rest : dependencyKeys specs keys needs with
        | error e => simp only [rest, Except.map, reduceCtorEq] at ok
        | ok tail =>
          simp only [rest, Except.map, Except.ok.injEq] at ok
          subst ok
          simp [ih rest, first, eq_comm]

theorem dependencyKeys_isOk :
    (∃ deps, dependencyKeys specs keys needs = .ok deps) ↔
      ∀ need ∈ needs, ∃ key, needed specs keys need = some (.ok key) := by
  induction needs with
  | nil => simp [dependencyKeys]
  | cons need needs ih =>
    rw [dependencyKeys_cons, List.forall_mem_cons, ← ih]
    cases needed specs keys need with
    | none => simp
    | some result =>
      cases result with
      | error e => simp
      | ok head =>
        cases dependencyKeys specs keys needs with
        | error e => simp [Except.map]
        | ok tail => simp [Except.map]

theorem length_dependencyKeys {deps : List StepKey}
    (ok : dependencyKeys specs keys needs = .ok deps) : deps.length = needs.length := by
  induction needs generalizing deps with
  | nil =>
    obtain rfl := Except.ok.inj ok
    rfl
  | cons need needs ih =>
    rw [dependencyKeys_cons] at ok
    cases first : needed specs keys need with
    | none => simp only [first, reduceCtorEq] at ok
    | some result =>
      cases result with
      | error e => simp only [first, reduceCtorEq] at ok
      | ok head =>
        simp only [first] at ok
        cases rest : dependencyKeys specs keys needs with
        | error e => simp only [rest, Except.map, reduceCtorEq] at ok
        | ok tail =>
          simp only [rest, Except.map, Except.ok.injEq] at ok
          rw [← ok, List.length_cons, List.length_cons, ih rest]

theorem dependencyKeys_kept {ρ : String → String} {deps : List StepKey}
    (kept : ∀ need ∈ needs, ∀ key, needed specs keys need = some (.ok key) →
      needed specs' keys' (ρ need) = some (.ok key))
    (ok : dependencyKeys specs keys needs = .ok deps) :
    dependencyKeys specs' keys' (needs.map ρ) = .ok deps := by
  induction needs generalizing deps with
  | nil => exact ok
  | cons need needs ih =>
    rw [dependencyKeys_cons] at ok
    rw [List.map_cons, dependencyKeys_cons]
    cases first : needed specs keys need with
    | none => simp only [first, reduceCtorEq] at ok
    | some result =>
      cases result with
      | error e => simp only [first, reduceCtorEq] at ok
      | ok head =>
        simp only [first] at ok
        rw [kept need List.mem_cons_self head first]
        cases rest : dependencyKeys specs keys needs with
        | error e => simp only [rest, Except.map, reduceCtorEq] at ok
        | ok tail =>
          rw [rest] at ok
          rw [ih (fun need member => kept need (List.mem_cons_of_mem _ member)) rest]
          exact ok

/-- What the two passes have for a need is of one kind. -/
def AlikeNeeds : Option KeyResult → Option KeyResult → Prop
  | none, none => True
  | some r, some r' => Alike r r'
  | _, _ => False

/-- Needs of one kind give refusals of one kind, or keys on both sides. -/
theorem alike_dependencyKeys {ρ : String → String}
    (alike : ∀ need ∈ needs, AlikeNeeds (needed specs keys need) (needed specs' keys' (ρ need))) :
    (∃ e e', dependencyKeys specs keys needs = .error e ∧
        dependencyKeys specs' keys' (needs.map ρ) = .error e' ∧ Alike (.error e) (.error e')) ∨
      ∃ deps deps', dependencyKeys specs keys needs = .ok deps ∧
        dependencyKeys specs' keys' (needs.map ρ) = .ok deps' := by
  induction needs with
  | nil => exact .inr ⟨[], [], rfl, rfl⟩
  | cons need needs ih =>
    have first := alike need List.mem_cons_self
    have rest := ih fun need member => alike need (List.mem_cons_of_mem _ member)
    rw [List.map_cons, dependencyKeys_cons, dependencyKeys_cons]
    cases here : needed specs keys need with
    | none =>
      cases there : needed specs' keys' (ρ need) with
      | none => exact .inl ⟨_, _, rfl, rfl, trivial⟩
      | some r =>
        rw [here, there] at first
        exact first.elim
    | some r =>
      cases there : needed specs' keys' (ρ need) with
      | none =>
        rw [here, there] at first
        exact first.elim
      | some r' =>
        rw [here, there] at first
        cases r with
        | error e =>
          cases r' with
          | error e' => exact .inl ⟨_, _, rfl, rfl, trivial⟩
          | ok key' => cases e <;> exact first.elim
        | ok key =>
          cases r' with
          | error e' => exact first.elim
          | ok key' =>
            rcases rest with ⟨e, e', refused, refused', alike⟩ | ⟨deps, deps', ok, ok'⟩
            · rw [refused, refused']
              exact .inl ⟨e, e', rfl, rfl, alike⟩
            · rw [ok, ok']
              exact .inr ⟨_, _, rfl, rfl⟩

end Needs

/-! ### Renaming -/

/-- The name under the new naming. -/
def renameName (d d' name : String) : String :=
  if name = d then d' else name

/-- One step under the new naming: its own name, and the names it needs. -/
def renameSpec (d d' : String) (spec : StepSpec) : StepSpec :=
  { spec with
    name := renameName d d' spec.name
    needs := spec.needs.map (renameName d d') }

theorem renameSpec_needs (d d' : String) (spec : StepSpec) :
    (renameSpec d d' spec).needs = spec.needs.map (renameName d d') := rfl

def renamePlan (d d' : String) (specs : List StepSpec) : List StepSpec :=
  specs.map (renameSpec d d')

/-- The names that occur in a plan. -/
def Occurs (specs : List StepSpec) (name : String) : Prop :=
  ∃ spec ∈ specs, spec.name = name ∨ name ∈ spec.needs

/-- The renaming is injective on the names that occur. -/
def Injective (d d' : String) (specs : List StepSpec) : Prop :=
  ∀ name name', Occurs specs name → Occurs specs name' →
    renameName d d' name = renameName d d' name' → name = name'

theorem occurs_need {specs : List StepSpec} {spec : StepSpec} {i : ℕ} {need : String}
    (here : specs[i]? = some spec) (needs : need ∈ spec.needs) : Occurs specs need :=
  ⟨spec, List.mem_of_getElem? here, .inr needs⟩

theorem position_renamePlan {d d' : String} {specs : List StepSpec} {name : String}
    (injective : ∀ spec ∈ specs, renameName d d' spec.name = renameName d d' name →
      spec.name = name) :
    position (renamePlan d d' specs) (renameName d d' name) = position specs name := by
  unfold position renamePlan
  induction specs with
  | nil => rfl
  | cons spec specs ih =>
    have first : decide ((renameSpec d d' spec).name = renameName d d' name) =
        decide (spec.name = name) :=
      decide_eq_decide.mpr ⟨injective spec List.mem_cons_self, congrArg (renameName d d')⟩
    rw [List.map_cons, List.findIdx?_cons, List.findIdx?_cons, first,
      ih fun spec member => injective spec (List.mem_cons_of_mem _ member)]

theorem position_spec {specs : List StepSpec} {name : String} {k : ℕ}
    (found : position specs name = some k) : ∃ dep, specs[k]? = some dep ∧ dep.name = name := by
  unfold position at found
  obtain ⟨bound, named, -⟩ := List.findIdx?_eq_some_iff_getElem.mp found
  exact ⟨specs[k], List.getElem?_eq_getElem bound, by simpa using named⟩

theorem getElem?_renamePlan (d d' : String) (specs : List StepSpec) (i : ℕ) :
    (renamePlan d d' specs)[i]? = specs[i]?.map (renameSpec d d') :=
  List.getElem?_map

section Renamed

variable {Tree : Type} (blake3 : List UInt8 → Vector UInt8 32) (memo : MemoConfig Tree)
  (ctx : JobKeyContext) (tree : Tree) (d d' : String) (specs : List StepSpec)

/-- The keys before the renaming. -/
def keysHeld : List KeyResult :=
  planStepKeys blake3 memo ctx tree specs

/-- The keys after it. -/
def renamedKeys : List KeyResult :=
  planStepKeys blake3 memo ctx tree (renamePlan d d' specs)

theorem keysHeld_getElem? {i : ℕ} {spec : StepSpec} (here : specs[i]? = some spec) :
    (keysHeld blake3 memo ctx tree specs)[i]? = some (nextKey blake3 memo ctx tree specs
      ((keysHeld blake3 memo ctx tree specs).take i) spec) := by
  unfold keysHeld
  rw [planStepKeys_getElem?, here, Option.map_some]

theorem renamedKeys_getElem? {i : ℕ} {spec : StepSpec} (here : specs[i]? = some spec) :
    (renamedKeys blake3 memo ctx tree d d' specs)[i]? = some (nextKey blake3 memo ctx tree
      (renamePlan d d' specs) ((renamedKeys blake3 memo ctx tree d d' specs).take i)
      (renameSpec d d' spec)) := by
  unfold renamedKeys
  rw [planStepKeys_getElem?, getElem?_renamePlan, here, Option.map_some, Option.map_some]

variable {d d' specs} {blake3 memo ctx tree}

theorem position_renamed (injective : Injective d d' specs) {name : String}
    (occurs : Occurs specs name) :
    position (renamePlan d d' specs) (renameName d d' name) = position specs name :=
  position_renamePlan fun spec member =>
    injective spec.name name ⟨spec, member, .inl rfl⟩ occurs

theorem needed_take {keys : List KeyResult} {need : String} {i k : ℕ}
    (found : position specs need = some k) :
    needed specs (keys.take i) need = if k < i then keys[k]? else none := by
  unfold needed
  rw [found, Option.bind_some, List.getElem?_take]

theorem needed_undeclared {keys : List KeyResult} {need : String}
    (undeclared : position specs need = none) : needed specs keys need = none := by
  unfold needed
  rw [undeclared, Option.bind_none]

/-- **Renaming keeps every kind of result.** -/
theorem alike_keys (injective : Injective d d' specs) {i : ℕ} {spec : StepSpec}
    (here : specs[i]? = some spec) :
    ∃ r r', (keysHeld blake3 memo ctx tree specs)[i]? = some r ∧
      (renamedKeys blake3 memo ctx tree d d' specs)[i]? = some r' ∧ Alike r r' := by
  induction i using Nat.strong_induction_on generalizing spec with
  | h i ih =>
    refine ⟨_, _, keysHeld_getElem? blake3 memo ctx tree specs here,
      renamedKeys_getElem? blake3 memo ctx tree d d' specs here, ?_⟩
    have alike : ∀ need ∈ spec.needs, AlikeNeeds
        (needed specs ((keysHeld blake3 memo ctx tree specs).take i) need)
        (needed (renamePlan d d' specs) ((renamedKeys blake3 memo ctx tree d d' specs).take i)
          (renameName d d' need)) := by
      intro need needs
      have same := position_renamed injective (occurs_need here needs)
      cases found : position specs need with
      | none =>
        rw [needed_undeclared found, needed_undeclared (same.trans found)]
        trivial
      | some k =>
        rw [needed_take found, needed_take (same.trans found)]
        by_cases earlier : k < i
        · obtain ⟨dep, there, -⟩ := position_spec found
          obtain ⟨r, r', key, key', alike⟩ := ih k earlier there
          rw [if_pos earlier, if_pos earlier, key, key']
          exact alike
        · rw [if_neg earlier, if_neg earlier]
          trivial
    unfold nextKey
    rcases alike_dependencyKeys alike with ⟨e, e', refused, refused', alike⟩ |
        ⟨deps, deps', ok, ok'⟩
    · rw [renameSpec_needs, refused, refused']
      exact alike
    · rw [renameSpec_needs, ok, ok']
      exact alike_stepKey blake3 rfl

/-- **Which steps have a key**, said of the plan alone. -/
theorem isOk_iff_cacheable {i : ℕ} {spec : StepSpec} (here : specs[i]? = some spec) :
    (∃ key, (keysHeld blake3 memo ctx tree specs)[i]? = some (.ok key)) ↔
      Cacheable memo ctx tree specs i := by
  induction i using Nat.strong_induction_on generalizing spec with
  | h i ih =>
    have round : (∃ key, (keysHeld blake3 memo ctx tree specs)[i]? = some (.ok key)) ↔
        (∀ need ∈ spec.needs, ∃ key,
          needed specs ((keysHeld blake3 memo ctx tree specs).take i) need = some (.ok key)) ∧
        Keyable memo ctx tree spec := by
      rw [keysHeld_getElem? blake3 memo ctx tree specs here, ← dependencyKeys_isOk]
      unfold nextKey
      constructor
      · rintro ⟨key, ok⟩
        cases asked : dependencyKeys specs ((keysHeld blake3 memo ctx tree specs).take i)
            spec.needs with
        | error e => simp only [asked, Option.some.injEq, reduceCtorEq] at ok
        | ok deps =>
          simp only [asked, Option.some.injEq, stepKey] at ok
          have hashable : ∃ bytes, keyInput memo ctx tree spec deps = .ok bytes := by
            cases hashed : keyInput memo ctx tree spec deps with
            | error e => simp only [hashed, Except.map, reduceCtorEq] at ok
            | ok bytes => exact ⟨bytes, rfl⟩
          exact ⟨⟨deps, rfl⟩, keyInput_isOk.mp hashable⟩
      · rintro ⟨⟨deps, asked⟩, keyable⟩
        have hashable : ∃ bytes, keyInput memo ctx tree spec deps = .ok bytes :=
          keyInput_isOk.mpr keyable
        obtain ⟨bytes, hashed⟩ := hashable
        refine ⟨hex (blake3 bytes), ?_⟩
        rw [asked]
        simp only [stepKey, hashed]
        rfl
    rw [round]
    constructor
    · rintro ⟨all, keyable⟩
      have known : ∀ need ∈ spec.needs, ∃ k, position specs need = some k ∧ k < i ∧
          Cacheable memo ctx tree specs k := by
        intro need needs
        obtain ⟨key, ok⟩ := all need needs
        cases found : position specs need with
        | none =>
          rw [needed_undeclared found] at ok
          cases ok
        | some k =>
          rw [needed_take found] at ok
          split_ifs at ok with earlier
          obtain ⟨dep, there, -⟩ := position_spec found
          exact ⟨k, rfl, earlier, (ih k earlier there).mp ⟨key, ok⟩⟩
      refine .mk (fun need => (position specs need).getD 0) here keyable ?_ ?_ ?_
      · intro need needs
        obtain ⟨k, found, -⟩ := known need needs
        rw [found, Option.getD_some]
      · intro need needs
        obtain ⟨k, found, earlier, -⟩ := known need needs
        rwa [found, Option.getD_some]
      · intro need needs
        obtain ⟨k, found, -, cacheable⟩ := known need needs
        rwa [found, Option.getD_some]
    · rintro ⟨index, here', keyable, declared, earlier, cacheable⟩
      obtain rfl := Option.some.inj (here.symm.trans here')
      refine ⟨fun need needs => ?_, keyable⟩
      obtain ⟨dep, there, -⟩ := position_spec (declared need needs)
      obtain ⟨key, ok⟩ := (ih _ (earlier need needs) there).mpr (cacheable need needs)
      exact ⟨key, by rw [needed_take (declared need needs), if_pos (earlier need needs), ok]⟩

/-- Everything the pass over a plan feeds to the hash. -/
def Hashed {Tree : Type} (blake3 : List UInt8 → Vector UInt8 32) (memo : MemoConfig Tree)
    (ctx : JobKeyContext) (tree : Tree) (specs : List StepSpec) : Set (List UInt8) :=
  {bytes | ∃ i spec deps, specs[i]? = some spec ∧
    dependencyKeys specs ((planStepKeys blake3 memo ctx tree specs).take i) spec.needs = .ok deps ∧
    keyInput memo ctx tree spec deps = .ok bytes}

theorem key_inv {i : ℕ} {spec : StepSpec} {key : StepKey} (here : specs[i]? = some spec)
    (ok : (keysHeld blake3 memo ctx tree specs)[i]? = some (.ok key)) :
    ∃ deps, dependencyKeys specs ((keysHeld blake3 memo ctx tree specs).take i) spec.needs = .ok deps ∧
      stepKey blake3 memo ctx tree spec deps = .ok key := by
  rw [keysHeld_getElem? blake3 memo ctx tree specs here] at ok
  unfold nextKey at ok
  cases asked : dependencyKeys specs ((keysHeld blake3 memo ctx tree specs).take i) spec.needs with
  | error e => simp only [asked, Option.some.injEq, reduceCtorEq] at ok
  | ok deps =>
    simp only [asked, Option.some.injEq] at ok
    exact ⟨deps, rfl, ok⟩

theorem needed_inv {keys : List KeyResult} {need : String} {i : ℕ} {key : StepKey}
    (ok : needed specs (keys.take i) need = some (.ok key)) :
    ∃ k dep, position specs need = some k ∧ k < i ∧ specs[k]? = some dep ∧ dep.name = need ∧
      keys[k]? = some (.ok key) := by
  cases found : position specs need with
  | none =>
    rw [needed_undeclared found] at ok
    cases ok
  | some k =>
    rw [needed_take found] at ok
    split_ifs at ok with earlier
    obtain ⟨dep, there, named⟩ := position_spec found
    exact ⟨k, dep, rfl, earlier, there, named, ok⟩

/-- **A step that does not need the renamed one keeps its key.** -/
theorem kept_key (injective : Injective d d' specs) {i : ℕ} {spec : StepSpec}
    (here : specs[i]? = some spec) (other : spec.name ≠ d) (apart : ¬ Downstream specs d spec)
    {key : StepKey} (ok : (keysHeld blake3 memo ctx tree specs)[i]? = some (.ok key)) :
    (renamedKeys blake3 memo ctx tree d d' specs)[i]? = some (.ok key) := by
  induction i using Nat.strong_induction_on generalizing spec key with
  | h i ih =>
    obtain ⟨deps, asked, made⟩ := key_inv here ok
    have asked' : dependencyKeys (renamePlan d d' specs)
        ((renamedKeys blake3 memo ctx tree d d' specs).take i)
        (spec.needs.map (renameName d d')) = .ok deps := by
      refine dependencyKeys_kept (fun need needs found ok => ?_) asked
      obtain ⟨k, dep, at', earlier, there, named, ok⟩ := needed_inv ok
      have same := position_renamed injective (occurs_need here needs)
      rw [needed_take (same.trans at'), if_pos earlier]
      refine ih k earlier there ?_ (fun below => apart (.through needs at' there below)) ok
      rintro rfl
      exact apart (.direct (named ▸ needs))
    have named : renameSpec d d' spec =
        { spec with needs := spec.needs.map (renameName d d') } := by
      unfold renameSpec
      rw [show renameName d d' spec.name = spec.name from if_neg other]
    rw [renamedKeys_getElem? blake3 memo ctx tree d d' specs here]
    unfold nextKey
    rw [named, asked']
    exact congrArg some made

/-- Every buffer of the plan, and of the new name, has the size that buffers have. -/
structure PlanSizes {Tree : Type} (memo : MemoConfig Tree) (ctx : JobKeyContext) (tree : Tree)
    (specs : List StepSpec) (d' : String) : Prop where
  spec : ∀ spec ∈ specs, Sizes memo ctx tree spec
  needs : ∀ spec ∈ specs, spec.needs.length < 256 ^ 8
  name : Sized (utf8 d')

theorem PlanSizes.renamed (sizes : PlanSizes memo ctx tree specs d') {spec : StepSpec}
    (member : spec ∈ specs) : Sizes memo ctx tree (renameSpec d d' spec) := by
  obtain ⟨tenant, version, name, image, argv, secrets, inputs, digests, env⟩ :=
    sizes.spec spec member
  refine ⟨tenant, version, ?_, image, argv, secrets, inputs, digests, env⟩
  show Sized (utf8 (renameName d d' spec.name))
  unfold renameName
  split_ifs
  · exact sizes.name
  · exact name

theorem sized_deps {i : ℕ} {needs : List String} {deps : List StepKey}
    (few : needs.length < 256 ^ 8)
    (asked : dependencyKeys specs ((keysHeld blake3 memo ctx tree specs).take i) needs = .ok deps) :
    SizedTexts deps where
  count := (length_dependencyKeys asked).trans_lt few
  texts key member := by
    obtain ⟨need, -, ok⟩ := (mem_dependencyKeys asked key).mp member
    obtain ⟨k, dep, -, -, there, -, ok⟩ := needed_inv ok
    obtain ⟨deps', -, made⟩ := key_inv there ok
    exact key_hex made

/-- **The renamed step and every cacheable step below it change their keys.** -/
theorem changed_key (collisionFree : Set.InjOn blake3 (Hashed blake3 memo ctx tree specs ∪
      Hashed blake3 memo ctx tree (renamePlan d d' specs))) (differs : d' ≠ d)
    (injective : Injective d d' specs) (sizes : PlanSizes memo ctx tree specs d') {i : ℕ}
    {spec : StepSpec} (here : specs[i]? = some spec) (touched : spec.name = d ∨ Downstream specs d spec)
    {key key' : StepKey} (ok : (keysHeld blake3 memo ctx tree specs)[i]? = some (.ok key))
    (ok' : (renamedKeys blake3 memo ctx tree d d' specs)[i]? = some (.ok key')) : key ≠ key' := by
  induction i using Nat.strong_induction_on generalizing spec key key' with
  | h i ih =>
    rintro rfl
    have member := List.mem_of_getElem? here
    have here' : (renamePlan d d' specs)[i]? = some (renameSpec d d' spec) := by
      rw [getElem?_renamePlan, here, Option.map_some]
    obtain ⟨deps, asked, made⟩ := key_inv here ok
    obtain ⟨deps', asked', made'⟩ := key_inv here' ok'
    have few' : (renameSpec d d' spec).needs.length < 256 ^ 8 := by
      show (spec.needs.map _).length < _
      rw [List.length_map]
      exact sizes.needs spec member
    obtain ⟨named, keyed⟩ := parts_of_key collisionFree (sizes.spec spec member)
      (sizes.renamed member) (sized_deps (sizes.needs spec member) asked) (sized_deps few' asked')
      (fun bytes hashed => .inl ⟨i, spec, deps, here, asked, hashed⟩)
      (fun bytes hashed => .inr ⟨i, _, deps', here', asked', hashed⟩) made made'
    -- The name is the step's own unless it is the renamed one.
    have other : spec.name ≠ d := by
      intro mine
      have renamed : renameName d d' spec.name = d' := if_pos mine
      exact differs (renamed.symm.trans (named.symm.trans mine))
    have below := touched.resolve_left other
    -- A key that changed is among the keys this step is hashed from.
    obtain ⟨need, needs, k, dep, at', there, touched'⟩ : ∃ need ∈ spec.needs, ∃ k dep,
        position specs need = some k ∧ specs[k]? = some dep ∧
          (dep.name = d ∨ Downstream specs d dep) := by
      cases below with
      | direct needs =>
        obtain ⟨key, ok⟩ := dependencyKeys_isOk.mp ⟨deps, asked⟩ d needs
        obtain ⟨k, dep, at', -, there, mine, -⟩ := needed_inv ok
        exact ⟨d, needs, k, dep, at', there, .inl mine⟩
      | through needs at' there below => exact ⟨_, needs, _, _, at', there, .inr below⟩
    obtain ⟨old, before⟩ := dependencyKeys_isOk.mp ⟨deps, asked⟩ need needs
    obtain ⟨k', dep', at'', earlier, there', depNamed, before⟩ := needed_inv before
    obtain rfl := Option.some.inj (at'.symm.trans at'')
    obtain rfl := Option.some.inj (there.symm.trans there')
    have listed : renameName d d' need ∈ (renameSpec d d' spec).needs := List.mem_map_of_mem needs
    obtain ⟨new, after'⟩ := dependencyKeys_isOk.mp ⟨deps', asked'⟩ _ listed
    have moved := (position_renamed injective (occurs_need here needs)).trans at'
    rw [needed_take moved, if_pos earlier] at after'
    have changed : old ≠ new := ih k earlier there touched' before after'
    -- It would have to be the old key of a step of the same name.
    have among : new ∈ deps := by
      rw [keyed, mem_dependencyKeys asked']
      exact ⟨_, listed, by rw [needed_take moved, if_pos earlier, after']⟩
    obtain ⟨need', needs', found⟩ := (mem_dependencyKeys asked new).mp among
    obtain ⟨m, dep', at'', -, there'', mNamed, stored⟩ := needed_inv found
    have thereK : (renamePlan d d' specs)[k]? = some (renameSpec d d' dep) := by
      rw [getElem?_renamePlan, there, Option.map_some]
    obtain ⟨depsK, askedK, madeK⟩ := key_inv thereK after'
    obtain ⟨depsM, askedM, madeM⟩ := key_inv there'' stored
    have memberK := List.mem_of_getElem? there
    have memberM := List.mem_of_getElem? there''
    have fewK : (renameSpec d d' dep).needs.length < 256 ^ 8 := by
      show (dep.needs.map _).length < _
      rw [List.length_map]
      exact sizes.needs dep memberK
    have names : dep'.name = renameName d d' dep.name :=
      (parts_of_key collisionFree (sizes.spec dep' memberM) (sizes.renamed memberK)
        (sized_deps (sizes.needs dep' memberM) askedM) (sized_deps fewK askedK)
        (fun bytes hashed => .inl ⟨m, dep', depsM, there'', askedM, hashed⟩)
        (fun bytes hashed => .inr ⟨k, _, depsK, thereK, askedK, hashed⟩) madeM madeK).1
    rw [mNamed, depNamed] at names
    by_cases mine : need = d
    · have fresh : need' = d' := names.trans (if_pos mine)
      have away : need' ≠ d := fresh ▸ differs
      have same : renameName d d' need = renameName d d' need' := by
        rw [← names]
        exact (if_neg away).symm
      exact away ((injective _ _ (occurs_need here needs) (occurs_need here needs') same).symm.trans
        mine)
    · have same : need' = need := names.trans (if_neg mine)
      rw [same] at at''
      obtain rfl := Option.some.inj (at'.symm.trans at'')
      rw [before] at stored
      exact changed (Except.ok.inj (Option.some.inj stored))

theorem renameSpec_self (spec : StepSpec) : renameSpec d d spec = spec := by
  have same : renameName d d = id := by
    funext name
    unfold renameName
    split_ifs with mine
    · exact mine.symm
    · rfl
  unfold renameSpec
  rw [same, List.map_id]
  rfl

/-- **A renamed step is a cache hit only for what no key reaches from it.** With a hash that does not
collide on what the two plans feed to it, a step other than the renamed one has the same result
exactly when the name did not change, the step has no key, or it does not need the renamed step. -/
theorem rename_hit_iff (collisionFree : Set.InjOn blake3 (Hashed blake3 memo ctx tree specs ∪
      Hashed blake3 memo ctx tree (renamePlan d d' specs)))
    (injective : Injective d d' specs) (sizes : PlanSizes memo ctx tree specs d') {i : ℕ}
    {spec : StepSpec} (here : specs[i]? = some spec) (other : spec.name ≠ d) :
    (∃ r r', (planStepKeys blake3 memo ctx tree specs)[i]? = some r ∧
      (planStepKeys blake3 memo ctx tree (renamePlan d d' specs))[i]? = some r' ∧
      SameResult r r') ↔
        d' = d ∨ ¬ Cacheable memo ctx tree specs i ∨ ¬ Downstream specs d spec := by
  obtain ⟨r, r', before, after', alike⟩ : ∃ r r',
      (keysHeld blake3 memo ctx tree specs)[i]? = some r ∧
      (renamedKeys blake3 memo ctx tree d d' specs)[i]? = some r' ∧ Alike r r' :=
    alike_keys injective here
  constructor
  · rintro ⟨s, s', found, found', same⟩
    obtain rfl := Option.some.inj (before.symm.trans found)
    obtain rfl := Option.some.inj (after'.symm.trans found')
    by_contra all
    rw [not_or, not_or, not_not, not_not] at all
    obtain ⟨differs, cacheable, below⟩ := all
    obtain ⟨key, ok⟩ := (isOk_iff_cacheable here).mpr cacheable
    obtain rfl := Option.some.inj (before.symm.trans ok)
    cases r' with
    | error e => exact alike
    | ok key' =>
      exact changed_key collisionFree differs injective sizes here (.inr below) ok after'
        (same.2 key key' rfl rfl)
  · intro condition
    refine ⟨r, r', before, after', alike, ?_⟩
    rintro key key' rfl rfl
    rcases condition with rfl | uncached | apart
    · have unchanged : renamePlan d' d' specs = specs := by
        unfold renamePlan
        exact (List.map_congr_left fun spec _ => renameSpec_self spec).trans (List.map_id specs)
      unfold renamedKeys at after'
      rw [unchanged] at after'
      exact Except.ok.inj (Option.some.inj (before.symm.trans after'))
    · exact absurd ((isOk_iff_cacheable here).mp ⟨key, before⟩) uncached
    · have kept := kept_key injective here other apart before
      exact Except.ok.inj (Option.some.inj (kept.symm.trans after'))

end Renamed

/-! ### A library and its tests -/

/-- A build step and one that needs it, over the same inputs. -/
def libPlan : List StepSpec :=
  [{ name := "lib", inputs := ["src/**"] },
    { name := "test", inputs := ["src/**"], needs := ["lib"] }]

/-- A hash for small plans: the bytes as one number, cut to 32 bytes. -/
def toyHash (bytes : List UInt8) : Vector UInt8 32 :=
  let n := bytes.foldl (fun n b => (n * 257 + b.toNat) % 256 ^ 32) 0
  Vector.ofFn fun i => UInt8.ofNat (n / 256 ^ i.val)

/-- What the pass feeds to the hash for the step at `i`. -/
def fedAt (specs : List StepSpec) (i : ℕ) : Option (List UInt8) :=
  match specs[i]? with
  | none => none
  | some spec =>
    match dependencyKeys specs ((planStepKeys toyHash constDigest memberContext () specs).take i)
        spec.needs with
    | .error _ => none
    | .ok deps => (keyInput constDigest memberContext () spec deps).toOption

theorem hashed_fedAt {specs : List StepSpec} {bytes : List UInt8}
    (fed : bytes ∈ Hashed toyHash constDigest memberContext () specs) :
    bytes ∈ (List.range specs.length).filterMap (fedAt specs) := by
  obtain ⟨i, spec, deps, here, asked, hashed⟩ := fed
  refine List.mem_filterMap.mpr ⟨i, List.mem_range.mpr (List.getElem?_eq_some_iff.mp here).1, ?_⟩
  unfold fedAt
  simp only [here, asked, hashed]
  rfl

theorem libPlan_sizes {d' : String} (sized : Sized (utf8 d')) :
    PlanSizes constDigest memberContext () libPlan d' where
  spec spec member := by
    have digests : ∀ p ∈ inputSet constDigest memberContext () spec,
        Sized (utf8 p.1) ∧ Sized (utf8 p.2) := by
      rintro ⟨glob, digest⟩ ⟨listed, d, answer, same⟩
      obtain rfl := Except.ok.inj answer
      obtain rfl : digest = "d" := same.symm
      refine ⟨?_, (by decide +kernel : Sized (utf8 "d"))⟩
      obtain ⟨raw, present, rfl⟩ := List.mem_map.mp listed
      have plain : raw = "src/**" := by
        rcases List.mem_pair.mp member with rfl | rfl <;> exact List.mem_singleton.mp present
      rw [plain]
      decide +kernel
    have none : SizedTexts [] := noDeps_sized
    have bare : SizedPairs [] := ⟨(by decide : 0 < 256 ^ 8), fun _ member => by cases member⟩
    rcases List.mem_pair.mp member with rfl | rfl
    · exact ⟨by decide +kernel, by decide +kernel, by decide +kernel, by decide +kernel, none, none,
        (by decide : 1 < 256 ^ 8), digests, bare⟩
    · exact ⟨by decide +kernel, by decide +kernel, by decide +kernel, by decide +kernel, none, none,
        (by decide : 1 < 256 ^ 8), digests, bare⟩
  needs spec member := by
    rcases List.mem_pair.mp member with rfl | rfl
    · exact (by decide : 0 < 256 ^ 8)
    · exact (by decide : 1 < 256 ^ 8)
  name := sized

theorem testRenamed_collisionFree :
    Set.InjOn toyHash (Hashed toyHash constDigest memberContext () libPlan ∪
      Hashed toyHash constDigest memberContext () (renamePlan "test" "check" libPlan)) := by
  have apart : ∀ b ∈ (List.range 2).filterMap (fedAt libPlan) ++
        (List.range 2).filterMap (fedAt (renamePlan "test" "check" libPlan)),
      ∀ b' ∈ (List.range 2).filterMap (fedAt libPlan) ++
        (List.range 2).filterMap (fedAt (renamePlan "test" "check" libPlan)),
      toyHash b = toyHash b' → b = b' := by
    decide +kernel
  have listed : ∀ b ∈ Hashed toyHash constDigest memberContext () libPlan ∪
      Hashed toyHash constDigest memberContext () (renamePlan "test" "check" libPlan),
      b ∈ (List.range 2).filterMap (fedAt libPlan) ++
        (List.range 2).filterMap (fedAt (renamePlan "test" "check" libPlan)) := by
    rintro b (fed | fed)
    · exact List.mem_append_left _ (hashed_fedAt fed)
    · exact List.mem_append_right _ (hashed_fedAt fed)
  exact fun b fed b' fed' same => apart b (listed b fed) b' (listed b' fed') same

theorem testRenamed_injective : Injective "test" "check" libPlan := by
  have occurs : ∀ name, Occurs libPlan name → name = "lib" ∨ name = "test" := by
    rintro name ⟨spec, member, mine | needs⟩
    · rcases List.mem_pair.mp member with rfl | rfl
      · exact .inl mine.symm
      · exact .inr mine.symm
    · rcases List.mem_pair.mp member with rfl | rfl
      · cases needs
      · exact .inl (List.mem_singleton.mp needs)
  intro name name' here there
  rcases occurs name here with rfl | rfl <;> rcases occurs name' there with rfl | rfl <;> decide

/-- Renaming the tests keeps the key of the library. -/
theorem rename_hit_lib :
    ∃ r r', (planStepKeys toyHash constDigest memberContext () libPlan)[0]? = some r ∧
      (planStepKeys toyHash constDigest memberContext ()
        (renamePlan "test" "check" libPlan))[0]? = some r' ∧ SameResult r r' := by
  have apart : ¬ Downstream libPlan "test" { name := "lib", inputs := ["src/**"] } := by
    rintro (needs | needs) <;> cases needs
  exact (rename_hit_iff testRenamed_collisionFree testRenamed_injective
    (libPlan_sizes (by decide +kernel)) rfl (by decide)).mpr (.inr (.inr apart))

/-- **Renaming a step is no hit for what needs it**: under its new name the library has a new key, and
so have its tests, although nothing that either of them does has changed. -/
theorem renamed_lib_misses :
    ∃ k k', (planStepKeys toyHash constDigest memberContext () libPlan)[1]? = some (.ok k) ∧
      (planStepKeys toyHash constDigest memberContext ()
        (renamePlan "lib" "base" libPlan))[1]? = some (.ok k') ∧ k ≠ k' := by
  refine ⟨((planStepKeys toyHash constDigest memberContext () libPlan)[1]?.bind
      Except.toOption).getD "", ((planStepKeys toyHash constDigest memberContext ()
        (renamePlan "lib" "base" libPlan))[1]?.bind Except.toOption).getD "", ?_⟩
  decide +kernel

end HullCi.Control
