/-
**What advancing the graph means.**

The meaning of a plan's `needs` is stated without passes: a step dangles when it needs a name the
plan does not declare; it is doomed when a step that went wrong, or dangles, is behind it through
pending steps (the least such set); it is free when every step it needs is done. `fate` reads off
what becomes of a step, and `advance` computes it, in any order of the steps.

* `gate_eq` — a gate in one equation: undeclared, else blocked, else waiting, else ready.
* `between_pass` — every pass moves steps towards their fate only.
* `advance_eq_fate` — after the loop and the cycle rule each step has met its fate.
* `advance_least` — the rules as they read in the final state, with a second call and the order of
  the steps.
-/

import HullCi.Control.Progress

namespace HullCi.Control

open HullCi.Proto HullCi.Base

/-! ### The meaning of `needs` -/

/-- The step of that name: the first one declared. -/
def named (steps : List Step) (name : String) : Option Step :=
  steps.find? (·.spec.name = name)

/-- Done, as far as the steps below it are concerned. -/
def Step.done (s : Step) : Bool :=
  s.state = .passed ∨ s.state = .cached ∨ (s.state = .failed ∧ s.spec.continueOnError = true)

/-- Gone wrong: nothing below it will run. -/
def Step.spoiled (s : Step) : Bool :=
  s.failedFatally ∨ s.state = .errored ∨ s.state = .skipped

/-- The step needs a name that the plan does not declare. -/
def Dangling (steps : List Step) (s : Step) : Prop :=
  ∃ name ∈ s.spec.needs, named steps name = none

/-- Something has gone wrong behind the step, directly or through pending steps. -/
inductive Doomed (steps : List Step) : Step → Prop
  | spoiled {s dep : Step} {name : String} (needs : name ∈ s.spec.needs)
      (found : named steps name = some dep) (spoiled : dep.spoiled = true) : Doomed steps s
  | dangling {s dep : Step} {name : String} (needs : name ∈ s.spec.needs)
      (found : named steps name = some dep) (pending : dep.state = .pending)
      (dangling : Dangling steps dep) : Doomed steps s
  | through {s dep : Step} {name : String} (needs : name ∈ s.spec.needs)
      (found : named steps name = some dep) (pending : dep.state = .pending)
      (doomed : Doomed steps dep) : Doomed steps s

/-- Everything the step needs is done. -/
def Free (steps : List Step) (s : Step) : Prop :=
  ∀ name ∈ s.spec.needs, ∃ dep, named steps name = some dep ∧ dep.done = true

/-- Something is ready or in flight, or will be as soon as the graph has advanced. -/
def Alive (steps : List Step) : Prop :=
  ∃ s ∈ steps, live [s] = true ∨ (s.state = .pending ∧ Free steps s)

/-- A step errored by the graph. -/
def Step.broken (now : Instant) (detail : String) (s : Step) : Step :=
  { s with
    state := .errored
    errorReason := some .infra
    detail := detail
    finishedAt := some now }

/-- What the graph writes on a step that needs an undeclared name. -/
def undeclaredDetail (name : String) : String :=
  "needs " ++ quoted name needsNameCap ++ ", which the plan does not declare"

/-- The first undeclared name a step needs. -/
def firstUndeclared (steps : List Step) (s : Step) : Option String :=
  s.spec.needs.find? fun name => (named steps name).isNone

open Classical in
/-- What becomes of a step. -/
noncomputable def fate (now : Instant) (steps : List Step) (s : Step) : Step :=
  if s.state ≠ .pending then s
  else match firstUndeclared steps s with
    | some name => s.broken now (undeclaredDetail name)
    | none =>
      if Doomed steps s then { s with state := .skipped, finishedAt := some now }
      else if Free steps s then { s with state := .ready, readyAt := some now }
      else if Alive steps then s
      else s.broken now cycleDetail

/-! ### Small facts -/

theorem dangling_iff {steps : List Step} {s : Step} :
    Dangling steps s ↔ (firstUndeclared steps s).isSome = true := by
  unfold Dangling firstUndeclared
  rw [List.find?_isSome]
  simp

theorem not_spoiled_of_done {s : Step} (done : s.done = true) : s.spoiled = false := by
  unfold Step.done at done
  unfold Step.spoiled Step.failedFatally
  cases state : s.state <;> simp_all

theorem not_pending_of_done {s : Step} (done : s.done = true) : s.state ≠ .pending := by
  intro pending
  simp [Step.done, pending] at done

theorem Free.not_dangling {steps : List Step} {s : Step} (free : Free steps s) :
    ¬ Dangling steps s := by
  rintro ⟨name, needs, none⟩
  obtain ⟨dep, found, -⟩ := free name needs
  rw [none] at found
  cases found

theorem Free.not_doomed {steps : List Step} {s : Step} (free : Free steps s) :
    ¬ Doomed steps s := by
  intro doomed
  cases doomed with
  | spoiled needs found spoiled =>
    obtain ⟨dep, found', done⟩ := free _ needs
    obtain rfl := Option.some.inj (found.symm.trans found')
    rw [not_spoiled_of_done done] at spoiled
    cases spoiled
  | dangling needs found pending | through needs found pending =>
    obtain ⟨dep, found', done⟩ := free _ needs
    obtain rfl := Option.some.inj (found.symm.trans found')
    exact not_pending_of_done done pending

/-! ### A gate in one equation -/

/-- What a step says to the steps that need it. -/
def Step.standing (s : Step) : DepStatus :=
  if s.done then .satisfied else if s.spoiled then .blocked else .waiting

theorem depStatus_snapshot (steps : List Step) (name : String) :
    depStatus name (snapshot steps) = ((named steps name).map Step.standing).getD .unknown := by
  unfold depStatus snapshot named
  rw [List.find?_map]
  have same : ((fun seen : Seen => decide (seen.name = name)) ∘ fun s : Step =>
      (⟨s.spec.name, s.state, s.spec.continueOnError⟩ : Seen)) =
        fun s => decide (s.spec.name = name) := rfl
  rw [same]
  cases steps.find? fun s => decide (s.spec.name = name) with
  | none => rfl
  | some s =>
    simp only [Option.map_some, Option.getD_some]
    cases state : s.state <;> cases lenient : s.spec.continueOnError <;>
      simp [Step.standing, Step.done, Step.spoiled, Step.failedFatally, state, lenient]

theorem gateLoop_eq (view : List Seen) (needs : List String) (blocked waiting : Bool) :
    gateLoop view needs blocked waiting =
      match needs.find? fun name => depStatus name view = .unknown with
      | some name => .undeclared name
      | none =>
        if blocked ∨ ∃ name ∈ needs, depStatus name view = .blocked then .skip
        else if waiting ∨ ∃ name ∈ needs, depStatus name view = .waiting then .wait
        else .ready := by
  induction needs generalizing blocked waiting with
  | nil => cases blocked <;> cases waiting <;> simp [gateLoop]
  | cons name needs ih =>
    unfold gateLoop
    cases status : depStatus name view <;> simp [status, ih]

theorem gate_eq (needs : List String) (view : List Seen) :
    gate needs view =
      match needs.find? fun name => depStatus name view = .unknown with
      | some name => .undeclared name
      | none =>
        if ∃ name ∈ needs, depStatus name view = .blocked then .skip
        else if ∃ name ∈ needs, depStatus name view = .waiting then .wait
        else .ready := by
  unfold gate
  rw [gateLoop_eq]
  simp

/-! ### Towards the fate -/

/-- The step is where it was, or has met its fate. -/
def Between (now : Instant) (steps : List Step) (s s' : Step) : Prop :=
  s' = s ∨ (s.state = .pending ∧ s' = fate now steps s ∧
    (Dangling steps s ∨ Doomed steps s ∨ Free steps s))

theorem fate_kept {now : Instant} {steps : List Step} {s : Step} (moved : s.state ≠ .pending) :
    fate now steps s = s := by
  unfold fate
  rw [if_pos moved]

theorem fate_undeclared {now : Instant} {steps : List Step} {s : Step} {name : String}
    (pending : s.state = .pending) (first : firstUndeclared steps s = some name) :
    fate now steps s = s.broken now (undeclaredDetail name) := by
  unfold fate
  rw [if_neg (not_not.mpr pending), first]

theorem firstUndeclared_eq_none {steps : List Step} {s : Step} (declared : ¬ Dangling steps s) :
    firstUndeclared steps s = none := by
  rw [dangling_iff] at declared
  exact Option.not_isSome_iff_eq_none.mp declared

theorem fate_doomed {now : Instant} {steps : List Step} {s : Step} (pending : s.state = .pending)
    (declared : ¬ Dangling steps s) (doomed : Doomed steps s) :
    fate now steps s = { s with state := .skipped, finishedAt := some now } := by
  unfold fate
  rw [if_neg (not_not.mpr pending), firstUndeclared_eq_none declared]
  exact if_pos doomed

theorem fate_free {now : Instant} {steps : List Step} {s : Step} (pending : s.state = .pending)
    (free : Free steps s) : fate now steps s = { s with state := .ready, readyAt := some now } := by
  unfold fate
  rw [if_neg (not_not.mpr pending), firstUndeclared_eq_none free.not_dangling]
  exact (if_neg free.not_doomed).trans (if_pos free)

open Classical in
theorem fate_stuck {now : Instant} {steps : List Step} {s : Step} (pending : s.state = .pending)
    (declared : ¬ Dangling steps s) (sound : ¬ Doomed steps s) (held : ¬ Free steps s) :
    fate now steps s = if Alive steps then s else s.broken now cycleDetail := by
  unfold fate
  rw [if_neg (not_not.mpr pending), firstUndeclared_eq_none declared]
  exact (if_neg sound).trans (if_neg held)

theorem fate_spec (now : Instant) (steps : List Step) (s : Step) :
    (fate now steps s).spec = s.spec := by
  unfold fate
  split
  · rfl
  · split
    · rfl
    · split_ifs <;> rfl

theorem Between.spec {now : Instant} {steps : List Step} {s s' : Step}
    (between : Between now steps s s') : s'.spec = s.spec := by
  rcases between with rfl | ⟨-, rfl, -⟩
  · rfl
  · exact fate_spec now steps s

/-- Rewriting steps that keep their specs keeps what a name finds. -/
theorem named_map {f : Step → Step} {steps : List Step} (specs : ∀ s ∈ steps, (f s).spec = s.spec)
    (name : String) : named (steps.map f) name = (named steps name).map f := by
  unfold named
  induction steps with
  | nil => rfl
  | cons s rest ih =>
    have first := specs s List.mem_cons_self
    have rest' := ih fun s member => specs s (List.mem_cons_of_mem _ member)
    rw [List.map_cons]
    by_cases here : s.spec.name = name
    · rw [List.find?_cons_of_pos (by simpa [first] using here),
        List.find?_cons_of_pos (by simpa using here)]
      rfl
    · rw [List.find?_cons_of_neg (by simpa [first] using here),
        List.find?_cons_of_neg (by simpa using here)]
      exact rest'

/-- A step that has met its fate before the cycle rule is ready, skipped or errored. -/
theorem Between.moved {now : Instant} {steps : List Step} {s s' : Step}
    (between : Between now steps s s') (pending : s.state = .pending)
    (moved : s'.state ≠ .pending) :
    s' = fate now steps s ∧ (s'.state = .ready ∧ Free steps s ∨
      s'.spoiled = true ∧ (Dangling steps s ∨ Doomed steps s)) := by
  rcases between with rfl | ⟨-, rfl, why⟩
  · exact absurd pending moved
  refine ⟨rfl, ?_⟩
  by_cases dangling : Dangling steps s
  · obtain ⟨name, first⟩ := Option.isSome_iff_exists.mp (dangling_iff.mp dangling)
    rw [fate_undeclared pending first]
    exact .inr ⟨by simp [Step.broken, Step.spoiled], .inl dangling⟩
  by_cases doomed : Doomed steps s
  · rw [fate_doomed pending dangling doomed]
    exact .inr ⟨by simp [Step.spoiled], .inr doomed⟩
  · have free := (why.resolve_left dangling).resolve_left doomed
    rw [fate_free pending free]
    exact .inl ⟨rfl, free⟩

theorem Between.still {now : Instant} {steps : List Step} {s s' : Step}
    (between : Between now steps s s') (pending : s'.state = .pending) : s' = s := by
  by_contra other
  obtain ⟨was, same, why⟩ := between.resolve_left other
  have moved : s'.state ≠ .pending := by
    rw [same]
    by_cases dangling : Dangling steps s
    · obtain ⟨name, first⟩ := Option.isSome_iff_exists.mp (dangling_iff.mp dangling)
      rw [fate_undeclared was first]
      simp [Step.broken]
    by_cases doomed : Doomed steps s
    · rw [fate_doomed was dangling doomed]
      simp
    · rw [fate_free was ((why.resolve_left dangling).resolve_left doomed)]
      simp
  exact moved pending

theorem mem_of_named {steps : List Step} {name : String} {s : Step}
    (found : named steps name = some s) : s ∈ steps :=
  List.mem_of_find?_eq_some found

theorem passStep_pending {now : Instant} {view : List Seen} {s : Step} (pending : s.state = .pending) :
    passStep now view s = match gate s.spec.needs view with
      | .wait => s
      | .ready => { s with state := .ready, readyAt := some now }
      | .skip => { s with state := .skipped, finishedAt := some now }
      | .undeclared name => s.broken now (undeclaredDetail name) := by
  have legal : ∀ next, StepState.pending.canTransitionTo next = true →
      (s.transition next).toOption = some { s with state := next } :=
    fun next legal => Step.toOption_transition_eq_some.mpr ⟨pending ▸ legal, rfl⟩
  unfold passStep decision
  rw [if_pos pending]
  cases gate s.spec.needs view with
  | wait => rfl
  | ready => rw [settle, legal .ready rfl]; rfl
  | skip => rw [settle, legal .skipped rfl]; rfl
  | undeclared name => rw [settle, errorInfra, legal .errored rfl]; rfl

section Pass

variable {now : Instant} {steps : List Step} {g : Step → Step}
  (between : ∀ s ∈ steps, Between now steps s (g s))
include between

theorem named_between (name : String) : named (steps.map g) name = (named steps name).map g :=
  named_map (fun s member => (between s member).spec) name

theorem depStatus_between (name : String) :
    depStatus name (snapshot (steps.map g)) =
      ((named steps name).map fun dep => (g dep).standing).getD .unknown := by
  rw [depStatus_snapshot, named_between between, Option.map_map]
  rfl

theorem unknown_between (name : String) :
    depStatus name (snapshot (steps.map g)) = .unknown ↔ named steps name = none := by
  rw [depStatus_between between]
  cases named steps name with
  | none => simp
  | some dep =>
    simp only [Option.map_some, Option.getD_some, reduceCtorEq, iff_false]
    unfold Step.standing
    split_ifs <;> simp

theorem doomed_of_blocked {s : Step} {name : String} (needs : name ∈ s.spec.needs)
    (blocked : depStatus name (snapshot (steps.map g)) = .blocked) : Doomed steps s := by
  rw [depStatus_between between] at blocked
  cases found : named steps name with
  | none => simp [found] at blocked
  | some dep =>
    have spoiled : (g dep).spoiled = true := by
      simp only [found, Option.map_some, Option.getD_some, Step.standing] at blocked
      split_ifs at blocked with done spoiled
      exact spoiled
    have member := mem_of_named found
    by_cases pending : dep.state = .pending
    · have moved : (g dep).state ≠ .pending := fun still => by
        simp [Step.spoiled, Step.failedFatally, still] at spoiled
      obtain ⟨-, ⟨ready, -⟩ | ⟨-, dangling | doomed⟩⟩ := (between dep member).moved pending moved
      · simp [Step.spoiled, Step.failedFatally, ready] at spoiled
      · exact .dangling needs found pending dangling
      · exact .through needs found pending doomed
    · have same : g dep = dep := by
        rcases between dep member with same | ⟨was, -⟩
        · exact same
        · exact absurd was pending
      exact .spoiled needs found (same ▸ spoiled)

theorem done_of_satisfied {name : String}
    (satisfied : depStatus name (snapshot (steps.map g)) = .satisfied) :
    ∃ dep, named steps name = some dep ∧ dep.done = true := by
  rw [depStatus_between between] at satisfied
  cases found : named steps name with
  | none => simp [found] at satisfied
  | some dep =>
    have done : (g dep).done = true := by
      simp only [found, Option.map_some, Option.getD_some, Step.standing] at satisfied
      split_ifs at satisfied with done
      exact done
    refine ⟨dep, rfl, ?_⟩
    rcases between dep (mem_of_named found) with same | ⟨pending, same, why⟩
    · rwa [same] at done
    · have moved := not_pending_of_done done
      obtain ⟨-, ⟨ready, -⟩ | ⟨spoiled, -⟩⟩ :=
        (between dep (mem_of_named found)).moved pending moved
      · simp [Step.done, ready] at done
      · rw [not_spoiled_of_done done] at spoiled
        cases spoiled

/-- The first undeclared name is the same before every pass. -/
theorem find?_unknown (s : Step) :
    (s.spec.needs.find? fun name => depStatus name (snapshot (steps.map g)) = .unknown) =
      firstUndeclared steps s := by
  unfold firstUndeclared
  congr 1
  funext name
  rw [Bool.eq_iff_iff, decide_eq_true_iff, unknown_between between, Option.isNone_iff_eq_none]

/-- **Every pass moves steps towards their fate only.** -/
theorem between_pass : ∀ s ∈ steps,
    Between now steps s (passStep now (snapshot (steps.map g)) (g s)) := by
  intro s member
  by_cases moved : (g s).state ≠ .pending
  · have same : passStep now (snapshot (steps.map g)) (g s) = g s := by
      rcases passStep_cases now (snapshot (steps.map g)) (g s) with same | ⟨pending, -⟩
      · exact same
      · exact absurd pending moved
    rw [same]
    exact between s member
  have still : g s = s := (between s member).still (not_not.mp moved)
  have pending : s.state = .pending := still ▸ not_not.mp moved
  rw [still, passStep_pending pending, gate_eq, find?_unknown between]
  cases first : firstUndeclared steps s with
  | some name =>
    have dangling := dangling_iff.mpr (Option.isSome_iff_exists.mpr ⟨name, first⟩)
    exact .inr ⟨pending, (fate_undeclared pending first).symm, .inl dangling⟩
  | none =>
    have declared : ¬ Dangling steps s := by
      rw [dangling_iff, first]
      exact Bool.false_ne_true
    dsimp only
    by_cases blocked : ∃ name ∈ s.spec.needs, depStatus name (snapshot (steps.map g)) = .blocked
    · obtain ⟨name, needs, why⟩ := blocked
      have doomed := doomed_of_blocked between needs why
      rw [if_pos ⟨name, needs, why⟩]
      exact .inr ⟨pending, (fate_doomed pending declared doomed).symm, .inr (.inl doomed)⟩
    rw [if_neg blocked]
    by_cases waiting : ∃ name ∈ s.spec.needs, depStatus name (snapshot (steps.map g)) = .waiting
    · rw [if_pos waiting]
      exact .inl rfl
    rw [if_neg waiting]
    have free : Free steps s := by
      intro name needs
      refine done_of_satisfied between ?_
      cases status : depStatus name (snapshot (steps.map g)) with
      | satisfied => rfl
      | blocked => exact absurd ⟨name, needs, status⟩ blocked
      | waiting => exact absurd ⟨name, needs, status⟩ waiting
      | unknown => exact absurd ⟨name, needs, (unknown_between between name).mp status⟩ declared
    exact .inr ⟨pending, (fate_free pending free).symm, .inr (.inr free)⟩

theorem waits_of_settled (settled : (advancePass now (steps.map g)).2 = []) {s : Step}
    (member : s ∈ steps) (pending : (g s).state = .pending) :
    gate s.spec.needs (snapshot (steps.map g)) = .wait := by
  have still : g s = s := (between s member).still pending
  have none : settle now (g s) (decision (snapshot (steps.map g)) (g s)) = none := by
    have none := (List.filterMap_eq_nil_iff.mp settled) (g s) (List.mem_map_of_mem member)
    simpa using none
  have waits := settle_eq_none pending none
  rwa [decision, if_pos pending, still] at waits

/-- **After the last pass, what is pending is neither dangling, doomed nor free.** -/
theorem held_of_settled (settled : (advancePass now (steps.map g)).2 = []) {s : Step}
    (member : s ∈ steps) (pending : (g s).state = .pending) :
    ¬ Dangling steps s ∧ ¬ Doomed steps s ∧ ¬ Free steps s := by
  have calm : ∀ s ∈ steps, (g s).state = .pending → ¬ Dangling steps s ∧
      (∀ name ∈ s.spec.needs, depStatus name (snapshot (steps.map g)) ≠ .blocked) ∧
      ∃ name ∈ s.spec.needs, depStatus name (snapshot (steps.map g)) = .waiting := by
    intro s member pending
    obtain ⟨-, some, all⟩ := gateLoop_wait (waits_of_settled between settled member pending)
    refine ⟨fun ⟨name, needs, undeclared⟩ => ?_, fun name needs blocked => ?_,
      some.resolve_left Bool.false_ne_true⟩
    · have unknown := (unknown_between between name).mpr undeclared
      rcases all name needs with waits | done
      · rw [unknown] at waits
        cases waits
      · rw [unknown] at done
        cases done
    · rcases all name needs with waits | done
      · rw [blocked] at waits
        cases waits
      · rw [blocked] at done
        cases done
  -- What dooms a step has moved by now, so the step would be blocked.
  have unblocked : ∀ {s dep : Step} {name : String}, s ∈ steps → (g s).state = .pending →
      name ∈ s.spec.needs → named steps name = some dep → (g dep).spoiled = false := by
    intro s dep name member pending needs found
    by_contra spoiled
    rw [Bool.not_eq_false] at spoiled
    refine (calm s member pending).2.1 name needs ?_
    have undone : (g dep).done = false := by
      by_contra done
      rw [not_spoiled_of_done (Bool.not_eq_false _ ▸ done)] at spoiled
      cases spoiled
    rw [depStatus_between between, found]
    simp [Step.standing, undone, spoiled]
  have sound : ∀ s, Doomed steps s → s ∈ steps → (g s).state ≠ .pending := by
    intro s doomed
    induction doomed with
    | @spoiled s dep name needs found spoiled =>
      intro member pending
      have clean := unblocked member pending needs found
      have moved : dep.state ≠ .pending := fun still => by
        simp [Step.spoiled, Step.failedFatally, still] at spoiled
      have same : g dep = dep := by
        rcases between dep (mem_of_named found) with same | ⟨was, -⟩
        · exact same
        · exact absurd was moved
      rw [same, spoiled] at clean
      cases clean
    | @dangling s dep name needs found was dangling =>
      intro member pending
      have clean := unblocked member pending needs found
      have moved : (g dep).state ≠ .pending := fun still =>
        (calm dep (mem_of_named found) still).1 dangling
      obtain ⟨-, ⟨-, free⟩ | ⟨spoiled, -⟩⟩ := (between dep (mem_of_named found)).moved was moved
      · exact free.not_dangling dangling
      · rw [spoiled] at clean
        cases clean
    | @through s dep name needs found was doomed ih =>
      intro member pending
      have clean := unblocked member pending needs found
      have moved := ih (mem_of_named found)
      obtain ⟨-, ⟨-, free⟩ | ⟨spoiled, -⟩⟩ := (between dep (mem_of_named found)).moved was moved
      · exact free.not_doomed doomed
      · rw [spoiled] at clean
        cases clean
  refine ⟨(calm s member pending).1, fun doomed => sound s doomed member pending, fun free => ?_⟩
  obtain ⟨name, needs, waits⟩ := (calm s member pending).2.2
  obtain ⟨dep, found, done⟩ := free name needs
  have same : g dep = dep := by
    rcases between dep (mem_of_named found) with same | ⟨was, -⟩
    · exact same
    · exact absurd was (not_pending_of_done done)
  rw [depStatus_between between, found] at waits
  simp [Step.standing, same, done] at waits

/-- **Something is live after the last pass exactly when something was, or a pending step was
free.** -/
theorem live_of_settled (settled : (advancePass now (steps.map g)).2 = []) :
    live (steps.map g) = true ↔ Alive steps := by
  have single : ∀ s : Step, live [s] = true ↔
      s.state = .ready ∨ s.state = .leased ∨ s.state = .running := by
    intro s
    simp [live]
  constructor
  · intro alive
    obtain ⟨s', member', state⟩ := List.any_eq_true.mp alive
    obtain ⟨s, member, rfl⟩ := List.mem_map.mp member'
    have state := of_decide_eq_true state
    rcases between s member with same | ⟨pending, -, -⟩
    · exact ⟨s, member, .inl ((single s).mpr (same ▸ state))⟩
    · have moved : (g s).state ≠ .pending := fun still => by simp [still] at state
      obtain ⟨-, ⟨-, free⟩ | ⟨spoiled, -⟩⟩ := (between s member).moved pending moved
      · exact ⟨s, member, .inr ⟨pending, free⟩⟩
      · simp only [Step.spoiled, Step.failedFatally] at spoiled
        rcases state with state | state | state <;> simp [state] at spoiled
  · rintro ⟨s, member, alive | ⟨pending, free⟩⟩
    · have moved : s.state ≠ .pending := fun still => by
        simpa [still] using (single s).mp alive
      have same : g s = s := by
        rcases between s member with same | ⟨was, -⟩
        · exact same
        · exact absurd was moved
      refine List.any_eq_true.mpr ⟨g s, List.mem_map_of_mem member, decide_eq_true ?_⟩
      rw [same]
      exact (single s).mp alive
    · have moved : (g s).state ≠ .pending := fun still =>
        (held_of_settled between settled member still).2.2 free
      obtain ⟨-, ⟨ready, -⟩ | ⟨-, dangling | doomed⟩⟩ := (between s member).moved pending moved
      · exact List.any_eq_true.mpr ⟨g s, List.mem_map_of_mem member,
          decide_eq_true (.inl ready)⟩
      · exact absurd dangling free.not_dangling
      · exact absurd doomed free.not_doomed

end Pass

/-! ### What `advance` does -/

/-- The loop leaves a rewriting of its steps that is between them and their fate. -/
theorem advanceLoop_between (now : Instant) (steps : List Step) (fuel : ℕ) :
    ∃ g : Step → Step, (advanceLoop now fuel steps).1 = steps.map g ∧
      ∀ s ∈ steps, Between now steps s (g s) := by
  refine advanceLoop_keeps (I := fun cur => ∃ g : Step → Step, cur = steps.map g ∧
    ∀ s ∈ steps, Between now steps s (g s)) ?_ fuel ⟨id, (List.map_id steps).symm, fun s _ => .inl rfl⟩
  rintro cur ⟨g, rfl, between⟩
  exact ⟨fun s => passStep now (snapshot (steps.map g)) (g s), List.map_map,
    between_pass between⟩

theorem breakStep_kept {now : Instant} {s : Step} (moved : s.state ≠ .pending) :
    breakStep now s = s := by
  unfold breakStep
  rw [if_neg moved]

theorem breakStep_pending {now : Instant} {s : Step} (pending : s.state = .pending) :
    breakStep now s = s.broken now cycleDetail := by
  have legal : s.state.canTransitionTo .errored = true := by rw [pending]; rfl
  unfold breakStep
  rw [if_pos pending, errorInfra_eq_some.mpr ⟨legal, rfl⟩]
  rfl

/-- **Advancing gives each step its fate.** -/
theorem advance_eq_fate (now : Instant) (steps : List Step) :
    (advance now steps).1 = steps.map (fate now steps) := by
  have settled := advanceLoop_settled now (pendingCount steps + 1) steps (Nat.lt_succ_self _)
  have final : (advance now steps).1
      = (breakCycle now (advanceLoop now (pendingCount steps + 1) steps).1).1 := rfl
  obtain ⟨g, loop, between⟩ := advanceLoop_between now steps (pendingCount steps + 1)
  rw [loop] at settled final
  rw [final]
  unfold breakCycle
  by_cases alive : live (steps.map g) = true
  · rw [if_pos alive]
    refine List.map_congr_left fun s member => ?_
    by_cases pending : (g s).state = .pending
    · have still := (between s member).still pending
      obtain ⟨declared, sound, held⟩ := held_of_settled between settled member pending
      rw [fate_stuck (still ▸ pending) declared sound held,
        if_pos ((live_of_settled between settled).mp alive), still]
    · rcases between s member with same | ⟨-, same, -⟩
      · rw [same, fate_kept (same ▸ pending)]
      · exact same
  · rw [if_neg alive]
    show (steps.map g).map (breakStep now) = _
    rw [List.map_map]
    refine List.map_congr_left fun s member => ?_
    rw [Function.comp_apply]
    by_cases pending : (g s).state = .pending
    · have still := (between s member).still pending
      obtain ⟨declared, sound, held⟩ := held_of_settled between settled member pending
      rw [fate_stuck (still ▸ pending) declared sound held,
        if_neg fun lives => alive ((live_of_settled between settled).mpr lives),
        breakStep_pending pending, still]
    · rw [breakStep_kept pending]
      rcases between s member with same | ⟨-, same, -⟩
      · rw [same, fate_kept (same ▸ pending)]
      · exact same

/-- **A second call moves nothing**, at any later instant. -/
theorem advance_again (now now' : Instant) (steps : List Step) :
    advance now' (advance now steps).1 = ((advance now steps).1, []) := by
  have quiet : advancePass now' (advance now steps).1 = ((advance now steps).1, []) := by
    have none : passMoved now' (snapshot (advance now steps).1) (advance now steps).1 = [] := by
      refine List.filterMap_eq_nil_iff.mpr fun s member => ?_
      have waits : decision (snapshot (advance now steps).1) s = .wait := by
        unfold decision
        by_cases pending : s.state = .pending
        · rw [if_pos pending]
          obtain ⟨-, waits⟩ := advance_waits now steps member pending
          obtain ⟨name, needs, status⟩ := waits.unfinished
          have known : (s.spec.needs.find? fun name =>
              depStatus name (snapshot (advance now steps).1) = .unknown) = none :=
            List.find?_eq_none.mpr fun name needs unknown => by
              rcases waits.open' name needs with status | status <;> simp [status] at unknown
          have clear : ¬ ∃ name ∈ s.spec.needs,
              depStatus name (snapshot (advance now steps).1) = .blocked := by
            rintro ⟨name, needs, blocked⟩
            rcases waits.open' name needs with status | status <;> simp [status] at blocked
          rw [gate_eq, known]
          dsimp only
          rw [if_neg clear, if_pos ⟨name, needs, status⟩]
        · rw [if_neg pending]
      rw [waits]
      rfl
    refine Prod.ext ?_ none
    show (advance now steps).1.map (passStep now' (snapshot (advance now steps).1)) = _
    refine (List.map_congr_left fun s member => ?_).trans (List.map_id _)
    have still := List.filterMap_eq_nil_iff.mp none s member
    unfold passStep
    rw [Option.map_eq_none_iff.mp still]
    rfl
  have loop : ∀ fuel, advanceLoop now' fuel (advance now steps).1 = ((advance now steps).1, []) := by
    intro fuel
    cases fuel with
    | zero => rfl
    | succ fuel =>
      unfold advanceLoop
      rw [quiet]
  have cycle : breakCycle now' (advance now steps).1 = ((advance now steps).1, []) := by
    unfold breakCycle
    by_cases alive : live (advance now steps).1 = true
    · rw [if_pos alive]
    · rw [if_neg alive]
      have moved : ∀ s ∈ (advance now steps).1, s.state ≠ .pending := fun s member pending =>
        alive (advance_waits now steps member pending).1
      refine Prod.ext ?_ ?_
      · exact (List.map_congr_left fun s member => breakStep_kept (moved s member)).trans
          (List.map_id _)
      · show ((advance now steps).1.filter _).map _ = []
        rw [List.map_eq_nil_iff, List.filter_eq_nil_iff]
        exact fun s member => by simpa using moved s member
  generalize (advance now steps).1 = final at loop cycle ⊢
  unfold advance
  rw [loop]
  dsimp only
  rw [cycle]
  rfl

/-! ### The rules as they read in the final state -/

/-- Some step it needs has, in the final state, failed fatally, been skipped, or errored before the
cycle rule. -/
def Blocked (steps final : List Step) (s : Step) : Prop :=
  ∃ name ∈ s.spec.needs, ∃ dep dep', named steps name = some dep ∧ named final name = some dep' ∧
    (dep'.failedFatally = true ∨ dep'.state = .skipped ∨
      (dep'.state = .errored ∧ (dep.state ≠ .pending ∨ Dangling steps dep)))

/-- What the rules say of one step, before and after. -/
structure Settles (steps final : List Step) (s s' : Step) : Prop where
  kept : s.state ≠ .pending → s' = s
  dangling : s.state = .pending → Dangling steps s →
    s'.state = .errored ∧ s'.errorReason = some .infra
  skipped : s.state = .pending → ¬ Dangling steps s → Blocked steps final s → s'.state = .skipped
  ready : s.state = .pending → ¬ Dangling steps s → ¬ Blocked steps final s → Free final s →
    s'.state = .ready
  waits : s.state = .pending → ¬ Dangling steps s → ¬ Blocked steps final s → ¬ Free final s →
    live final = true → s' = s
  stalled : s.state = .pending → ¬ Dangling steps s → ¬ Blocked steps final s → ¬ Free final s →
    live final = false → s'.state = .errored ∧ s'.errorReason = some .infra
  least : s.state = .pending → s'.state = .skipped → Doomed steps s

theorem named_fate (now : Instant) (steps : List Step) (name : String) :
    named (steps.map (fate now steps)) name = (named steps name).map (fate now steps) :=
  named_map (fun s _ => fate_spec now steps s) name

theorem blocked_iff_doomed (now : Instant) (steps : List Step) (s : Step) :
    Blocked steps (steps.map (fate now steps)) s ↔ Doomed steps s := by
  constructor
  · rintro ⟨name, needs, dep, dep', found, found', why⟩
    rw [named_fate, found] at found'
    obtain rfl := Option.some.inj found'
    by_cases pending : dep.state = .pending
    swap
    · rw [fate_kept pending] at why
      refine .spoiled needs found ?_
      rcases why with fatal | skipped | ⟨errored, -⟩
      · simp [Step.spoiled, fatal]
      · simp [Step.spoiled, skipped]
      · simp [Step.spoiled, errored]
    by_cases dangling : Dangling steps dep
    · exact .dangling needs found pending dangling
    by_cases doomed : Doomed steps dep
    · exact .through needs found pending doomed
    exfalso
    rcases why with fatal | skipped | ⟨-, other | dangling'⟩
    · by_cases free : Free steps dep
      · rw [fate_free pending free] at fatal
        simp [Step.failedFatally] at fatal
      · rw [fate_stuck pending dangling doomed free] at fatal
        split_ifs at fatal
        · simp [Step.failedFatally, pending] at fatal
        · simp [Step.failedFatally, Step.broken] at fatal
    · by_cases free : Free steps dep
      · rw [fate_free pending free] at skipped
        cases skipped
      · rw [fate_stuck pending dangling doomed free] at skipped
        split_ifs at skipped
        · rw [pending] at skipped
          cases skipped
        · cases skipped
    · exact other pending
    · exact dangling dangling'
  · intro doomed
    cases doomed with
    | @spoiled s dep name needs found spoiled =>
      have moved : dep.state ≠ .pending := fun still => by
        simp [Step.spoiled, Step.failedFatally, still] at spoiled
      refine ⟨name, needs, dep, dep, found, by rw [named_fate, found, Option.map_some,
        fate_kept moved], ?_⟩
      simp only [Step.spoiled, decide_eq_true_eq] at spoiled
      rcases spoiled with fatal | errored | skipped
      · exact .inl fatal
      · exact .inr (.inr ⟨errored, .inl moved⟩)
      · exact .inr (.inl skipped)
    | @dangling s dep name needs found pending dangling =>
      obtain ⟨first, undeclared⟩ := Option.isSome_iff_exists.mp (dangling_iff.mp dangling)
      refine ⟨name, needs, dep, _, found, by rw [named_fate, found]; rfl, .inr (.inr ⟨?_, .inr dangling⟩)⟩
      rw [fate_undeclared pending undeclared]
      rfl
    | @through s dep name needs found pending doomed =>
      by_cases dangling : Dangling steps dep
      · obtain ⟨first, undeclared⟩ := Option.isSome_iff_exists.mp (dangling_iff.mp dangling)
        refine ⟨name, needs, dep, _, found, by rw [named_fate, found]; rfl,
          .inr (.inr ⟨?_, .inr dangling⟩)⟩
        rw [fate_undeclared pending undeclared]
        rfl
      · refine ⟨name, needs, dep, _, found, by rw [named_fate, found]; rfl, .inr (.inl ?_)⟩
        rw [fate_doomed pending dangling doomed]

theorem fate_done (now : Instant) (steps : List Step) (s : Step) :
    (fate now steps s).done = s.done := by
  by_cases pending : s.state = .pending
  swap
  · rw [fate_kept pending]
  have undone : s.done = false := by simp [Step.done, pending]
  by_cases dangling : Dangling steps s
  · obtain ⟨first, undeclared⟩ := Option.isSome_iff_exists.mp (dangling_iff.mp dangling)
    rw [fate_undeclared pending undeclared, undone]
    simp [Step.done, Step.broken]
  by_cases doomed : Doomed steps s
  · rw [fate_doomed pending dangling doomed, undone]
    simp [Step.done]
  by_cases free : Free steps s
  · rw [fate_free pending free, undone]
    simp [Step.done]
  rw [fate_stuck pending dangling doomed free]
  split_ifs
  · rfl
  · rw [undone]
    simp [Step.done, Step.broken]

theorem free_fate (now : Instant) (steps : List Step) (s : Step) :
    Free (steps.map (fate now steps)) s ↔ Free steps s := by
  unfold Free
  refine forall₂_congr fun name _ => ?_
  rw [named_fate]
  simp [fate_done]

theorem live_fate (now : Instant) (steps : List Step) :
    live (steps.map (fate now steps)) = true ↔ Alive steps := by
  have settled := advanceLoop_settled now (pendingCount steps + 1) steps (Nat.lt_succ_self _)
  obtain ⟨g, loop, between⟩ := advanceLoop_between now steps (pendingCount steps + 1)
  rw [loop] at settled
  rw [← advance_eq_fate, ← live_of_settled between settled]
  show live (breakCycle now (advanceLoop now (pendingCount steps + 1) steps).1).1 = true ↔ _
  rw [loop]
  unfold breakCycle
  by_cases alive : live (steps.map g) = true
  · rw [if_pos alive]
  · rw [if_neg alive]
    refine ⟨fun lives => ?_, fun lives => absurd lives alive⟩
    obtain ⟨s', member', state⟩ := List.any_eq_true.mp lives
    obtain ⟨s, member, rfl⟩ := List.mem_map.mp member'
    by_cases pending : s.state = .pending
    · simp [breakStep_pending pending, Step.broken] at state
    · rw [breakStep_kept pending] at state
      exact List.any_eq_true.mpr ⟨s, member, state⟩

/-- **The fate of every step follows the rules.** -/
theorem settles_fate (now : Instant) (steps : List Step) (s : Step) :
    Settles steps (steps.map (fate now steps)) s (fate now steps s) where
  kept := fate_kept
  dangling pending dangling := by
    obtain ⟨first, undeclared⟩ := Option.isSome_iff_exists.mp (dangling_iff.mp dangling)
    rw [fate_undeclared pending undeclared]
    exact ⟨rfl, rfl⟩
  skipped pending declared blocked := by
    rw [fate_doomed pending declared ((blocked_iff_doomed now steps s).mp blocked)]
  ready pending _ _ free := by
    rw [fate_free pending ((free_fate now steps s).mp free)]
  waits pending declared sound held lives := by
    rw [blocked_iff_doomed] at sound
    rw [free_fate] at held
    rw [fate_stuck pending declared sound held, if_pos ((live_fate now steps).mp lives)]
  stalled pending declared sound held dead := by
    rw [blocked_iff_doomed] at sound
    rw [free_fate] at held
    rw [fate_stuck pending declared sound held, if_neg fun alive => by
      rw [(live_fate now steps).mpr alive] at dead
      cases dead]
    exact ⟨rfl, rfl⟩
  least pending skipped := by
    by_contra sound
    by_cases dangling : Dangling steps s
    · obtain ⟨first, undeclared⟩ := Option.isSome_iff_exists.mp (dangling_iff.mp dangling)
      rw [fate_undeclared pending undeclared] at skipped
      cases skipped
    by_cases free : Free steps s
    · rw [fate_free pending free] at skipped
      cases skipped
    rw [fate_stuck pending dangling sound free] at skipped
    split_ifs at skipped
    · rw [pending] at skipped
      cases skipped
    · cases skipped

/-! ### The order of the steps -/

/-- With different names, a name finds the one step that has it. -/
theorem named_iff {steps : List Step} (distinct : (steps.map (·.spec.name)).Nodup) {name : String}
    {s : Step} : named steps name = some s ↔ s ∈ steps ∧ s.spec.name = name := by
  constructor
  · intro found
    exact ⟨mem_of_named found, by simpa using List.find?_some found⟩
  · rintro ⟨member, rfl⟩
    unfold named
    induction steps with
    | nil => cases member
    | cons first rest ih =>
      obtain ⟨apart, distinct⟩ := List.nodup_cons.mp distinct
      rcases List.mem_cons.mp member with rfl | later
      · exact List.find?_cons_of_pos (by simp)
      · rw [List.find?_cons_of_neg]
        · exact ih distinct later
        · intro same
          exact apart (List.mem_map.mpr ⟨s, later, (of_decide_eq_true same).symm⟩)

theorem named_perm {steps others : List Step} (perm : others.Perm steps)
    (distinct : (steps.map (·.spec.name)).Nodup) : named others = named steps := by
  funext name
  refine Option.ext fun s => ?_
  rw [named_iff ((perm.map _).nodup_iff.mpr distinct), named_iff distinct, perm.mem_iff]

theorem Doomed.congr {steps others : List Step} (same : named others = named steps) {s : Step}
    (doomed : Doomed others s) : Doomed steps s := by
  induction doomed with
  | spoiled needs found spoiled => exact .spoiled needs (same ▸ found) spoiled
  | dangling needs found pending dangling =>
    refine .dangling needs (same ▸ found) pending ?_
    unfold Dangling at dangling ⊢
    rwa [← same]
  | through needs found pending _ ih => exact .through needs (same ▸ found) pending ih

/-- **The fate of a step does not depend on the order of the plan.** -/
theorem fate_perm (now : Instant) {steps others : List Step} (perm : others.Perm steps)
    (distinct : (steps.map (·.spec.name)).Nodup) : fate now others = fate now steps := by
  have same := named_perm perm distinct
  have doomed : Doomed others = Doomed steps := by
    funext s
    exact propext ⟨.congr same, .congr same.symm⟩
  have free : Free others = Free steps := by
    unfold Free
    rw [same]
  have first : firstUndeclared others = firstUndeclared steps := by
    unfold firstUndeclared
    rw [same]
  have alive : Alive others = Alive steps := by
    unfold Alive
    rw [free]
    exact propext (exists_congr fun s => and_congr_left fun _ => perm.mem_iff)
  funext s
  unfold fate
  rw [doomed, free, first, alive]

/-- **Advancing is the least-fixpoint meaning of `needs`.** One function gives every step its place
by the rules; in any order of the plan the loop ends, applies that function, and a second call moves
nothing. -/
theorem advance_least (now : Instant) (steps : List Step)
    (distinct : (steps.map (·.spec.name)).Nodup) :
    ∃ f : Step → Step,
      (∀ s ∈ steps, Settles steps (steps.map f) s (f s)) ∧
      ∀ others : List Step, others.Perm steps →
        (advancePass now (advanceLoop now (pendingCount others + 1) others).1).2 = [] ∧
        (advance now others).1 = others.map f ∧
        ∀ now', advance now' (advance now others).1 = ((advance now others).1, []) := by
  refine ⟨fate now steps, fun s _ => settles_fate now steps s, fun others perm => ⟨?_, ?_, ?_⟩⟩
  · exact advanceLoop_settled now _ others (Nat.lt_succ_self _)
  · rw [← fate_perm now perm distinct]
    exact advance_eq_fate now others
  · exact fun now' => advance_again now now' others

/-- Two steps that need each other. -/
def mutualSteps : List Step :=
  [{ id := "1", spec := { name := "a", needs := ["b"] } },
    { id := "2", spec := { name := "b", needs := ["a"] } }]

theorem advance_least_mutual :
    (advance 1 mutualSteps).1.length = 2 := by
  obtain ⟨f, -, all⟩ := advance_least 1 mutualSteps (by decide)
  rw [(all mutualSteps (.refl _)).2.1]
  rfl

/-- **The cycle rule does not cascade**: both steps are errored, and each needs a step that is
errored in the final state; neither is skipped. -/
theorem cycle_errored_not_skipped :
    (advance 1 mutualSteps).1.map (fun s => (s.spec.name, s.spec.needs, s.state)) =
      [("a", ["b"], .errored), ("b", ["a"], .errored)] := by
  decide +kernel

end HullCi.Control
