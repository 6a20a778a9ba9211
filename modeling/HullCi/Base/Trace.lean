/-
**Pools that keep a record of every call.**

`traced` runs the calls of a pool and writes each down, with who made it and what it answered.

* `caller_of_entry` — whoever made a call is a thread of the pool.
* `entry_since` — what holds at every moment of a run held when each of its calls was made.
* `Pool.outcome` — what a thread that has ended came to.
* `Program.Every`, `every_step` — what is said of every call a program may make holds of the calls
  that are left to its thread.
* `Spares`, `spared_run` — a thread that ends in a failure of some kind left the state alone at
  every one of its turns, where its program shows that only such calls lead there.
-/

import HullCi.Base.Program

namespace HullCi.Base

open Program

universe u

/-- A call that was made: by whom, and what it answered. -/
structure Entry (R : Type) {Op : Type} (Answer : Op → Type) where
  caller : Caller R
  op : Op
  answer : Answer op

/-- A state, and the calls that led to it, the latest first. -/
structure Traced (S : Type u) (R : Type) {Op : Type} (Answer : Op → Type) where
  state : S
  log : List (Entry R Answer)

variable {S : Type u} {R I Op : Type} {Answer : Op → Type} {E A : Type}

instance [DecidableEq R] : DecidableEq (Caller R) := fun c c' =>
  decidable_of_iff (c.thread = c'.thread ∧ c.request = c'.request) (by
    cases c
    cases c'
    simp)

instance [DecidableEq R] [DecidableEq Op] [∀ op, DecidableEq (Answer op)] :
    DecidableEq (Entry R Answer)
  | ⟨caller, op, answer⟩, ⟨caller', op', answer'⟩ =>
    if callers : caller = caller' then
      if ops : op = op' then
        decidable_of_iff (ops ▸ answer = answer') (by
          subst callers
          subst ops
          simp)
      else .isFalse fun same => ops (by cases same; rfl)
    else .isFalse fun same => callers (by cases same; rfl)

/-- What a thread has come to, with the request it served. -/
def Pool.outcome (p : Pool S R Answer E A) (thread : ℕ) : Option (R × Except E A) :=
  match p.threads[thread]? with
  | some (request, .done value) => some (request, .ok value)
  | some (request, .fail error) => some (request, .error error)
  | _ => none

theorem Pool.outcome_ok {p : Pool S R Answer E A} {thread : ℕ} {request : R} {value : A} :
    p.outcome thread = some (request, .ok value) ↔
      p.threads[thread]? = some (request, .done value) := by
  unfold outcome
  split
  · next here => simp [here]
  · next here => simp [here]
  · next other _ =>
    exact ⟨nofun, fun here => absurd here (other request value)⟩

theorem Pool.outcome_error {p : Pool S R Answer E A} {thread : ℕ} {request : R} {error : E} :
    p.outcome thread = some (request, .error error) ↔
      p.threads[thread]? = some (request, .fail error) := by
  unfold outcome
  split
  · next here => simp [here]
  · next here => simp [here]
  · next _ other =>
    exact ⟨nofun, fun here => absurd here (other request error)⟩

/-- A call, made and written down. -/
def traced (perform : S → I → (op : Op) → S × Answer op) (s : Traced S R Answer)
    (caller : Caller R) (input : I) (op : Op) : Traced S R Answer × Answer op :=
  ({ state := (perform s.state input op).1
     log := ⟨caller, op, (perform s.state input op).2⟩ :: s.log },
    (perform s.state input op).2)

section Callers

variable {perform : S → I → (op : Op) → S × Answer op} {body : R → Program Answer E A}

/-- A thread of the pool, with the request it serves. -/
def Pool.Serving (p : Pool (Traced S R Answer) R Answer E A) (caller : Caller R) : Prop :=
  ∃ program, p.threads[caller.thread]? = some (caller.request, program)

theorem Pool.Serving.step {p : Pool (Traced S R Answer) R Answer E A} {caller : Caller R}
    (serving : p.Serving caller) (t : Turn R I) :
    (p.step (traced perform) body t).Serving caller := by
  obtain ⟨program, here⟩ := serving
  have kept : (p.step (traced perform) body t).threads[caller.thread]?.map Prod.fst =
      some caller.request := by
    apply Pool.request_step
    rw [here]
    rfl
  obtain ⟨⟨request, program'⟩, now, rfl⟩ := Option.map_eq_some_iff.mp kept
  exact ⟨program', now⟩

theorem entry_step {p : Pool (Traced S R Answer) R Answer E A}
    (known : ∀ e ∈ p.shared.log, p.Serving e.caller) (t : Turn R I) :
    ∀ e ∈ (p.step (traced perform) body t).shared.log,
      (p.step (traced perform) body t).Serving e.caller := by
  intro e member
  apply Pool.Serving.step
  obtain ⟨r, rfl, started⟩ | ⟨thread, input, r, op, next, rfl, here, turned⟩ | same :=
    p.step_cases (traced perform) body t
  · rw [started] at member
    exact known e member
  · rw [turned] at member
    obtain rfl | older := List.mem_cons.mp member
    · exact ⟨_, here⟩
    · exact known e older
  · rw [same] at member
    exact known e member

variable (perform body) in
/-- **Whoever made a call is a thread of the pool.** -/
theorem caller_of_entry (s : S) (turns : List (Turn R I)) :
    ∀ e ∈ (run (Pool.step (traced perform) body) (Pool.idle ⟨s, []⟩) turns).shared.log,
      (run (Pool.step (traced perform) body) (Pool.idle ⟨s, []⟩) turns).Serving e.caller :=
  run_invariant
    (I := fun p : Pool (Traced S R Answer) R Answer E A =>
      ∀ e ∈ p.shared.log, p.Serving e.caller)
    (fun _ t known => entry_step known t) (fun _ none => by cases none) turns

/-- **When an entry was made.** What holds of the state at every moment of a run held at the moment
each of its entries was written. -/
theorem entry_since (P : Traced S R Answer → Prop) {p : Pool (Traced S R Answer) R Answer E A}
    {turns : List (Turn R I)}
    (always : ∀ front back, turns = front ++ back →
      P (run (Pool.step (traced perform) body) p front).shared) :
    ∀ e ∈ (run (Pool.step (traced perform) body) p turns).shared.log, e ∈ p.shared.log ∨
      ∃ s input, P s ∧ e.answer = (perform s.state input e.op).2 := by
  induction turns generalizing p with
  | nil => exact fun e member => .inl member
  | cons t turns ih =>
    intro e member
    have rest := ih (p := p.step (traced perform) body t) (fun front back same => by
      subst same
      exact always (t :: front) back rfl) e member
    obtain here | later := rest
    · obtain ⟨r, rfl, started⟩ | ⟨thread, input, r, op, next, rfl, _, turned⟩ | same :=
        p.step_cases (traced perform) body t
      · rw [started] at here
        exact .inl here
      · rw [turned] at here
        obtain rfl | older := List.mem_cons.mp here
        · exact .inr ⟨p.shared, input, always [] _ rfl, rfl⟩
        · exact .inl older
      · rw [same] at here
        exact .inl here
    · exact .inr later

/-- The log only grows. -/
theorem log_run (p : Pool (Traced S R Answer) R Answer E A) (turns : List (Turn R I)) :
    ∃ new, (run (Pool.step (traced perform) body) p turns).shared.log = new ++ p.shared.log := by
  induction turns generalizing p with
  | nil => exact ⟨[], rfl⟩
  | cons t turns ih =>
    obtain ⟨new, grown⟩ := ih (p.step (traced perform) body t)
    obtain ⟨r, rfl, started⟩ | ⟨thread, input, r, op, next, rfl, _, turned⟩ | same :=
      p.step_cases (traced perform) body t
    · refine ⟨new, grown.trans ?_⟩
      rw [started]
    · refine ⟨new ++ [⟨⟨thread, r⟩, op, (perform p.shared.state input op).2⟩], grown.trans ?_⟩
      rw [turned, List.append_assoc]
      rfl
    · refine ⟨new, grown.trans ?_⟩
      rw [same]

end Callers

/-! ### Programs run for their result -/

section Attempt

/-- The program, run for its result, whatever it is. -/
def Program.attempt : Program Answer E A → Program Answer E (Except E A)
  | .done value => .done (.ok value)
  | .fail error => .done (.error error)
  | .call op next => .call op fun answer => (next answer).attempt

theorem Contract.safe_attempt {K : Contract S R I Answer} {caller : Caller R}
    {Q : S → Except E A → Prop} {p : Program Answer E A} {s : S} (safe : K.Safe caller Q p s) :
    K.Safe caller (fun s' r => ∃ r', r = .ok r' ∧ Q s' r') p.attempt s := by
  induction p generalizing s with
  | done value => exact fun s' later fine => ⟨_, rfl, safe s' later fine⟩
  | fail error => exact fun s' later fine => ⟨_, rfl, safe s' later fine⟩
  | call op next ih =>
    intro s' later fine input may
    obtain ⟨inv, rely, rest⟩ := safe s' later fine input may
    exact ⟨inv, rely, ih _ rest⟩

end Attempt

/-! ### What a program may call -/

section Every

/-- Every call the program may make, with what follows it. -/
def Program.Every (P : (op : Op) → (Answer op → Program Answer E A) → Prop) :
    Program Answer E A → Prop
  | .done _ => True
  | .fail _ => True
  | .call op next => P op next ∧ ∀ answer, Program.Every P (next answer)

theorem Program.Every.mono {P P' : (op : Op) → (Answer op → Program Answer E A) → Prop}
    {p : Program Answer E A} (weaker : ∀ op next, P op next → P' op next) (every : p.Every P) :
    p.Every P' := by
  induction p with
  | done value => trivial
  | fail error => trivial
  | call op next ih => exact ⟨weaker op next every.1, fun answer => ih answer (every.2 answer)⟩

theorem every_bind {B : Type} {P : (op : Op) → (Answer op → Program Answer E A) → Prop}
    {p : Program Answer E B} {f : B → Program Answer E A}
    (first : p.Every fun op next => P op fun answer => next answer >>= f)
    (rest : ∀ b, (f b).Every P) : (p >>= f).Every P := by
  induction p with
  | done value => exact rest value
  | fail error => trivial
  | call op next ih => exact ⟨first.1, fun answer => ih answer (first.2 answer)⟩

theorem every_lift {B : Type} {P : (op : Op) → (Answer op → Program Answer E A) → Prop}
    {r : Except E B} {f : B → Program Answer E A} (rest : ∀ b, (f b).Every P) :
    (lift r >>= f).Every P := by
  cases r with
  | ok b => exact rest b
  | error e => trivial

/-- The calls that are left to a thread are calls of its request. -/
theorem every_step {handle : S → Caller R → I → (op : Op) → S × Answer op}
    {body : R → Program Answer E A} {P : R → (op : Op) → (Answer op → Program Answer E A) → Prop}
    (bodies : ∀ r, (body r).Every (P r)) {p : Pool S R Answer E A}
    (every : ∀ (i : ℕ) (r : R) (program : Program Answer E A), p.threads[i]? = some (r, program) →
      program.Every (P r))
    (t : Turn R I) {i : ℕ} {r : R} {program : Program Answer E A}
    (here : (p.step handle body t).threads[i]? = some (r, program)) : program.Every (P r) := by
  obtain ⟨r', rfl, started⟩ | ⟨thread, input, r', op, next, rfl, at', turned⟩ | same :=
    p.step_cases handle body t
  · rw [started] at here
    rcases List.mem_append.mp (List.mem_of_getElem? here) with old | new
    · obtain ⟨i', old⟩ := List.getElem?_of_mem old
      exact every i' r program old
    · cases List.mem_singleton.mp new
      exact bodies r
  · rw [turned] at here
    rcases List.mem_or_eq_of_mem_set (List.mem_of_getElem? here) with old | new
    · obtain ⟨i', old⟩ := List.getElem?_of_mem old
      exact every i' r program old
    · cases new
      exact (every thread _ _ at').2 _
  · rw [same] at here
    exact every i r program here

end Every

/-! ### Failures that leave the state alone -/

section Spares

variable (perform : S → I → (op : Op) → S × Answer op) (kind : E → Prop)

/-- The program does not end in a failure of the kind, whatever its calls answer. -/
def Avoids : Program Answer E A → Prop
  | .done _ => True
  | .fail error => ¬ kind error
  | .call op next => ∀ s input, Avoids (next (perform s input op).2)

/-- Each call leaves the state alone, or rules out a failure of the kind. -/
def Spares : Program Answer E A → Prop
  | .done _ => True
  | .fail _ => True
  | .call op next => ∀ s input,
      ((perform s input op).1 = s ∨ Avoids perform kind (next (perform s input op).2)) ∧
        Spares (next (perform s input op).2)

variable {perform kind}

theorem Avoids.spares {p : Program Answer E A} (avoids : Avoids perform kind p) :
    Spares perform kind p := by
  induction p with
  | done value => trivial
  | fail error => trivial
  | call op next ih => exact fun s input => ⟨.inr (avoids s input), ih _ (avoids s input)⟩

theorem Avoids.bind {B : Type} {p : Program Answer E B} {f : B → Program Answer E A}
    (first : Avoids perform kind p) (rest : ∀ b, Avoids perform kind (f b)) :
    Avoids perform kind (p >>= f) := by
  induction p with
  | done value => exact rest value
  | fail error => exact first
  | call op next ih => exact fun s input => ih _ (first s input)

/-- What follows a program that spares the state must rule the failures out. -/
theorem Spares.bind {B : Type} {p : Program Answer E B} {f : B → Program Answer E A}
    (first : Spares perform kind p) (rest : ∀ b, Avoids perform kind (f b)) :
    Spares perform kind (p >>= f) := by
  induction p with
  | done value => exact (rest value).spares
  | fail error => trivial
  | call op next ih =>
    intro s input
    obtain ⟨alone | avoids, spares⟩ := first s input
    · exact ⟨.inl alone, ih _ spares⟩
    · exact ⟨.inr (avoids.bind rest), ih _ spares⟩

theorem Avoids.mono {kind' : E → Prop} {p : Program Answer E A} (avoids : Avoids perform kind p)
    (fewer : ∀ e, kind' e → kind e) : Avoids perform kind' p := by
  induction p with
  | done value => trivial
  | fail error => exact fun ofKind => avoids (fewer error ofKind)
  | call op next ih => exact fun s input => ih _ (avoids s input)

theorem Spares.mono {kind' : E → Prop} {p : Program Answer E A} (spares : Spares perform kind p)
    (fewer : ∀ e, kind' e → kind e) : Spares perform kind' p := by
  induction p with
  | done value => trivial
  | fail error => trivial
  | call op next ih =>
    intro s input
    obtain ⟨alone | avoids, rest⟩ := spares s input
    · exact ⟨.inl alone, ih _ rest⟩
    · exact ⟨.inr (avoids.mono fewer), ih _ rest⟩

/-- Where no failure is of the kind, every program avoids it. -/
theorem avoids_none (none : ∀ e, ¬ kind e) (p : Program Answer E A) : Avoids perform kind p := by
  induction p with
  | done value => trivial
  | fail error => exact none error
  | call op next ih => exact fun s input => ih _

theorem avoids_lift {B : Type} {r : Except E B} {f : B → Program Answer E A}
    (error : ∀ e, r = .error e → ¬ kind e) (value : ∀ b, r = .ok b → Avoids perform kind (f b)) :
    Avoids perform kind (lift r >>= f) := by
  cases r with
  | ok b => exact value b rfl
  | error e => exact error e rfl

theorem spares_lift {B : Type} {r : Except E B} {f : B → Program Answer E A}
    (value : ∀ b, r = .ok b → Spares perform kind (f b)) :
    Spares perform kind (lift r >>= f) := by
  cases r with
  | ok b => exact value b rfl
  | error e => trivial

variable {body : R → Program Answer E A}

/-- What is left of a thread avoids the failures that it avoided before. -/
theorem avoids_run {p : Pool (Traced S R Answer) R Answer E A} {i : ℕ} {request : R}
    {program : Program Answer E A} (here : p.threads[i]? = some (request, program))
    (avoids : Avoids perform kind program) (turns : List (Turn R I)) :
    ∃ program', (run (Pool.step (traced perform) body) p turns).threads[i]? =
      some (request, program') ∧ Avoids perform kind program' := by
  refine run_invariant
    (I := fun p : Pool (Traced S R Answer) R Answer E A => ∃ program',
      p.threads[i]? = some (request, program') ∧ Avoids perform kind program')
    (fun p t ⟨program', here, avoids⟩ => ?_) ⟨program, here, avoids⟩ turns
  obtain ⟨r, rfl, started⟩ | ⟨thread, input, r, op, next, rfl, at', turned⟩ | same :=
    p.step_cases (traced perform) body t
  · rw [started]
    have bound : i < p.threads.length := by
      by_contra beyond
      rw [List.getElem?_eq_none (by omega)] at here
      cases here
    refine ⟨program', ?_, avoids⟩
    show (p.threads ++ _)[i]? = _
    rw [List.getElem?_append_left bound]
    exact here
  · rw [turned]
    by_cases mine : thread = i
    · subst mine
      rw [here] at at'
      cases at'
      have bound : thread < p.threads.length := by
        by_contra beyond
        rw [List.getElem?_eq_none (by omega)] at here
        cases here
      refine ⟨_, ?_, avoids p.shared.state input⟩
      show (p.threads.set thread _)[thread]? = _
      rw [List.getElem?_set_self bound]
      rfl
    · refine ⟨program', ?_, avoids⟩
      show (p.threads.set thread _)[i]? = _
      rw [List.getElem?_set_ne mine]
      exact here
  · rw [same]
    exact ⟨program', here, avoids⟩

/-- Every thread spares the state, as far as it has come. -/
def Sparing (perform : S → I → (op : Op) → S × Answer op) (kind : R → E → Prop)
    (p : Pool (Traced S R Answer) R Answer E A) : Prop :=
  ∀ (i : ℕ) request program, p.threads[i]? = some (request, program) →
    Spares perform (kind request) program

theorem sparing_step {kind : R → E → Prop}
    (spares : ∀ request, Spares perform (kind request) (body request))
    {p : Pool (Traced S R Answer) R Answer E A} (sparing : Sparing perform kind p)
    (t : Turn R I) : Sparing perform kind (p.step (traced perform) body t) := by
  intro i request program here
  obtain ⟨r, rfl, started⟩ | ⟨thread, input, r, op, next, rfl, at', turned⟩ | same :=
    p.step_cases (traced perform) body t
  · obtain ⟨program', before⟩ | ⟨_, _, rfl⟩ := Pool.request_before here
    · rw [started] at here
      have bound : i < p.threads.length := by
        by_contra beyond
        rw [List.getElem?_eq_none (by omega)] at before
        cases before
      have still : (p.threads ++ [(r, body r)])[i]? = some (request, program) := here
      rw [List.getElem?_append_left bound] at still
      exact sparing i request program still
    · exact spares request
  · rw [turned] at here
    have put : (p.threads.set thread
        (r, next (traced perform p.shared ⟨thread, r⟩ input op).2))[i]? =
          some (request, program) := here
    rw [List.getElem?_set] at put
    split at put
    · split at put
      · cases put
        exact (sparing thread request _ at' p.shared.state input).2
      · cases put
    · exact sparing i request program put
  · rw [same] at here
    exact sparing i request program here

/-- **A thread that ends in a failure of its kind left the state alone at every one of its
turns.** -/
theorem spared_run (kind : R → E → Prop)
    (spares : ∀ request, Spares perform (kind request) (body request)) {s : S}
    {front back : List (Turn R I)} {i : ℕ} {input : I} {request : R} {error : E}
    (failed : (run (Pool.step (traced perform) body) (Pool.idle ⟨s, []⟩)
      (front ++ .turn i input :: back)).threads[i]? = some (request, .fail error))
    (ofKind : kind request error) :
    (run (Pool.step (traced perform) body) (Pool.idle ⟨s, []⟩)
        (front ++ [.turn i input])).shared.state =
      (run (Pool.step (traced perform) body) (Pool.idle ⟨s, []⟩) front).shared.state := by
  have sparing : Sparing perform kind
      (run (Pool.step (traced perform) body) (Pool.idle ⟨s, []⟩ : Pool (Traced S R Answer) R _ _ _)
        front) :=
    run_invariant (I := Sparing perform kind) (fun _ t sparing => sparing_step spares sparing t)
      (fun _ _ _ none => by cases none) front
  rw [run_append, run_cons] at failed
  rw [run_append, run_cons, run_nil]
  generalize run (Pool.step (traced perform) body) (Pool.idle ⟨s, []⟩) front = p at *
  obtain ⟨r, no, _⟩ | ⟨thread, input', r, op, next, same, at', turned⟩ | same :=
    p.step_cases (traced perform) body (.turn i input)
  · cases no
  · cases same
    rw [turned] at failed ⊢
    obtain alone | avoids := (sparing i r _ at' p.shared.state input).1
    · exact alone
    · exfalso
      have bound : i < p.threads.length := by
        by_contra beyond
        rw [List.getElem?_eq_none (by omega)] at at'
        cases at'
      have here : (p.threads.set i
          (r, next (traced perform p.shared ⟨i, r⟩ input op).2))[i]? =
            some (r, next (perform p.shared.state input op).2) := by
        rw [List.getElem?_set_self bound]
        rfl
      have later : ∃ program, (run (Pool.step (traced perform) body)
          { shared := (traced perform p.shared ⟨i, r⟩ input op).1, threads := _ }
          back).threads[i]? = some (r, program) ∧ Avoids perform (kind r) program :=
        avoids_run here avoids back
      obtain ⟨program, now, avoids⟩ := later
      rw [failed] at now
      cases now
      exact avoids ofKind
  · rw [same]

end Spares

end HullCi.Base
