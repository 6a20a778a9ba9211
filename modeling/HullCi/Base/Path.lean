/-
**The calls of one thread, as a path of its program.**

What a program has done so far is a path: its calls with their answers, the latest first. A program
`Ensures` something of its paths when each call is made where it may be made, and every end meets
the postcondition, whatever the answers were.

* `Ensures.bind` — a program after a program.
* `Ensures.made`, `Ensures.left` — what was said of the program holds along every path it takes.
* `Paths.step` — every turn of a pool keeps this: the calls that a thread has in the record are a
  path of its program, to what is left of it.
-/

import HullCi.Base.Trace

namespace HullCi.Base

open Program

universe u

variable {S : Type u} {R I Op : Type} {Answer : Op → Type} {E A B : Type}

/-- A call with its answer. -/
abbrev Event (Answer : Op → Type) : Type :=
  (op : Op) × Answer op

/-- What a program leaves after a path. -/
inductive Leads (p : Program Answer E A) : List (Event Answer) → Program Answer E A → Prop where
  | nil : Leads p [] p
  | cons {path : List (Event Answer)} {op : Op} {next : Answer op → Program Answer E A}
    (before : Leads p path (.call op next)) (answer : Answer op) :
    Leads p (⟨op, answer⟩ :: path) (next answer)

/-- Each call is made where it may be, and every end meets `Q`. -/
def Ensures (may : List (Event Answer) → Op → Prop)
    (Q : List (Event Answer) → Except E A → Prop) :
    List (Event Answer) → Program Answer E A → Prop
  | path, .done value => Q path (.ok value)
  | path, .fail error => Q path (.error error)
  | path, .call op next =>
    may path op ∧ ∀ answer, Ensures may Q (⟨op, answer⟩ :: path) (next answer)

section Ensures

variable {may : List (Event Answer) → Op → Prop} {Q : List (Event Answer) → Except E A → Prop}

/-- **One program after another.** -/
theorem Ensures.bind {Q₁ : List (Event Answer) → Except E B → Prop} {p : Program Answer E B}
    {f : B → Program Answer E A} {path : List (Event Answer)} (first : Ensures may Q₁ path p)
    (rest : ∀ path' r, Q₁ path' r → Ensures may Q path' (lift r >>= f)) :
    Ensures may Q path (p >>= f) := by
  induction p generalizing path with
  | done value => exact rest path (.ok value) first
  | fail error => exact rest path (.error error) first
  | call op next ih => exact ⟨first.1, fun answer => ih answer (first.2 answer)⟩

/-- What a program ensures, it still ensures after a path. -/
theorem Ensures.left {p q : Program Answer E A} {path : List (Event Answer)}
    (ensures : Ensures may Q [] p) (leads : Leads p path q) : Ensures may Q path q := by
  induction leads with
  | nil => exact ensures
  | cons before answer ih => exact ih.2 answer

/-- **Each call of a path was made where it may be.** -/
theorem Ensures.made {p q : Program Answer E A} {path : List (Event Answer)}
    (ensures : Ensures may Q [] p) (leads : Leads p path q)
    {newer older : List (Event Answer)} {e : Event Answer} (split : path = newer ++ e :: older) :
    may older e.1 := by
  induction leads generalizing newer with
  | nil => exact absurd split.symm (by simp)
  | cons before answer ih =>
    cases newer with
    | nil =>
      cases split
      exact (ensures.left before).1
    | cons _ newer =>
      cases split
      exact ih rfl

end Ensures

/-! ### In a pool -/

/-- The calls of a thread that are in the record. -/
def pathOf (thread : ℕ) (log : List (Entry R Answer)) : List (Event Answer) :=
  log.filterMap fun e => if e.caller.thread = thread then some ⟨e.op, e.answer⟩ else none

theorem pathOf_cons_self {e : Entry R Answer} {log : List (Entry R Answer)} :
    pathOf e.caller.thread (e :: log) = ⟨e.op, e.answer⟩ :: pathOf e.caller.thread log :=
  List.filterMap_cons_some (if_pos rfl)

theorem pathOf_cons_ne {thread : ℕ} {e : Entry R Answer} {log : List (Entry R Answer)}
    (other : e.caller.thread ≠ thread) : pathOf thread (e :: log) = pathOf thread log :=
  List.filterMap_cons_none (if_neg other)

/-- A path only grows. -/
theorem suffix_pathOf_cons (thread : ℕ) (e : Entry R Answer) (log : List (Entry R Answer)) :
    pathOf thread log <:+ pathOf thread (e :: log) := by
  by_cases mine : e.caller.thread = thread
  · subst mine
    rw [pathOf_cons_self]
    exact List.suffix_cons _ _
  · exact ⟨[], (pathOf_cons_ne mine).symm⟩

/-- Every thread's calls are a path to what is left of it, and who made a call is a thread. -/
structure Paths (body : R → Program Answer E A) (p : Pool (Traced S R Answer) R Answer E A) :
    Prop where
  leads : ∀ (i : ℕ) (request : R) (program : Program Answer E A),
    p.threads[i]? = some (request, program) →
      Leads (body request) (pathOf i p.shared.log) program
  known : ∀ e ∈ p.shared.log, e.caller.thread < p.threads.length

variable {perform : S → I → (op : Op) → S × Answer op} {body : R → Program Answer E A}

theorem Paths.step {p : Pool (Traced S R Answer) R Answer E A} (paths : Paths body p)
    (t : Turn R I) : Paths body (p.step (traced perform) body t) := by
  obtain ⟨r, rfl, started⟩ | ⟨thread, input, r, op, next, rfl, here, turned⟩ | same :=
    p.step_cases (traced perform) body t
  · rw [started]
    refine ⟨fun i request program at' => ?_, fun e member => ?_⟩
    · have put : (p.threads ++ [(r, body r)])[i]? = some (request, program) := at'
      by_cases old : i < p.threads.length
      · rw [List.getElem?_append_left old] at put
        exact paths.leads i request program put
      · have last : i = p.threads.length := by
          by_contra beyond
          rw [List.getElem?_eq_none (by simp; omega)] at put
          cases put
        subst last
        rw [List.getElem?_concat_length] at put
        cases put
        have none : pathOf p.threads.length p.shared.log = [] := by
          refine List.filterMap_eq_nil_iff.mpr fun e member => if_neg ?_
          exact Nat.ne_of_lt (paths.known e member)
        show Leads (body r) (pathOf p.threads.length p.shared.log) (body r)
        rw [none]
        exact .nil
    · show e.caller.thread < (p.threads ++ [(r, body r)]).length
      rw [List.length_append]
      exact Nat.lt_add_right _ (paths.known e member)
  · have bound : thread < p.threads.length := by
      by_contra beyond
      rw [List.getElem?_eq_none (by omega)] at here
      cases here
    rw [turned]
    refine ⟨fun i request program at' => ?_, fun e member => ?_⟩
    · have put : (p.threads.set thread
          (r, next (traced perform p.shared ⟨thread, r⟩ input op).2))[i]? =
            some (request, program) := at'
      by_cases mine : thread = i
      · subst mine
        rw [List.getElem?_set_self bound] at put
        cases put
        have grown : pathOf thread (traced perform p.shared ⟨thread, r⟩ input op).1.log =
            ⟨op, (perform p.shared.state input op).2⟩ :: pathOf thread p.shared.log :=
          pathOf_cons_self (e := ⟨⟨thread, r⟩, op, _⟩)
        show Leads (body r) (pathOf thread (traced perform p.shared ⟨thread, r⟩ input op).1.log) _
        rw [grown]
        exact .cons (paths.leads thread r _ here) _
      · rw [List.getElem?_set_ne mine] at put
        have kept : pathOf i (traced perform p.shared ⟨thread, r⟩ input op).1.log =
            pathOf i p.shared.log :=
          pathOf_cons_ne (e := ⟨⟨thread, r⟩, op, _⟩) mine
        show Leads (body request) (pathOf i (traced perform p.shared ⟨thread, r⟩ input op).1.log) _
        rw [kept]
        exact paths.leads i request program put
    · show e.caller.thread < (p.threads.set thread _).length
      rw [List.length_set]
      rcases List.mem_cons.mp member with rfl | older
      · exact bound
      · exact paths.known e older
  · rw [same]
    exact paths

theorem Paths.idle (s : S) : Paths body (Pool.idle ⟨s, []⟩ : Pool (Traced S R Answer) R _ _ _) where
  leads _ _ _ none := by cases none
  known := List.forall_mem_nil _

end HullCi.Base
