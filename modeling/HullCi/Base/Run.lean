/-
**Runs of a total step function.**

A system is a function `step : S → L → S`. A label that is not enabled leaves the state alone, so
every list of labels is a run.

* `run_invariant` — what every step keeps, every run keeps.
* `run_invariant_along` — the same when the steps keep it only under a condition on the state and
  the label, and the run meets that condition at each of its steps (`Along`).
* `along_append`, `along_take`, `along_mono`, `along_iff` — conditions along a run, split, cut short,
  weakened, and read at each step.
* `always_iff_along` — a property that a step keeps exactly under a condition holds in every state of
  a run exactly when the condition holds of each of its steps.
* `always_and_along_iff` — the same for what holds in every state and what each step does.
* `run_balance` — when every step adds to a balance what a measure of the step says, a run adds the
  sum of these (`tally`).
-/

import Mathlib.Algebra.Group.Defs
import Mathlib.Data.List.Basic

namespace HullCi.Base

universe u v

section Run

variable {S : Type u} {L : Type v} (step : S → L → S)

/-- The state after a list of labels. -/
def run (s : S) (labels : List L) : S :=
  labels.foldl step s

@[simp] theorem run_nil (s : S) : run step s [] = s := rfl

@[simp] theorem run_cons (s : S) (l : L) (labels : List L) :
    run step s (l :: labels) = run step (step s l) labels := rfl

theorem run_append (s : S) (front back : List L) :
    run step s (front ++ back) = run step (run step s front) back := by
  unfold run
  rw [List.foldl_append]

/-- The condition `P` holds of every step of the run, read at the state before the step. -/
def Along (P : S → L → Prop) : S → List L → Prop
  | _, [] => True
  | s, l :: labels => P s l ∧ Along P (step s l) labels

variable {step}

@[simp] theorem along_nil {P : S → L → Prop} {s : S} : Along step P s [] := trivial

@[simp] theorem along_cons {P : S → L → Prop} {s : S} {l : L} {labels : List L} :
    Along step P s (l :: labels) ↔ P s l ∧ Along step P (step s l) labels := Iff.rfl

instance Along.decidable {P : S → L → Prop} [∀ s l, Decidable (P s l)] :
    ∀ s labels, Decidable (Along step P s labels)
  | _, [] => .isTrue trivial
  | s, l :: labels =>
    @instDecidableAnd (P s l) (Along step P (step s l) labels) inferInstance
      (Along.decidable (step s l) labels)

theorem along_append {P : S → L → Prop} {s : S} {front back : List L} :
    Along step P s (front ++ back) ↔
      Along step P s front ∧ Along step P (run step s front) back := by
  induction front generalizing s with
  | nil => simp
  | cons l labels ih =>
    rw [List.cons_append, along_cons, along_cons, ih, run_cons, and_assoc]

theorem along_take {P : S → L → Prop} {s : S} {labels : List L} (along : Along step P s labels)
    (n : ℕ) : Along step P s (labels.take n) := by
  rw [← List.take_append_drop n labels, along_append] at along
  exact along.1

theorem along_mono {P Q : S → L → Prop} (weaker : ∀ s l, P s l → Q s l) {s : S}
    {labels : List L} (along : Along step P s labels) : Along step Q s labels := by
  induction labels generalizing s with
  | nil => trivial
  | cons l labels ih => exact ⟨weaker s l along.1, ih along.2⟩

/-- A condition along a run, at each of its steps. -/
theorem along_iff {P : S → L → Prop} {s : S} {labels : List L} :
    Along step P s labels ↔
      ∀ n l, labels[n]? = some l → P (run step s (labels.take n)) l := by
  induction labels generalizing s with
  | nil => simp
  | cons l labels ih =>
    rw [along_cons, ih]
    constructor
    · rintro ⟨first, rest⟩ n l' at'
      cases n with
      | zero =>
        obtain rfl := Option.some.inj at'
        exact first
      | succ n => exact rest n l' at'
    · intro all
      exact ⟨all 0 l rfl, fun n l' at' => all (n + 1) l' at'⟩

/-- The state after one step more. -/
theorem run_take_succ {s : S} {labels : List L} {n : ℕ} {l : L} (next : labels[n]? = some l) :
    run step s (labels.take (n + 1)) = step (run step s (labels.take n)) l := by
  rw [List.take_add_one, next, run_append]
  rfl

/-- **What every step keeps, every run keeps.** -/
theorem run_invariant {I : S → Prop} (keep : ∀ s l, I s → I (step s l)) {s : S}
    (start : I s) (labels : List L) : I (run step s labels) := by
  induction labels generalizing s with
  | nil => exact start
  | cons l labels ih => exact ih (keep s l start)

/-- **What every step keeps under a condition, every run that meets the condition keeps.** -/
theorem run_invariant_along {I : S → Prop} {P : S → L → Prop}
    (keep : ∀ s l, I s → P s l → I (step s l)) {s : S} (start : I s) {labels : List L}
    (along : Along step P s labels) : I (run step s labels) := by
  induction labels generalizing s with
  | nil => exact start
  | cons l labels ih => exact ih (keep s l start along.1) along.2

/-- Conditions on the labels alone hold along every run of them. -/
theorem along_of_forall {P : L → Prop} {labels : List L} (all : ∀ l ∈ labels, P l) (s : S) :
    Along step (fun _ l => P l) s labels := by
  induction labels generalizing s with
  | nil => trivial
  | cons l labels ih =>
    exact ⟨all l List.mem_cons_self, ih (fun l' member => all l' (List.mem_cons_of_mem _ member)) _⟩

theorem along_and {P Q : S → L → Prop} {s : S} {labels : List L} (first : Along step P s labels)
    (second : Along step Q s labels) : Along step (fun s l => P s l ∧ Q s l) s labels := by
  induction labels generalizing s with
  | nil => trivial
  | cons l labels ih => exact ⟨⟨first.1, second.1⟩, ih first.2 second.2⟩

/-- **What a run keeps at every state, exactly.** When a step keeps a property exactly under a
condition on the step, the property holds in every state of a run if and only if each of its steps
meets the condition. -/
theorem always_iff_along {I J : S → Prop} {P H : S → L → Prop}
    (keep : ∀ s l, I s → H s l → I (step s l))
    (exact : ∀ s l, I s → J s → H s l → (J (step s l) ↔ P s l)) {s : S} (start : I s) (good : J s)
    {labels : List L} (along : Along step H s labels) :
    (∀ n, J (run step s (labels.take n))) ↔ Along step P s labels := by
  induction labels generalizing s with
  | nil => simpa using good
  | cons l labels ih =>
    have next := keep s l start along.1
    constructor
    · intro all
      have first : J (step s l) := all 1
      exact ⟨(exact s l start good along.1).mp first,
        (ih next first along.2).mp fun n => all (n + 1)⟩
    · rintro ⟨first, rest⟩ n
      have held := (exact s l start good along.1).mpr first
      cases n with
      | zero => exact good
      | succ n => exact (ih next held along.2).mpr rest n

/-- **What a run keeps at every state and does at every step, exactly.** -/
theorem always_and_along_iff {I J : S → Prop} {P Q : S → L → Prop}
    (keep : ∀ s l, I s → I (step s l))
    (exact : ∀ s l, I s → J s → ((J (step s l) ∧ Q s l) ↔ P s l)) {s : S} (start : I s) (good : J s)
    {labels : List L} :
    ((∀ n, J (run step s (labels.take n))) ∧ Along step Q s labels) ↔ Along step P s labels := by
  induction labels generalizing s with
  | nil => simpa using good
  | cons l labels ih =>
    have next := keep s l start
    constructor
    · rintro ⟨all, first, rest⟩
      have held : J (step s l) := all 1
      exact ⟨(exact s l start good).mp ⟨held, first⟩,
        (ih next held).mp ⟨fun n => all (n + 1), rest⟩⟩
    · rintro ⟨first, rest⟩
      obtain ⟨held, done⟩ := (exact s l start good).mpr first
      obtain ⟨all, along⟩ := (ih next held).mpr rest
      refine ⟨fun n => ?_, done, along⟩
      cases n with
      | zero => exact good
      | succ n => exact all n

/-! ### Balances -/

section Tally

variable {A : Type*} [AddMonoid A]

/-- The sum of a measure of the steps of a run. -/
def tally (step : S → L → S) (f : S → L → A) : S → List L → A
  | _, [] => 0
  | s, l :: labels => f s l + tally step f (step s l) labels

/-- **What every step adds to a balance, a run adds up.** -/
theorem run_balance {I : S → Prop} {P : S → L → Prop} {g : S → A} {f : S → L → A}
    (keep : ∀ s l, I s → P s l → I (step s l))
    (balance : ∀ s l, I s → P s l → g (step s l) = g s + f s l) {s : S} (start : I s)
    {labels : List L} (along : Along step P s labels) :
    g (run step s labels) = g s + tally step f s labels := by
  induction labels generalizing s with
  | nil => exact (add_zero _).symm
  | cons l labels ih =>
    rw [run_cons, ih (keep s l start along.1) along.2, balance s l start along.1, tally, add_assoc]

end Tally

end Run

end HullCi.Base
