/-
**Programs that stop in the middle.**

A program of atomic calls may stop between any two of them, and what it has done so far stays.
`interrupted` runs it for as many calls as there are inputs; `Throughout` says what holds at every
moment of it, and what holds of a result it comes to.

* `Throughout.bind` — a program after a program, one proof after the other.
* `Throughout.moment`, `Throughout.result` — wherever it stops, the one holds; if it has returned,
  the other.
-/

import HullCi.Base.Program

namespace HullCi.Base.Program

variable {S I Op : Type} {Answer : Op → Type} {E A B : Type}

/-- The state, and what is left of the program, after as many of its calls as there are inputs. -/
def interrupted (handle : S → I → (op : Op) → S × Answer op) :
    List I → Program Answer E A → S → S × Program Answer E A
  | input :: inputs, call op next, s =>
    interrupted handle inputs (next (handle s input op).2) (handle s input op).1
  | [], p, s => (s, p)
  | _ :: _, done value, s => (s, done value)
  | _ :: _, fail error, s => (s, fail error)

/-- `P` holds at every moment of the program, and `Q` of what it returns. -/
def Throughout (handle : S → I → (op : Op) → S × Answer op) (P : S → Prop) (Q : A → S → Prop) :
    Program Answer E A → S → Prop
  | done value, s => P s ∧ Q value s
  | fail _, s => P s
  | call op next, s => P s ∧ ∀ input,
    Throughout handle P Q (next (handle s input op).2) (handle s input op).1

namespace Throughout

variable {handle : S → I → (op : Op) → S × Answer op} {P : S → Prop} {Q : A → S → Prop}

theorem now {p : Program Answer E A} {s : S} (throughout : p.Throughout handle P Q s) : P s := by
  cases p with
  | done value => exact throughout.1
  | fail error => exact throughout
  | call op next => exact throughout.1

theorem bind {R : B → S → Prop} {p : Program Answer E A} {f : A → Program Answer E B} {s : S}
    (first : p.Throughout handle P Q s)
    (second : ∀ value s, P s → Q value s → (f value).Throughout handle P R s) :
    (p >>= f).Throughout handle P R s := by
  induction p generalizing s with
  | done value => exact second value s first.1 first.2
  | fail error => exact first
  | call op next ih => exact ⟨first.1, fun input => ih _ (first.2 input)⟩

/-- A result in hand: the program goes on with it, or has failed. -/
theorem lift {result : Except E A} {f : A → Program Answer E B} {R : B → S → Prop} {s : S}
    (holds : P s) (rest : ∀ value, result = .ok value → (f value).Throughout handle P R s) :
    (Program.lift result >>= f).Throughout handle P R s := by
  cases result with
  | ok value => exact rest value rfl
  | error error => exact holds

/-- Wherever the program stops, what holds throughout holds, and throughout what is left of it. -/
theorem remains {p : Program Answer E A} {s : S} (throughout : p.Throughout handle P Q s)
    (inputs : List I) :
    (p.interrupted handle inputs s).2.Throughout handle P Q (p.interrupted handle inputs s).1 := by
  induction inputs generalizing p s with
  | nil => cases p <;> exact throughout
  | cons input inputs ih =>
    cases p with
    | done value => exact throughout
    | fail error => exact throughout
    | call op next => exact ih (throughout.2 input)

theorem moment {p : Program Answer E A} {s : S} (throughout : p.Throughout handle P Q s)
    (inputs : List I) : P (p.interrupted handle inputs s).1 :=
  (throughout.remains inputs).now

theorem result {p : Program Answer E A} {s : S} (throughout : p.Throughout handle P Q s)
    {inputs : List I} {value : A} (returned : (p.interrupted handle inputs s).2 = done value) :
    Q value (p.interrupted handle inputs s).1 := by
  have rest := throughout.remains inputs
  rw [returned] at rest
  exact rest.2

end Throughout

end HullCi.Base.Program
