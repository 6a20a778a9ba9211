/-
**Wildcards within one name: `*` for any run of characters, `?` for one.**

* `Wild` — which names a pattern stands for.
* `wild_literal` — a pattern without wildcards stands for itself.
-/

import Mathlib.Data.List.Basic

namespace HullCi.Base

/-- The name is one the pattern stands for. -/
inductive Wild : List Char → List Char → Prop
  | done : Wild [] []
  | same {c : Char} {p n : List Char} (rest : Wild p n) : Wild (c :: p) (c :: n)
  | one {c : Char} {p n : List Char} (rest : Wild p n) : Wild ('?' :: p) (c :: n)
  | skip {p n : List Char} (rest : Wild p n) : Wild ('*' :: p) n
  | more {c : Char} {p n : List Char} (rest : Wild ('*' :: p) n) : Wild ('*' :: p) (c :: n)

/-- A pattern that has a wildcard. -/
def isWild (p : List Char) : Bool :=
  p.contains '*' || p.contains '?'

theorem wild_self (p : List Char) : Wild p p := by
  induction p with
  | nil => exact .done
  | cons c p ih => exact .same ih

/-- **A pattern without wildcards stands for itself alone.** -/
theorem wild_literal {p n : List Char} (plain : isWild p = false) : Wild p n ↔ p = n := by
  constructor
  · intro wild
    induction wild with
    | done => rfl
    | @same c p n rest ih =>
      have shorter : isWild p = false := by
        unfold isWild at plain ⊢
        simp only [List.contains_cons, Bool.or_eq_false_iff] at plain ⊢
        exact ⟨plain.1.2, plain.2.2⟩
      rw [ih shorter]
    | one rest ih => simp [isWild] at plain
    | skip rest ih => simp [isWild] at plain
    | more rest ih => simp [isWild] at plain
  · rintro rfl
    exact wild_self p

end HullCi.Base
