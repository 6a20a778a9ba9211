/-
**Saturating counters and the stretches they measure.**

A counter that goes up and down along a list, and never below zero, has at every moment the largest
surplus of any stretch that ends there. Its highest value is the largest surplus of any stretch.

* `peak_le_iff` — the counter stays within a bound exactly when no stretch has a larger surplus.
* `exists_peak` — some stretch has the highest value as its surplus.
-/

import Mathlib.Algebra.BigOperators.Group.List.Basic
import Mathlib.Algebra.Ring.Int.Defs
import Mathlib.Data.List.Infix
import Mathlib.Order.Lattice.Nat

namespace HullCi.Base

universe u

variable {A : Type u} (weight : A → ℤ)

/-- What a stretch adds to a counter that may fall below zero. -/
def surplus (stretch : List A) : ℤ :=
  (stretch.map weight).sum

/-- One step of a counter that stops at zero. -/
def level (n : ℕ) (a : A) : ℕ :=
  (n + weight a).toNat

/-- The highest value of the counter from `n` on. -/
def peak : ℕ → List A → ℕ
  | n, [] => n
  | n, a :: rest => max n (peak (level weight n a) rest)

variable {weight}

@[simp] theorem surplus_nil : surplus weight [] = 0 := rfl

@[simp] theorem surplus_cons (a : A) (rest : List A) :
    surplus weight (a :: rest) = weight a + surplus weight rest := by
  simp [surplus]

theorem le_peak (n : ℕ) (l : List A) : n ≤ peak weight n l := by
  cases l with
  | nil => exact le_rfl
  | cons a rest => exact le_max_left _ _

/-- Elements of no weight do not show. -/
theorem peak_flat {u : List A} (flat : ∀ a ∈ u, weight a = 0) (n : ℕ) (l : List A) :
    peak weight n (u ++ l) = peak weight n l := by
  induction u with
  | nil => rfl
  | cons a rest ih =>
    have same : level weight n a = n := by simp [level, flat a List.mem_cons_self]
    rw [List.cons_append, peak, same, ih fun b member => flat b (List.mem_cons_of_mem _ member)]
    exact max_eq_right (le_peak n l)

/-- A bound on the counter, from any start. -/
theorem peak_le_iff_from (n bound : ℕ) (l : List A) :
    peak weight n l ≤ bound ↔
      (∀ u, u <+: l → n + surplus weight u ≤ bound) ∧
        ∀ u, u <:+: l → surplus weight u ≤ bound := by
  induction l generalizing n with
  | nil =>
    simp only [peak, List.prefix_nil, List.infix_nil, forall_eq, surplus_nil]
    omega
  | cons a rest ih =>
    rw [peak, max_le_iff, ih]
    constructor
    · rintro ⟨start, fronts, inner⟩
      have front : ∀ u, u <+: rest → weight a + surplus weight u ≤ bound ∧
          n + (weight a + surplus weight u) ≤ bound := by
        intro u isFront
        have := fronts u isFront
        unfold level at this
        omega
      refine ⟨?_, ?_⟩
      · intro u isFront
        rcases List.prefix_cons_iff.mp isFront with rfl | ⟨v, rfl, tailFront⟩
        · simpa using start
        · rw [surplus_cons]
          exact (front v tailFront).2
      · intro u isInner
        rcases List.infix_cons_iff.mp isInner with isFront | isInner
        · rcases List.prefix_cons_iff.mp isFront with rfl | ⟨v, rfl, tailFront⟩
          · simp
          · rw [surplus_cons]
            exact (front v tailFront).1
        · exact inner u isInner
    · rintro ⟨fronts, inner⟩
      refine ⟨?_, ?_, ?_⟩
      · simpa using fronts [] List.nil_prefix
      · intro u isFront
        have whole := fronts (a :: u) ((List.prefix_cons_inj a).mpr isFront)
        have alone := inner (a :: u) ((List.prefix_cons_inj a).mpr isFront).isInfix
        have tail := inner u (isFront.isInfix.trans (List.suffix_cons a rest).isInfix)
        rw [surplus_cons] at whole alone
        unfold level
        omega
      · intro u isInner
        exact inner u (isInner.trans (List.suffix_cons a rest).isInfix)

/-- **The counter stays within a bound exactly when no stretch has a larger surplus.** -/
theorem peak_le_iff (bound : ℕ) (l : List A) :
    peak weight 0 l ≤ bound ↔ ∀ u, u <:+: l → surplus weight u ≤ bound := by
  rw [peak_le_iff_from]
  constructor
  · exact fun both => both.2
  · intro inner
    refine ⟨?_, inner⟩
    intro u isFront
    simpa using inner u isFront.isInfix

theorem surplus_le_peak {u l : List A} (isInner : u <:+: l) :
    surplus weight u ≤ peak weight 0 l :=
  (peak_le_iff _ l).mp le_rfl u isInner

/-- **Some stretch has the highest value as its surplus.** -/
theorem exists_peak (l : List A) : ∃ u, u <:+: l ∧ surplus weight u = peak weight 0 l := by
  by_contra none
  push Not at none
  have below : ∀ u, u <:+: l → surplus weight u < peak weight 0 l :=
    fun u isInner => lt_of_le_of_ne (surplus_le_peak isInner) (none u isInner)
  have positive : 0 < peak weight 0 l := by
    have := below [] (List.nil_infix)
    rw [surplus_nil] at this
    omega
  have lower : peak weight 0 l ≤ peak weight 0 l - 1 := by
    rw [peak_le_iff]
    intro u isInner
    have := below u isInner
    omega
  omega

/-- Two counters on one text compare as their largest stretches do. -/
theorem peak_le_peak_iff {other : A → ℤ} (l : List A) :
    peak other 0 l ≤ peak weight 0 l ↔
      ∀ u, u <:+: l → ∃ v, v <:+: l ∧ surplus other u ≤ surplus weight v := by
  constructor
  · intro le u isInner
    obtain ⟨v, isInner', top⟩ : ∃ v, v <:+: l ∧ surplus weight v = peak weight 0 l :=
      exists_peak l
    refine ⟨v, isInner', ?_⟩
    have : surplus other u ≤ peak other 0 l := surplus_le_peak isInner
    omega
  · intro stretches
    rw [peak_le_iff]
    intro u isInner
    obtain ⟨v, isInner', le⟩ := stretches u isInner
    exact le.trans (surplus_le_peak isInner')

end HullCi.Base
