/-
**Two flows served by the smallest finish tag stay close.**

Two flows carry tags `x` and `y`. A round serves one of them, by a step of some size, and only when
its tag after the step does not exceed the other's tag after the step the other has at its head.
Sizes are bounded by `a` on the left and `b` on the right.

* `Level.round` — the difference of the tags never leaves `[-a, b]`.
* `level_interval` — so over any interval the two flows advance by amounts at most `a + b` apart.
-/

import Mathlib.Algebra.Order.Group.Abs
import Mathlib.Logic.Relation
import Mathlib.Tactic.Abel

namespace HullCi.Base

variable {K : Type*} [AddCommGroup K] [LinearOrder K] [IsOrderedAddMonoid K]

/-- One round: nobody is served, or one flow is, with the smaller finish tag. -/
inductive Round (a b : K) : K × K → K × K → Prop
  | idle (p : K × K) : Round a b p p
  | left {x y c d : K} (nonneg : 0 ≤ c) (cap : d ≤ b) (first : x + c ≤ y + d) :
      Round a b (x, y) (x + c, y)
  | right {x y c d : K} (nonneg : 0 ≤ d) (cap : c ≤ a) (first : y + d ≤ x + c) :
      Round a b (x, y) (x, y + d)

/-- The tags are level: neither flow is ahead by more than the other's largest step. -/
structure Level (a b : K) (p : K × K) : Prop where
  lower : -a ≤ p.1 - p.2
  upper : p.1 - p.2 ≤ b

/-- **A round keeps the tags level.** -/
theorem Level.round {a b : K} {p q : K × K} (level : Level a b p) (round : Round a b p q) :
    Level a b q := by
  cases round with
  | idle => exact level
  | @left x y c d nonneg cap first =>
    have lower : -a ≤ x - y := level.lower
    refine ⟨?_, ?_⟩
    · calc -a ≤ x - y := lower
        _ ≤ x + c - y := sub_le_sub_right (le_add_of_nonneg_right nonneg) y
    · calc x + c - y ≤ y + d - y := sub_le_sub_right first y
        _ = d := add_sub_cancel_left y d
        _ ≤ b := cap
  | @right x y c d nonneg cap first =>
    have upper : x - y ≤ b := level.upper
    refine ⟨?_, ?_⟩
    · have ahead : y + d - x ≤ a := by
        calc y + d - x ≤ x + c - x := sub_le_sub_right first x
          _ = c := add_sub_cancel_left x c
          _ ≤ a := cap
      calc -a ≤ -(y + d - x) := neg_le_neg ahead
        _ = x - (y + d) := neg_sub _ _
    · calc x - (y + d) ≤ x - y := sub_le_sub_left (le_add_of_nonneg_right nonneg) x
        _ ≤ b := upper

/-- **Over any interval two level flows advance by amounts at most `a + b` apart.** -/
theorem level_interval {a b : K} {p q : K × K} (before : Level a b p) (after : Level a b q) :
    |(q.1 - p.1) - (q.2 - p.2)| ≤ a + b := by
  have same : (q.1 - p.1) - (q.2 - p.2) = (q.1 - q.2) - (p.1 - p.2) := by abel
  rw [same, abs_le]
  refine ⟨?_, ?_⟩
  · calc -(a + b) = -a - b := by abel
      _ ≤ (q.1 - q.2) - (p.1 - p.2) := sub_le_sub after.lower before.upper
  · calc (q.1 - q.2) - (p.1 - p.2) ≤ b - -a := sub_le_sub after.upper before.lower
      _ = a + b := by abel

end HullCi.Base
