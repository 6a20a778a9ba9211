/-
**Longest chains of a relation, read off a rank.**

A rank grows by exactly one along some edge into every node that is not a start, and by at least one
along every edge. Such a rank is the number of nodes on the longest chain that ends at the node, and
the relation has no cycle.

* `Ranked.greatest` — the rank of a node is the length of a longest chain ending there.
* `Ranked.acyclic` — no node reaches itself.
-/

import Mathlib.Logic.Relation
import Mathlib.Order.Bounds.Basic
import Mathlib.Order.Lattice.Nat

namespace HullCi.Base

universe u

variable {N : Type u}

/-- A chain of `n` nodes that ends at the node. -/
inductive Chain (edge : N → N → Prop) : ℕ → N → Prop
  | single (a : N) : Chain edge 1 a
  | snoc {n : ℕ} {a b : N} (chain : Chain edge n a) (next : edge a b) : Chain edge (n + 1) b

/-- A number for every node that follows the edges as closely as it can. -/
structure Ranked (edge : N → N → Prop) (rank : N → ℕ) : Prop where
  rises : ∀ {a b}, edge a b → rank a < rank b
  tight : ∀ b, rank b = 1 ∨ ∃ a, edge a b ∧ rank b = rank a + 1

namespace Ranked

variable {edge : N → N → Prop} {rank : N → ℕ}

theorem pos (ranked : Ranked edge rank) (b : N) : 1 ≤ rank b := by
  rcases ranked.tight b with start | ⟨a, _, next⟩
  · exact start.ge
  · omega

theorem chain_le (ranked : Ranked edge rank) {n : ℕ} {a : N} (chain : Chain edge n a) :
    n ≤ rank a := by
  induction chain with
  | single a => exact ranked.pos a
  | snoc _ next ih =>
    have := ranked.rises next
    omega

theorem chain (ranked : Ranked edge rank) (a : N) : Chain edge (rank a) a := by
  generalize same : rank a = n
  induction n using Nat.strong_induction_on generalizing a with
  | _ n ih =>
    rcases ranked.tight a with start | ⟨b, into, next⟩
    · rw [← same, start]
      exact .single a
    · have before : Chain edge (rank b) b := ih (rank b) (by omega) b rfl
      rw [← same, next]
      exact before.snoc into

/-- **The rank is the length of a longest chain.** -/
theorem greatest (ranked : Ranked edge rank) (a : N) :
    IsGreatest {n | Chain edge n a} (rank a) :=
  ⟨ranked.chain a, fun _ chain => ranked.chain_le chain⟩

theorem reaches (ranked : Ranked edge rank) {a b : N} (path : Relation.TransGen edge a b) :
    rank a < rank b := by
  induction path with
  | single next => exact ranked.rises next
  | tail _ next ih => exact ih.trans (ranked.rises next)

/-- **No node reaches itself.** -/
theorem acyclic (ranked : Ranked edge rank) (a : N) : ¬ Relation.TransGen edge a a :=
  fun cycle => lt_irrefl _ (ranked.reaches cycle)

end Ranked

end HullCi.Base
