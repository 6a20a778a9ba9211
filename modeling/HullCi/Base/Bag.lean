/-
**A bag of threads of which one is replaced by some others.**

The threads of a system are a list up to order. A step takes one of them and puts any number of new
ones in its place.

* `Replaces.count` — how a count changes.
* `Replaces.mem`, `Replaces.kept` — what is there after, and what of before still is.
* `eq_of_countP_le_one` — what occurs at most once is one thing.
-/

import Mathlib.Data.List.Perm.Basic

namespace HullCi.Base

universe u

variable {F : Type u}

/-- Of what occurs at most once, any two are the same. -/
theorem eq_of_countP_le_one {p : F → Bool} {l : List F} (once : l.countP p ≤ 1) {a b : F}
    (one : a ∈ l) (holds : p a = true) (other : b ∈ l) (holds' : p b = true) : a = b := by
  obtain ⟨front, back, rfl⟩ := List.append_of_mem one
  rw [List.countP_append, List.countP_cons_of_pos holds] at once
  rcases List.mem_append.mp other with before | rest
  · have some : 0 < front.countP p := List.countP_pos_iff.mpr ⟨b, before, holds'⟩
    omega
  · rcases List.mem_cons.mp rest with same | after
    · exact same.symm
    · have some : 0 < back.countP p := List.countP_pos_iff.mpr ⟨b, after, holds'⟩
      omega

/-- The thread `f` of the bag `before` is replaced by `new`; `others` are untouched. -/
structure Replaces (f : F) (new others before after : List F) : Prop where
  before : before.Perm (f :: others)
  after : after.Perm (new ++ others)

namespace Replaces

variable {f : F} {new others before after : List F}

theorem count (r : Replaces f new others before after) (p : F → Bool) :
    after.countP p + [f].countP p = before.countP p + new.countP p := by
  rw [r.before.countP_eq, r.after.countP_eq]
  simp only [List.countP_append, List.countP_cons, List.countP_nil]
  omega

theorem mem_before (r : Replaces f new others before after) : f ∈ before :=
  r.before.mem_iff.mpr List.mem_cons_self

theorem mem_others (r : Replaces f new others before after) {g : F} (member : g ∈ others) :
    g ∈ before :=
  r.before.mem_iff.mpr (List.mem_cons_of_mem f member)

theorem mem (r : Replaces f new others before after) {g : F} :
    g ∈ after ↔ g ∈ new ∨ g ∈ others := by
  rw [r.after.mem_iff, List.mem_append]

/-- What is there after is new, or was there before. -/
theorem mem_after (r : Replaces f new others before after) {g : F} (member : g ∈ after) :
    g ∈ new ∨ g ∈ before :=
  (r.mem.mp member).imp id r.mem_others

/-- Every thread but the one replaced is still there. -/
theorem kept (r : Replaces f new others before after) {g : F} (member : g ∈ before) :
    g = f ∨ g ∈ after := by
  rcases List.mem_cons.mp (r.before.mem_iff.mp member) with same | other
  · exact .inl same
  · exact .inr (r.mem.mpr (.inr other))

/-- What occurs at most once and is another thread is not the one replaced. -/
theorem none_of_other (r : Replaces f new others before after) {p : F → Bool}
    (once : before.countP p ≤ 1) {g : F} (other : g ∈ others) (holds : p g = true) :
    p f = false := by
  by_contra mine
  rw [Bool.not_eq_false] at mine
  have some : 0 < others.countP p := List.countP_pos_iff.mpr ⟨g, other, holds⟩
  rw [r.before.countP_eq, List.countP_cons_of_pos mine] at once
  omega

theorem mem_new (r : Replaces f new others before after) {g : F} (member : g ∈ new) :
    g ∈ after :=
  r.mem.mpr (.inl member)

end Replaces

end HullCi.Base
