/-
**Relative paths with dot segments.**

A path is a list of moves: into a directory, up, or nowhere. `walk` makes the moves from a
directory; at the root `up` goes nowhere.

* `walk_eq` — every list of moves does what its net effect does: climb a number of times, then
  enter some names.
* `prefix_walk_iff` — a walk ends at or below the directory it starts from exactly when it comes back
  down through the directories it climbed out of.
-/

import Mathlib.Data.List.Basic

namespace HullCi

/-- One segment of a path. -/
inductive Move (A : Type*) where
  | enter (name : A)
  | up
  | stay
  deriving DecidableEq

namespace Move

variable {A : Type*}

/-- The directory after a move. -/
def act (dirs : List A) : Move A → List A
  | .enter name => dirs ++ [name]
  | .up => dirs.dropLast
  | .stay => dirs

/-- The directory after some moves. -/
def walk (dirs : List A) (moves : List (Move A)) : List A :=
  moves.foldl act dirs

theorem walk_append (dirs : List A) (front back : List (Move A)) :
    walk dirs (front ++ back) = walk (walk dirs front) back :=
  List.foldl_append

/-- What moves come to: so many climbs, and then these names. -/
structure Net (A : Type*) where
  climbs : ℕ
  names : List A

namespace Net

/-- One move more. -/
def act (n : Net A) : Move A → Net A
  | .enter name => { n with names := n.names ++ [name] }
  | .up => if n.names.isEmpty then { n with climbs := n.climbs + 1 }
      else { n with names := n.names.dropLast }
  | .stay => n

/-- The directory that climbing and entering leads to. -/
def lead (n : Net A) (dirs : List A) : List A :=
  dirs.take (dirs.length - n.climbs) ++ n.names

theorem lead_act (n : Net A) (dirs : List A) (m : Move A) :
    (n.act m).lead dirs = Move.act (n.lead dirs) m := by
  cases m with
  | enter name => exact (List.append_assoc _ _ _).symm
  | stay => rfl
  | up =>
    obtain ⟨climbs, names⟩ := n
    cases names with
    | nil =>
      show dirs.take (dirs.length - (climbs + 1)) ++ [] =
        (dirs.take (dirs.length - climbs) ++ []).dropLast
      rw [List.append_nil, List.append_nil, List.dropLast_eq_take, List.take_take,
        List.length_take]
      congr 1
      omega
    | cons name names =>
      show dirs.take (dirs.length - climbs) ++ (name :: names).dropLast =
        (dirs.take (dirs.length - climbs) ++ name :: names).dropLast
      rw [List.dropLast_append_of_ne_nil (List.cons_ne_nil _ _)]

/-- The names are at or below the directory where they come back through what was climbed out of. -/
theorem prefix_lead_iff (n : Net A) (dirs : List A) :
    dirs <+: n.lead dirs ↔ dirs.drop (dirs.length - n.climbs) <+: n.names := by
  unfold lead
  conv_lhs => lhs; rw [← List.take_append_drop (dirs.length - n.climbs) dirs]
  exact List.prefix_append_right_inj _

end Net

/-- The net effect of some moves. -/
def net (moves : List (Move A)) : Net A :=
  moves.foldl Net.act ⟨0, []⟩

/-- **Moves do what their net effect does.** -/
theorem walk_eq (dirs : List A) (moves : List (Move A)) :
    walk dirs moves = (net moves).lead dirs := by
  have runs : ∀ (moves : List (Move A)) (n : Net A),
      walk (n.lead dirs) moves = (moves.foldl Net.act n).lead dirs := by
    intro moves
    induction moves with
    | nil => exact fun _ => rfl
    | cons m moves ih =>
      intro n
      rw [List.foldl_cons, ← ih, Net.lead_act]
      rfl
  have start : (⟨0, []⟩ : Net A).lead dirs = dirs := by simp [Net.lead]
  rw [← start]
  conv_rhs => rw [start]
  exact runs moves _

/-- **A walk ends at or below its start** exactly when it comes back down the way it climbed. -/
theorem prefix_walk_iff (dirs : List A) (moves : List (Move A)) :
    dirs <+: walk dirs moves ↔
      dirs.drop (dirs.length - (net moves).climbs) <+: (net moves).names := by
  rw [walk_eq, Net.prefix_lead_iff]

end Move

end HullCi
