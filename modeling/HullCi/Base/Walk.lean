/-
**Path resolution in a tree of directories, files and symbolic links.**

A tree tells what each path from its root names. Resolving a path moves a cursor: a directory's name
goes down, `..` goes up from the directory reached, and a link's name puts the link's target in
front of what is left to do, at the link's own directory.

* `Goes`, `Climbs` — resolving a path to its end, and resolving it past the top, as derivations.
* `climbs_iff` — below a directory of a larger tree, climbing is leaving that directory.
* `backtracks_of_climbs` — when no link leaves the tree read letter by letter, only `..` taken
  right after another link has led back to the top does.
-/

import Mathlib.Data.List.Infix
import Mathlib.Logic.Relation

namespace HullCi.Base

universe u

/-- One component of a path. -/
inductive Component (N : Type u)
  | rootDir
  | curDir
  | parentDir
  | normal (name : N)
  deriving DecidableEq, Repr

/-- What a path names. -/
inductive Kind (N : Type u)
  | dir
  | file
  | link (target : List (Component N))
  deriving DecidableEq, Repr

/-- The directory a resolution has reached, and the components left to it. -/
@[ext] structure Cursor (N : Type u) where
  here : List N
  todo : List (Component N)
  deriving DecidableEq, Repr

variable {N : Type u}

/-- A path of names only. -/
def named (path : List N) : List (Component N) :=
  path.map .normal

section Walk

variable (tree : List N → Option (Kind N))

/-- One step of a resolution; `none` when it is done or cannot go on. -/
def Cursor.next (c : Cursor N) : Option (Cursor N) :=
  match c.todo with
  | [] => none
  | .rootDir :: rest => some ⟨[], rest⟩
  | .curDir :: rest => some ⟨c.here, rest⟩
  | .parentDir :: rest => some ⟨c.here.dropLast, rest⟩
  | .normal name :: rest =>
    match tree (c.here ++ [name]) with
    | some .dir => some ⟨c.here ++ [name], rest⟩
    | some (.link target) => some ⟨c.here, target ++ rest⟩
    | some .file | none => none

/-- A resolution of at most `patience` steps. -/
def Cursor.walk : ℕ → Cursor N → Cursor N
  | 0, c => c
  | patience + 1, c =>
    match c.next tree with
    | none => c
    | some c => walk patience c

/-- The directory a path leads to from `start`. -/
def resolveDir (patience : ℕ) (start : List N) (path : List (Component N)) : Option (List N) :=
  match Cursor.walk tree patience ⟨start, path⟩ with
  | ⟨here, []⟩ => some here
  | ⟨_, _ :: _⟩ => none

/-- The resolution of one cursor passes through the other. -/
def Reaches : Cursor N → Cursor N → Prop :=
  Relation.ReflTransGen fun c c' => c.next tree = some c'

/-- Resolving the path from the directory ends at the other, and never goes above the top. -/
inductive Goes : List N → List (Component N) → List N → Prop
  | done (p : List N) : Goes p [] p
  | stay {p q : List N} {rest : List (Component N)} (then' : Goes p rest q) :
      Goes p (.curDir :: rest) q
  | up {p q : List N} {n : N} {rest : List (Component N)} (then' : Goes p rest q) :
      Goes (p ++ [n]) (.parentDir :: rest) q
  | into {p q : List N} {n : N} {rest : List (Component N)}
      (found : tree (p ++ [n]) = some .dir) (then' : Goes (p ++ [n]) rest q) :
      Goes p (.normal n :: rest) q
  | follow {p q r : List N} {n : N} {target rest : List (Component N)}
      (found : tree (p ++ [n]) = some (.link target)) (led : Goes p target q)
      (then' : Goes q rest r) : Goes p (.normal n :: rest) r

/-- Resolving the path from the directory goes above the top. -/
inductive Climbs : List N → List (Component N) → Prop
  | top (rest : List (Component N)) : Climbs [] (.parentDir :: rest)
  | root (p : List N) (rest : List (Component N)) : Climbs p (.rootDir :: rest)
  | stay {p : List N} {rest : List (Component N)} (then' : Climbs p rest) :
      Climbs p (.curDir :: rest)
  | up {p : List N} {n : N} {rest : List (Component N)} (then' : Climbs p rest) :
      Climbs (p ++ [n]) (.parentDir :: rest)
  | into {p : List N} {n : N} {rest : List (Component N)}
      (found : tree (p ++ [n]) = some .dir) (then' : Climbs (p ++ [n]) rest) :
      Climbs p (.normal n :: rest)
  | inside {p : List N} {n : N} {target rest : List (Component N)}
      (found : tree (p ++ [n]) = some (.link target)) (led : Climbs p target) :
      Climbs p (.normal n :: rest)
  | past {p q : List N} {n : N} {target rest : List (Component N)}
      (found : tree (p ++ [n]) = some (.link target)) (led : Goes tree p target q)
      (then' : Climbs q rest) : Climbs p (.normal n :: rest)

variable {tree}

/-! ### Composing resolutions -/

theorem goes_append {p q r : List N} {front back : List (Component N)}
    (first : Goes tree p front q) (second : Goes tree q back r) : Goes tree p (front ++ back) r := by
  induction first with
  | done p => exact second
  | stay _ ih => exact .stay (ih second)
  | up _ ih => exact .up (ih second)
  | into found _ ih => exact .into found (ih second)
  | follow found led _ _ ih => exact .follow found led (ih second)

/-- A climb along two paths one after the other is a climb along the first, or after it. -/
theorem climbs_append {p : List N} {path : List (Component N)} (climbs : Climbs tree p path) :
    ∀ front back, path = front ++ back →
      Climbs tree p front ∨ ∃ q, Goes tree p front q ∧ Climbs tree q back := by
  induction climbs with
  | top rest =>
    rintro (_ | ⟨c, front⟩) back split
    · cases split
      exact .inr ⟨[], .done [], .top rest⟩
    · cases split
      exact .inl (.top front)
  | root p rest =>
    rintro (_ | ⟨c, front⟩) back split
    · cases split
      exact .inr ⟨p, .done p, .root p rest⟩
    · cases split
      exact .inl (.root p front)
  | @stay p rest then' ih =>
    rintro (_ | ⟨c, front⟩) back split
    · cases split
      exact .inr ⟨p, .done p, .stay then'⟩
    · cases split
      rcases ih front back rfl with first | ⟨q, goes, second⟩
      · exact .inl (.stay first)
      · exact .inr ⟨q, .stay goes, second⟩
  | @up p n rest then' ih =>
    rintro (_ | ⟨c, front⟩) back split
    · cases split
      exact .inr ⟨p ++ [n], .done _, .up then'⟩
    · cases split
      rcases ih front back rfl with first | ⟨q, goes, second⟩
      · exact .inl (.up first)
      · exact .inr ⟨q, .up goes, second⟩
  | @into p n rest found then' ih =>
    rintro (_ | ⟨c, front⟩) back split
    · cases split
      exact .inr ⟨p, .done p, .into found then'⟩
    · cases split
      rcases ih front back rfl with first | ⟨q, goes, second⟩
      · exact .inl (.into found first)
      · exact .inr ⟨q, .into found goes, second⟩
  | @inside p n target rest found led ih =>
    rintro (_ | ⟨c, front⟩) back split
    · cases split
      exact .inr ⟨p, .done p, .inside found led⟩
    · cases split
      exact .inl (.inside found led)
  | @past p q n target rest found led then' ih =>
    rintro (_ | ⟨c, front⟩) back split
    · cases split
      exact .inr ⟨p, .done p, .past found led then'⟩
    · cases split
      rcases ih front back rfl with first | ⟨r, goes, second⟩
      · exact .inl (.past found led first)
      · exact .inr ⟨r, .follow found led goes, second⟩

/-! ### A tree below a directory of a larger one -/

/-- What the tree holds below a directory. -/
def below (tree : List N → Option (Kind N)) (top : List N) : List N → Option (Kind N) :=
  fun path => tree (top ++ path)

theorem reaches_of_goes {top p q : List N} {path : List (Component N)}
    (goes : Goes (below tree top) p path q) (tail : List (Component N)) :
    Reaches tree ⟨top ++ p, path ++ tail⟩ ⟨top ++ q, tail⟩ := by
  induction goes generalizing tail with
  | done p => exact .refl
  | stay _ ih => exact .head rfl (ih tail)
  | @up p q n rest _ ih =>
    refine .head ?_ (ih tail)
    unfold Cursor.next
    simp [← List.append_assoc]
  | @into p q n rest found _ ih =>
    unfold below at found
    refine .head ?_ (ih tail)
    simp [Cursor.next, found]
  | @follow p q r n target rest found _ _ ihTarget ih =>
    unfold below at found
    refine .head (b := ⟨top ++ p, target ++ (rest ++ tail)⟩) ?_ ((ihTarget _).trans (ih tail))
    simp [Cursor.next, found]

theorem leaves_of_climbs {top p : List N} {path : List (Component N)} (deep : top ≠ [])
    (climbs : Climbs (below tree top) p path) (tail : List (Component N)) :
    ∃ c, Reaches tree ⟨top ++ p, path ++ tail⟩ c ∧ ¬ top <+: c.here := by
  induction climbs generalizing tail with
  | top rest =>
    refine ⟨⟨top.dropLast, rest ++ tail⟩, .single ?_, fun within => ?_⟩
    · simp [Cursor.next]
    · have shorter := within.length_le
      rw [List.length_dropLast] at shorter
      have some' := List.length_pos_of_ne_nil deep
      omega
  | root p rest =>
    exact ⟨⟨[], rest ++ tail⟩, .single rfl, fun within => deep (List.prefix_nil.mp within)⟩
  | stay _ ih =>
    obtain ⟨c, reaches, out⟩ := ih tail
    exact ⟨c, .head rfl reaches, out⟩
  | @up p n rest _ ih =>
    obtain ⟨c, reaches, out⟩ := ih tail
    refine ⟨c, .head ?_ reaches, out⟩
    unfold Cursor.next
    simp [← List.append_assoc]
  | @into p n rest found _ ih =>
    unfold below at found
    obtain ⟨c, reaches, out⟩ := ih tail
    refine ⟨c, .head ?_ reaches, out⟩
    simp [Cursor.next, found]
  | @inside p n target rest found _ ih =>
    unfold below at found
    obtain ⟨c, reaches, out⟩ := ih (rest ++ tail)
    refine ⟨c, .head ?_ reaches, out⟩
    simp [Cursor.next, found]
  | @past p q n target rest found led _ ih =>
    unfold below at found
    obtain ⟨c, reaches, out⟩ := ih tail
    refine ⟨c, .head (b := ⟨top ++ p, target ++ (rest ++ tail)⟩) ?_
      ((reaches_of_goes led _).trans reaches), out⟩
    simp [Cursor.next, found]

theorem climbs_of_leaves {top : List N} {c c' : Cursor N} (reaches : Reaches tree c c')
    (out : ¬ top <+: c'.here) : ∀ p, c.here = top ++ p → Climbs (below tree top) p c.todo := by
  induction reaches using Relation.ReflTransGen.head_induction_on with
  | refl =>
    intro p within
    exact absurd ⟨p, within.symm⟩ out
  | @head c b step reaches ih =>
    obtain ⟨here, todo⟩ := c
    intro p within
    obtain rfl : here = top ++ p := within
    show Climbs (below tree top) p todo
    unfold Cursor.next at step
    match todo, step with
    | [], step => cases step
    | .rootDir :: rest, _ => exact .root p rest
    | .curDir :: rest, step =>
      obtain rfl := Option.some.inj step
      exact .stay (ih p rfl)
    | .parentDir :: rest, step =>
      obtain rfl := Option.some.inj step
      rcases List.eq_nil_or_concat' p with rfl | ⟨p, n, rfl⟩
      · exact .top rest
      · exact .up (ih p (by simp [← List.append_assoc]))
    | .normal n :: rest, step =>
      dsimp only at step
      rw [List.append_assoc] at step
      cases found : tree (top ++ (p ++ [n])) with
      | none => rw [found] at step; cases step
      | some kind =>
        rw [found] at step
        cases kind with
        | file => cases step
        | dir =>
          obtain rfl := Option.some.inj step
          exact .into found (ih (p ++ [n]) rfl)
        | link target =>
          obtain rfl := Option.some.inj step
          rcases climbs_append (ih p rfl) target rest rfl with led | ⟨q, led, past⟩
          · exact .inside found led
          · exact .past found led past

/-- **Below a directory, climbing above the top is leaving the directory.** -/
theorem climbs_iff {top : List N} (deep : top ≠ []) (p : List N) (path : List (Component N)) :
    Climbs (below tree top) p path ↔
      ∃ c, Reaches tree ⟨top ++ p, path⟩ c ∧ ¬ top <+: c.here := by
  constructor
  · intro climbs
    have leaves := leaves_of_climbs deep climbs []
    rwa [List.append_nil] at leaves
  · rintro ⟨c, reaches, out⟩
    exact climbs_of_leaves reaches out p rfl

/-! ### Reading a target letter by letter -/

/-- The directory a path leads to when every name is taken for a directory. -/
def lexical : List N → List (Component N) → Option (List N)
  | stack, [] => some stack
  | _, .rootDir :: _ => none
  | stack, .curDir :: rest => lexical stack rest
  | stack, .parentDir :: rest => if stack.isEmpty then none else lexical stack.dropLast rest
  | stack, .normal name :: rest => lexical (stack ++ [name]) rest

theorem lexical_append {stack : List N} {front back : List (Component N)} :
    lexical stack (front ++ back) = (lexical stack front).bind fun stack => lexical stack back := by
  induction stack, front using lexical.induct with
  | case1 stack => rfl
  | case2 stack rest => rfl
  | case3 stack rest ih => exact ih
  | case4 stack rest empty => simp [lexical, empty]
  | case5 stack rest some' ih => simpa [lexical, some'] using ih
  | case6 stack name rest ih => exact ih

/-- Resolving the path meets a link. -/
def Meets (tree : List N → Option (Kind N)) (p : List N) (path : List (Component N)) : Prop :=
  ∃ front name back q target, path = front ++ .normal name :: back ∧ Goes tree p front q ∧
    tree (q ++ [name]) = some (.link target)

/-- A resolution that meets no link ends where the path reads. -/
theorem lexical_of_goes {p q : List N} {path : List (Component N)} (goes : Goes tree p path q)
    (plain : ¬ Meets tree p path) : lexical p path = some q := by
  induction goes with
  | done p => rfl
  | stay _ ih =>
    refine ih fun meets => plain ?_
    obtain ⟨front, name, back, r, target, rfl, goes, link⟩ := meets
    exact ⟨_ :: front, name, back, r, target, rfl, .stay goes, link⟩
  | @up p q n rest _ ih =>
    have below := ih fun meets => plain (by
      obtain ⟨front, name, back, r, target, rfl, goes, link⟩ := meets
      exact ⟨_ :: front, name, back, r, target, rfl, .up goes, link⟩)
    simpa [lexical] using below
  | into found _ ih =>
    refine ih fun meets => plain ?_
    obtain ⟨front, name, back, r, target, rfl, goes, link⟩ := meets
    exact ⟨_ :: front, name, back, r, target, rfl, .into found goes, link⟩
  | @follow p q r n target rest found _ _ _ _ =>
    exact absurd ⟨[], n, rest, p, target, rfl, .done p, found⟩ plain

/-! ### The links that climb -/

/-- Some link's target takes `..` where another link has just led it to the top. -/
def Backtracks (tree : List N → Option (Kind N)) : Prop :=
  ∃ q name target front back, tree (q ++ [name]) = some (.link target) ∧
    target = front ++ .parentDir :: back ∧ Meets tree q front ∧ Goes tree q front []

/-- A climb is made by the path itself, or by one link's target. -/
theorem climb_source {p : List N} {path : List (Component N)} (climbs : Climbs tree p path) :
    (∃ front back, (path = front ++ .parentDir :: back ∧ Goes tree p front []) ∨
        path = front ++ .rootDir :: back) ∨
      ∃ q name target, tree (q ++ [name]) = some (.link target) ∧
        ∃ front back, (target = front ++ .parentDir :: back ∧ Goes tree q front []) ∨
          target = front ++ .rootDir :: back := by
  induction climbs with
  | top rest => exact .inl ⟨[], rest, .inl ⟨rfl, .done []⟩⟩
  | root p rest => exact .inl ⟨[], rest, .inr rfl⟩
  | stay _ ih =>
    rcases ih with ⟨front, back, ⟨rfl, goes⟩ | rfl⟩ | link
    · exact .inl ⟨_ :: front, back, .inl ⟨rfl, .stay goes⟩⟩
    · exact .inl ⟨_ :: front, back, .inr rfl⟩
    · exact .inr link
  | up _ ih =>
    rcases ih with ⟨front, back, ⟨rfl, goes⟩ | rfl⟩ | link
    · exact .inl ⟨_ :: front, back, .inl ⟨rfl, .up goes⟩⟩
    · exact .inl ⟨_ :: front, back, .inr rfl⟩
    · exact .inr link
  | into found _ ih =>
    rcases ih with ⟨front, back, ⟨rfl, goes⟩ | rfl⟩ | link
    · exact .inl ⟨_ :: front, back, .inl ⟨rfl, .into found goes⟩⟩
    · exact .inl ⟨_ :: front, back, .inr rfl⟩
    · exact .inr link
  | @inside p n target rest found _ ih =>
    rcases ih with ⟨front, back, here⟩ | link
    · exact .inr ⟨p, n, target, found, front, back, here⟩
    · exact .inr link
  | past found led _ ih =>
    rcases ih with ⟨front, back, ⟨rfl, goes⟩ | rfl⟩ | link
    · exact .inl ⟨_ :: front, back, .inl ⟨rfl, .follow found led goes⟩⟩
    · exact .inl ⟨_ :: front, back, .inr rfl⟩
    · exact .inr link

theorem named_plain {path : List N} {front back : List (Component N)} {c : Component N}
    (split : named path = front ++ c :: back) : ∃ name, c = .normal name := by
  have member : c ∈ named path := by
    rw [split]
    exact List.mem_append_right _ List.mem_cons_self
  obtain ⟨name, -, rfl⟩ := List.mem_map.mp member
  exact ⟨name, rfl⟩

/-- **When every link's target stays inside as it reads, only backtracking climbs.** -/
theorem backtracks_of_climbs
    (read : ∀ q name target, tree (q ++ [name]) = some (.link target) →
      (lexical q target).isSome)
    {path : List N} (climbs : Climbs tree [] (named path)) : Backtracks tree := by
  rcases climb_source climbs with ⟨front, back, ⟨split, -⟩ | split⟩ | ⟨q, name, target, link, rest⟩
  · obtain ⟨name, impossible⟩ := named_plain split
    cases impossible
  · obtain ⟨name, impossible⟩ := named_plain split
    cases impossible
  · have inside := read q name target link
    obtain ⟨front, back, ⟨rfl, goes⟩ | rfl⟩ := rest
    · by_cases meets : Meets tree q front
      · exact ⟨q, name, _, front, back, link, rfl, meets, goes⟩
      · rw [lexical_append, lexical_of_goes goes meets] at inside
        cases inside
    · rw [lexical_append] at inside
      cases read : lexical q front <;> rw [read] at inside <;> cases inside

theorem climbs_of_goes {p q : List N} {front back : List (Component N)}
    (goes : Goes tree p front q) (climbs : Climbs tree q back) :
    Climbs tree p (front ++ back) := by
  induction goes with
  | done p => exact climbs
  | stay _ ih => exact .stay (ih climbs)
  | up _ ih => exact .up (ih climbs)
  | into found _ ih => exact .into found (ih climbs)
  | follow found led _ _ ih => exact .past found led (ih climbs)

/-- In a tree whose directories lie in directories, a directory's own path leads to it. -/
theorem goes_named (nested : ∀ p name, (tree (p ++ [name])).isSome → p = [] ∨ tree p = some .dir) :
    ∀ path, path = [] ∨ tree path = some .dir → Goes tree [] (named path) path := by
  intro path
  induction path using List.reverseRecOn with
  | nil => exact fun _ => .done []
  | append_singleton path name ih =>
    intro found
    have dir : tree (path ++ [name]) = some .dir := found.resolve_left (by simp)
    have parent := ih (nested path name (by rw [dir]; rfl))
    unfold named
    rw [List.map_append]
    exact goes_append parent (.into dir (.done _))

theorem climbs_of_backtracks
    (nested : ∀ p name, (tree (p ++ [name])).isSome → p = [] ∨ tree p = some .dir)
    (backtracks : Backtracks tree) : ∃ path, Climbs tree [] (named path) := by
  obtain ⟨q, name, target, front, back, link, rfl, -, goes⟩ := backtracks
  refine ⟨q ++ [name], ?_⟩
  have parent := goes_named nested q (nested q name (by rw [link]; rfl))
  unfold named
  rw [List.map_append]
  exact climbs_of_goes parent (.inside link (climbs_of_goes goes (.top back)))

end Walk

end HullCi.Base
