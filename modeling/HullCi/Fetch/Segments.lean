/-
**One segment against one name: what the matcher takes.**

A name fits a segment when it can be cut into runs, one for each character of the segment. The
matcher compares characters before it looks for a star, so a `*` of the segment that meets a `*` of
the name takes just that one.

* `scan_ends` — the loop ends, with the answer of `segment_matches`.
* `scan_fitted` — it takes the names that can be cut so that a star before a star covers it alone.
* `segment_exact` — the wildcard relation is met exactly where such a cut is no loss.
-/

import HullCi.Fetch.Digest
import Mathlib.Tactic.Linarith

namespace HullCi.Fetch

open HullCi.Base

/-! ### Cutting a name -/

/-- What one character of a segment may cover. -/
def Run (q : Char) (run : List Char) : Prop :=
  if q = '*' then True else if q = '?' then run.length = 1 else run = [q]

/-- The runs are one for each character of the segment, and together the name. -/
structure Cut (segment name : List Char) (runs : List (List Char)) : Prop where
  fits : List.Forall₂ Run segment runs
  whole : runs.flatten = name

/-- A star whose run starts at a `*` of the name covers that alone. -/
def Shy : List Char → List (List Char) → Prop
  | q :: segment, run :: runs =>
    (q = '*' → (run :: runs).flatten.head? = some '*' → run = ['*']) ∧ Shy segment runs
  | _, _ => True

/-- The loop of `segment_matches` with an answer only where it ends. -/
def segmentScan : ℕ → List Char → List Char → Option (List Char × List Char) → Option Bool
  | 0, _, _, _ => none
  | _ + 1, pattern, [], _ => some (pattern.all (· == '*'))
  | fuel + 1, pattern, c :: name, star =>
    let back :=
      match star with
      | some (after, resume) => segmentScan fuel after resume.tail (some (after, resume.tail))
      | none => some false
    match pattern with
    | q :: rest =>
      if q = '?' || q = c then segmentScan fuel rest name star
      else if q = '*' then segmentScan fuel rest (c :: name) (some (rest, c :: name))
      else back
    | [] => back

/-- The matcher ends, and takes the names that can be cut. -/
structure Exact (segment name : String) : Prop where
  ends : ∃ fuel, segmentScan fuel segment.toList name.toList none
    = some (segmentMatches segment name)
  right : segmentMatches segment name = true ↔ ∃ runs, Cut segment.toList name.toList runs

/-! ### Cuts a step at a time -/

/-- The name is cut so that a star before a star covers it alone. -/
inductive Fitted : List Char → List Char → Prop
  | done : Fitted [] []
  | same {c : Char} {p n : List Char} (rest : Fitted p n) : Fitted (c :: p) (c :: n)
  | one {c : Char} {p n : List Char} (rest : Fitted p n) : Fitted ('?' :: p) (c :: n)
  | star {p n : List Char} (k : ℕ) (other : n.head? ≠ some '*') (rest : Fitted p (n.drop k)) :
    Fitted ('*' :: p) n

theorem Fitted.cut {p n : List Char} (reads : Fitted p n) : ∃ runs, Cut p n runs ∧ Shy p runs := by
  induction reads with
  | done => exact ⟨[], ⟨.nil, rfl⟩, trivial⟩
  | @same c p n rest hyp =>
    obtain ⟨runs, ⟨fits, rfl⟩, shy⟩ := hyp
    refine ⟨[c] :: runs, ⟨.cons ?_ fits, rfl⟩, ?_, shy⟩
    · unfold Run
      split_ifs <;> trivial
    · rintro rfl -
      rfl
  | @one c p n rest hyp =>
    obtain ⟨runs, ⟨fits, rfl⟩, shy⟩ := hyp
    exact ⟨[c] :: runs, ⟨.cons rfl fits, rfl⟩, fun other => absurd other (by decide), shy⟩
  | @star p n k other rest hyp =>
    obtain ⟨runs, ⟨fits, whole⟩, shy⟩ := hyp
    have name : (n.take k :: runs).flatten = n := by
      rw [List.flatten_cons, whole, List.take_append_drop]
    exact ⟨n.take k :: runs, ⟨.cons trivial fits, name⟩,
      fun _ faced => absurd (name ▸ faced) other, shy⟩

theorem Fitted.of_cut {p n : List Char} {runs : List (List Char)} (cut : Cut p n runs)
    (shy : Shy p runs) : Fitted p n := by
  obtain ⟨fits, rfl⟩ := cut
  induction fits with
  | nil => exact .done
  | @cons q run p runs first rest hyp =>
    have below := hyp shy.2
    rw [List.flatten_cons]
    by_cases star : q = '*'
    · subst star
      by_cases faced : (run ++ runs.flatten).head? = some '*'
      · rw [shy.1 rfl faced]
        exact .same below
      · refine .star run.length faced ?_
        rwa [List.drop_left]
    · unfold Run at first
      rw [if_neg star] at first
      split_ifs at first with one
      · subst one
        obtain ⟨c, rfl⟩ := List.length_eq_one_iff.mp first
        exact .one below
      · subst first
        exact .same below

theorem fitted_nil {p : List Char} : Fitted p [] ↔ p.all (· == '*') = true := by
  induction p with
  | nil => exact ⟨fun _ => rfl, fun _ => .done⟩
  | cons q p hyp =>
    rw [List.all_cons, Bool.and_eq_true, beq_iff_eq, ← hyp]
    constructor
    · intro reads
      cases reads with
      | star k other rest => exact ⟨rfl, by rwa [List.drop_nil] at rest⟩
    · rintro ⟨rfl, rest⟩
      exact .star 0 (by simp) rest

/-- The step on a character that is taken: `?`, or the same, a star among them. -/
theorem fitted_taken {q c : Char} {p n : List Char} (taken : q = '?' ∨ q = c) :
    Fitted (q :: p) (c :: n) ↔ Fitted p n := by
  constructor
  · intro reads
    cases reads with
    | same rest => exact rest
    | one rest => exact rest
    | star k other rest =>
      rcases taken with none | rfl
      · cases none
      · exact absurd rfl other
  · intro rest
    rcases taken with rfl | rfl
    · exact .one rest
    · exact .same rest

theorem fitted_star {c : Char} {p n : List Char} (other : c ≠ '*') :
    Fitted ('*' :: p) (c :: n) ↔ ∃ k, Fitted p ((c :: n).drop k) := by
  constructor
  · intro reads
    cases reads with
    | same rest => exact absurd rfl other
    | star k _ rest => exact ⟨k, rest⟩
  · rintro ⟨k, rest⟩
    exact .star k (by simpa using other) rest

theorem Fitted.star_later {p n : List Char} (reads : Fitted ('*' :: p) n) :
    ∃ k, Fitted p (n.drop k) := by
  cases reads with
  | same rest => exact ⟨1, rest⟩
  | star k _ rest => exact ⟨k, rest⟩

/-- Nothing is cut where the first characters do not go together. -/
theorem not_reads_stuck {q c : Char} {p n : List Char} (taken : ¬ (q = '?' ∨ q = c))
    (star : q ≠ '*') : ¬ Fitted (q :: p) (c :: n) := by
  intro reads
  cases reads with
  | same rest => exact taken (.inr rfl)
  | one rest => exact taken (.inl rfl)
  | star k other rest => exact star rfl

/-! ### The loop -/

theorem segmentScan_cons {fuel : ℕ} {q c : Char} {p n : List Char}
    {star : Option (List Char × List Char)} :
    segmentScan (fuel + 1) (q :: p) (c :: n) star =
      if (q = '?' || q = c) = true then segmentScan fuel p n star
      else if q = '*' then segmentScan fuel p (c :: n) (some (p, c :: n))
      else
        match star with
        | some (after, resume) => segmentScan fuel after resume.tail (some (after, resume.tail))
        | none => some false := rfl

/-- The characters that the loop takes without a star: `?`, or the same. -/
def Goes (q c : Char) : Prop :=
  q = '?' ∨ q = c

theorem fitted_goes {l m p n : List Char} (goes : List.Forall₂ Goes l m) :
    Fitted (l ++ p) (m ++ n) ↔ Fitted p n := by
  induction goes with
  | nil => rfl
  | cons first rest hyp => exact (fitted_taken first).trans hyp

/-- What was taken without a star is never taken by less of the name: a later start of the same
pattern reaches what is left of it no earlier. A star in between that met a star could only gain
by covering nothing at that very place, where it covers the star. -/
theorem fitted_later {l m p n : List Char} (goes : List.Forall₂ Goes l m) {k : ℕ}
    (reads : Fitted (l ++ p) ((m ++ n).drop k)) : ∃ j, Fitted p (n.drop j) := by
  induction goes generalizing k with
  | nil => exact ⟨k, reads⟩
  | @cons q c l m first rest hyp =>
    cases k with
    | zero => exact hyp (k := 0) ((fitted_taken first).mp reads)
    | succ k =>
      change Fitted (q :: (l ++ p)) ((m ++ n).drop k) at reads
      cases left : (m ++ n).drop k with
      | nil =>
        rw [left, fitted_nil, List.all_cons, Bool.and_eq_true, ← fitted_nil] at reads
        exact hyp (k := k) (left ▸ reads.2)
      | cons d more =>
        rw [left] at reads
        by_cases taken : q = '?' ∨ q = d
        · have next : (m ++ n).drop (k + 1) = more := by
            rw [← List.drop_drop, left, List.drop_one, List.tail_cons]
          exact hyp (k := k + 1) (next ▸ (fitted_taken taken).mp reads)
        · by_cases star : q = '*'
          · subst star
            have other : d ≠ '*' := fun same => taken (.inr same.symm)
            obtain ⟨j, onward⟩ := (fitted_star other).mp reads
            refine hyp (k := k + j) ?_
            rwa [← List.drop_drop, left]
          · exact absurd reads (not_reads_stuck taken star)

/-- With a star to come back to, the loop ends, and finds the first start that goes on to the end
of the name. -/
theorem scan_resumed {fuel w : ℕ} {l m p n : List Char} (goes : List.Forall₂ Goes l m)
    (short : (l ++ p).length ≤ w) (enough : (m ++ n).length * (w + 1) + p.length < fuel) :
    ∃ b, segmentScan fuel p n (some (l ++ p, m ++ n)) = some b ∧
      (b = true ↔ ∃ k, Fitted (l ++ p) ((m ++ n).drop k)) := by
  induction fuel generalizing l m p n with
  | zero => omega
  | succ fuel hyp =>
    cases n with
    | nil =>
      refine ⟨p.all (· == '*'), rfl, ?_⟩
      rw [← fitted_nil]
      constructor
      · intro reads
        exact ⟨0, (fitted_goes goes).mpr reads⟩
      · rintro ⟨k, reads⟩
        obtain ⟨j, reads⟩ := fitted_later goes reads
        rwa [List.drop_nil] at reads
    | cons c n =>
      have back (stuck : ¬ Fitted p (c :: n)) :
          ∃ b, segmentScan fuel (l ++ p) (m ++ c :: n).tail
              (some (l ++ p, (m ++ c :: n).tail)) = some b ∧
            (b = true ↔ ∃ k, Fitted (l ++ p) ((m ++ c :: n).drop k)) := by
        have rows : (m ++ c :: n).length = (m ++ c :: n).tail.length + 1 := by
          rw [List.length_tail, List.length_append, List.length_cons]
          omega
        have cheaper : (m ++ c :: n).tail.length * (w + 1) + (l ++ p).length < fuel := by
          rw [rows, Nat.succ_mul] at enough
          omega
        obtain ⟨b, ended, means⟩ :=
          hyp (l := []) (m := []) (p := l ++ p) (n := (m ++ c :: n).tail) .nil short cheaper
        refine ⟨b, ended, means.trans ?_⟩
        simp only [List.nil_append, List.drop_tail]
        constructor
        · rintro ⟨k, reads⟩
          exact ⟨k + 1, reads⟩
        · rintro ⟨k, reads⟩
          cases k with
          | zero => exact absurd ((fitted_goes goes).mp reads) stuck
          | succ k => exact ⟨k, reads⟩
      cases p with
      | nil => exact back fun none => nomatch none
      | cons q p =>
        rw [List.length_cons] at enough
        simp only [segmentScan_cons, Bool.or_eq_true, decide_eq_true_eq]
        split_ifs with taken star
        · have grown : l ++ q :: p = (l ++ [q]) ++ p := by simp
          have eaten : m ++ c :: n = (m ++ [c]) ++ n := by simp
          rw [grown, eaten]
          refine hyp (List.rel_append goes (.cons taken .nil)) (by rwa [← grown]) ?_
          rw [← eaten]
          omega
        · subst star
          have other : c ≠ '*' := fun same => taken (.inr same.symm)
          have fewer : (c :: n).length * (w + 1) + p.length < fuel := by
            have rows : (c :: n).length ≤ (m ++ c :: n).length := by simp
            have := Nat.mul_le_mul_right (w + 1) rows
            omega
          have rest : p.length ≤ w := by
            rw [List.length_append, List.length_cons] at short
            omega
          obtain ⟨b, ended, means⟩ := hyp (l := []) (m := []) .nil rest fewer
          refine ⟨b, ended, means.trans ?_⟩
          rw [List.nil_append, List.nil_append, ← fitted_star other]
          constructor
          · intro reads
            exact ⟨0, (fitted_goes goes).mpr reads⟩
          · rintro ⟨k, reads⟩
            obtain ⟨j, reads⟩ := fitted_later goes reads
            obtain ⟨i, reads⟩ := reads.star_later
            exact (fitted_star other).mpr ⟨j + i, by rwa [← List.drop_drop]⟩
        · exact back (not_reads_stuck taken star)

/-- Before any star, the same of the name from where it stands. -/
theorem scan_ends {fuel w : ℕ} {p n : List Char} (short : p.length ≤ w)
    (enough : n.length * (w + 1) + p.length < fuel) :
    ∃ b, segmentScan fuel p n none = some b ∧ (b = true ↔ Fitted p n) := by
  induction fuel generalizing p n with
  | zero => omega
  | succ fuel hyp =>
    cases n with
    | nil => exact ⟨p.all (· == '*'), rfl, fitted_nil.symm⟩
    | cons c n =>
      cases p with
      | nil =>
        exact ⟨false, rfl, iff_of_false (by decide) fun reads => nomatch reads⟩
      | cons q p =>
        rw [List.length_cons] at short
        have rows : (c :: n).length * (w + 1) = n.length * (w + 1) + (w + 1) :=
          Nat.succ_mul _ _
        rw [rows, List.length_cons] at enough
        simp only [segmentScan_cons, Bool.or_eq_true, decide_eq_true_eq]
        split_ifs with taken star
        · obtain ⟨b, ended, means⟩ := hyp (p := p) (n := n) (by omega) (by omega)
          exact ⟨b, ended, means.trans (fitted_taken taken).symm⟩
        · subst star
          have other : c ≠ '*' := fun same => taken (.inr same.symm)
          have fewer : (c :: n).length * (w + 1) + p.length < fuel := by
            rw [rows]
            omega
          obtain ⟨b, ended, means⟩ :=
            scan_resumed (l := []) (m := []) (p := p) (n := c :: n) .nil (by simp; omega) fewer
          exact ⟨b, ended, means.trans (fitted_star other).symm⟩
        · exact ⟨false, rfl, iff_of_false (by decide) (not_reads_stuck taken star)⟩

theorem segmentLoop_of_scan {fuel : ℕ} {p n : List Char} {star : Option (List Char × List Char)}
    {b : Bool} (ended : segmentScan fuel p n star = some b) : segmentLoop fuel p n star = b := by
  induction fuel generalizing p n star with
  | zero => cases ended
  | succ fuel hyp =>
    cases n with
    | nil => exact Option.some.inj ended
    | cons c n =>
      cases star <;> cases p <;> simp only [segmentScan] at ended <;> simp only [segmentLoop]
      case none.nil => exact Option.some.inj ended
      case some.nil => exact hyp ended
      case none.cons =>
        split_ifs at ended ⊢
        · exact hyp ended
        · exact hyp ended
        · exact Option.some.inj ended
      case some.cons =>
        split_ifs at ended ⊢ <;> exact hyp ended

theorem segmentMatches_ends (segment name : String) :
    segmentScan ((name.toList.length + 1) * (segment.toList.length + 2)) segment.toList
        name.toList none = some (segmentMatches segment name) ∧
      (segmentMatches segment name = true ↔ Fitted segment.toList name.toList) := by
  have enough : name.toList.length * (segment.toList.length + 1) + segment.toList.length <
      (name.toList.length + 1) * (segment.toList.length + 2) := by
    nlinarith [Nat.zero_le name.toList.length, Nat.zero_le segment.toList.length]
  obtain ⟨b, ended, means⟩ := scan_ends le_rfl enough
  have answer : segmentMatches segment name = b := segmentLoop_of_scan ended
  rw [answer]
  exact ⟨ended, means⟩

/-- The matcher takes exactly the names cut with shy stars. -/
theorem segmentMatches_iff (segment name : String) :
    segmentMatches segment name = true ↔
      ∃ runs, Cut segment.toList name.toList runs ∧ Shy segment.toList runs := by
  rw [(segmentMatches_ends segment name).2]
  constructor
  · exact Fitted.cut
  · rintro ⟨runs, cut, shy⟩
    exact Fitted.of_cut cut shy

/-- **The wildcard relation is met exactly where a name that can be cut can be cut so that a star
before a `*` of the name covers it alone.** -/
theorem segment_exact (segment name : String) :
    Exact segment name ↔
      ((∃ runs, Cut segment.toList name.toList runs) →
        ∃ runs, Cut segment.toList name.toList runs ∧ Shy segment.toList runs) := by
  have means := segmentMatches_iff segment name
  constructor
  · intro exact' cut
    exact means.mp (exact'.right.mpr cut)
  · intro shy
    refine ⟨⟨_, (segmentMatches_ends segment name).1⟩, fun taken => ?_,
      fun cut => means.mpr (shy cut)⟩
    obtain ⟨runs, cut, -⟩ := means.mp taken
    exact ⟨runs, cut⟩

/-- `*x` misses `*yx`: the star covers the first character alone, and is never widened. -/
theorem star_name_missed : ¬ Exact "*x" "*yx" := by
  intro exact'
  have cut : Cut ['*', 'x'] ['*', 'y', 'x'] [['*', 'y'], ['x']] :=
    ⟨.cons trivial (.cons rfl .nil), rfl⟩
  have taken := exact'.right.mpr ⟨_, cut⟩
  revert taken
  decide

end HullCi.Fetch
