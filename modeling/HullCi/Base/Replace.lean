/-
**Replacing every occurrence of a needle by a mark.**

The scan goes from left to right and starts again behind each match. What it leaves may hold the
needle all the same: a mark and its neighbours can spell it.

* `Clear` — no copy of the mark overlaps an occurrence of the value.
* `not_infix_replaceFrom` — a clear value is gone once it was the needle, and no other needle brings
  it back.
* `replaceFrom_free`, `replaceFrom_front` — where there is nothing to replace, and where the first
  match is.
* `Replaced` — the marks stand where the needle stood, and all the rest is kept in order.
-/

import Mathlib.Data.List.Infix

namespace HullCi.Base

universe u

variable {α : Type u}

/-! ### Occurrences -/

/-- An occurrence in two parts put together begins in the first one or lies in the second. -/
theorem infix_append_cases {p front back : List α} (found : p <:+: front ++ back) :
    (∃ s, s ≠ [] ∧ s <:+ front ∧ p <+: s ++ back) ∨ p <:+: back := by
  induction front with
  | nil => exact .inr found
  | cons a front ih =>
    rcases List.infix_cons_iff.mp found with here | later
    · exact .inl ⟨a :: front, by simp, List.suffix_refl _, here⟩
    · refine (ih later).imp_left ?_
      rintro ⟨s, some', ends, starts⟩
      exact ⟨s, some', ends.trans (List.suffix_cons _ _), starts⟩

/-- What begins with the value and what begins with the part of the mark: one is the start of the
other. -/
theorem prefix_append_cases {p front back : List α} (found : p <+: front ++ back) :
    p <+: front ∨ front <+: p :=
  List.prefix_or_prefix_of_prefix found (List.prefix_append _ _)

/-- No copy of the mark overlaps an occurrence of the value. -/
structure Clear (mark p : List α) : Prop where
  some' : p ≠ []
  whole : ¬ mark <:+: p
  starts : ∀ s, s ≠ [] → s <:+ mark → ¬ p <+: s ∧ ¬ s <+: p
  ends : ∀ s, s ≠ [] → s <:+ p → ¬ s <+: mark

/-! ### The scan -/

variable [DecidableEq α] (needle mark : List α)

/-- The scan, with so many bytes of a match still to be passed. -/
def replaceFrom : ℕ → List α → List α
  | _, [] => []
  | skip + 1, _ :: rest => replaceFrom skip rest
  | 0, b :: rest =>
    if needle <+: b :: rest then mark ++ replaceFrom (needle.length - 1) rest
    else b :: replaceFrom 0 rest

theorem replaceFrom_nil (skip : ℕ) : replaceFrom needle mark skip [] = [] := by
  cases skip <;> rfl

theorem replaceFrom_pass (skip : ℕ) (b : α) (rest : List α) :
    replaceFrom needle mark (skip + 1) (b :: rest) = replaceFrom needle mark skip rest :=
  rfl

theorem replaceFrom_cons (b : α) (rest : List α) :
    replaceFrom needle mark 0 (b :: rest) =
      if needle <+: b :: rest then mark ++ replaceFrom needle mark (needle.length - 1) rest
      else b :: replaceFrom needle mark 0 rest :=
  rfl

theorem replaceFrom_drop (skip : ℕ) (l : List α) :
    replaceFrom needle mark skip l = replaceFrom needle mark 0 (l.drop skip) := by
  induction skip generalizing l with
  | zero => rfl
  | succ skip ih =>
    cases l with
    | nil => rfl
    | cons b rest => exact ih rest

variable {needle mark}

/-- Where there is nothing to replace, nothing is replaced. -/
theorem replaceFrom_free {l : List α} (free : ¬ needle <:+: l) :
    replaceFrom needle mark 0 l = l := by
  induction l with
  | nil => rfl
  | cons b rest ih =>
    rw [List.infix_cons_iff, not_or] at free
    rw [replaceFrom_cons, if_neg free.1, ih free.2]

/-- The first match, and the mark in its place. -/
theorem replaceFrom_front {front back : List α} (some' : needle ≠ [])
    (first : ∀ n < front.length, ¬ needle <+: (front ++ (needle ++ back)).drop n) :
    replaceFrom needle mark 0 (front ++ (needle ++ back)) =
      front ++ (mark ++ replaceFrom needle mark 0 back) := by
  induction front with
  | nil =>
    obtain ⟨b, rest, rfl⟩ := List.exists_cons_of_ne_nil some'
    show replaceFrom (b :: rest) mark 0 (b :: (rest ++ back)) = _
    have here : b :: rest <+: b :: (rest ++ back) := List.prefix_append (b :: rest) back
    rw [replaceFrom_cons, if_pos here, replaceFrom_drop]
    show mark ++ replaceFrom (b :: rest) mark 0 ((rest ++ back).drop rest.length) = _
    rw [List.drop_left]
    rfl
  | cons b front ih =>
    have here : ¬ needle <+: b :: (front ++ (needle ++ back)) := first 0 (Nat.zero_lt_succ _)
    show replaceFrom needle mark 0 (b :: (front ++ (needle ++ back))) = _
    rw [replaceFrom_cons, if_neg here, ih fun n below => first (n + 1) (Nat.succ_lt_succ below)]
    rfl

/-- What starts the text left, and ends in no mark, started the text before. -/
theorem prefix_of_replaceFrom {p l : List α} (whole : ¬ mark <:+: p)
    (ends : ∀ s, s ≠ [] → s <:+ p → ¬ s <+: mark)
    (starts : p <+: replaceFrom needle mark 0 l) : p <+: l := by
  induction l generalizing p with
  | nil => exact starts
  | cons b rest ih =>
    by_cases empty : p = []
    · rw [empty]
      exact List.nil_prefix
    rw [replaceFrom_cons] at starts
    split at starts
    · rcases prefix_append_cases starts with inside | over'
      · exact absurd inside (ends p empty (List.suffix_refl _))
      · exact absurd over'.isInfix whole
    · obtain ⟨c, p, rfl⟩ := List.exists_cons_of_ne_nil empty
      obtain ⟨rfl, starts'⟩ := List.cons_prefix_cons.mp starts
      refine List.cons_prefix_cons.mpr ⟨rfl, ih (fun inside => whole ?_) ?_ starts'⟩
      · exact inside.trans (List.suffix_cons _ _).isInfix
      · exact fun s some' suffix => ends s some' (suffix.trans (List.suffix_cons _ _))

/-- **A clear value is gone** once it was the needle, and comes back with no other needle. -/
theorem not_infix_replaceFrom {p l : List α} (clear : Clear mark p)
    (free : needle = p ∨ ¬ p <:+: l) (skip : ℕ) :
    ¬ p <:+: replaceFrom needle mark skip l := by
  induction l generalizing skip with
  | nil =>
    rw [replaceFrom_nil, List.infix_nil]
    exact clear.some'
  | cons b rest ih =>
    have later : needle = p ∨ ¬ p <:+: rest :=
      free.imp_right fun free inside => free (inside.trans (List.suffix_cons _ _).isInfix)
    cases skip with
    | succ skip =>
      rw [replaceFrom_pass]
      exact ih later skip
    | zero =>
      intro found
      by_cases here : needle <+: b :: rest
      · rw [replaceFrom_cons, if_pos here] at found
        rcases infix_append_cases found with ⟨s, some', suffix, starts⟩ | inside
        · rcases prefix_append_cases starts with short | long
          · exact (clear.starts s some' suffix).1 short
          · exact (clear.starts s some' suffix).2 long
        · exact ih later _ inside
      · rw [replaceFrom_cons, if_neg here] at found
        rcases List.infix_cons_iff.mp found with starts | inside
        · have step : replaceFrom needle mark 0 (b :: rest) =
              b :: replaceFrom needle mark 0 rest := by
            rw [replaceFrom_cons, if_neg here]
          rw [← step] at starts
          have before := prefix_of_replaceFrom clear.whole clear.ends starts
          rcases free with rfl | free
          · exact here before
          · exact free before.isInfix
        · exact ih later 0 inside

/-! ### What is kept -/

/-- The second text is the first one with marks where the needle stood. -/
inductive Replaced (needle mark : List α) : List α → List α → Prop
  | nil : Replaced needle mark [] []
  | keep {b : α} {l l' : List α} (rest : Replaced needle mark l l') :
      Replaced needle mark (b :: l) (b :: l')
  | mask {l l' : List α} (rest : Replaced needle mark l l') :
      Replaced needle mark (needle ++ l) (mark ++ l')

omit [DecidableEq α] in
theorem Replaced.refl (l : List α) : Replaced needle mark l l := by
  induction l with
  | nil => exact .nil
  | cons b rest ih => exact .keep ih

theorem replaced_replaceFrom (some' : needle ≠ []) (skip : ℕ) (l : List α) :
    Replaced needle mark (l.drop skip) (replaceFrom needle mark skip l) := by
  induction l generalizing skip with
  | nil =>
    rw [replaceFrom_nil, List.drop_nil]
    exact .nil
  | cons b rest ih =>
    cases skip with
    | succ skip => exact ih skip
    | zero =>
      rw [replaceFrom_cons]
      split
      · rename_i here
        obtain ⟨back, same⟩ := here
        have length : needle.length - 1 + 1 = needle.length :=
          Nat.sub_add_cancel (List.length_pos_iff.mpr some')
        have behind : rest.drop (needle.length - 1) = back := by
          rw [← List.drop_succ_cons (a := b), length, ← same, List.drop_left]
        have masked := Replaced.mask (ih (needle.length - 1))
        rw [behind, same] at masked
        exact masked
      · exact .keep (ih 0)

end HullCi.Base
