/-
**What is left of a sanitized text: one tidy line.**

The scan drops, flattens, collapses and truncates in one pass, and the result is trimmed. Dropping a
character can bring two spaces together only in the raw text: the scan remembers the last character
it wrote, not the last it read.

* `sanitizeLoop_spaced` — the scan never writes two spaces in a row.
* `sanitizeLoop_tidy` — a tidy text with room for it passes through the scan unchanged.
* `sanitizeSummary_tidy`, `sanitizeSummary_again` — the result is tidy, and sanitizing it again
  changes nothing.
-/

import Mathlib.Data.List.Chain
import Mathlib.Data.List.DropRight
import HullCi.Proto.Text

namespace HullCi.Proto

/-- The two characters are not both spaces. -/
def Apart (a b : Char) : Prop :=
  ¬ (a = ' ' ∧ b = ' ')

/-- Visible characters on one line, singly spaced, with nothing blank at either end. -/
structure Tidy (line : List Char) : Prop where
  clean : ∀ c ∈ line, Clean c
  spaced : line.IsChain Apart
  head : ∀ c ∈ line.head?, isWhitespace c = false
  last : ∀ c ∈ line.getLast?, isWhitespace c = false

/-! ### What the scan writes -/

/-- **The scan never writes two spaces in a row**, whatever it dropped between them. -/
theorem sanitizeLoop_spaced (escape : Escape) (spaced : Bool) (room : ℕ) (raw : List Char) :
    (sanitizeLoop escape spaced room raw).IsChain Apart ∧
      (spaced = true → ∀ c ∈ (sanitizeLoop escape spaced room raw).head?, c ≠ ' ') := by
  fun_induction sanitizeLoop escape spaced room raw with
  | case1 => exact ⟨.nil, fun _ c found => by cases found⟩
  | case2 _ _ _ _ ih => exact ih
  | case3 _ _ _ _ _ _ _ ih => exact ih
  | case4 _ _ _ _ _ _ _ _ ih => exact ih
  | case5 _ _ _ _ _ _ _ _ _ _ ih => exact ih
  | case6 _ _ _ _ _ _ _ _ _ _ _ ih => exact ih
  | case7 => exact ⟨.nil, fun _ c found => by cases found⟩
  | case8 _ spaced _ _ _ _ _ c visible fresh room ih =>
    refine ⟨List.isChain_cons.mpr ⟨fun next found both => ?_, ih.1⟩, fun after other found => ?_⟩
    · exact ih.2 (decide_eq_true both.1) next found both.2
    · obtain rfl := Option.some.inj found
      exact fun space => fresh ⟨space, after⟩

/-- **A tidy text with room for it passes through the scan unchanged.** -/
theorem sanitizeLoop_tidy {line : List Char} (clean : ∀ c ∈ line, Clean c)
    (chain : line.IsChain Apart) {spaced : Bool}
    (fresh : spaced = true → ∀ c ∈ line.head?, c ≠ ' ') {room : ℕ} (fits : line.length ≤ room) :
    sanitizeLoop .outside spaced room line = line := by
  induction line generalizing spaced room with
  | nil => rfl
  | cons c rest ih =>
    obtain ⟨control, visible, line, paragraph⟩ := clean c List.mem_cons_self
    obtain ⟨next, chain⟩ := List.isChain_cons.mp chain
    obtain ⟨room, rfl⟩ : ∃ left, room = left + 1 := ⟨room - 1, by simp at fits; omega⟩
    have same : flattened c = c := by
      unfold flattened
      simp [control, line, paragraph]
    have escape : (c.val == 0x1b) = false := by
      rw [beq_eq_false_iff_ne]
      intro introducer
      simp [isControl, introducer] at control
    have first : ¬ (c = ' ' ∧ spaced = true) := fun ⟨space, after⟩ => fresh after c rfl space
    have rest' := ih (fun c member => clean c (List.mem_cons_of_mem _ member)) chain
      (fun after other found space => next other found ⟨of_decide_eq_true after, space⟩)
      (Nat.le_of_succ_le_succ fits)
    unfold sanitizeLoop
    simp only [reduceCtorEq, false_and, if_false, escape, Bool.false_eq_true, same, visible,
      if_neg first, rest']

/-! ### Trimming -/

theorem toList_trim (s : String) :
    (trim s).toList = (s.toList.dropWhile isWhitespace).rdropWhile isWhitespace := by
  unfold trim
  rw [String.toList_ofList]
  rfl

theorem trim_infix (s : String) : (trim s).toList <:+: s.toList := by
  rw [toList_trim]
  exact (List.rdropWhile_prefix isWhitespace _).isInfix.trans (List.dropWhile_suffix _).isInfix

theorem trim_ends (s : String) :
    (∀ c ∈ (trim s).toList.head?, isWhitespace c = false) ∧
      ∀ c ∈ (trim s).toList.getLast?, isWhitespace c = false := by
  rw [toList_trim]
  refine ⟨fun c found => ?_, fun c found => ?_⟩
  · obtain ⟨rest, whole⟩ := List.rdropWhile_prefix (p := isWhitespace)
      (l := s.toList.dropWhile isWhitespace)
    have first : (s.toList.dropWhile isWhitespace).head? = some c := by
      rw [← whole, List.head?_append, found]
      rfl
    have blank := List.head?_dropWhile_not isWhitespace s.toList
    rw [first] at blank
    simpa using blank
  · have nonempty : (s.toList.dropWhile isWhitespace).rdropWhile isWhitespace ≠ [] := by
      rintro empty
      rw [empty] at found
      cases found
    have blank := List.rdropWhile_last_not isWhitespace _ nonempty
    rw [List.getLast?_eq_getLast_of_ne_nil nonempty] at found
    obtain rfl := Option.some.inj found
    simpa using blank

theorem trim_eq_self {s : String} (head : ∀ c ∈ s.toList.head?, isWhitespace c = false)
    (last : ∀ c ∈ s.toList.getLast?, isWhitespace c = false) : trim s = s := by
  have front : s.toList.dropWhile isWhitespace = s.toList := by
    rw [List.dropWhile_eq_self_iff]
    intro nonempty
    have found := head s.toList[0] (List.head?_eq_getElem? ▸ List.getElem?_eq_getElem nonempty)
    simpa using found
  have back : s.toList.rdropWhile isWhitespace = s.toList := by
    rw [List.rdropWhile_eq_self_iff]
    intro nonempty
    simpa using last _ (List.getLast?_eq_getLast_of_ne_nil nonempty)
  rw [← String.toList_inj, toList_trim, front, back]

/-! ### Sanitized lines -/

/-- **A sanitized line is tidy.** -/
theorem sanitizeSummary_tidy (raw : String) (maxChars : ℕ) :
    Tidy (sanitizeSummary raw maxChars).toList where
  clean := sanitizeSummary_clean raw maxChars
  spaced := by
    have whole := (sanitizeLoop_spaced .outside false maxChars raw.toList).1
    refine whole.infix ?_
    have inner := trim_infix (String.ofList (sanitizeLoop .outside false maxChars raw.toList))
    rwa [String.toList_ofList] at inner
  head := (trim_ends _).1
  last := (trim_ends _).2

/-- **A tidy line within the cap is its own sanitized form.** -/
theorem sanitizeSummary_of_tidy {line : String} (tidy : Tidy line.toList) {maxChars : ℕ}
    (fits : line.toList.length ≤ maxChars) : sanitizeSummary line maxChars = line := by
  unfold sanitizeSummary
  rw [sanitizeLoop_tidy tidy.clean tidy.spaced (fun after => by cases after) fits,
    String.ofList_toList]
  exact trim_eq_self tidy.head tidy.last

/-- Sanitizing again, with the same cap or a larger one, changes nothing. -/
theorem sanitizeSummary_again (raw : String) {maxChars cap : ℕ} (le : maxChars ≤ cap) :
    sanitizeSummary (sanitizeSummary raw maxChars) cap = sanitizeSummary raw maxChars :=
  sanitizeSummary_of_tidy (sanitizeSummary_tidy raw maxChars)
    ((sanitizeSummary_length raw maxChars).trans le)

end HullCi.Proto
