/-
**Untrusted text: what a summary line and a path segment may carry.**

The contract crate strips job output before it reaches a one-line label. The loop of
`sanitize_summary` reads the raw text once, so it is a structural recursion here, with the position
inside an escape sequence as explicit state.

* `sanitizeSummary_length` — a sanitized line never exceeds its cap.
* `sanitizeSummary_clean` — no control character and no invisible formatting survives.
-/

import Mathlib.Data.List.Basic
import Mathlib.Data.String.Basic

namespace HullCi.Proto

/-! ### Character classes -/

/-- `char::is_control`: the general category Cc. -/
def isControl (c : Char) : Bool :=
  c.val < 0x20 || (0x7f ≤ c.val && c.val ≤ 0x9f)

/-- `char::is_whitespace`: the Unicode property White_Space. -/
def isWhitespace (c : Char) : Bool :=
  (0x09 ≤ c.val && c.val ≤ 0x0d) || c.val == 0x20 || c.val == 0x85 || c.val == 0xa0
    || c.val == 0x1680 || (0x2000 ≤ c.val && c.val ≤ 0x200a) || c.val == 0x2028
    || c.val == 0x2029 || c.val == 0x202f || c.val == 0x205f || c.val == 0x3000

def isAsciiAlphabetic (c : Char) : Bool :=
  (0x41 ≤ c.val && c.val ≤ 0x5a) || (0x61 ≤ c.val && c.val ≤ 0x7a)

/-- Characters that occupy no width but change how the text around them reads. -/
def isInvisibleFormatting (c : Char) : Bool :=
  c.val == 0x00ad || c.val == 0x061c || c.val == 0x180e
    || (0x200b ≤ c.val && c.val ≤ 0x200f)
    || (0x202a ≤ c.val && c.val ≤ 0x202e)
    || (0x2060 ≤ c.val && c.val ≤ 0x2064)
    || (0x2066 ≤ c.val && c.val ≤ 0x206f)
    || c.val == 0xfeff
    || (0xfff9 ≤ c.val && c.val ≤ 0xfffb)
    || c.val == 0x110bd || c.val == 0x110cd
    || (0x13430 ≤ c.val && c.val ≤ 0x1343f)
    || (0x1bca0 ≤ c.val && c.val ≤ 0x1bca3)
    || (0x1d173 ≤ c.val && c.val ≤ 0x1d17a)
    || c.val == 0xe0001
    || (0xe0020 ≤ c.val && c.val ≤ 0xe007f)

def trim (s : String) : String :=
  String.ofList (((s.toList.dropWhile isWhitespace).reverse.dropWhile isWhitespace).reverse)

/-! ### Sanitizing -/

/-- Where the scan stands relative to an escape sequence. -/
inductive Escape
  | outside
  | introducer
  | sequence
  deriving DecidableEq, Repr

/-- Controls and the two Unicode line breaks become a space. -/
def flattened (c : Char) : Char :=
  if isControl c || c.val == 0x2028 || c.val == 0x2029 then ' ' else c

/-- The loop of `sanitize_summary`: `room` characters may still be pushed. -/
def sanitizeLoop : Escape → Bool → ℕ → List Char → List Char
  | _, _, _, [] => []
  | .sequence, spaced, room, c :: rest =>
    sanitizeLoop (if isAsciiAlphabetic c then .outside else .sequence) spaced room rest
  | escape, spaced, room, c :: rest =>
    if escape = .introducer ∧ c = '[' then sanitizeLoop .sequence spaced room rest
    else if c.val == 0x1b then sanitizeLoop .introducer spaced room rest
    else
      let c := flattened c
      if isInvisibleFormatting c then sanitizeLoop .outside spaced room rest
      else if c = ' ' ∧ spaced then sanitizeLoop .outside spaced room rest
      else match room with
        | 0 => []
        | room + 1 => c :: sanitizeLoop .outside (c = ' ') room rest

/-- Make untrusted job output safe to put in a one-line summary. -/
def sanitizeSummary (raw : String) (maxChars : ℕ) : String :=
  trim (String.ofList (sanitizeLoop .outside false maxChars raw.toList))

/-- The default cap for a summary line. -/
def summaryMaxChars : ℕ := 200

/-- An untrusted label in backticks it cannot close. -/
def quoted (raw : String) (cap : ℕ) : String :=
  let clean := (sanitizeSummary raw cap).toList
  "`" ++ String.ofList (clean.map fun c => if c.val == 0x60 then '\'' else c) ++ "`"

/-- What a character of a sanitized line is. -/
def Clean (c : Char) : Prop :=
  isControl c = false ∧ isInvisibleFormatting c = false ∧ c.val ≠ 0x2028 ∧ c.val ≠ 0x2029

theorem sanitizeLoop_length (escape : Escape) (spaced : Bool) (room : ℕ) (raw : List Char) :
    (sanitizeLoop escape spaced room raw).length ≤ room := by
  fun_induction sanitizeLoop escape spaced room raw with
  | case1 => exact Nat.zero_le _
  | case2 _ _ _ _ ih => exact ih
  | case3 _ _ _ _ _ _ _ ih => exact ih
  | case4 _ _ _ _ _ _ _ _ ih => exact ih
  | case5 _ _ _ _ _ _ _ _ _ _ ih => exact ih
  | case6 _ _ _ _ _ _ _ _ _ _ _ ih => exact ih
  | case7 => exact Nat.zero_le _
  | case8 _ _ _ _ _ _ _ _ _ _ _ ih => exact Nat.succ_le_succ ih

theorem flattened_notControl (c : Char) :
    isControl (flattened c) = false ∧ (flattened c).val ≠ 0x2028 ∧
      (flattened c).val ≠ 0x2029 := by
  unfold flattened
  by_cases breaks : isControl c || c.val == 0x2028 || c.val == 0x2029
  · rw [if_pos breaks]
    decide
  · rw [if_neg breaks]
    simpa [not_or, and_assoc] using breaks

theorem sanitizeLoop_clean (escape : Escape) (spaced : Bool) (room : ℕ) (raw : List Char) :
    ∀ c ∈ sanitizeLoop escape spaced room raw, Clean c := by
  fun_induction sanitizeLoop escape spaced room raw with
  | case1 => simp
  | case2 _ _ _ _ ih => exact ih
  | case3 _ _ _ _ _ _ _ ih => exact ih
  | case4 _ _ _ _ _ _ _ _ ih => exact ih
  | case5 _ _ _ _ _ _ _ _ _ _ ih => exact ih
  | case6 _ _ _ _ _ _ _ _ _ _ _ ih => exact ih
  | case7 => simp
  | case8 _ _ raw _ _ _ _ _ visible _ _ ih =>
    intro c member
    rcases List.mem_cons.mp member with rfl | member
    · obtain ⟨control, line, paragraph⟩ := flattened_notControl raw
      exact ⟨control, Bool.eq_false_iff.mpr visible, line, paragraph⟩
    · exact ih c member

theorem mem_trim {s : String} {c : Char} (member : c ∈ (trim s).toList) : c ∈ s.toList := by
  unfold trim at member
  rw [String.toList_ofList, List.mem_reverse] at member
  have inner := List.mem_reverse.mp ((List.dropWhile_sublist _).subset member)
  exact (List.dropWhile_sublist _).subset inner

theorem length_trim (s : String) : (trim s).toList.length ≤ s.toList.length := by
  unfold trim
  rw [String.toList_ofList, List.length_reverse]
  calc _ ≤ ((s.toList.dropWhile isWhitespace).reverse).length :=
        (List.dropWhile_sublist _).length_le
    _ = (s.toList.dropWhile isWhitespace).length := List.length_reverse
    _ ≤ s.toList.length := (List.dropWhile_sublist _).length_le

/-- **A sanitized line never exceeds its cap.** -/
theorem sanitizeSummary_length (raw : String) (maxChars : ℕ) :
    (sanitizeSummary raw maxChars).toList.length ≤ maxChars := by
  unfold sanitizeSummary
  refine (length_trim _).trans ?_
  rw [String.toList_ofList]
  exact sanitizeLoop_length _ _ _ _

/-- **Nothing that breaks a line or hides text survives sanitizing.** -/
theorem sanitizeSummary_clean (raw : String) (maxChars : ℕ) :
    ∀ c ∈ (sanitizeSummary raw maxChars).toList, Clean c := by
  intro c member
  have inner := mem_trim member
  rw [String.toList_ofList] at inner
  exact sanitizeLoop_clean _ _ _ _ c inner

/-! ### Names -/

/-- Why a path segment is not a name. -/
def checkPathSegment (segment : String) : Except String Unit :=
  if segment = "" then .error "empty path segment"
  else if segment = "." ∨ segment = ".." then .error "`.` and `..` are not names"
  else if segment.toList.any fun c => isWhitespace c || isControl c || isInvisibleFormatting c then
    .error "whitespace, control or invisible characters in a path segment"
  else if segment.toList.any (· = '\\') then
    .error "`\\` is a path separator, not a name character"
  else .ok ()

/-- The longest log key a control plane will store, in characters. -/
def maxLogKeyLen : ℕ := 1024

/-- Whether a reported log key is usable as an object-store key; an error carries its reason. -/
def checkLogKey (key : String) : Except String Unit :=
  if key.toList.length = 0 ∨ key.toList.length > maxLogKeyLen then
    .error "empty or longer than 1024 characters"
  else ((key.toList.splitOn '/').map String.ofList).forM checkPathSegment

end HullCi.Proto
