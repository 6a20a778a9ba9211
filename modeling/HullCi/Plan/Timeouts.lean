/-
**The grammar of a timeout: digits and one unit.**

The documentation writes a timeout as `90s`, `20m` or `2h`. The number between the start and the
unit goes through the integer parser of the standard library, which also reads a leading `+`.

* `readDigits_iff` — the digits the parser reads are decimal digits, and the number is theirs.
* `parseTimeout_of_reads` — what the function answers to a text it can read.
* `timeout_grammar` — the documented grammar is met exactly by the texts that are not a `+` before
  a timeout of fewer than `2 ^ 64` seconds.
-/

import HullCi.Plan.Validate

namespace HullCi.Plan

/-! ### The grammar -/

def Digit (c : Char) : Prop :=
  0x30 ≤ c.val ∧ c.val ≤ 0x39

instance (c : Char) : Decidable (Digit c) :=
  inferInstanceAs (Decidable (0x30 ≤ c.val ∧ c.val ≤ 0x39))

/-- The number the digits write in base ten, after the number already read. -/
def numberFrom (read : ℕ) (digits : List Char) : ℕ :=
  digits.foldl (fun n c => n * 10 + (c.toNat - 0x30)) read

/-- The seconds of the three units. -/
def unitSeconds : Char → Option ℕ
  | 's' => some 1
  | 'm' => some 60
  | 'h' => some 3600
  | _ => none

/-- The text is a non-empty run of digits and one unit: the number and the seconds of its unit. -/
def Written (text : List Char) (n k : ℕ) : Prop :=
  ∃ digits unit, text = digits ++ [unit] ∧ digits ≠ [] ∧ (∀ c ∈ digits, Digit c) ∧
    n = numberFrom 0 digits ∧ unitSeconds unit = some k

/-- The answer is the one the documented grammar gives. -/
structure Grammatical (raw : String) : Prop where
  accepted : ∀ secs, parseTimeout raw = .ok secs ↔
    ∃ n k, Written raw.toList n k ∧ 1 ≤ n ∧ n * k ≤ 24 * 3600 ∧ secs = n * k
  tooLong : ∀ got limit, parseTimeout raw = .error (.timeoutTooLong got limit) →
    ∃ n k, Written raw.toList n k ∧ 24 * 3600 < n * k

/-! ### The digits -/

theorem le_numberFrom (digits : List Char) (read : ℕ) : read ≤ numberFrom read digits := by
  induction digits generalizing read with
  | nil => exact le_rfl
  | cons c rest hyp =>
    calc read ≤ read * 10 + (c.toNat - 0x30) := by omega
      _ ≤ numberFrom read (c :: rest) := hyp _

/-- The overflow check at each digit is the one check on the whole number. -/
theorem readDigits_iff {digits : List Char} {read n : ℕ} (below : read < 2 ^ 64) :
    readDigits read digits = some n ↔
      (∀ c ∈ digits, Digit c) ∧ n = numberFrom read digits ∧ n < 2 ^ 64 := by
  induction digits generalizing read with
  | nil =>
    simp only [readDigits, Option.some.injEq, List.not_mem_nil, IsEmpty.forall_iff, implies_true,
      true_and, numberFrom, List.foldl_nil]
    constructor
    · rintro rfl
      exact ⟨rfl, below⟩
    · rintro ⟨rfl, -⟩
      rfl
  | cons c rest hyp =>
    have grows := le_numberFrom rest (read * 10 + (c.toNat - 0x30))
    have number : numberFrom read (c :: rest)
        = numberFrom (read * 10 + (c.toNat - 0x30)) rest := rfl
    rw [number, List.forall_mem_cons, readDigits]
    by_cases digit : Digit c
    · rw [if_pos (show 0x30 ≤ c.val ∧ c.val ≤ 0x39 from digit)]
      by_cases small : read * 10 + (c.toNat - 0x30) < 2 ^ 64
      · rw [if_pos small, hyp small]
        simp only [digit, true_and]
      · rw [if_neg small]
        constructor
        · intro none
          cases none
        · rintro ⟨-, rfl, least⟩
          omega
    · rw [if_neg (show ¬ (0x30 ≤ c.val ∧ c.val ≤ 0x39) from digit)]
      constructor
      · intro none
        cases none
      · rintro ⟨⟨first, -⟩, -⟩
        exact absurd first digit

theorem not_digit_plus : ¬ Digit '+' := by
  decide

/-- The text of a number for `u64::from_str`: digits, or a `+` and digits. -/
theorem parseU64_iff {text : List Char} {n : ℕ} :
    parseU64 text = some n ↔
      ∃ digits, (text = digits ∨ text = '+' :: digits) ∧ digits ≠ [] ∧
        (∀ c ∈ digits, Digit c) ∧ n = numberFrom 0 digits ∧ n < 2 ^ 64 := by
  have zero : (0 : ℕ) < 2 ^ 64 := by omega
  unfold parseU64
  split
  · constructor
    · intro none
      cases none
    · rintro ⟨digits, rfl | signed, some, -⟩
      · exact absurd rfl some
      · cases signed
  · rename_i rest
    split
    · rename_i bare
      constructor
      · intro none
        cases none
      · rintro ⟨digits, rfl | signed, some, all, -⟩
        · exact absurd (all '+' (by simp)) not_digit_plus
        · cases signed
          exact absurd (List.isEmpty_iff.mp bare) some
    · rename_i some
      rw [readDigits_iff zero]
      constructor
      · rintro ⟨all, number, below⟩
        exact ⟨rest, .inr rfl, fun empty => some (List.isEmpty_iff.mpr empty), all, number, below⟩
      · rintro ⟨digits, rfl | signed, -, all, number, below⟩
        · exact absurd (all '+' (by simp)) not_digit_plus
        · cases signed
          exact ⟨all, number, below⟩
  · rename_i c rest other
    rw [readDigits_iff zero]
    constructor
    · rintro ⟨all, number, below⟩
      exact ⟨c :: rest, .inl rfl, by simp, all, number, below⟩
    · rintro ⟨digits, rfl | signed, -, all, number, below⟩
      · exact ⟨all, number, below⟩
      · cases signed
        exact absurd rfl other

/-! ### The unit -/

theorem inSeconds_iff {n secs : ℕ} {unit : Char} (below : n < 2 ^ 64) :
    inSeconds n unit = some secs ↔
      ∃ k, unitSeconds unit = some k ∧ secs = n * k ∧ secs < 2 ^ 64 := by
  unfold inSeconds checkedMul unitSeconds
  split <;> simp_all <;> grind

theorem unitSeconds_pos {unit : Char} {k : ℕ} (known : unitSeconds unit = some k) : 1 ≤ k := by
  unfold unitSeconds at known
  split at known <;> cases known <;> omega

theorem not_written_plus {plain : List Char} {n k : ℕ} : ¬ Written ('+' :: plain) n k := by
  rintro ⟨digits, unit, split, some, all, -⟩
  cases digits with
  | nil => exact some rfl
  | cons c rest =>
    cases (List.cons.inj split).1
    exact not_digit_plus (all '+' List.mem_cons_self)

/-! ### What the function answers -/

/-- The function takes the text for that many seconds: the grammar, or a `+` before it. -/
def Reads (raw : String) (secs : ℕ) : Prop :=
  ∃ plain n k, (raw.toList = plain ∨ raw.toList = '+' :: plain) ∧ Written plain n k ∧ 1 ≤ n ∧
    secs = n * k ∧ secs < 2 ^ 64

/-- The text before the unit and the unit, as the function takes them apart. -/
theorem reads_iff {raw : String} {secs : ℕ} :
    Reads raw secs ↔ ∃ unit n, raw.toList.getLast? = some unit ∧
      parseU64 raw.toList.dropLast = some n ∧ n ≠ 0 ∧ inSeconds n unit = some secs := by
  constructor
  · rintro ⟨plain, n, k, shape, ⟨digits, unit, rfl, some, all, number, known⟩, positive, rfl, below⟩
    have scale := unitSeconds_pos known
    have small : n < 2 ^ 64 := (Nat.le_mul_of_pos_right n scale).trans_lt below
    refine ⟨unit, n, ?_, ?_, by omega, (inSeconds_iff small).mpr ⟨k, known, rfl, below⟩⟩
    · rcases shape with shape | shape
      · rw [shape, List.getLast?_concat]
      · rw [shape, ← List.cons_append, List.getLast?_concat]
    · refine parseU64_iff.mpr ⟨digits, ?_, some, all, number, small⟩
      rcases shape with shape | shape
      · exact .inl (by rw [shape, List.dropLast_concat])
      · exact .inr (by rw [shape, ← List.cons_append, List.dropLast_concat])
  · rintro ⟨unit, n, last, front, positive, seconds⟩
    obtain ⟨digits, shape, some, all, number, small⟩ := parseU64_iff.mp front
    obtain ⟨k, known, rfl, below⟩ := (inSeconds_iff small).mp seconds
    have whole : raw.toList = raw.toList.dropLast ++ [unit] :=
      (List.dropLast_append_getLast? unit last).symm
    refine ⟨digits ++ [unit], n, k, ?_, ⟨digits, unit, rfl, some, all, number, known⟩, by omega,
      rfl, below⟩
    rcases shape with shape | shape
    · exact .inl (by rw [whole, shape])
    · exact .inr (by rw [whole, shape, List.cons_append])

theorem parseTimeout_of_reads {raw : String} {secs : ℕ} (reads : Reads raw secs) :
    parseTimeout raw = if maxTimeoutHours * 3600 < secs
      then .error (.timeoutTooLong raw maxTimeoutHours) else .ok secs := by
  obtain ⟨unit, n, last, front, positive, seconds⟩ := reads_iff.mp reads
  simp only [parseTimeout, last, front, if_neg positive, seconds]

theorem parseTimeout_of_not_reads {raw : String} (unread : ∀ secs, ¬ Reads raw secs) :
    parseTimeout raw = .error (.timeoutSyntax raw) := by
  unfold parseTimeout
  split
  · rfl
  rename_i unit last
  split
  · rfl
  rename_i n front
  split
  · rfl
  rename_i positive
  split
  · rfl
  rename_i secs seconds
  exact absurd (reads_iff.mpr ⟨unit, n, last, front, positive, seconds⟩) (unread secs)

theorem reads_of_ok {raw : String} {secs : ℕ} (parsed : parseTimeout raw = .ok secs) :
    Reads raw secs ∧ secs ≤ 24 * 3600 := by
  by_cases read : ∃ taken, Reads raw taken
  · obtain ⟨taken, reads⟩ := read
    rw [parseTimeout_of_reads reads] at parsed
    split at parsed
    · cases parsed
    · rename_i within
      cases parsed
      exact ⟨reads, Nat.le_of_not_lt within⟩
  · rw [parseTimeout_of_not_reads fun taken reads => read ⟨taken, reads⟩] at parsed
    cases parsed

/-- A timeout that is refused for its length was read for more than a day. -/
theorem reads_of_tooLong {raw got : String} {limit : ℕ}
    (parsed : parseTimeout raw = .error (.timeoutTooLong got limit)) :
    ∃ secs, Reads raw secs ∧ 24 * 3600 < secs := by
  by_cases read : ∃ taken, Reads raw taken
  · obtain ⟨taken, reads⟩ := read
    rw [parseTimeout_of_reads reads] at parsed
    split at parsed
    · rename_i long
      exact ⟨taken, reads, long⟩
    · cases parsed
  · rw [parseTimeout_of_not_reads fun taken reads => read ⟨taken, reads⟩] at parsed
    cases parsed

/-- What is read is of the grammar, or a `+` stands before a timeout of the grammar. -/
theorem Reads.cases {raw : String} {secs : ℕ} (reads : Reads raw secs) :
    (∃ n k, Written raw.toList n k ∧ 1 ≤ n ∧ secs = n * k) ∨
      ∃ plain n k, raw.toList = '+' :: plain ∧ Written plain n k ∧ 1 ≤ n ∧ n * k < 2 ^ 64 := by
  obtain ⟨plain, n, k, rfl | signed, written, positive, rfl, below⟩ := reads
  · exact .inl ⟨n, k, written, positive, rfl⟩
  · exact .inr ⟨plain, n, k, signed, written, positive, below⟩

/-- The grammar of the documentation is met exactly by the texts that are not a `+` before a
timeout of that grammar whose seconds fit the integer. -/
theorem timeout_grammar (raw : String) :
    Grammatical raw ↔
      ¬ ∃ plain n k, raw.toList = '+' :: plain ∧ Written plain n k ∧ 1 ≤ n ∧ n * k < 2 ^ 64 := by
  constructor
  · rintro grammatical ⟨plain, n, k, signed, written, positive, below⟩
    have reads : Reads raw (n * k) := ⟨plain, n, k, .inr signed, written, positive, rfl, below⟩
    have answer := parseTimeout_of_reads reads
    have unwritten : ∀ n k, ¬ Written raw.toList n k := by
      intro n k again
      rw [signed] at again
      exact not_written_plus again
    split at answer
    · obtain ⟨n', k', again, -⟩ := grammatical.tooLong _ _ answer
      exact unwritten n' k' again
    · obtain ⟨n', k', again, -⟩ := (grammatical.accepted _).mp answer
      exact unwritten n' k' again
  · intro unsigned
    constructor
    · intro secs
      constructor
      · intro parsed
        obtain ⟨reads, within⟩ := reads_of_ok parsed
        rcases reads.cases with ⟨n, k, written, positive, rfl⟩ | signed
        · exact ⟨n, k, written, positive, within, rfl⟩
        · exact absurd signed unsigned
      · rintro ⟨n, k, written, positive, within, rfl⟩
        have reads : Reads raw (n * k) :=
          ⟨raw.toList, n, k, .inl rfl, written, positive, rfl, by omega⟩
        exact (parseTimeout_of_reads reads).trans (if_neg (Nat.not_lt.mpr within))
    · intro got limit parsed
      obtain ⟨secs, reads, long⟩ := reads_of_tooLong parsed
      rcases reads.cases with ⟨n, k, written, positive, rfl⟩ | signed
      · exact ⟨n, k, written, long⟩
      · exact absurd signed unsigned

/-- `+5s` is taken for five seconds, though no digit starts it. -/
theorem signed_timeout_taken : ¬ Grammatical "+5s" := by
  intro grammatical
  obtain ⟨n, k, written, -⟩ := (grammatical.accepted 5).mp (by decide)
  exact not_written_plus written

end HullCi.Plan
