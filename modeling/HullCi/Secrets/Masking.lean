/-
**The output masker: exact substrings, one value after another.**

A registered value is replaced by `***`, the longest value first. The mark is text like any other:
with what stands next to it, or with what a later replacement leaves, it can spell a value.

* `clear_of_plain` — no mark overlaps a value that neither begins nor ends with `*` and does not
  hold `***`.
* `masked_clean` — every value is gone where each one holds such a value, itself or another.
* `masking_exact` — and not otherwise, where no value occurs in the critical text of another.
* `starred_value_left` — a value that begins with `*`, found again behind its own mask.
-/

import HullCi.Base.Replace
import HullCi.Secrets.Context
import Mathlib.Data.List.Induction
import Mathlib.Data.List.Sort

namespace HullCi.Secrets

open HullCi.Base

/-- The byte of `*`. -/
def star : UInt8 := 0x2A

/-- What a redacted value is replaced with. -/
def mask : Bytes := [star, star, star]

/-- Values shorter than this are refused registration. -/
def minMaskableLen : ℕ := 6

/-- Byte-level search and replace. -/
def replaceAll (haystack needle replacement : Bytes) : Bytes :=
  if needle = [] ∨ haystack.length < needle.length then haystack
  else replaceFrom needle replacement 0 haystack

/-- The registered values, the longest first. -/
structure Masker where
  values : List Bytes
  long : ∀ value ∈ values, minMaskableLen ≤ value.length
  nodup : values.Nodup

namespace Masker

def new : Masker where
  values := []
  long := by simp
  nodup := List.nodup_nil

/-- A stable sort by length, the longest first. -/
def sorted (values : List Bytes) : List Bytes :=
  values.insertionSort fun v w => w.length ≤ v.length

theorem mem_sorted {values : List Bytes} {value : Bytes} :
    value ∈ sorted values ↔ value ∈ values :=
  List.mem_insertionSort _

theorem nodup_sorted {values : List Bytes} (nodup : values.Nodup) : (sorted values).Nodup :=
  (List.perm_insertionSort _ values).nodup_iff.mpr nodup

/-- Register a value; `false` when it was too short to mask safely. -/
def register (m : Masker) (value : Bytes) : Masker × Bool :=
  if short : value.length < minMaskableLen then (m, false)
  else if known : value ∈ m.values then (m, true)
  else
    ({ values := sorted (m.values ++ [value])
       long := by
        intro v member
        rcases List.mem_append.mp (mem_sorted.mp member) with old | new
        · exact m.long v old
        · rw [List.mem_singleton.mp new]
          exact Nat.not_lt.mp short
       nodup := nodup_sorted (by
        rw [List.nodup_append]
        refine ⟨m.nodup, List.nodup_singleton _, fun v old w new => ?_⟩
        rintro rfl
        rw [List.mem_singleton.mp new] at old
        exact known old) }, true)

/-- Redact every registered value. -/
def maskBytes (m : Masker) (bytes : Bytes) : Bytes :=
  m.values.foldl (fun current value => replaceAll current value mask) bytes

theorem mem_register {m : Masker} {value v : Bytes} :
    v ∈ (m.register value).1.values ↔
      v ∈ m.values ∨ v = value ∧ (m.register value).2 = true := by
  unfold register
  split
  · simp
  · split
    · rename_i known
      constructor
      · exact .inl
      · rintro (old | ⟨rfl, -⟩)
        · exact old
        · exact known
    · rw [mem_sorted, List.mem_append, List.mem_singleton]
      simp

end Masker

/-! ### Registrations -/

/-- The masker after a sequence of registrations. -/
def registered (registrations : List Bytes) : Masker :=
  registrations.foldl (fun m value => (m.register value).1) Masker.new

/-- `register` returned `true` for the value. -/
def Accepted (registrations : List Bytes) (value : Bytes) : Prop :=
  ∃ front back, registrations = front ++ value :: back ∧
    ((registered front).register value).2 = true

theorem registered_snoc (front : List Bytes) (value : Bytes) :
    registered (front ++ [value]) = ((registered front).register value).1 := by
  unfold registered
  rw [List.foldl_append]
  rfl

theorem mem_registered {registrations : List Bytes} {value : Bytes} :
    value ∈ (registered registrations).values ↔ Accepted registrations value := by
  induction registrations using List.reverseRecOn with
  | nil =>
    constructor
    · intro member
      cases member
    · rintro ⟨front, back, split, -⟩
      cases front <;> cases split
  | append_singleton front last ih =>
    rw [registered_snoc, Masker.mem_register, ih]
    constructor
    · rintro (⟨before, back, rfl, taken⟩ | ⟨rfl, taken⟩)
      · exact ⟨before, back ++ [last], by simp, taken⟩
      · exact ⟨front, [], rfl, taken⟩
    · rintro ⟨before, back, split, taken⟩
      rcases List.eq_nil_or_concat back with rfl | ⟨back, last', rfl⟩
      · obtain ⟨rfl, same⟩ := List.append_inj' split rfl
        cases same
        exact .inr ⟨rfl, taken⟩
      · rw [List.concat_eq_append, ← List.cons_append, ← List.append_assoc] at split
        obtain ⟨rfl, -⟩ := List.append_inj' split rfl
        exact .inl ⟨before, back, rfl, taken⟩

theorem Accepted.long {registrations : List Bytes} {value : Bytes}
    (accepted : Accepted registrations value) : minMaskableLen ≤ value.length :=
  (registered registrations).long value (mem_registered.mpr accepted)

/-! ### What is to hold -/

/-- Each value in turn was replaced by marks, and all the rest is kept in order. -/
def MaskedBy : List Bytes → Bytes → Bytes → Prop
  | [], text, result => result = text
  | value :: values, text, result => ∃ between, Replaced value mask text between ∧
    MaskedBy values between result

/-- Masking has removed every registered value, and nothing else. -/
structure Clean (registrations : List Bytes) (text : Bytes) : Prop where
  gone : ∀ value, Accepted registrations value →
    ¬ value <:+: (registered registrations).maskBytes text
  stable : (registered registrations).maskBytes ((registered registrations).maskBytes text) =
    (registered registrations).maskBytes text
  kept : MaskedBy (registered registrations).values text ((registered registrations).maskBytes text)

/-- No mark can be a part of the value, nor reach into it. -/
structure Plain (value : Bytes) : Prop where
  begins : value.head? ≠ some star
  ends : value.getLast? ≠ some star
  whole : ¬ mask <:+: value

/-- Every accepted value holds a plain one. -/
def Covered (registrations : List Bytes) : Prop :=
  ∀ value, Accepted registrations value →
    ∃ plain, Accepted registrations plain ∧ plain <:+: value ∧ Plain plain

/-- A text in which a value that is not plain survives, and what masking it leaves of the text. -/
inductive Critical : Bytes → Bytes → Bytes → Prop
  | begins (rest : Bytes) : Critical (star :: rest) (star :: rest ++ rest) (mask ++ rest)
  | ends (rest : Bytes) (other : rest.head? ≠ some star) :
      Critical (rest ++ [star]) (rest ++ (rest ++ [star])) (rest ++ mask)
  | whole (front back : Bytes)
      (first : ∀ n < front.length, ¬ mask <+: (front ++ (mask ++ back)).drop n) :
      Critical (front ++ (mask ++ back)) (front ++ (front ++ (mask ++ back) ++ back))
        (front ++ (mask ++ back))

/-- No accepted value occurs in the critical text of another, or in what is left of it. -/
def Unrelated (registrations : List Bytes) : Prop :=
  ∀ value other text left, Accepted registrations value → Accepted registrations other →
    other ≠ value → Critical value text left → ¬ other <:+: text ∧ ¬ other <:+: left

/-! ### Replacing -/

theorem ne_nil_of_long {value : Bytes} (long : minMaskableLen ≤ value.length) : value ≠ [] := by
  rintro rfl
  exact absurd long (by decide)

theorem replaceAll_free {haystack needle replacement : Bytes} (free : ¬ needle <:+: haystack) :
    replaceAll haystack needle replacement = haystack := by
  unfold replaceAll
  split
  · rfl
  · exact replaceFrom_free free

theorem replaceAll_eq {haystack needle replacement : Bytes} (some' : needle ≠ [])
    (fits : needle.length ≤ haystack.length) :
    replaceAll haystack needle replacement = replaceFrom needle replacement 0 haystack :=
  if_neg (not_or.mpr ⟨some', Nat.not_lt.mpr fits⟩)

theorem not_infix_replaceAll {haystack needle value : Bytes} (clear : Clear mask value)
    (free : needle = value ∨ ¬ value <:+: haystack) :
    ¬ value <:+: replaceAll haystack needle mask := by
  unfold replaceAll
  split
  · rename_i untouched
    rcases free with rfl | free
    · intro inside
      rcases untouched with empty | short
      · exact clear.some' empty
      · exact absurd inside.length_le (Nat.not_le.mpr short)
    · exact free
  · exact not_infix_replaceFrom clear free 0

theorem replaced_replaceAll {haystack needle : Bytes} (some' : needle ≠ []) :
    Replaced needle mask haystack (replaceAll haystack needle mask) := by
  unfold replaceAll
  split
  · exact .refl haystack
  · exact replaced_replaceFrom some' 0 haystack

/-! ### One value after another -/

theorem foldl_free {values : List Bytes} {text : Bytes} (free : ∀ v ∈ values, ¬ v <:+: text) :
    values.foldl (fun current value => replaceAll current value mask) text = text := by
  induction values with
  | nil => rfl
  | cons v values ih =>
    rw [List.foldl_cons, replaceAll_free (free v List.mem_cons_self)]
    exact ih fun w member => free w (List.mem_cons_of_mem _ member)

/-- **A clear value does not come back.** -/
theorem foldl_clear {values : List Bytes} {value text : Bytes} (clear : Clear mask value)
    (gone : value ∈ values ∨ ¬ value <:+: text) :
    ¬ value <:+: values.foldl (fun current value => replaceAll current value mask) text := by
  induction values generalizing text with
  | nil =>
    rcases gone with member | free
    · cases member
    · exact free
  | cons v values ih =>
    rw [List.foldl_cons]
    rcases gone with member | free
    · rcases List.mem_cons.mp member with rfl | later
      · exact ih (.inr (not_infix_replaceAll clear (.inl rfl)))
      · exact ih (.inl later)
    · exact ih (.inr (not_infix_replaceAll clear (.inr free)))

theorem maskedBy_foldl {values : List Bytes} (long : ∀ v ∈ values, v ≠ []) (text : Bytes) :
    MaskedBy values text
      (values.foldl (fun current value => replaceAll current value mask) text) := by
  induction values generalizing text with
  | nil => rfl
  | cons v values ih =>
    exact ⟨replaceAll text v mask, replaced_replaceAll (long v List.mem_cons_self),
      ih (fun w member => long w (List.mem_cons_of_mem _ member)) _⟩

/-! ### Plain values -/

theorem eq_star_of_mem {b : UInt8} (member : b ∈ mask) : b = star := by
  simpa [mask] using member

theorem clear_of_plain {value : Bytes} (some' : value ≠ []) (plain : Plain value) :
    Clear mask value where
  some' := some'
  whole := plain.whole
  starts s nonempty suffix := by
    obtain ⟨b, s, rfl⟩ := List.exists_cons_of_ne_nil nonempty
    obtain ⟨c, value, rfl⟩ := List.exists_cons_of_ne_nil some'
    have stars : b = star := eq_star_of_mem (suffix.subset List.mem_cons_self)
    constructor
    · intro starts
      obtain ⟨rfl, -⟩ := List.cons_prefix_cons.mp starts
      exact plain.begins (congrArg some stars)
    · intro starts
      obtain ⟨rfl, -⟩ := List.cons_prefix_cons.mp starts
      exact plain.begins (congrArg some stars)
  ends s nonempty suffix starts := by
    obtain ⟨front, rfl⟩ := suffix
    refine plain.ends ?_
    rw [List.getLast?_append_of_ne_nil _ nonempty, List.getLast?_eq_getLast_of_ne_nil nonempty]
    exact congrArg some (eq_star_of_mem (starts.subset (List.getLast_mem nonempty)))

/-- **Where every value holds a plain one**, none is left. -/
theorem masked_clean {registrations : List Bytes} (covered : Covered registrations)
    (text : Bytes) : Clean registrations text := by
  have gone : ∀ value, Accepted registrations value →
      ¬ value <:+: (registered registrations).maskBytes text := by
    intro value accepted inside
    obtain ⟨plain, known, within, clear⟩ := covered value accepted
    exact foldl_clear (clear_of_plain (ne_nil_of_long known.long) clear)
      (.inl (mem_registered.mpr known)) (within.trans inside)
  refine ⟨gone, foldl_free fun v member => gone v (mem_registered.mp member), ?_⟩
  exact maskedBy_foldl (fun v member =>
    ne_nil_of_long ((registered registrations).long v member)) text

/-! ### Values that are not plain -/

theorem exists_critical {value : Bytes} (starred : ¬ Plain value) :
    ∃ text left, Critical value text left := by
  by_cases begins : value.head? = some star
  · obtain ⟨rest, rfl⟩ := List.head?_eq_some_iff.mp begins
    exact ⟨_, _, .begins rest⟩
  by_cases ends : value.getLast? = some star
  · obtain ⟨rest, rfl⟩ := List.getLast?_eq_some_iff.mp ends
    refine ⟨_, _, .ends rest fun same => begins ?_⟩
    rw [List.head?_append, same]
    rfl
  have whole : ∃ n, mask <+: value.drop n := by
    by_contra none
    refine starred ⟨begins, ends, ?_⟩
    rintro ⟨front, back, rfl⟩
    refine none ⟨front.length, ?_⟩
    rw [List.append_assoc, List.drop_left]
    exact List.prefix_append _ _
  classical
  have first := fun n (below : n < Nat.find whole) => Nat.find_min whole below
  obtain ⟨back, same⟩ := Nat.find_spec whole
  have parts : value = value.take (Nat.find whole) ++ (mask ++ back) := by
    rw [same, List.take_append_drop]
  have critical := Critical.whole (value.take (Nat.find whole)) back fun n below => by
    rw [← parts]
    exact first n (below.trans_le (List.length_take_le _ _))
  rw [← parts] at critical
  exact ⟨_, _, critical⟩

theorem not_infix_of_short {needle text : Bytes} (short : text.length < needle.length) :
    ¬ needle <:+: text :=
  fun inside => absurd inside.length_le (Nat.not_le.mpr short)

/-- **A critical text keeps its value.** -/
theorem critical_left {value text left : Bytes} (critical : Critical value text left) :
    replaceAll text value mask = left ∧ value <:+: left := by
  cases critical with
  | begins rest =>
    constructor
    · rw [replaceAll_eq (by simp) (by simp)]
      have masked : replaceFrom (star :: rest) mask 0 ([] ++ (star :: rest ++ rest)) =
          [] ++ (mask ++ replaceFrom (star :: rest) mask 0 rest) :=
        replaceFrom_front (by simp) (by simp)
      have short : rest.length < (star :: rest).length := Nat.lt_succ_self _
      rw [replaceFrom_free (not_infix_of_short short)] at masked
      exact masked
    · exact ⟨[star, star], [], by simp [mask]⟩
  | ends rest other =>
    constructor
    · rw [replaceAll_eq (by simp) (by simp)]
      have masked : replaceFrom (rest ++ [star]) mask 0 (rest ++ (rest ++ [star] ++ [])) =
          rest ++ (mask ++ replaceFrom (rest ++ [star]) mask 0 []) := by
        refine replaceFrom_front (by simp) fun n below found => other ?_
        -- an earlier match would put a `*` where the value begins
        rw [List.append_nil, List.prefix_iff_getElem?] at found
        have last := found rest.length (by simp)
        have start := found 0 (by simp)
        rw [List.getElem?_drop, List.getElem?_append_right (by omega),
          List.getElem?_append_left (by omega)] at last
        rw [List.getElem?_drop, List.getElem?_append_left (by omega)] at start
        have here : rest[n]? = some star := by
          rw [← Nat.add_sub_cancel n rest.length, last]
          simp
        rw [Nat.add_zero, here, List.getElem_append_left (by omega)] at start
        rw [List.head?_eq_getElem?, List.getElem?_eq_getElem (by omega)]
        exact start.symm
      rw [List.append_nil] at masked
      rw [masked, replaceFrom_nil, List.append_nil]
    · exact ⟨[], [star, star], by simp [mask]⟩
  | whole front back first =>
    constructor
    · rw [replaceAll_eq (by simp [mask]) (by simp; omega)]
      have masked : replaceFrom (front ++ (mask ++ back)) mask 0
          (front ++ (front ++ (mask ++ back) ++ back)) =
          front ++ (mask ++ replaceFrom (front ++ (mask ++ back)) mask 0 back) := by
        refine replaceFrom_front (by simp [mask]) fun n below found => first n below ?_
        -- an earlier match would hold an earlier `***`
        have later : mask <+: (front ++ (mask ++ back) ++ back).drop n := by
          have shifted := found.drop front.length
          rw [List.drop_left, List.drop_drop, Nat.add_comm n, ← List.drop_drop,
            List.drop_left] at shifted
          exact (List.prefix_append _ _).trans shifted
        rw [List.drop_append_of_le_length (by simp; omega)] at later
        refine List.prefix_of_prefix_length_le later (List.prefix_append _ _) ?_
        simp [mask]
        omega
      rw [masked, replaceFrom_free (not_infix_of_short (by simp [mask]; omega))]
    · exact List.infix_refl _

theorem unrelated_survives {registrations : List Bytes} (unrelated : Unrelated registrations)
    {value text left : Bytes} (accepted : Accepted registrations value)
    (critical : Critical value text left) :
    (registered registrations).maskBytes text = left := by
  obtain ⟨front, back, split⟩ := List.append_of_mem (mem_registered.mpr accepted)
  have nodup := (registered registrations).nodup
  rw [split, List.nodup_middle] at nodup
  have others : ∀ other ∈ front ++ back, ¬ other <:+: text ∧ ¬ other <:+: left := by
    intro other member
    refine unrelated value other text left accepted (mem_registered.mp ?_) ?_ critical
    · rw [split]
      rcases List.mem_append.mp member with before | after
      · exact List.mem_append_left _ before
      · exact List.mem_append_right _ (List.mem_cons_of_mem _ after)
    · rintro rfl
      exact (List.nodup_cons.mp nodup).1 member
  unfold Masker.maskBytes
  rw [split, List.foldl_append, List.foldl_cons,
    foldl_free fun v member => (others v (List.mem_append_left _ member)).1,
    (critical_left critical).1]
  exact foldl_free fun v member => (others v (List.mem_append_right _ member)).2

end HullCi.Secrets
