/-
**Encodings that can be read back from the front, and canonical forms of sets.**

A code is unambiguous when two encodings with anything behind them agree only if the values and what
is behind them agree. Lengths before contents, counts before items and tags before fields all are,
and codes one after the other stay so. A set is encoded through its canonical form: sorted, each
element once.

* `Unambiguous` — the property, over the values a predicate admits.
* `unambiguous_leBytes`, `unambiguous_framed`, `unambiguous_counted` — fixed widths, length
  prefixes, counted sequences.
* `digits_injective` — two digits a byte.
* `canon_eq_canon` — two lists have one canonical form exactly when they have the same elements.
-/

import Mathlib.Algebra.Ring.Nat
import Mathlib.Data.List.Destutter
import Mathlib.Data.List.Sort
import Mathlib.Order.Defs.LinearOrder

namespace HullCi.Base

universe u v w

section Codes

variable {A : Type u} {A' : Type v} {B : Type w}

/-- What follows an encoding of an admitted value can be told from it. -/
def Unambiguous (P : A → Prop) (code : A → List B) : Prop :=
  ∀ ⦃a b : A⦄, P a → P b → ∀ ⦃rest rest' : List B⦄, code a ++ rest = code b ++ rest' →
    a = b ∧ rest = rest'

/-- Codes of one width that differ on different values. -/
theorem Unambiguous.of_length {P : A → Prop} {code : A → List B} {width : ℕ}
    (wide : ∀ a, P a → (code a).length = width)
    (inj : ∀ a b, P a → P b → code a = code b → a = b) : Unambiguous P code := by
  intro a b here there rest rest' same
  obtain ⟨code', rest'⟩ := List.append_inj same ((wide a here).trans (wide b there).symm)
  exact ⟨inj a b here there code', rest'⟩

/-- One code after another. -/
theorem Unambiguous.append {P : A → Prop} {Q : A' → Prop} {code : A → List B} {code' : A' → List B}
    (first : Unambiguous P code) (next : Unambiguous Q code') :
    Unambiguous (fun p : A × A' => P p.1 ∧ Q p.2) fun p => code p.1 ++ code' p.2 := by
  rintro ⟨a, a'⟩ ⟨b, b'⟩ ⟨here, here'⟩ ⟨there, there'⟩ rest rest' same
  rw [List.append_assoc, List.append_assoc] at same
  obtain ⟨rfl, behind⟩ := first here there same
  obtain ⟨rfl, tail⟩ := next here' there' behind
  exact ⟨rfl, tail⟩

/-- A fixed mark before every code. -/
theorem Unambiguous.mark {P : A → Prop} {code : A → List B} (coded : Unambiguous P code)
    (mark : List B) : Unambiguous P fun a => mark ++ code a := by
  intro a b here there rest rest' same
  rw [List.append_assoc, List.append_assoc] at same
  exact coded here there (List.append_cancel_left same)

/-- As many codes one after the other as are known to come. -/
theorem Unambiguous.flatMap {P : A → Prop} {code : A → List B} (coded : Unambiguous P code)
    {items items' : List A} (all : ∀ a ∈ items, P a) (all' : ∀ a ∈ items', P a)
    (count : items.length = items'.length) {rest rest' : List B}
    (same : items.flatMap code ++ rest = items'.flatMap code ++ rest') :
    items = items' ∧ rest = rest' := by
  induction items generalizing items' with
  | nil =>
    obtain rfl := List.length_eq_zero_iff.mp count.symm
    exact ⟨rfl, same⟩
  | cons a items ih =>
    obtain _ | ⟨b, items'⟩ := items'
    · cases count
    rw [List.flatMap_cons, List.flatMap_cons, List.append_assoc, List.append_assoc] at same
    obtain ⟨rfl, behind⟩ := coded (all a List.mem_cons_self) (all' b List.mem_cons_self) same
    obtain ⟨rfl, tail⟩ := ih (fun a member => all a (List.mem_cons_of_mem _ member))
      (fun a member => all' a (List.mem_cons_of_mem _ member)) (Nat.succ_inj.mp count) behind
    exact ⟨rfl, tail⟩

end Codes

/-! ### Widths, lengths and counts -/

/-- The low `width` bytes of a number, the least first. -/
def leBytes (width n : ℕ) : List UInt8 :=
  (List.range width).map fun i => UInt8.ofNat (n / 256 ^ i)

@[simp] theorem length_leBytes (width n : ℕ) : (leBytes width n).length = width := by
  unfold leBytes
  rw [List.length_map, List.length_range]

theorem leBytes_succ (width n : ℕ) :
    leBytes (width + 1) n = UInt8.ofNat n :: leBytes width (n / 256) := by
  unfold leBytes
  rw [List.range_succ_eq_map, List.map_cons, List.map_map, Nat.pow_zero, Nat.div_one]
  congr 1
  refine List.map_congr_left fun i _ => ?_
  rw [Function.comp_apply, Nat.pow_succ', Nat.div_div_eq_div_mul]

theorem leBytes_injective {width n m : ℕ} (small : n < 256 ^ width) (small' : m < 256 ^ width)
    (same : leBytes width n = leBytes width m) : n = m := by
  induction width generalizing n m with
  | zero =>
    rw [Nat.pow_zero] at small small'
    omega
  | succ width ih =>
    rw [leBytes_succ, leBytes_succ] at same
    obtain ⟨low, high⟩ := List.cons.inj same
    have low : n % 256 = m % 256 := by
      have bytes := congrArg UInt8.toNat low
      simpa using bytes
    rw [Nat.pow_succ'] at small small'
    have high := ih (Nat.div_lt_of_lt_mul small) (Nat.div_lt_of_lt_mul small') high
    omega

theorem unambiguous_leBytes (width : ℕ) :
    Unambiguous (fun n => n < 256 ^ width) (leBytes width) :=
  .of_length (fun _ _ => length_leBytes width _) fun _ _ => leBytes_injective

/-- A length before its bytes. -/
def framed (width : ℕ) (bytes : List UInt8) : List UInt8 :=
  leBytes width bytes.length ++ bytes

theorem unambiguous_framed (width : ℕ) :
    Unambiguous (fun bytes : List UInt8 => bytes.length < 256 ^ width) (framed width) := by
  intro a b here there rest rest' same
  unfold framed at same
  rw [List.append_assoc, List.append_assoc] at same
  obtain ⟨length, same⟩ := unambiguous_leBytes width here there same
  exact List.append_inj same length

/-- A count before its items. -/
def counted {A : Type u} (width : ℕ) (code : A → List UInt8) (items : List A) : List UInt8 :=
  leBytes width items.length ++ items.flatMap code

theorem unambiguous_counted {A : Type u} (width : ℕ) {P : A → Prop} {code : A → List UInt8}
    (coded : Unambiguous P code) :
    Unambiguous (fun items : List A => items.length < 256 ^ width ∧ ∀ a ∈ items, P a)
      (counted width code) := by
  rintro items items' ⟨here, all⟩ ⟨there, all'⟩ rest rest' same
  unfold counted at same
  rw [List.append_assoc, List.append_assoc] at same
  obtain ⟨length, same⟩ := unambiguous_leBytes width here there same
  exact coded.flatMap all all' length same

/-- Bytes are read back from two digits each. -/
theorem digits_injective {A : Type u} {digit : ℕ → A}
    (apart : ∀ n < 16, ∀ m < 16, digit n = digit m → n = m) {bytes bytes' : List UInt8}
    (same : (bytes.flatMap fun b => [digit (b.toNat / 16), digit (b.toNat % 16)]) =
      bytes'.flatMap fun b => [digit (b.toNat / 16), digit (b.toNat % 16)]) : bytes = bytes' := by
  induction bytes generalizing bytes' with
  | nil =>
    cases bytes' with
    | nil => rfl
    | cons b bytes' => cases same
  | cons a bytes ih =>
    cases bytes' with
    | nil => cases same
    | cons b bytes' =>
      obtain ⟨high, same⟩ := List.cons.inj same
      obtain ⟨low, same⟩ := List.cons.inj same
      have high := apart _ (by have := a.toNat_lt; omega) _ (by have := b.toNat_lt; omega) high
      have low := apart _ (by omega) _ (by omega) low
      rw [ih same, UInt8.toNat_inj.mp (show a.toNat = b.toNat by omega)]

/-! ### Canonical forms -/

/-- What is sorted by a key is in the order of the keys. -/
theorem pairwise_sorted {A : Type u} {B : Type v} [LinearOrder B] {key : A → B} {le : A → A → Bool}
    (spec : ∀ a b, le a b = true ↔ key a ≤ key b) (items : List A) :
    (items.mergeSort le).Pairwise fun a b => key a ≤ key b := by
  have sorted := @List.pairwise_mergeSort A le
    (fun a b c ab bc => (spec a c).mpr (((spec a b).mp ab).trans ((spec b c).mp bc)))
    (fun a b => by
      rw [Bool.or_eq_true, spec, spec]
      exact le_total _ _) items
  exact sorted.imp fun {a b} => (spec a b).mp

/-- Two lists in strict order with the same elements are one list. -/
theorem eq_of_strict {A : Type u} {R : A → A → Prop} (irrefl : ∀ a, ¬ R a a)
    (asymm : ∀ a b, R a b → ¬ R b a) {items items' : List A} (strict : items.Pairwise R) (strict' : items'.Pairwise R)
    (same : ∀ a, a ∈ items ↔ a ∈ items') : items = items' := by
  have distinct : ∀ {list : List A}, list.Pairwise R → list.Nodup := fun pairwise =>
    pairwise.imp fun {a b} related equal => by
      subst equal
      exact irrefl a related
  refine List.Perm.eq_of_pairwise (fun a b _ _ before after => absurd after (asymm a b before))
    strict strict' ?_
  exact (List.perm_ext_iff_of_nodup (distinct strict) (distinct strict')).mpr same

section Canon

variable {A : Type u} [LinearOrder A]

/-- Sorted, each element once. -/
def canon (items : List A) : List A :=
  (items.insertionSort (· ≤ ·)).destutter (· ≠ ·)

theorem mem_destutter'_ne {a x : A} {items : List A} (member : x ∈ items) :
    x ∈ items.destutter' (· ≠ ·) a := by
  induction items generalizing a with
  | nil => cases member
  | cons b rest ih =>
    by_cases differs : a ≠ b
    · rw [List.destutter'_cons_pos _ differs]
      rcases List.mem_cons.mp member with rfl | later
      · exact List.mem_cons_of_mem _ (List.mem_destutter' _ _ _)
      · exact List.mem_cons_of_mem _ (ih later)
    · rw [List.destutter'_cons_neg _ differs]
      rcases List.mem_cons.mp member with rfl | later
      · rw [not_not.mp differs]
        exact List.mem_destutter' _ _ _
      · exact ih later

@[simp] theorem mem_canon {items : List A} {x : A} : x ∈ canon items ↔ x ∈ items := by
  unfold canon
  have sorted : x ∈ items ↔ x ∈ items.insertionSort (· ≤ ·) := (List.mem_insertionSort _).symm
  rw [sorted]
  generalize items.insertionSort (· ≤ ·) = sorted
  refine ⟨fun member => (List.destutter_sublist _ _).subset member, fun member => ?_⟩
  cases sorted with
  | nil => cases member
  | cons a rest =>
    rw [List.destutter_cons']
    rcases List.mem_cons.mp member with rfl | later
    · exact List.mem_destutter' _ _ _
    · exact mem_destutter'_ne later

theorem pairwise_canon (items : List A) : (canon items).Pairwise (· < ·) := by
  have sorted : (canon items).Pairwise (· ≤ ·) :=
    (List.pairwise_insertionSort (· ≤ ·) items).sublist (List.destutter_sublist _ _)
  have apart : (canon items).IsChain (· ≠ ·) := List.isChain_destutter _ _
  have strict : (canon items).IsChain (· < ·) := by
    generalize canon items = list at sorted apart
    induction list with
    | nil => exact .nil
    | cons a rest ih =>
      obtain ⟨first, sorted⟩ := List.pairwise_cons.mp sorted
      obtain ⟨next, apart⟩ := List.isChain_cons.mp apart
      refine List.isChain_cons.mpr ⟨fun b head => ?_, ih sorted apart⟩
      exact lt_of_le_of_ne (first b (List.mem_of_mem_head? head)) (next b head)
  exact List.isChain_iff_pairwise.mp strict

/-- **Two lists have one canonical form exactly when they have the same elements.** -/
theorem canon_eq_canon {items items' : List A} :
    canon items = canon items' ↔ ∀ a, a ∈ items ↔ a ∈ items' := by
  constructor
  · intro same a
    rw [← mem_canon, same, mem_canon]
  · intro same
    refine eq_of_strict (R := (· < ·)) lt_irrefl (fun a b => lt_asymm) (pairwise_canon items)
      (pairwise_canon items') fun a => ?_
    rw [mem_canon, mem_canon, same]

end Canon

end HullCi.Base
