/-
**Finite tables: keyed maps whose lookups decide everything.**

A `Table K V` is an association list without duplicate keys. It stands for every keyed map a
program holds, hashed or ordered: only the iteration order differs between the two, and `sorted`
gives the ordered one.

* `lookup_modify`, `lookup_insertNew`, `lookup_mapValues`, `lookup_keep` — each write by its lookups.
* `mem_values` — iterating meets exactly the values that a lookup finds.
* `mem_sorted` — and so does iterating in key order.
* `sum_insert` — a sum over the values changes by what one write changes; `total_insert` over ℕ.
-/

import Mathlib.Algebra.Ring.Int.Defs
import Mathlib.Algebra.Ring.Nat
import Mathlib.Data.List.AList
import Mathlib.Data.List.Sort

namespace HullCi.Base

universe u v

/-- A keyed map. -/
abbrev Table (K : Type u) (V : Type v) := AList fun _ : K => V

namespace Table

variable {K : Type u} {V : Type v}

/-! ### Reading -/

/-- The values, in iteration order. -/
def values (t : Table K V) : List V :=
  t.entries.map Sigma.snd

/-- How many keys the table holds. -/
def size (t : Table K V) : ℕ :=
  t.entries.length

variable [DecidableEq K]

theorem mem_entries {t : Table K V} {k : K} {v : V} :
    (⟨k, v⟩ : Sigma fun _ : K => V) ∈ t.entries ↔ t.lookup k = some v := by
  rw [← Option.mem_def]
  exact (AList.mem_lookup_iff (s := t)).symm

theorem mem_values {t : Table K V} {v : V} : v ∈ t.values ↔ ∃ k, t.lookup k = some v := by
  unfold values
  rw [List.mem_map]
  constructor
  · rintro ⟨⟨k, w⟩, member, rfl⟩
    exact ⟨k, mem_entries.mp member⟩
  · rintro ⟨k, found⟩
    exact ⟨⟨k, v⟩, mem_entries.mpr found, rfl⟩

/-- The entries in key order, which is how an ordered map iterates. -/
def sorted [LinearOrder K] (t : Table K V) : List (Sigma fun _ : K => V) :=
  t.entries.insertionSort fun a b => a.1 ≤ b.1

theorem mem_sorted [LinearOrder K] {t : Table K V} {k : K} {v : V} :
    (⟨k, v⟩ : Sigma fun _ : K => V) ∈ t.sorted ↔ t.lookup k = some v := by
  unfold sorted
  rw [List.mem_insertionSort]
  exact mem_entries

/-! ### Writing -/

theorem lookup_insert (t : Table K V) (k : K) (v : V) (k' : K) :
    (t.insert k v).lookup k' = if k' = k then some v else t.lookup k' := by
  by_cases same : k' = k
  · subst same
    rw [if_pos rfl, AList.lookup_insert]
  · rw [if_neg same, AList.lookup_insert_ne same]

theorem lookup_erase (t : Table K V) (k k' : K) :
    (t.erase k).lookup k' = if k' = k then none else t.lookup k' := by
  by_cases same : k' = k
  · subst same
    rw [if_pos rfl, AList.lookup_erase]
  · rw [if_neg same, AList.lookup_erase_ne same]

/-- A value under a new key comes first. -/
theorem values_insert {t : Table K V} {k : K} (fresh : t.lookup k = none) (v : V) :
    values (t.insert k v) = v :: values t := by
  have absent : k ∉ t.entries.keys := fun member =>
    (AList.lookup_eq_none.mp fresh) (AList.mem_keys.mpr member)
  unfold values
  rw [AList.entries_insert, List.kerase_of_notMem_keys absent]
  rfl

/-- Taking a new key out again leaves the table as it was. -/
theorem erase_insert {t : Table K V} {k : K} (fresh : t.lookup k = none) (v : V) :
    (t.insert k v).erase k = t := by
  have absent : k ∉ t.entries.keys := fun member =>
    (AList.lookup_eq_none.mp fresh) (AList.mem_keys.mpr member)
  refine AList.ext ?_
  show List.kerase k (t.insert k v).entries = t.entries
  rw [AList.entries_insert, List.kerase_of_notMem_keys absent]
  exact List.kerase_cons_eq rfl

/-- Rewrite the value under a key, if there is one. -/
def modify (t : Table K V) (k : K) (f : V → V) : Table K V :=
  match t.lookup k with
  | none => t
  | some v => t.insert k (f v)

theorem lookup_modify (t : Table K V) (k : K) (f : V → V) (k' : K) :
    (t.modify k f).lookup k' = if k' = k then (t.lookup k).map f else t.lookup k' := by
  unfold modify
  cases found : t.lookup k with
  | none =>
    by_cases same : k' = k
    · rw [if_pos same, same, found, Option.map_none]
    · rw [if_neg same]
  | some v => rw [lookup_insert, Option.map_some]

@[simp] theorem lookup_modify_self (t : Table K V) (k : K) (f : V → V) :
    (t.modify k f).lookup k = (t.lookup k).map f := by
  rw [lookup_modify, if_pos rfl]

/-- Insert a value unless the key is taken. -/
def insertNew (t : Table K V) (k : K) (v : V) : Table K V :=
  match t.lookup k with
  | none => t.insert k v
  | some _ => t

theorem lookup_insertNew (t : Table K V) (k : K) (v : V) (k' : K) :
    (t.insertNew k v).lookup k' = if k' = k then some ((t.lookup k).getD v) else t.lookup k' := by
  unfold insertNew
  cases found : t.lookup k with
  | none => rw [lookup_insert, Option.getD_none]
  | some w =>
    by_cases same : k' = k
    · rw [if_pos same, same, found, Option.getD_some]
    · rw [if_neg same]

/-- Rewrite every value. -/
def mapValues (t : Table K V) (f : V → V) : Table K V where
  entries := t.entries.map fun e => ⟨e.1, f e.2⟩
  nodupKeys := by
    have keys : (t.entries.map fun e => (⟨e.1, f e.2⟩ : Sigma fun _ : K => V)).keys
        = t.entries.keys := by
      simp only [List.keys, List.map_map]
      rfl
    have nodup := t.nodupKeys
    rw [List.NodupKeys] at nodup ⊢
    rw [keys]
    exact nodup

theorem lookup_mapValues (t : Table K V) (f : V → V) (k : K) :
    (t.mapValues f).lookup k = (t.lookup k).map f := by
  ext v
  rw [← mem_entries, Option.map_eq_some_iff]
  unfold mapValues
  rw [List.mem_map]
  constructor
  · rintro ⟨⟨k', w⟩, member, same⟩
    simp only [Sigma.mk.injEq, heq_eq_eq] at same
    obtain ⟨rfl, rfl⟩ := same
    exact ⟨w, mem_entries.mp member, rfl⟩
  · rintro ⟨w, found, rfl⟩
    exact ⟨⟨k, w⟩, mem_entries.mpr found, rfl⟩

/-- Drop the entries that fail a test. -/
def keep (t : Table K V) (p : K → V → Bool) : Table K V where
  entries := t.entries.filter fun e => p e.1 e.2
  nodupKeys := t.nodupKeys.sublist List.filter_sublist

theorem lookup_keep (t : Table K V) (p : K → V → Bool) (k : K) :
    (t.keep p).lookup k = (t.lookup k).filter (p k) := by
  ext v
  rw [← mem_entries, Option.filter_eq_some_iff, ← mem_entries]
  unfold keep
  rw [List.mem_filter]

/-- A key that a table without a test's failures still holds, it held before. -/
theorem lookup_of_keep {t : Table K V} {p : K → V → Bool} {k : K} {v : V}
    (found : (t.keep p).lookup k = some v) : t.lookup k = some v ∧ p k v = true := by
  rwa [lookup_keep, Option.filter_eq_some_iff] at found

/-! ### Sizes and totals -/

theorem size_erase_le (t : Table K V) (k : K) : size (t.erase k) ≤ size t :=
  (List.kerase_sublist k t.entries).length_le

theorem size_insert_le (t : Table K V) (k : K) (v : V) : size (t.insert k v) ≤ size t + 1 := by
  unfold size
  rw [AList.entries_insert, List.length_cons]
  exact Nat.succ_le_succ (size_erase_le t k)

/-- Taking out a key that is held leaves one fewer. -/
theorem size_erase {t : Table K V} {k : K} (held : (t.lookup k).isSome) :
    size (t.erase k) + 1 = size t := by
  have member : k ∈ t.entries.keys := AList.mem_keys.mp (AList.lookup_isSome.mp held)
  obtain ⟨v, front, back, -, split, left⟩ := List.exists_of_kerase member
  have erased : (t.erase k).entries = front ++ back := left
  unfold size
  rw [erased, split]
  simp only [List.length_append, List.length_cons]
  omega

section Sum

variable {A : Type*} [AddCommMonoid A]

/-- The sum of a measure over the values. -/
def sum (f : V → A) (t : Table K V) : A :=
  (t.values.map f).sum

/-- What a key adds to a sum: nothing, when it is absent. -/
def part (f : V → A) (t : Table K V) (k : K) : A :=
  ((t.lookup k).map f).getD 0

theorem part_of_lookup {f : V → A} {t : Table K V} {k : K} {v : V} (found : t.lookup k = some v) :
    part f t k = f v := by
  unfold part
  rw [found]
  rfl

theorem part_of_absent {f : V → A} {t : Table K V} {k : K} (absent : t.lookup k = none) :
    part f t k = 0 := by
  unfold part
  rw [absent]
  rfl

theorem sum_erase (f : V → A) (t : Table K V) (k : K) :
    sum f (t.erase k) + part f t k = sum f t := by
  unfold sum values
  cases found : t.lookup k with
  | none =>
    have absent : k ∉ t.entries.keys := by
      rw [← List.dlookup_eq_none]
      exact found
    have same : (t.erase k).entries = t.entries := List.kerase_of_notMem_keys absent
    rw [same, part_of_absent found, add_zero]
  | some v =>
    have member : (⟨k, v⟩ : Sigma fun _ : K => V) ∈ t.entries := mem_entries.mpr found
    have present : k ∈ t.entries.keys := List.mem_keys_of_mem member
    obtain ⟨w, front, back, -, split, left⟩ := List.exists_of_kerase present
    have erased : (t.erase k).entries = front ++ back := left
    have held : v = w := by
      have other : (⟨k, w⟩ : Sigma fun _ : K => V) ∈ t.entries := by
        rw [split]
        exact List.mem_append_right _ List.mem_cons_self
      exact Option.some.inj (found.symm.trans (mem_entries.mp other))
    rw [erased, split, ← held, part_of_lookup found]
    simp only [List.map_append, List.map_cons, List.sum_append, List.sum_cons]
    rw [add_assoc, add_comm (f v)]

/-- A write under a key takes the key's old part and adds the new one. -/
theorem sum_insert (f : V → A) (t : Table K V) (k : K) (v : V) :
    sum f (t.insert k v) + part f t k = sum f t + f v := by
  have written : sum f (t.insert k v) = f v + sum f (t.erase k) := by
    unfold sum values
    rw [AList.entries_insert, List.map_cons, List.map_cons, List.sum_cons]
    rfl
  rw [written, add_assoc, sum_erase, add_comm]

theorem sum_modify (f : V → A) (t : Table K V) (k : K) (g : V → V) :
    sum f (t.modify k g) + part f t k = sum f t + part (fun v => f (g v)) t k := by
  unfold modify
  cases found : t.lookup k with
  | none => rw [part_of_absent found, part_of_absent found]
  | some v => rw [sum_insert, part_of_lookup found]

theorem sum_insertNew (f : V → A) (t : Table K V) (k : K) {v : V} (nothing : f v = 0) :
    sum f (t.insertNew k v) = sum f t := by
  unfold insertNew
  cases found : t.lookup k with
  | none =>
    have written := sum_insert f t k v
    rwa [part_of_absent found, nothing, add_zero, add_zero] at written
  | some w => rfl

end Sum

/-- The sum of a measure over the values. -/
def total (f : V → ℕ) (t : Table K V) : ℕ :=
  (t.values.map f).sum

/-- What a key adds to a total: nothing, when it is absent. -/
def share (f : V → ℕ) (t : Table K V) (k : K) : ℕ :=
  ((t.lookup k).map f).getD 0

theorem total_erase (f : V → ℕ) (t : Table K V) (k : K) :
    total f (t.erase k) + share f t k = total f t :=
  sum_erase f t k

/-- A write under a key takes the key's old share and adds the new one. -/
theorem total_insert (f : V → ℕ) (t : Table K V) (k : K) (v : V) :
    total f (t.insert k v) + share f t k = total f t + f v :=
  sum_insert f t k v

theorem total_modify (f : V → ℕ) (t : Table K V) (k : K) (g : V → V) :
    total f (t.modify k g) + share f t k = total f t + share (fun v => f (g v)) t k :=
  sum_modify f t k g

theorem total_insertNew (f : V → ℕ) (t : Table K V) (k : K) {v : V} (nothing : f v = 0) :
    total f (t.insertNew k v) = total f t :=
  sum_insertNew f t k nothing

omit [DecidableEq K] in
theorem total_mapValues (f : V → ℕ) (t : Table K V) {g : V → V} (keeps : ∀ v, f (g v) = f v) :
    total f (t.mapValues g) = total f t := by
  unfold total values mapValues
  simp only [List.map_map]
  congr 1
  exact List.map_congr_left fun e _ => keeps e.2

end Table

end HullCi.Base
