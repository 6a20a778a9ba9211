/-
**One directory of a disk that may lose its power.**

A directory binds names to files. What a file holds is safe once it was synced; which of its
earlier states the directory falls back to when the power is lost is not known, so every state it
has had since the last time is kept (`dirs`).

Names are of two kinds: `Public` ones, which a reader reads, and the rest, under which a file is
prepared. `Settled` says that the protocol "prepare, sync, rename" was followed: whatever was ever
public is synced, and is no longer under a name where somebody could write to it.

* `Settled.create`, `Settled.write`, `Settled.sync`, `Settled.rename`, `Settled.unlink` — each call
  of the protocol keeps it, and `Kept`: a file that was public holds what it held.
* `Settled.lose` — so does a loss of power, into whichever state the directory falls back.
* `Untouched` — what a call leaves as it was: the other names, and the files under them.
-/

import HullCi.Base.Table
import Mathlib.Logic.Function.Basic

namespace HullCi.Base

open Function

/-- A directory, the states it may fall back to, and the files by number. -/
structure Disk (Name Byte : Type) where
  names : Table Name ℕ
  past : List (Table Name ℕ)
  files : ℕ → List Byte
  synced : ℕ → Bool
  next : ℕ

namespace Disk

variable {Name Byte : Type} [DecidableEq Name]

/-- An empty directory. -/
def empty : Disk Name Byte where
  names := ∅
  past := []
  files := fun _ => []
  synced := fun _ => false
  next := 0

/-- The directory as it is, and every state it may fall back to. -/
def dirs (d : Disk Name Byte) : List (Table Name ℕ) :=
  d.names :: d.past

/-- What a reader of a name gets, in some state of the directory. -/
def readIn (d : Disk Name Byte) (dir : Table Name ℕ) (name : Name) : Option (List Byte) :=
  (dir.lookup name).map d.files

/-- What a reader of a name gets. -/
def read (d : Disk Name Byte) (name : Name) : Option (List Byte) :=
  d.readIn d.names name

/-- The file that `create` opens: the one under the name, cut to nothing, or a new one. -/
def opened (d : Disk Name Byte) (name : Name) : ℕ :=
  (d.names.lookup name).getD d.next

/-- Open a name for writing, creating it if it is not there and truncating it if it is. -/
def create (d : Disk Name Byte) (name : Name) : Disk Name Byte where
  names := d.names.insert name (d.opened name)
  past := d.dirs
  files := update d.files (d.opened name) []
  synced := update d.synced (d.opened name) false
  next := max d.next (d.opened name + 1)

/-- Write at the end of an open file. -/
def write (d : Disk Name Byte) (file : ℕ) (bytes : List Byte) : Disk Name Byte :=
  { d with
    files := update d.files file (d.files file ++ bytes)
    synced := update d.synced file false }

/-- `fsync` of an open file. -/
def sync (d : Disk Name Byte) (file : ℕ) : Disk Name Byte :=
  { d with synced := update d.synced file true }

/-- `rename`, over whatever the new name was bound to. -/
def rename (d : Disk Name Byte) (old new : Name) : Disk Name Byte :=
  { d with
    names := (d.names.lookup old).elim d.names fun file => (d.names.erase old).insert new file
    past := d.dirs }

/-- `unlink`. -/
def unlink (d : Disk Name Byte) (name : Name) : Disk Name Byte :=
  { d with names := d.names.erase name, past := d.dirs }

/-- The power is lost: the directory is back in one of its states, and a file that was not synced
holds anything. -/
def lose (d : Disk Name Byte) (back : ℕ) (garbage : ℕ → List Byte) : Disk Name Byte :=
  { d with
    names := d.dirs[back]?.getD d.names
    past := []
    files := fun file => if d.synced file then d.files file else garbage file }

/-! ### What was ever public -/

variable (Public : Name → Prop)

/-- A file that is public in some state the directory may be found in. -/
def Shown (d : Disk Name Byte) (file : ℕ) : Prop :=
  ∃ dir ∈ d.dirs, ∃ name, Public name ∧ dir.lookup name = some file

/-- The protocol was followed so far. -/
structure Settled (d : Disk Name Byte) : Prop where
  synced : ∀ file, d.Shown Public file → d.synced file = true
  apart : ∀ file, d.Shown Public file → ∀ name, ¬ Public name → d.names.lookup name ≠ some file
  known : ∀ dir ∈ d.dirs, ∀ name file, dir.lookup name = some file → file < d.next
  single : ∀ dir ∈ d.dirs, ∀ name name' file,
    dir.lookup name = some file → dir.lookup name' = some file → name = name'

/-- A file that is public holds afterwards what it held before. -/
def Kept (d d' : Disk Name Byte) : Prop :=
  ∀ file, d.Shown Public file → d'.files file = d.files file

variable {Public} {d : Disk Name Byte}

theorem settled_empty : Settled Public (empty : Disk Name Byte) where
  synced := by
    rintro file ⟨dir, member, name, -, bound⟩
    obtain rfl := List.mem_singleton.mp member
    cases bound
  apart := by
    intro file shown name hidden bound
    cases bound
  known := by
    intro dir member name file bound
    obtain rfl := List.mem_singleton.mp member
    cases bound
  single := by
    intro dir member name name' file bound
    obtain rfl := List.mem_singleton.mp member
    cases bound

variable (d) in
/-- A name is bound as it was, and the file under it is as it was. -/
def Untouched (d' : Disk Name Byte) (name : Name) : Prop :=
  d'.names.lookup name = d.names.lookup name ∧ ∀ file, d.names.lookup name = some file →
    d'.files file = d.files file ∧ d'.synced file = d.synced file

theorem Untouched.refl (name : Name) : d.Untouched d name :=
  ⟨rfl, fun _ _ => ⟨rfl, rfl⟩⟩

/-- Reading a state of the directory again, after a call that kept what was public. -/
theorem Kept.readIn {d' : Disk Name Byte} (kept : Kept Public d d') {dir : Table Name ℕ}
    (member : dir ∈ d.dirs) {name : Name} (isPublic : Public name) :
    d'.readIn dir name = d.readIn dir name := by
  unfold Disk.readIn
  cases bound : dir.lookup name with
  | none => rfl
  | some file => exact congrArg some (kept file ⟨dir, member, name, isPublic, bound⟩)

namespace Settled

/-- A file under a name that is not public is not public in any state. -/
theorem not_shown (settled : Settled Public d) {name : Name} (hidden : ¬ Public name) {file : ℕ}
    (bound : d.names.lookup name = some file) : ¬ d.Shown Public file :=
  fun shown => settled.apart file shown name hidden bound

/-- Nor is one that is still to come. -/
theorem not_shown_next (settled : Settled Public d) {file : ℕ} (new : d.next ≤ file) :
    ¬ d.Shown Public file := by
  rintro ⟨dir, member, name, -, bound⟩
  exact absurd (settled.known dir member name file bound) (by omega)

theorem opened_not_shown (settled : Settled Public d) {name : Name} (hidden : ¬ Public name) :
    ¬ d.Shown Public (d.opened name) := by
  unfold opened
  cases bound : d.names.lookup name with
  | none => exact settled.not_shown_next (Nat.le_refl _)
  | some file => exact settled.not_shown hidden bound

/-- No other name is bound to the file that is opened. -/
theorem opened_single (settled : Settled Public d) {name name' : Name}
    (bound : d.names.lookup name' = some (d.opened name)) : name' = name := by
  unfold opened at bound
  cases here : d.names.lookup name with
  | none =>
    rw [here, Option.getD_none] at bound
    exact absurd (settled.known _ List.mem_cons_self _ _ bound) (by omega)
  | some file =>
    rw [here, Option.getD_some] at bound
    exact settled.single _ List.mem_cons_self _ _ _ bound here

/-- What is public after `create` was so before. -/
theorem shown_create {name : Name} (hidden : ¬ Public name) {file : ℕ}
    (shown : (d.create name).Shown Public file) : d.Shown Public file := by
  obtain ⟨dir, member, name', isPublic, bound⟩ := shown
  obtain rfl | older := List.mem_cons.mp member
  · have other : name' ≠ name := fun same => hidden (same ▸ isPublic)
    have before : (d.names.insert name (d.opened name)).lookup name' = some file := bound
    rw [Table.lookup_insert, if_neg other] at before
    exact ⟨_, List.mem_cons_self, name', isPublic, before⟩
  · exact ⟨dir, older, name', isPublic, bound⟩

theorem kept_create (settled : Settled Public d) {name : Name} (hidden : ¬ Public name) :
    Kept Public d (d.create name) := by
  intro file shown
  have other : file ≠ d.opened name := fun same =>
    settled.opened_not_shown hidden (same ▸ shown)
  exact update_of_ne other _ _

theorem create (settled : Settled Public d) {name : Name} (hidden : ¬ Public name) :
    Settled Public (d.create name) where
  synced := by
    intro file shown
    have before := shown_create hidden shown
    have other : file ≠ d.opened name := fun same =>
      settled.opened_not_shown hidden (same ▸ before)
    show update d.synced (d.opened name) false file = true
    rw [update_of_ne other]
    exact settled.synced file before
  apart := by
    intro file shown name' hidden' bound
    have before := shown_create hidden shown
    have bound' : (d.names.insert name (d.opened name)).lookup name' = some file := bound
    rw [Table.lookup_insert] at bound'
    by_cases same : name' = name
    · rw [if_pos same, Option.some.injEq] at bound'
      exact settled.opened_not_shown hidden (bound' ▸ before)
    · rw [if_neg same] at bound'
      exact settled.apart file before name' hidden' bound'
  known := by
    intro dir member name' file bound
    obtain rfl | older := List.mem_cons.mp member
    · have bound' : (d.names.insert name (d.opened name)).lookup name' = some file := bound
      rw [Table.lookup_insert] at bound'
      show file < max d.next (d.opened name + 1)
      by_cases same : name' = name
      · rw [if_pos same, Option.some.injEq] at bound'
        omega
      · rw [if_neg same] at bound'
        have := settled.known _ List.mem_cons_self _ _ bound'
        omega
    · have := settled.known dir older name' file bound
      show file < max d.next (d.opened name + 1)
      omega
  single := by
    intro dir member name₁ name₂ file bound₁ bound₂
    obtain rfl | older := List.mem_cons.mp member
    · have here₁ : (d.names.insert name (d.opened name)).lookup name₁ = some file := bound₁
      have here₂ : (d.names.insert name (d.opened name)).lookup name₂ = some file := bound₂
      rw [Table.lookup_insert] at here₁ here₂
      by_cases same₁ : name₁ = name
      · by_cases same₂ : name₂ = name
        · rw [same₁, same₂]
        · rw [if_pos same₁, Option.some.injEq] at here₁
          rw [if_neg same₂, ← here₁] at here₂
          exact absurd (settled.opened_single here₂) same₂
      · rw [if_neg same₁] at here₁
        by_cases same₂ : name₂ = name
        · rw [if_pos same₂, Option.some.injEq] at here₂
          rw [← here₂] at here₁
          exact absurd (settled.opened_single here₁) same₁
        · rw [if_neg same₂] at here₂
          exact settled.single _ List.mem_cons_self _ _ _ here₁ here₂
    · exact settled.single dir older _ _ _ bound₁ bound₂

theorem untouched_create (settled : Settled Public d) {name name' : Name} (other : name' ≠ name) :
    d.Untouched (d.create name) name' := by
  refine ⟨(Table.lookup_insert _ _ _ _).trans (if_neg other), fun file bound => ?_⟩
  have apart : file ≠ d.opened name := fun same =>
    other (settled.opened_single (bound.trans (congrArg some same)))
  exact ⟨update_of_ne apart _ _, update_of_ne apart _ _⟩

/-- A call on a file leaves the other names as they were. -/
theorem untouched_file (settled : Settled Public d) {d' : Disk Name Byte} {name name' : Name}
    {file : ℕ} (bound : d.names.lookup name = some file) (other : name' ≠ name)
    (names : d'.names = d.names)
    (only : ∀ file' ≠ file, d'.files file' = d.files file' ∧ d'.synced file' = d.synced file') :
    d.Untouched d' name' := by
  refine ⟨by rw [names], fun file' bound' => only file' fun same => ?_⟩
  exact other (settled.single _ List.mem_cons_self _ _ _ bound' (same ▸ bound))

theorem untouched_unlink {name name' : Name} (other : name' ≠ name) :
    d.Untouched (d.unlink name) name' :=
  ⟨(Table.lookup_erase _ _ _).trans (if_neg other), fun _ _ => ⟨rfl, rfl⟩⟩

theorem kept_write (file : ℕ) (unseen : ¬ d.Shown Public file) (bytes : List Byte) :
    Kept Public d (d.write file bytes) := by
  intro file' shown
  have other : file' ≠ file := fun same => unseen (same ▸ shown)
  exact update_of_ne other _ _

/-- Writing to a file nobody can read. -/
theorem write (settled : Settled Public d) {file : ℕ} (unseen : ¬ d.Shown Public file)
    (bytes : List Byte) : Settled Public (d.write file bytes) where
  synced := by
    intro file' shown
    have other : file' ≠ file := fun same => unseen (same ▸ shown)
    show update d.synced file false file' = true
    rw [update_of_ne other]
    exact settled.synced file' shown
  apart := settled.apart
  known := settled.known
  single := settled.single

theorem sync (settled : Settled Public d) (file : ℕ) : Settled Public (d.sync file) where
  synced := by
    intro file' shown
    show update d.synced file true file' = true
    by_cases same : file' = file
    · rw [same, update_self]
    · rw [update_of_ne same]
      exact settled.synced file' shown
  apart := settled.apart
  known := settled.known
  single := settled.single

theorem unlink (settled : Settled Public d) (name : Name) : Settled Public (d.unlink name) := by
  have erased : ∀ {name' file}, (d.names.erase name).lookup name' = some file →
      d.names.lookup name' = some file := by
    intro name' file bound
    rw [Table.lookup_erase] at bound
    by_cases same : name' = name
    · rw [if_pos same] at bound
      cases bound
    · rwa [if_neg same] at bound
  have before : ∀ {file}, (d.unlink name).Shown Public file → d.Shown Public file := by
    rintro file ⟨dir, member, name', isPublic, bound⟩
    obtain rfl | older := List.mem_cons.mp member
    · exact ⟨_, List.mem_cons_self, name', isPublic, erased bound⟩
    · exact ⟨dir, older, name', isPublic, bound⟩
  refine ⟨fun file shown => settled.synced file (before shown), ?_, ?_, ?_⟩
  · intro file shown name' hidden bound
    exact settled.apart file (before shown) name' hidden (erased bound)
  · intro dir member name' file bound
    obtain rfl | older := List.mem_cons.mp member
    · exact settled.known _ List.mem_cons_self _ _ (erased bound)
    · exact settled.known dir older _ _ bound
  · intro dir member name₁ name₂ file bound₁ bound₂
    obtain rfl | older := List.mem_cons.mp member
    · exact settled.single _ List.mem_cons_self _ _ _ (erased bound₁) (erased bound₂)
    · exact settled.single dir older _ _ _ bound₁ bound₂

theorem lookup_renamed {old new : Name} {file : ℕ} (bound : d.names.lookup old = some file)
    (name : Name) : (d.rename old new).names.lookup name =
      if name = new then some file else if name = old then none else d.names.lookup name := by
  have names : (d.rename old new).names = (d.names.erase old).insert new file := by
    unfold Disk.rename
    rw [bound]
    rfl
  rw [names, Table.lookup_insert, Table.lookup_erase]

theorem untouched_rename {old new name : Name} {file : ℕ}
    (bound : d.names.lookup old = some file) (notOld : name ≠ old) (notNew : name ≠ new) :
    d.Untouched (d.rename old new) name := by
  refine ⟨?_, fun _ _ => ⟨rfl, rfl⟩⟩
  rw [lookup_renamed bound, if_neg notNew, if_neg notOld]

/-- **Publishing a file that was synced.** -/
theorem rename (settled : Settled Public d) {old new : Name} (hidden : ¬ Public old)
    (isPublic : Public new) {file : ℕ} (bound : d.names.lookup old = some file)
    (safe : d.synced file = true) : Settled Public (d.rename old new) := by
  have shown : ∀ {file'}, (d.rename old new).Shown Public file' →
      file' = file ∨ d.Shown Public file' := by
    rintro file' ⟨dir, member, name, visible, bound'⟩
    obtain rfl | older := List.mem_cons.mp member
    · rw [lookup_renamed bound] at bound'
      split_ifs at bound' with same gone
      · exact .inl (Option.some.inj bound').symm
      · exact .inr ⟨_, List.mem_cons_self, name, visible, bound'⟩
    · exact .inr ⟨dir, older, name, visible, bound'⟩
  refine ⟨?_, ?_, ?_, ?_⟩
  · intro file' now
    obtain rfl | before := shown now
    · exact safe
    · exact settled.synced file' before
  · intro file' now name hiddenName bound'
    rw [lookup_renamed bound] at bound'
    split_ifs at bound' with same gone
    · exact hiddenName (same ▸ isPublic)
    · obtain rfl | before := shown now
      · exact gone (settled.single _ List.mem_cons_self _ _ _ bound' bound)
      · exact settled.apart file' before name hiddenName bound'
  · intro dir member name file' bound'
    obtain rfl | older := List.mem_cons.mp member
    · rw [lookup_renamed bound] at bound'
      split_ifs at bound' with same gone
      · obtain rfl := Option.some.inj bound'
        exact settled.known _ List.mem_cons_self _ _ bound
      · exact settled.known _ List.mem_cons_self _ _ bound'
    · exact settled.known dir older _ _ bound'
  · intro dir member name₁ name₂ file' bound₁ bound₂
    obtain rfl | older := List.mem_cons.mp member
    · rw [lookup_renamed bound] at bound₁ bound₂
      split_ifs at bound₁ with same₁ gone₁
      · split_ifs at bound₂ with same₂ gone₂
        · rw [same₁, same₂]
        · obtain rfl := Option.some.inj bound₁
          exact absurd (settled.single _ List.mem_cons_self _ _ _ bound₂ bound) gone₂
      · split_ifs at bound₂ with same₂ gone₂
        · obtain rfl := Option.some.inj bound₂
          exact absurd (settled.single _ List.mem_cons_self _ _ _ bound₁ bound) gone₁
        · exact settled.single _ List.mem_cons_self _ _ _ bound₁ bound₂
    · exact settled.single dir older _ _ _ bound₁ bound₂

/-- A state the directory falls back to was one of its states. -/
theorem back_mem (d : Disk Name Byte) (back : ℕ) : d.dirs[back]?.getD d.names ∈ d.dirs := by
  cases found : d.dirs[back]? with
  | none => exact List.mem_cons_self
  | some dir => exact List.mem_of_getElem? found

theorem kept_lose (settled : Settled Public d) (back : ℕ) (garbage : ℕ → List Byte) :
    Kept Public d (d.lose back garbage) := by
  intro file shown
  show (if d.synced file then d.files file else garbage file) = d.files file
  rw [if_pos (settled.synced file shown)]

theorem lose (settled : Settled Public d) (back : ℕ) (garbage : ℕ → List Byte) :
    Settled Public (d.lose back garbage) := by
  have one : ∀ {dir}, dir ∈ (d.lose back garbage).dirs → dir = d.dirs[back]?.getD d.names :=
    fun member => List.mem_singleton.mp member
  have before : ∀ {file}, (d.lose back garbage).Shown Public file → d.Shown Public file := by
    rintro file ⟨dir, member, name, isPublic, bound⟩
    rw [one member] at bound
    exact ⟨_, back_mem d back, name, isPublic, bound⟩
  refine ⟨fun file shown => settled.synced file (before shown), ?_, ?_, ?_⟩
  · rintro file ⟨dir, member, name, isPublic, bound⟩ name' hidden bound'
    rw [one member] at bound
    have same := settled.single _ (back_mem d back) _ _ _ bound bound'
    exact hidden (same ▸ isPublic)
  · intro dir member name file bound
    rw [one member] at bound
    exact settled.known _ (back_mem d back) _ _ bound
  · intro dir member name name' file bound bound'
    rw [one member] at bound bound'
    exact settled.single _ (back_mem d back) _ _ _ bound bound'

end Settled

end Disk

end HullCi.Base
