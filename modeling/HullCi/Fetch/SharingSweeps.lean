/-
**A sweep keeps what trees and blobs hold.**

A sweep moves names and drops its own, and what it links back is the blob it took. A directory that
is removed loses one entry at a time.

* `Inv.retire`, `Inv.restore`, `Inv.unlinkGrave` — the calls that move a blob's name.
* `inv_sweepStep` — any call of a sweep.
* `inv_discard`, `inv_bury`, `inv_dig` — directories that go.
-/

import HullCi.Fetch.SharingCommits

namespace HullCi.Fetch.Blobs

open HullCi.Base

/-! ### The calls of a sweep -/

section Sweeps

variable {blobId : List UInt8 → String} {labels : List Label} {s : State} {r : ℕ} {w : Sweep}

theorem Inv.sweepSlot (inv : Inv blobId labels s) (known : s.sweeps.lookup r = some w) :
    SweepOk blobId s.disk r w := by
  have slot := inv.sweeps r
  rw [known] at slot
  exact slot

theorem SweepOk.onward {disk : Disk} (ok : SweepOk blobId disk r w) (pc : SweepPc)
    (moved : pc.moved = none ∨ pc.moved = w.pc.moved) : SweepOk blobId disk r { w with pc := pc } where
  graves n ino found := by
    obtain ⟨le, owned, fit⟩ := ok.graves n ino found
    refine ⟨le, owned, fun key here last => ?_⟩
    have here : pc.moved = some key := here
    rcases moved with none | same
    · rw [none] at here
      cases here
    · rw [same] at here
      exact fit key here last
  buried := ok.buried

theorem Inv.turn (inv : Inv blobId labels s) {w' : Sweep} {pc : SweepPc}
    (ok : SweepOk blobId s.disk r { w' with pc := pc }) : Inv blobId labels (s.turn r w' pc) :=
  inv.sweep ((Table.lookup_insert _ _ _ _).trans (if_pos rfl))
    (fun _ other => (Table.lookup_insert _ _ _ _).trans (if_neg other)) (keeps_same rfl)
    (noNew_same rfl rfl) (fun _ _ _ found => .inl found) (fun _ _ found => found) rfl rfl
    (fun _ _ _ => rfl) (fun _ _ _ => rfl) ok

theorem Inv.retire (inv : Inv blobId labels s) (known : s.sweeps.lookup r = some w) {key : BlobKey}
    {ino : ℕ} (blob : s.disk.blobs.lookup (w.tenant, key) = some ino) :
    Inv blobId labels ({ s with disk := { s.disk with
      blobs := s.disk.blobs.erase (w.tenant, key)
      graves := s.disk.graves.insert (r, w.seq) ino } }.turn r w (.restat key)) := by
  have ok := inv.sweepSlot known
  have fit := inv.blobs w.tenant key ino blob
  have graves : ∀ name, (s.disk.graves.insert (r, w.seq) ino).lookup name =
      if name = (r, w.seq) then some ino else s.disk.graves.lookup name := Table.lookup_insert _ _ _
  refine inv.sweep ((Table.lookup_insert _ _ _ _).trans (if_pos rfl))
    (fun _ other => (Table.lookup_insert _ _ _ _).trans (if_neg other)) (keeps_same rfl)
    (noNew_same rfl rfl) (fun t key' ino' found => ?_) (fun _ _ found => found) rfl rfl
    (fun r' n other => (graves _).trans (if_neg fun same => other (Prod.mk.inj same).1))
    (fun _ _ _ => rfl) ⟨fun n ino' found => ?_, ok.buried⟩
  · have found : (s.disk.blobs.erase (w.tenant, key)).lookup (t, key') = some ino' := found
    rw [Table.lookup_erase] at found
    split_ifs at found
    exact .inl found
  · have found := (graves _).symm.trans found
    split_ifs at found with same
    · obtain rfl := Option.some.inj found
      obtain ⟨-, rfl⟩ := Prod.mk.inj same
      refine ⟨le_refl _, fit.owned, fun key' here _ => ?_⟩
      obtain rfl := Option.some.inj here
      exact fit
    · obtain ⟨le, owned, -⟩ := ok.graves n ino' found
      exact ⟨le, owned, fun _ _ last => absurd (last ▸ rfl) same⟩

/-- **A blob linked back is fit for its key.** -/
theorem Inv.restore (inv : Inv blobId labels s) (known : s.sweeps.lookup r = some w) {key : BlobKey}
    (pc : w.pc = .restore key) {ino : ℕ} (grave : s.disk.graves.lookup (r, w.seq) = some ino) :
    Inv blobId labels ({ s with disk := { s.disk with
      blobs := s.disk.blobs.insert (w.tenant, key) ino } }.turn r w (.drop key)) := by
  have ok := inv.sweepSlot known
  obtain ⟨-, -, fit⟩ := ok.graves w.seq ino grave
  have fit := fit key (by rw [pc]; rfl) rfl
  refine inv.sweep ((Table.lookup_insert _ _ _ _).trans (if_pos rfl))
    (fun _ other => (Table.lookup_insert _ _ _ _).trans (if_neg other)) (keeps_same rfl)
    (noNew_same rfl rfl) (fun t key' ino' found => ?_) (fun _ _ found => found) rfl rfl
    (fun _ _ _ => rfl) (fun _ _ _ => rfl)
    ((ok.onward (.drop key) (.inr (by rw [pc]; rfl))).keeps (keeps_same rfl)
      (fun _ _ found => found) fun _ d found path ino file => ⟨d, found, file⟩)
  have found : (s.disk.blobs.insert (w.tenant, key) ino).lookup (t, key') = some ino' := found
  rw [Table.lookup_insert] at found
  split_ifs at found with same
  · obtain rfl := Option.some.inj found
    obtain ⟨rfl, rfl⟩ := Prod.mk.inj same
    exact .inr fit
  · exact .inl found

theorem unlinkGrave_graves (disk : Disk) (name name' : ℕ × ℕ) :
    (disk.unlinkGrave name).graves.lookup name' =
      if name' = name then none else disk.graves.lookup name' := by
  unfold Disk.unlinkGrave
  cases found : disk.graves.lookup name with
  | none =>
    split_ifs with same
    · rw [same]
      exact found
    · rfl
  | some ino =>
    show (Disk.reap _ _).graves.lookup name' = _
    rw [(sameNames_reap _ _).graves]
    exact Table.lookup_erase _ _ _

theorem unlinkGrave_rest (disk : Disk) (name : ℕ × ℕ) : Keeps disk (disk.unlinkGrave name) ∧
    NoNew disk (disk.unlinkGrave name) ∧ (disk.unlinkGrave name).blobs = disk.blobs ∧
    (disk.unlinkGrave name).trees = disk.trees ∧ (disk.unlinkGrave name).links = disk.links ∧
    (disk.unlinkGrave name).staged = disk.staged ∧
    (disk.unlinkGrave name).buried = disk.buried := by
  unfold Disk.unlinkGrave
  cases disk.graves.lookup name with
  | none => exact ⟨keeps_same rfl, noNew_same rfl rfl, rfl, rfl, rfl, rfl, rfl⟩
  | some ino =>
    have keeps : Keeps disk { disk with graves := disk.graves.erase name } := keeps_same rfl
    have noNew : NoNew disk { disk with graves := disk.graves.erase name } := noNew_same rfl rfl
    have same := sameNames_reap { disk with graves := disk.graves.erase name } ino
    exact ⟨keeps.reap ino, noNew.reap ino, same.blobs, same.trees, same.links, same.staged,
      same.buried⟩

theorem Inv.unlinkGrave (inv : Inv blobId labels s) (n : ℕ) {sweeps' : Table ℕ Sweep} {w' : Sweep}
    (here : sweeps'.lookup r = some w')
    (others : ∀ r', r' ≠ r → sweeps'.lookup r' = s.sweeps.lookup r')
    (ok : SweepOk blobId s.disk r w') :
    Inv blobId labels { s with disk := s.disk.unlinkGrave (r, n), sweeps := sweeps' } := by
  obtain ⟨keeps, noNew, blobs, trees, links, stagings, buried⟩ := unlinkGrave_rest s.disk (r, n)
  have graves := unlinkGrave_graves s.disk (r, n)
  refine inv.sweep here others keeps noNew (fun t key ino found => .inl (blobs ▸ found))
    (fun key d found => trees ▸ found) links stagings
    (fun r' m other => (graves _).trans (if_neg fun same => other (Prod.mk.inj same).1))
    (fun r' id _ => by rw [buried])
    (ok.keeps keeps (fun m ino found => ?_) fun id d found path ino file =>
      ⟨d, buried ▸ found, file⟩)
  rw [graves] at found
  split_ifs at found
  exact found

theorem Inv.dropGrave (inv : Inv blobId labels s) (done : Bool)
    (ok : SweepOk blobId s.disk r { w with pc := .list }) :
    Inv blobId labels
      ({ s with disk := if done then s.disk.unlinkGrave (r, w.seq) else s.disk }.turn r w .list) := by
  cases done with
  | false => exact inv.turn ok
  | true =>
    exact inv.unlinkGrave w.seq ((Table.lookup_insert _ _ _ _).trans (if_pos rfl))
      (fun _ other => (Table.lookup_insert _ _ _ _).trans (if_neg other)) ok

/-- **One call of a sweep.** -/
theorem inv_sweepStep (inv : Inv blobId labels s) (known : s.sweeps.lookup r = some w)
    (done : Bool) : Inv blobId labels (s.sweepStep r w done) := by
  have ok := inv.sweepSlot known
  have list : Inv blobId labels (s.turn r w .list) := inv.turn (ok.onward .list (.inl rfl))
  unfold State.sweepStep
  cases pc : w.pc with
  | list => exact inv
  | rename key =>
    dsimp only
    split
    · rename_i blob
      exact inv.retire known blob
    · exact list
  | restat key =>
    dsimp only
    split
    · refine inv.turn (ok.onward _ (.inr ?_))
      rw [pc]
      split_ifs <;> rfl
    · exact list
  | restore key =>
    dsimp only
    split
    · rename_i grave _
      exact inv.restore known pc grave
    · exact inv.turn (ok.onward _ (.inr (by rw [pc]; rfl)))
  | drop key => exact inv.dropGrave done (ok.onward .list (.inl rfl))
  | unlink key => exact inv.dropGrave done (ok.onward .list (.inl rfl))

end Sweeps

/-! ### Directories go, one entry at a time -/

section Removal

variable {blobId : List UInt8 → String} {labels : List Label} {s : State}

theorem lookup_of_erase {d : Dir} {path path' : List String} {node : Node}
    (found : (d.erase path).lookup path' = some node) : d.lookup path' = some node := by
  rw [Table.lookup_erase] at found
  split_ifs at found
  exact found

theorem removeStaged_rest (disk : Disk) (c : ℕ) (path : List String) :
    Keeps disk (disk.removeStaged c path) ∧ NoNew disk (disk.removeStaged c path) ∧
    (disk.removeStaged c path).blobs = disk.blobs ∧ (disk.removeStaged c path).trees = disk.trees ∧
    (disk.removeStaged c path).links = disk.links ∧
    (disk.removeStaged c path).graves = disk.graves ∧
    (disk.removeStaged c path).buried = disk.buried ∧
    ∀ c' d', (disk.removeStaged c path).staged.lookup c' = some d' →
      ∃ d, disk.staged.lookup c' = some d ∧
        ∀ path' node, d'.lookup path' = some node → d.lookup path' = some node := by
  unfold Disk.removeStaged
  cases found : disk.staged.lookup c with
  | none =>
    exact ⟨keeps_same rfl, noNew_same rfl rfl, rfl, rfl, rfl, rfl, rfl,
      fun _ d' found => ⟨d', found, fun _ _ here => here⟩⟩
  | some d =>
    dsimp only
    generalize moved : ({ disk with
      staged := disk.staged.insert c (d.erase path) } : Disk) = disk'
    have keeps : Keeps disk disk' := by rw [← moved]; exact keeps_same rfl
    have noNew : NoNew disk disk' := by rw [← moved]; exact noNew_same rfl rfl
    have names := sameNames_reapNode disk' (d.lookup path)
    refine ⟨keeps.reapNode _, noNew.reapNode _, ?_, ?_, ?_, ?_, ?_, fun c' d' here => ?_⟩
    · rw [names.blobs, ← moved]
    · rw [names.trees, ← moved]
    · rw [names.links, ← moved]
    · rw [names.graves, ← moved]
    · rw [names.buried, ← moved]
    · rw [names.staged, ← moved] at here
      have here : (disk.staged.insert c (d.erase path)).lookup c' = some d' := here
      rw [Table.lookup_insert] at here
      split_ifs at here with same
      · obtain rfl := Option.some.inj here
        exact ⟨d, same ▸ found, fun _ _ => lookup_of_erase⟩
      · exact ⟨d', here, fun _ _ here => here⟩

theorem removeStaged_staged (disk : Disk) {c : ℕ} (path : List String) (c' : ℕ) (other : c' ≠ c) :
    (disk.removeStaged c path).staged.lookup c' = disk.staged.lookup c' := by
  unfold Disk.removeStaged
  cases disk.staged.lookup c with
  | none => rfl
  | some d =>
    show (Disk.reapNode _ _).staged.lookup c' = _
    rw [(sameNames_reapNode _ _).staged]
    exact (Table.lookup_insert _ _ _ _).trans (if_neg other)

theorem removeBuried_rest (disk : Disk) (name : ℕ × String) (path : List String) :
    Keeps disk (disk.removeBuried name path) ∧ NoNew disk (disk.removeBuried name path) ∧
    (disk.removeBuried name path).blobs = disk.blobs ∧
    (disk.removeBuried name path).trees = disk.trees ∧
    (disk.removeBuried name path).links = disk.links ∧
    (disk.removeBuried name path).graves = disk.graves ∧
    (disk.removeBuried name path).staged = disk.staged ∧
    ∀ name' d', (disk.removeBuried name path).buried.lookup name' = some d' →
      ∃ d, disk.buried.lookup name' = some d ∧
        ∀ path' node, d'.lookup path' = some node → d.lookup path' = some node := by
  unfold Disk.removeBuried
  cases found : disk.buried.lookup name with
  | none =>
    exact ⟨keeps_same rfl, noNew_same rfl rfl, rfl, rfl, rfl, rfl, rfl,
      fun _ d' found => ⟨d', found, fun _ _ here => here⟩⟩
  | some d =>
    dsimp only
    generalize moved : ({ disk with
      buried := disk.buried.insert name (d.erase path) } : Disk) = disk'
    have keeps : Keeps disk disk' := by rw [← moved]; exact keeps_same rfl
    have noNew : NoNew disk disk' := by rw [← moved]; exact noNew_same rfl rfl
    have names := sameNames_reapNode disk' (d.lookup path)
    refine ⟨keeps.reapNode _, noNew.reapNode _, ?_, ?_, ?_, ?_, ?_, fun name' d' here => ?_⟩
    · rw [names.blobs, ← moved]
    · rw [names.trees, ← moved]
    · rw [names.links, ← moved]
    · rw [names.graves, ← moved]
    · rw [names.staged, ← moved]
    · rw [names.buried, ← moved] at here
      have here : (disk.buried.insert name (d.erase path)).lookup name' = some d' := here
      rw [Table.lookup_insert] at here
      split_ifs at here with same
      · obtain rfl := Option.some.inj here
        exact ⟨d, same ▸ found, fun _ _ => lookup_of_erase⟩
      · exact ⟨d', here, fun _ _ here => here⟩

theorem removeBuried_buried (disk : Disk) {name : ℕ × String} (path : List String)
    (name' : ℕ × String) (other : name' ≠ name) :
    (disk.removeBuried name path).buried.lookup name' = disk.buried.lookup name' := by
  unfold Disk.removeBuried
  cases disk.buried.lookup name with
  | none => rfl
  | some d =>
    show (Disk.reapNode _ _).buried.lookup name' = _
    rw [(sameNames_reapNode _ _).buried]
    exact (Table.lookup_insert _ _ _ _).trans (if_neg other)

theorem inv_visit (inv : Inv blobId labels s) (c : ℕ) (path : List String) :
    Inv blobId labels (step blobId s (.visit c path)) := by
  cases known : s.commits.lookup c with
  | none =>
    simp only [step, known]
    exact inv
  | some k =>
    simp only [step, known]
    split_ifs with walk
    · have ok := (inv.slot known).onward (.stat path) (.inl (by rw [walk.1]; decide)) rfl rfl rfl
        (.inl rfl)
      exact inv.commit ((Table.lookup_insert _ _ _ _).trans (if_pos rfl))
        (fun _ other => (Table.lookup_insert _ _ _ _).trans (if_neg other))
        (.inl ⟨k, known, rfl, rfl, rfl⟩) (keeps_same rfl) inv.below (fun _ _ _ found => .inl found)
        rfl rfl rfl (fun _ _ => rfl) (fun _ _ => rfl)
        ⟨ok.scratch, ok.files, ok.content, ok.statted, ok.keyed, ok.moded⟩
    · exact inv

theorem inv_walked (inv : Inv blobId labels s) (c : ℕ) :
    Inv blobId labels (step blobId s (.walked c)) := by
  cases known : s.commits.lookup c with
  | none =>
    simp only [step, known]
    exact inv
  | some k =>
    simp only [step, known]
    split_ifs with walk
    · exact inv.goto known
        ((inv.slot known).onward _ (.inl (by rw [walk.1]; decide)) rfl rfl rfl (.inl rfl))
    · exact inv

/-- What a commit throws away is its own staging directory. -/
theorem inv_discard (inv : Inv blobId labels s) (c : ℕ) (path : List String) :
    Inv blobId labels (step blobId s (.discard c path)) := by
  cases known : s.commits.lookup c with
  | none =>
    simp only [step, known]
    exact inv
  | some k =>
    simp only [step, known]
    split_ifs with pc
    swap
    · exact inv
    have ok := inv.slot known
    obtain ⟨keeps, noNew, blobs, trees, links, graves, buried, stagings⟩ :=
      removeStaged_rest s.disk c path
    refine inv.commit known (fun _ _ => rfl) (.inl ⟨k, known, rfl, rfl, rfl⟩) keeps
      (inv.below_noNew noNew) (fun t key ino found => .inl (blobs ▸ found)) trees graves buried
      (fun c' _ => by rw [links]) (removeStaged_staged s.disk path) ?_
    exact
      { scratch := fun ino link => by
          refine ⟨(ok.scratch ino (links ▸ link)).1.keeps keeps (mem_links link), fun key here => ?_⟩
          rw [pc] at here
          cases here
        files := fun d' here path' ino file => by
          obtain ⟨d, found, less⟩ := stagings c d' here
          exact (ok.files d found path' ino (less _ _ file)).keeps keeps (mem_staged here file)
        content := fun _ _ alive => absurd pc alive
        statted := fun _ _ _ _ here => by
          rw [pc] at here
          cases here
        keyed := fun _ _ _ _ here => by
          rw [pc] at here
          cases here
        moded := fun _ _ _ _ here => by
          rw [pc] at here
          cases here }

theorem inv_reclaim (inv : Inv blobId labels s) (r : ℕ) (tenant : String) :
    Inv blobId labels (step blobId s (.reclaim r tenant)) := by
  cases known : s.sweeps.lookup r with
  | some w =>
    simp only [step, known]
    exact inv
  | none =>
    simp only [step, known]
    have slot := inv.sweeps r
    rw [known] at slot
    obtain ⟨graves, buried⟩ := slot
    refine inv.sweep ((Table.lookup_insert _ _ _ _).trans (if_pos rfl))
      (fun _ other => (Table.lookup_insert _ _ _ _).trans (if_neg other)) (keeps_same rfl)
      (noNew_same rfl rfl) (fun _ _ _ found => .inl found) (fun _ _ found => found) rfl rfl
      (fun _ _ _ => rfl) (fun _ _ _ => rfl) ⟨fun n ino found => ?_, fun id d found => ?_⟩
    · rw [graves] at found
      cases found
    · rw [buried] at found
      cases found

/-- A tree that is renamed away keeps its files until they are unlinked. -/
theorem inv_bury (inv : Inv blobId labels s) (r : ℕ) (treeId : String) :
    Inv blobId labels (step blobId s (.bury r treeId)) := by
  cases known : s.sweeps.lookup r with
  | none =>
    simp only [step, known]
    exact inv
  | some w =>
    simp only [step, known]
    split
    swap
    · exact inv
    rename_i d tree _
    have ok := inv.sweepSlot known
    have buried : ∀ name, (s.disk.buried.insert (r, treeId) d).lookup name =
        if name = (r, treeId) then some d else s.disk.buried.lookup name := Table.lookup_insert _ _ _
    refine inv.sweep known (fun _ _ => rfl) (keeps_same rfl) (noNew_same rfl rfl)
      (fun _ _ _ found => .inl found) (fun key d' found => ?_) rfl rfl (fun _ _ _ => rfl)
      (fun r' id other => (buried _).trans (if_neg fun same => other (Prod.mk.inj same).1))
      ⟨ok.graves, fun id d' found => ?_⟩
    · have found : (s.disk.trees.erase (w.tenant, treeId)).lookup key = some d' := found
      rw [Table.lookup_erase] at found
      split_ifs at found
      exact found
    · have found := (buried _).symm.trans found
      split_ifs at found
      · obtain rfl := Option.some.inj found
        exact inv.files w.tenant treeId d tree
      · exact ok.buried id d' found

theorem inv_dig (inv : Inv blobId labels s) (r : ℕ) (treeId : String) (path : List String) :
    Inv blobId labels (step blobId s (.dig r treeId path)) := by
  cases known : s.sweeps.lookup r with
  | none =>
    have slot := inv.sweeps r
    rw [known] at slot
    have none := slot.2 treeId
    simp only [step, Disk.removeBuried, none]
    exact inv
  | some w =>
    obtain ⟨keeps, noNew, blobs, trees, links, graves, stagings, buried⟩ :=
      removeBuried_rest s.disk (r, treeId) path
    exact inv.sweep known (fun _ _ => rfl) keeps noNew
      (fun t key ino found => .inl (blobs ▸ found)) (fun key d found => trees ▸ found) links stagings
      (fun r' n _ => by rw [graves])
      (fun r' id other => removeBuried_buried s.disk path _ fun same => other (Prod.mk.inj same).1)
      ((inv.sweepSlot known).keeps keeps (fun n ino found => graves ▸ found)
        fun id d found path' ino file => by
          obtain ⟨d', found', less⟩ := buried (r, id) d found
          exact ⟨d', found', less _ _ file⟩)

theorem inv_pick (inv : Inv blobId labels s) (r : ℕ) (key : BlobKey) :
    Inv blobId labels (step blobId s (.pick r key)) := by
  cases known : s.sweeps.lookup r with
  | none =>
    simp only [step, known]
    exact inv
  | some w =>
    simp only [step, known]
    split
    swap
    · exact inv
    split_ifs
    swap
    · exact inv
    have ok := inv.sweepSlot known
    refine inv.turn ⟨fun n ino found => ?_, ok.buried⟩
    obtain ⟨le, owned, -⟩ := ok.graves n ino found
    exact ⟨Nat.le_succ_of_le le, owned, fun _ here => by cases here⟩

theorem inv_close (inv : Inv blobId labels s) (r seq : ℕ) :
    Inv blobId labels (step blobId s (.close r seq)) := by
  cases known : s.sweeps.lookup r with
  | none =>
    simp only [step, known]
    exact inv
  | some w =>
    simp only [step, known]
    split_ifs
    · exact inv.unlinkGrave seq known (fun _ _ => rfl) (inv.sweepSlot known)
    · exact inv

end Removal

end HullCi.Fetch.Blobs
