/-
**No order of calls changes a visible tree.**

* `inv_step` — any step keeps what trees and blobs hold.
* `Named`, `Intact` — the names of an inode, and what a reader of the store relies on.
* `trees_intact` — along any run.
-/

import HullCi.Fetch.SharingSweeps

namespace HullCi.Fetch.Blobs

open HullCi.Base

/-! ### Any run -/

section Steps

variable {blobId : List UInt8 → String} {labels : List Label} {s : State}

/-- **Any step.** -/
theorem inv_step (inv : Inv blobId labels s) (distinct : Distinct blobId labels) {l : Label}
    (mem : l ∈ labels) : Inv blobId labels (step blobId s l) := by
  cases l with
  | begin c tenant treeId entries => exact inv_begin inv mem
  | visit c path => exact inv_visit inv c path
  | walked c => exact inv_walked inv c
  | commit c done =>
    cases known : s.commits.lookup c with
    | none =>
      simp only [step, known]
      exact inv
    | some k =>
      simp only [step, known]
      exact inv_commitStep inv distinct known done
  | discard c path => exact inv_discard inv c path
  | reclaim r tenant => exact inv_reclaim inv r tenant
  | bury r treeId => exact inv_bury inv r treeId
  | dig r treeId path => exact inv_dig inv r treeId path
  | pick r key => exact inv_pick inv r key
  | sweep r done =>
    cases known : s.sweeps.lookup r with
    | none =>
      simp only [step, known]
      exact inv
    | some w =>
      simp only [step, known]
      exact inv_sweepStep inv known done
  | close r seq => exact inv_close inv r seq

end Steps

section Runs

variable (blobId : List UInt8 → String)

theorem inv_new (labels : List Label) : Inv blobId labels State.new where
  blobs _ _ _ found := by cases found
  commits _ := ⟨rfl, rfl⟩
  sweeps _ := ⟨fun _ => rfl, fun _ => rfl⟩
  files _ _ _ found := by cases found
  trees _ _ _ found := by cases found
  below _ _ found := by cases found
  begun _ _ found := by cases found

/-- A name of an inode, with its tenant and the key of the blob it belongs to. -/
inductive Named (s : State) (ino : ℕ) : String → BlobKey → Prop
  | blob {tenant key} (found : s.disk.blobs.lookup (tenant, key) = some ino) : Named s ino tenant key
  | tree {tenant id d path i} (found : s.disk.trees.lookup (tenant, id) = some d)
      (file : d.lookup path = some (.file ino)) (inode : s.disk.inodes.lookup ino = some i) :
      Named s ino tenant ⟨blobId i.bytes, execOf i.mode⟩
  | staged {c k d path i} (known : s.commits.lookup c = some k)
      (found : s.disk.staged.lookup c = some d) (file : d.lookup path = some (.file ino))
      (inode : s.disk.inodes.lookup ino = some i) :
      Named s ino k.tenant ⟨blobId i.bytes, execOf i.mode⟩
  | scratch {c k i} (known : s.commits.lookup c = some k)
      (found : s.disk.links.lookup c = some ino) (inode : s.disk.inodes.lookup ino = some i) :
      Named s ino k.tenant ⟨blobId i.bytes, execOf i.mode⟩
  | grave {r w n i} (known : s.sweeps.lookup r = some w)
      (found : s.disk.graves.lookup (r, n) = some ino) (inode : s.disk.inodes.lookup ino = some i) :
      Named s ino w.tenant ⟨blobId i.bytes, execOf i.mode⟩
  | buried {r w id d path i} (known : s.sweeps.lookup r = some w)
      (found : s.disk.buried.lookup (r, id) = some d) (file : d.lookup path = some (.file ino))
      (inode : s.disk.inodes.lookup ino = some i) :
      Named s ino w.tenant ⟨blobId i.bytes, execOf i.mode⟩

/-- What a tree, a blob and a shared inode are worth. -/
structure Intact (labels : List Label) (s : State) : Prop where
  /-- A visible tree holds what its publisher had staged. -/
  trees : ∀ tenant id d, s.disk.trees.lookup (tenant, id) = some d →
    ∃ c k entries, s.publisher.lookup (tenant, id) = some c ∧ s.commits.lookup c = some k ∧
      k.content = stagedContent entries ∧ Label.begin c tenant id entries ∈ labels ∧
      view s.disk.inodes d = stagedContent entries
  /-- No file of it is missing. -/
  whole : ∀ tenant id d, s.disk.trees.lookup (tenant, id) = some d → ∀ path node,
    d.lookup path = some node → (view s.disk.inodes d path).isSome = true
  /-- Its address is still the one it was verified to have. -/
  addressed : ∀ address : (List String → Option Content) → String,
    (∀ c tenant id entries, Label.begin c tenant id entries ∈ labels →
      address (stagedContent entries) = id) →
    ∀ tenant id d, s.disk.trees.lookup (tenant, id) = some d → address (view s.disk.inodes d) = id
  blobs : ∀ tenant key ino, s.disk.blobs.lookup (tenant, key) = some ino →
    ∃ i, s.disk.inodes.lookup ino = some i ∧ blobId i.bytes = key.id ∧ i.mode = key.mode
  shared : ∀ ino tenant key tenant' key', Named blobId s ino tenant key →
    Named blobId s ino tenant' key' → tenant = tenant' ∧ key = key'

variable {blobId} {labels : List Label} {s : State}

theorem Named.inode (inv : Inv blobId labels s) {ino : ℕ} {tenant : String} {key : BlobKey}
    (named : Named blobId s ino tenant key) : ∃ i, s.disk.inodes.lookup ino = some i ∧
      i.tenant = tenant ∧ key = ⟨blobId i.bytes, execOf i.mode⟩ := by
  have close : ∀ {tenant : String} {i : Inode}, Owned s.disk ino tenant →
      s.disk.inodes.lookup ino = some i → ∃ i', s.disk.inodes.lookup ino = some i' ∧
        i'.tenant = tenant ∧
          (⟨blobId i.bytes, execOf i.mode⟩ : BlobKey) = ⟨blobId i'.bytes, execOf i'.mode⟩ := by
    rintro tenant i ⟨i', found, owner⟩ inode
    obtain rfl := Option.some.inj (inode.symm.trans found)
    exact ⟨i, found, owner, rfl⟩
  cases named with
  | blob found =>
    obtain ⟨i, inode, owner, id, mode⟩ := inv.blobs _ _ _ found
    exact ⟨i, inode, owner, by rw [id, mode, execOf_mode]⟩
  | tree found file inode => exact close (inv.files _ _ _ found _ _ file) inode
  | staged known found file inode => exact close ((inv.slot known).files _ found _ _ file) inode
  | scratch known found inode => exact close ((inv.slot known).scratch _ found).1 inode
  | grave known found inode =>
    exact close ((inv.sweepSlot known).graves _ _ found).2.1 inode
  | buried known found file inode =>
    exact close ((inv.sweepSlot known).buried _ _ found _ _ file) inode

theorem Inv.intact (inv : Inv blobId labels s) : Intact blobId labels s := by
  have trees : ∀ tenant id d, s.disk.trees.lookup (tenant, id) = some d →
      ∃ c k entries, s.publisher.lookup (tenant, id) = some c ∧ s.commits.lookup c = some k ∧
        k.content = stagedContent entries ∧ Label.begin c tenant id entries ∈ labels ∧
        view s.disk.inodes d = stagedContent entries := by
    intro tenant id d found
    obtain ⟨c, k, publisher, known, rfl, rfl, held⟩ := inv.trees tenant id d found
    obtain ⟨entries, mem, content⟩ := inv.begun c k known
    exact ⟨c, k, entries, publisher, known, content, mem, held.trans content⟩
  refine
    { trees := trees
      whole := fun tenant id d found path node here => ?_
      addressed := fun address verified tenant id d found => ?_
      blobs := fun tenant key ino found => ?_
      shared := fun ino tenant key tenant' key' named named' => ?_ }
  · rw [view, here, Option.bind_some]
    cases node with
    | dir => rfl
    | symlink target => rfl
    | file ino =>
      obtain ⟨i, inode, -⟩ := inv.files tenant id d found path ino here
      rw [contentOf, inode]
      rfl
  · obtain ⟨c, k, entries, -, -, -, mem, held⟩ := trees tenant id d found
    rw [held]
    exact verified c tenant id entries mem
  · obtain ⟨i, inode, -, id, mode⟩ := inv.blobs tenant key ino found
    exact ⟨i, inode, id, mode⟩
  · obtain ⟨i, inode, owner, same⟩ := named.inode inv
    obtain ⟨i', inode', owner', same'⟩ := named'.inode inv
    obtain rfl := Option.some.inj (inode.symm.trans inode')
    exact ⟨owner.symm.trans owner', same.trans same'.symm⟩

/-- **No order of the calls of commits and sweeps, and no failure of any of them, changes a tree
that is visible.** -/
theorem trees_intact (blobId : List UInt8 → String) (labels : List Label)
    (distinct : Distinct blobId labels) :
    Intact blobId labels (run (step blobId) State.new labels) := by
  have listed : Along (step blobId) (fun _ l => l ∈ labels) State.new labels :=
    along_iff.mpr fun _ _ at' => List.mem_of_getElem? at'
  have inv : Inv blobId labels (run (step blobId) State.new labels) :=
    run_invariant_along (I := Inv blobId labels) (P := fun _ l => l ∈ labels)
      (fun _ _ inv mem => inv_step inv distinct mem) (inv_new blobId labels) listed
  exact inv.intact

/-- The address of the two bytes that the run below stages. -/
def hiId (bytes : List UInt8) : String :=
  if bytes = [0x68, 0x69] then "3b6cd9a830e28bfdd0bb9b049a3130144e14964ce2492e072434baf9d6396a61"
  else ""

def hiKey : BlobKey := ⟨hiId [0x68, 0x69], false⟩

/-- The file of one tree becomes a blob, a sweep passes it by, and a second tree takes a link to
it. -/
def hiRun : List Label :=
  [.begin 0 "t" "one" [(["f"], .file [0x68, 0x69] 0o600)], .commit 0 true, .visit 0 ["f"]]
    ++ List.replicate 5 (.commit 0 true)
    ++ [.reclaim 0 "t", .pick 0 hiKey, .walked 0] ++ List.replicate 3 (.commit 0 true)
    ++ [.begin 1 "t" "two" [(["g"], .file [0x68, 0x69] 0o644)], .commit 1 true, .visit 1 ["g"]]
    ++ List.replicate 8 (.commit 1 true) ++ [.walked 1] ++ List.replicate 3 (.commit 1 true)

theorem trees_intact_hi : Intact hiId hiRun (run (step hiId) State.new hiRun) ∧
    ((run (step hiId) State.new hiRun).disk.trees.lookup ("t", "one")).map filesOf = some [0] ∧
    ((run (step hiId) State.new hiRun).disk.trees.lookup ("t", "two")).map filesOf = some [0] := by
  refine ⟨trees_intact hiId hiRun ?_, by decide +kernel, by decide +kernel⟩
  have only : ∀ b, Staged hiRun b → b = [0x68, 0x69] := by
    rintro b ⟨c, tenant, id, entries, path, mode, mem, file⟩
    simp only [hiRun, List.mem_append, List.mem_cons, List.mem_replicate, List.not_mem_nil,
      Label.begin.injEq, reduceCtorEq, and_false, or_false] at mem
    rcases mem with ⟨-, -, -, rfl⟩ | ⟨-, -, -, rfl⟩
    · cases List.mem_singleton.mp file
      rfl
    · cases List.mem_singleton.mp file
      rfl
  exact fun b b' staged staged' _ => (only b staged).trans (only b' staged').symm

end Runs

end HullCi.Fetch.Blobs
