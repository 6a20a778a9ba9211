/-
**Sharing blobs never changes a tree.**

An inode keeps its bytes, its tenant and its mode class for as long as it has a name (`Keeps`), so
what a step does not rename keeps what it holds. What a step renames over a staged file is a blob of
the same key, and no two staged files collide.

* `Keeps` — what still has a name still has its inode.
* `CommitOk`, `SweepOk`, `Inv` — what holds between any two calls.
* `Inv.commit`, `Inv.sweep` — what a call of one commit or one sweep leaves alone.
-/

import HullCi.Fetch.Dedup

namespace HullCi.Fetch.Blobs

open HullCi.Base

/-! ### Names -/

section Names

variable {disk : Disk}

theorem mem_filesOf {d : Dir} {path : List String} {ino : ℕ}
    (found : d.lookup path = some (.file ino)) : ino ∈ filesOf d :=
  List.mem_filterMap.mpr ⟨.file ino, Table.mem_values.mpr ⟨path, found⟩, rfl⟩

theorem mem_blobs {key : String × BlobKey} {ino : ℕ} (found : disk.blobs.lookup key = some ino) :
    ino ∈ disk.names := by
  have mem : ino ∈ Table.values disk.blobs := Table.mem_values.mpr ⟨key, found⟩
  simp only [Disk.names, List.mem_append, mem, true_or]

theorem mem_links {c ino : ℕ} (found : disk.links.lookup c = some ino) : ino ∈ disk.names := by
  have mem : ino ∈ Table.values disk.links := Table.mem_values.mpr ⟨c, found⟩
  simp only [Disk.names, List.mem_append, mem, true_or, or_true]

theorem mem_graves {name : ℕ × ℕ} {ino : ℕ} (found : disk.graves.lookup name = some ino) :
    ino ∈ disk.names := by
  have mem : ino ∈ Table.values disk.graves := Table.mem_values.mpr ⟨name, found⟩
  simp only [Disk.names, List.mem_append, mem, true_or, or_true]

theorem mem_trees {key : String × String} {d : Dir} {path : List String} {ino : ℕ}
    (found : disk.trees.lookup key = some d) (file : d.lookup path = some (.file ino)) :
    ino ∈ disk.names := by
  have mem : ino ∈ (Table.values disk.trees).flatMap filesOf :=
    List.mem_flatMap.mpr ⟨d, Table.mem_values.mpr ⟨key, found⟩, mem_filesOf file⟩
  simp only [Disk.names, List.mem_append, mem, true_or, or_true]

theorem mem_staged {c : ℕ} {d : Dir} {path : List String} {ino : ℕ}
    (found : disk.staged.lookup c = some d) (file : d.lookup path = some (.file ino)) :
    ino ∈ disk.names := by
  have mem : ino ∈ (Table.values disk.staged).flatMap filesOf :=
    List.mem_flatMap.mpr ⟨d, Table.mem_values.mpr ⟨c, found⟩, mem_filesOf file⟩
  simp only [Disk.names, List.mem_append, mem, true_or, or_true]

theorem mem_buried {name : ℕ × String} {d : Dir} {path : List String} {ino : ℕ}
    (found : disk.buried.lookup name = some d) (file : d.lookup path = some (.file ino)) :
    ino ∈ disk.names := by
  have mem : ino ∈ (Table.values disk.buried).flatMap filesOf :=
    List.mem_flatMap.mpr ⟨d, Table.mem_values.mpr ⟨name, found⟩, mem_filesOf file⟩
  simp only [Disk.names, List.mem_append, mem, or_true]

end Names

/-! ### What an inode keeps -/

/-- The same file: bytes, tenant, mode class, and a canonical mode. -/
structure SameFile (i i' : Inode) : Prop where
  bytes : i'.bytes = i.bytes
  tenant : i'.tenant = i.tenant
  exec : execOf i'.mode = execOf i.mode
  canonical : ∀ key : BlobKey, i.mode = key.mode → i'.mode = key.mode

theorem SameFile.refl (i : Inode) : SameFile i i :=
  ⟨rfl, rfl, rfl, fun _ same => same⟩

/-- What still has a name still has its inode. -/
def Keeps (disk disk' : Disk) : Prop :=
  ∀ ino i, disk.inodes.lookup ino = some i → ino ∈ disk'.names →
    ∃ i', disk'.inodes.lookup ino = some i' ∧ SameFile i i'

/-- No inode came, and none changed its bytes. -/
def NoNew (disk disk' : Disk) : Prop :=
  disk'.next = disk.next ∧ ∀ ino i', disk'.inodes.lookup ino = some i' →
    ∃ i, disk.inodes.lookup ino = some i ∧ i'.bytes = i.bytes

section Keeping

variable {disk disk' : Disk}

theorem keeps_same (same : disk'.inodes = disk.inodes) : Keeps disk disk' := by
  intro ino i found _
  exact ⟨i, by rw [same]; exact found, .refl i⟩

theorem noNew_same (same : disk'.inodes = disk.inodes) (next : disk'.next = disk.next) :
    NoNew disk disk' := by
  refine ⟨next, fun ino i found => ⟨i, ?_, rfl⟩⟩
  rw [← same]
  exact found

theorem names_reap (disk : Disk) (ino : ℕ) : (disk.reap ino).names = disk.names := by
  unfold Disk.reap
  split <;> rfl

theorem Keeps.reap (keeps : Keeps disk disk') (ino : ℕ) : Keeps disk (disk'.reap ino) := by
  intro ino' i found named
  rw [names_reap] at named
  obtain ⟨i', found', same⟩ := keeps ino' i found named
  refine ⟨i', ?_, same⟩
  unfold Disk.reap
  split
  · exact found'
  · rename_i unnamed
    show (disk'.inodes.erase ino).lookup ino' = _
    rw [Table.lookup_erase, if_neg]
    · exact found'
    · rintro rfl
      exact unnamed named

theorem NoNew.reap (noNew : NoNew disk disk') (ino : ℕ) : NoNew disk (disk'.reap ino) := by
  obtain ⟨next, inodes⟩ := noNew
  unfold Disk.reap
  split
  · exact ⟨next, inodes⟩
  · refine ⟨next, fun ino' i' found => ?_⟩
    have found : (disk'.inodes.erase ino).lookup ino' = some i' := found
    rw [Table.lookup_erase] at found
    split_ifs at found
    exact inodes ino' i' found

theorem Keeps.reapNode (keeps : Keeps disk disk') (node : Option Node) :
    Keeps disk (disk'.reapNode node) := by
  unfold Disk.reapNode
  split
  · exact keeps.reap _
  · exact keeps

theorem NoNew.reapNode (noNew : NoNew disk disk') (node : Option Node) :
    NoNew disk (disk'.reapNode node) := by
  unfold Disk.reapNode
  split
  · exact noNew.reap _
  · exact noNew

/-- Freeing touches nothing but the inodes. -/
structure SameNames (disk disk' : Disk) : Prop where
  blobs : disk'.blobs = disk.blobs
  links : disk'.links = disk.links
  graves : disk'.graves = disk.graves
  trees : disk'.trees = disk.trees
  staged : disk'.staged = disk.staged
  buried : disk'.buried = disk.buried

theorem sameNames_reap (disk : Disk) (ino : ℕ) : SameNames disk (disk.reap ino) := by
  unfold Disk.reap
  split <;> exact ⟨rfl, rfl, rfl, rfl, rfl, rfl⟩

theorem sameNames_reapNode (disk : Disk) (node : Option Node) :
    SameNames disk (disk.reapNode node) := by
  unfold Disk.reapNode
  split
  · exact sameNames_reap disk _
  · exact ⟨rfl, rfl, rfl, rfl, rfl, rfl⟩

/-- The inode is the tenant's. -/
def Owned (disk : Disk) (ino : ℕ) (tenant : String) : Prop :=
  ∃ i, disk.inodes.lookup ino = some i ∧ i.tenant = tenant

/-- The file's content and mode class are the key's. -/
def Keyed (blobId : List UInt8 → String) (disk : Disk) (ino : ℕ) (key : BlobKey) : Prop :=
  ∃ i, disk.inodes.lookup ino = some i ∧ blobId i.bytes = key.id ∧ execOf i.mode = key.exec

/-- The inode is fit to be the tenant's blob of the key. -/
def Fit (blobId : List UInt8 → String) (disk : Disk) (ino : ℕ) (tenant : String) (key : BlobKey) :
    Prop :=
  ∃ i, disk.inodes.lookup ino = some i ∧ i.tenant = tenant ∧ blobId i.bytes = key.id ∧
    i.mode = key.mode

variable {blobId : List UInt8 → String} {ino : ℕ} {tenant : String} {key : BlobKey}

theorem Fit.owned (fit : Fit blobId disk ino tenant key) : Owned disk ino tenant := by
  obtain ⟨i, found, owner, -⟩ := fit
  exact ⟨i, found, owner⟩

theorem Owned.keeps (owned : Owned disk ino tenant) (keeps : Keeps disk disk')
    (named : ino ∈ disk'.names) : Owned disk' ino tenant := by
  obtain ⟨i, found, owner⟩ := owned
  obtain ⟨i', found', same⟩ := keeps ino i found named
  exact ⟨i', found', same.tenant.trans owner⟩

theorem Keyed.keeps (keyed : Keyed blobId disk ino key) (keeps : Keeps disk disk')
    (named : ino ∈ disk'.names) : Keyed blobId disk' ino key := by
  obtain ⟨i, found, id, exec⟩ := keyed
  obtain ⟨i', found', same⟩ := keeps ino i found named
  exact ⟨i', found', by rw [same.bytes, id], same.exec.trans exec⟩

theorem Fit.keeps (fit : Fit blobId disk ino tenant key) (keeps : Keeps disk disk')
    (named : ino ∈ disk'.names) : Fit blobId disk' ino tenant key := by
  obtain ⟨i, found, owner, id, mode⟩ := fit
  obtain ⟨i', found', same⟩ := keeps ino i found named
  exact ⟨i', found', same.tenant.trans owner, by rw [same.bytes, id], same.canonical key mode⟩

theorem contentOf_keeps {node : Node} (keeps : Keeps disk disk')
    (known : ∀ ino, node = .file ino → ∃ tenant, Owned disk ino tenant)
    (named : ∀ ino, node = .file ino → ino ∈ disk'.names) :
    contentOf disk'.inodes node = contentOf disk.inodes node := by
  cases node with
  | dir => rfl
  | symlink target => rfl
  | file ino =>
    obtain ⟨tenant, i, found, -⟩ := known ino rfl
    obtain ⟨i', found', same⟩ := keeps ino i found (named ino rfl)
    simp only [contentOf, found, found', Option.map_some, same.bytes, same.exec]

theorem view_keeps {d : Dir} (keeps : Keeps disk disk')
    (known : ∀ path ino, d.lookup path = some (.file ino) → ∃ tenant, Owned disk ino tenant)
    (named : ∀ path ino, d.lookup path = some (.file ino) → ino ∈ disk'.names) :
    view disk'.inodes d = view disk.inodes d := by
  funext path
  unfold view
  cases found : d.lookup path with
  | none => rfl
  | some node =>
    rw [Option.bind_some, Option.bind_some]
    refine contentOf_keeps keeps (fun ino same => ?_) fun ino same => ?_
    · subst same
      exact known path ino found
    · subst same
      exact named path ino found

end Keeping

/-! ### Between any two calls -/

/-- The file a commit has read the content of. -/
def CommitPc.keyed : CommitPc → Option (List String × BlobKey)
  | .setMode path key => some (path, key)
  | _ => none

/-- The file a commit has made fit for its blob. -/
def CommitPc.moded : CommitPc → Option (List String × BlobKey)
  | .shard path key => some (path, key)
  | .link path key => some (path, key)
  | .clearScratch path key => some (path, key)
  | .linkScratch path key => some (path, key)
  | .renameScratch path key => some (path, key)
  | .dropScratch path key _ => some (path, key)
  | .relink path key => some (path, key)
  | _ => none

/-- The file whose mode a commit has read. -/
def CommitPc.statted : CommitPc → Option (List String × Bool)
  | .blobId path exec => some (path, exec)
  | _ => none

/-- The blob behind a commit's scratch name. -/
def CommitPc.linked : CommitPc → Option BlobKey
  | .renameScratch _ key => some key
  | _ => none

/-- The blob behind a sweep's scratch name. -/
def SweepPc.moved : SweepPc → Option BlobKey
  | .restat key => some key
  | .restore key => some key
  | .drop key => some key
  | .unlink key => some key
  | _ => none

section Invariant

variable (blobId : List UInt8 → String)

/-- What a commit has staged, and what it knows of it. -/
structure CommitOk (disk : Disk) (c : ℕ) (k : Commit) : Prop where
  scratch : ∀ ino, disk.links.lookup c = some ino → Owned disk ino k.tenant ∧
    ∀ key, k.pc.linked = some key → Fit blobId disk ino k.tenant key
  files : ∀ d, disk.staged.lookup c = some d → ∀ path ino, d.lookup path = some (.file ino) →
    Owned disk ino k.tenant
  content : ∀ d, disk.staged.lookup c = some d → k.pc ≠ .discard → view disk.inodes d = k.content
  statted : ∀ d, disk.staged.lookup c = some d → ∀ path exec, k.pc.statted = some (path, exec) →
    ∃ ino i, d.lookup path = some (.file ino) ∧ disk.inodes.lookup ino = some i ∧
      execOf i.mode = exec
  keyed : ∀ d, disk.staged.lookup c = some d → ∀ path key, k.pc.keyed = some (path, key) →
    ∃ ino, d.lookup path = some (.file ino) ∧ Keyed blobId disk ino key
  moded : ∀ d, disk.staged.lookup c = some d → ∀ path key, k.pc.moded = some (path, key) →
    ∃ ino, d.lookup path = some (.file ino) ∧ Fit blobId disk ino k.tenant key

/-- What a sweep has renamed away. -/
structure SweepOk (disk : Disk) (r : ℕ) (w : Sweep) : Prop where
  graves : ∀ n ino, disk.graves.lookup (r, n) = some ino → n ≤ w.seq ∧ Owned disk ino w.tenant ∧
    ∀ key, w.pc.moved = some key → n = w.seq → Fit blobId disk ino w.tenant key
  buried : ∀ id d, disk.buried.lookup (r, id) = some d → ∀ path ino,
    d.lookup path = some (.file ino) → Owned disk ino w.tenant

/-- A commit that is not there has no name. -/
def CommitSlot (disk : Disk) (c : ℕ) : Option Commit → Prop
  | some k => CommitOk blobId disk c k
  | none => disk.links.lookup c = none ∧ disk.staged.lookup c = none

def SweepSlot (disk : Disk) (r : ℕ) : Option Sweep → Prop
  | some w => SweepOk blobId disk r w
  | none => (∀ n, disk.graves.lookup (r, n) = none) ∧ ∀ id, disk.buried.lookup (r, id) = none

/-- A visible tree holds what the commit that renamed it into place had staged. -/
def Published (s : State) (tenant id : String) (d : Dir) : Prop :=
  ∃ c k, s.publisher.lookup (tenant, id) = some c ∧ s.commits.lookup c = some k ∧
    k.tenant = tenant ∧ k.treeId = id ∧ view s.disk.inodes d = k.content

/-- The bytes are a staged file's. -/
def Staged (labels : List Label) (bytes : List UInt8) : Prop :=
  ∃ c tenant id entries path mode, Label.begin c tenant id entries ∈ labels ∧
    (path, Entry.file bytes mode) ∈ entries

/-- The commit came with a verified tree. -/
def Begun (labels : List Label) (c : ℕ) (k : Commit) : Prop :=
  ∃ entries, Label.begin c k.tenant k.treeId entries ∈ labels ∧ k.content = stagedContent entries

structure Inv (labels : List Label) (s : State) : Prop where
  blobs : ∀ tenant key ino, s.disk.blobs.lookup (tenant, key) = some ino →
    Fit blobId s.disk ino tenant key
  commits : ∀ c, CommitSlot blobId s.disk c (s.commits.lookup c)
  sweeps : ∀ r, SweepSlot blobId s.disk r (s.sweeps.lookup r)
  files : ∀ tenant id d, s.disk.trees.lookup (tenant, id) = some d → ∀ path ino,
    d.lookup path = some (.file ino) → Owned s.disk ino tenant
  trees : ∀ tenant id d, s.disk.trees.lookup (tenant, id) = some d → Published s tenant id d
  below : ∀ ino i, s.disk.inodes.lookup ino = some i → ino < s.disk.next ∧ Staged labels i.bytes
  begun : ∀ c k, s.commits.lookup c = some k → Begun labels c k

end Invariant

/-! ### What a call leaves alone -/

section Frames

variable {blobId : List UInt8 → String} {disk disk' : Disk}

theorem CommitOk.keeps {c : ℕ} {k : Commit} (ok : CommitOk blobId disk c k)
    (keeps : Keeps disk disk')
    (links : ∀ ino, disk'.links.lookup c = some ino → disk.links.lookup c = some ino)
    (staged : disk'.staged.lookup c = disk.staged.lookup c) : CommitOk blobId disk' c k where
  scratch ino found := by
    obtain ⟨owned, fit⟩ := ok.scratch ino (links ino found)
    exact ⟨owned.keeps keeps (mem_links found), fun key pc =>
      (fit key pc).keeps keeps (mem_links found)⟩
  files d found path ino file :=
    (ok.files d (staged ▸ found) path ino file).keeps keeps (mem_staged found file)
  content d found alive := by
    rw [view_keeps keeps
      (fun path ino file => ⟨_, ok.files d (staged ▸ found) path ino file⟩)
      fun path ino file => mem_staged found file]
    exact ok.content d (staged ▸ found) alive
  statted d found path exec pc := by
    obtain ⟨ino, i, file, inode, mode⟩ := ok.statted d (staged ▸ found) path exec pc
    obtain ⟨i', inode', same⟩ := keeps ino i inode (mem_staged found file)
    exact ⟨ino, i', file, inode', same.exec.trans mode⟩
  keyed d found path key pc := by
    obtain ⟨ino, file, keyed⟩ := ok.keyed d (staged ▸ found) path key pc
    exact ⟨ino, file, keyed.keeps keeps (mem_staged found file)⟩
  moded d found path key pc := by
    obtain ⟨ino, file, fit⟩ := ok.moded d (staged ▸ found) path key pc
    exact ⟨ino, file, fit.keeps keeps (mem_staged found file)⟩

theorem CommitSlot.keeps {c : ℕ} {o : Option Commit} (slot : CommitSlot blobId disk c o)
    (keeps : Keeps disk disk') (links : disk'.links.lookup c = disk.links.lookup c)
    (staged : disk'.staged.lookup c = disk.staged.lookup c) : CommitSlot blobId disk' c o := by
  cases o with
  | none => exact ⟨links.trans slot.1, staged.trans slot.2⟩
  | some k => exact CommitOk.keeps slot keeps (fun ino found => links ▸ found) staged

theorem SweepOk.keeps {r : ℕ} {w : Sweep} (ok : SweepOk blobId disk r w) (keeps : Keeps disk disk')
    (graves : ∀ n ino, disk'.graves.lookup (r, n) = some ino → disk.graves.lookup (r, n) = some ino)
    (buried : ∀ id d, disk'.buried.lookup (r, id) = some d → ∀ path ino,
      d.lookup path = some (.file ino) → ∃ d', disk.buried.lookup (r, id) = some d' ∧
        d'.lookup path = some (.file ino)) : SweepOk blobId disk' r w where
  graves n ino found := by
    obtain ⟨le, owned, fit⟩ := ok.graves n ino (graves n ino found)
    exact ⟨le, owned.keeps keeps (mem_graves found), fun key pc last =>
      (fit key pc last).keeps keeps (mem_graves found)⟩
  buried id d found path ino file := by
    obtain ⟨d', found', file'⟩ := buried id d found path ino file
    exact (ok.buried id d' found' path ino file').keeps keeps (mem_buried found file)

theorem SweepSlot.keeps {r : ℕ} {o : Option Sweep} (slot : SweepSlot blobId disk r o)
    (keeps : Keeps disk disk') (graves : ∀ n, disk'.graves.lookup (r, n) = disk.graves.lookup (r, n))
    (buried : ∀ id, disk'.buried.lookup (r, id) = disk.buried.lookup (r, id)) :
    SweepSlot blobId disk' r o := by
  cases o with
  | none => exact ⟨fun n => (graves n).trans (slot.1 n), fun id => (buried id).trans (slot.2 id)⟩
  | some w =>
    exact SweepOk.keeps slot keeps (fun n ino found => graves n ▸ found)
      fun id d found path ino file => ⟨d, buried id ▸ found, file⟩

variable {labels : List Label} {s : State}

theorem Inv.below_noNew (inv : Inv blobId labels s) (noNew : NoNew s.disk disk') (ino : ℕ)
    (i : Inode) (found : disk'.inodes.lookup ino = some i) :
    ino < disk'.next ∧ Staged labels i.bytes := by
  obtain ⟨next, inodes⟩ := noNew
  obtain ⟨i₀, found₀, bytes⟩ := inodes ino i found
  rw [next, bytes]
  exact inv.below ino i₀ found₀

/-- **A call of one commit that names nothing in a published tree.** -/
theorem Inv.commit (inv : Inv blobId labels s) {c : ℕ} {k' : Commit} {disk' : Disk}
    {commits' : Table ℕ Commit} (here : commits'.lookup c = some k')
    (others : ∀ c', c' ≠ c → commits'.lookup c' = s.commits.lookup c')
    (known : (∃ k, s.commits.lookup c = some k ∧ k'.tenant = k.tenant ∧ k'.treeId = k.treeId ∧
      k'.content = k.content) ∨ s.commits.lookup c = none ∧ Begun labels c k')
    (keeps : Keeps s.disk disk')
    (below : ∀ ino i, disk'.inodes.lookup ino = some i → ino < disk'.next ∧ Staged labels i.bytes)
    (blobs : ∀ tenant key ino, disk'.blobs.lookup (tenant, key) = some ino →
      s.disk.blobs.lookup (tenant, key) = some ino ∨ Fit blobId disk' ino tenant key)
    (trees : disk'.trees = s.disk.trees) (graves : disk'.graves = s.disk.graves)
    (buried : disk'.buried = s.disk.buried)
    (links : ∀ c', c' ≠ c → disk'.links.lookup c' = s.disk.links.lookup c')
    (stagings : ∀ c', c' ≠ c → disk'.staged.lookup c' = s.disk.staged.lookup c')
    (ok : CommitOk blobId disk' c k') :
    Inv blobId labels { s with disk := disk', commits := commits' } where
  blobs t key ino found := by
    rcases blobs t key ino found with old | fit
    · exact (inv.blobs t key ino old).keeps keeps (mem_blobs found)
    · exact fit
  commits c' := by
    show CommitSlot blobId disk' c' (commits'.lookup c')
    by_cases same : c' = c
    · subst same
      rw [here]
      exact ok
    · rw [others c' same]
      exact (inv.commits c').keeps keeps (links c' same) (stagings c' same)
  sweeps r := (inv.sweeps r).keeps keeps (fun n => by rw [graves]) fun id => by rw [buried]
  files t id d found path ino file := by
    have found' : disk'.trees.lookup (t, id) = some d := found
    exact (inv.files t id d (trees ▸ found') path ino file).keeps keeps (mem_trees found' file)
  trees t id d found := by
    have found' : disk'.trees.lookup (t, id) = some d := found
    have found : s.disk.trees.lookup (t, id) = some d := trees ▸ found'
    obtain ⟨c', k'', publisher, known', tenant', treeId', content⟩ := inv.trees t id d found
    have view' : view disk'.inodes d = k''.content := by
      rw [view_keeps keeps (fun path ino file => ⟨_, inv.files t id d found path ino file⟩)
        fun path ino file => mem_trees found' file]
      exact content
    by_cases same : c' = c
    · subst same
      rcases known with ⟨k, known, tenant, treeId, held⟩ | ⟨unknown, -⟩
      · obtain rfl := Option.some.inj (known.symm.trans known')
        exact ⟨c', k', publisher, here, tenant.trans tenant', treeId.trans treeId',
          view'.trans held.symm⟩
      · rw [unknown] at known'
        cases known'
    · exact ⟨c', k'', publisher, (others c' same).trans known', tenant', treeId', view'⟩
  below := below
  begun c' k'' found := by
    have found : commits'.lookup c' = some k'' := found
    by_cases same : c' = c
    · subst same
      obtain rfl := Option.some.inj (here.symm.trans found)
      rcases known with ⟨k, known, tenant, treeId, held⟩ | ⟨-, begun⟩
      · obtain ⟨entries, mem, content⟩ := inv.begun c' k known
        exact ⟨entries, by rw [tenant, treeId]; exact mem, held.trans content⟩
      · exact begun
    · exact inv.begun c' k'' ((others c' same).symm.trans found)

/-- **A call of one sweep.** -/
theorem Inv.sweep (inv : Inv blobId labels s) {r : ℕ} {w' : Sweep} {disk' : Disk}
    {sweeps' : Table ℕ Sweep} (here : sweeps'.lookup r = some w')
    (others : ∀ r', r' ≠ r → sweeps'.lookup r' = s.sweeps.lookup r')
    (keeps : Keeps s.disk disk') (noNew : NoNew s.disk disk')
    (blobs : ∀ tenant key ino, disk'.blobs.lookup (tenant, key) = some ino →
      s.disk.blobs.lookup (tenant, key) = some ino ∨ Fit blobId disk' ino tenant key)
    (trees : ∀ key d, disk'.trees.lookup key = some d → s.disk.trees.lookup key = some d)
    (links : disk'.links = s.disk.links) (stagings : disk'.staged = s.disk.staged)
    (graves : ∀ r' n, r' ≠ r → disk'.graves.lookup (r', n) = s.disk.graves.lookup (r', n))
    (buried : ∀ r' id, r' ≠ r → disk'.buried.lookup (r', id) = s.disk.buried.lookup (r', id))
    (ok : SweepOk blobId disk' r w') :
    Inv blobId labels { s with disk := disk', sweeps := sweeps' } where
  blobs t key ino found := by
    rcases blobs t key ino found with old | fit
    · exact (inv.blobs t key ino old).keeps keeps (mem_blobs found)
    · exact fit
  commits c := (inv.commits c).keeps keeps (by rw [links]) (by rw [stagings])
  sweeps r' := by
    show SweepSlot blobId disk' r' (sweeps'.lookup r')
    by_cases same : r' = r
    · subst same
      rw [here]
      exact ok
    · rw [others r' same]
      exact (inv.sweeps r').keeps keeps (fun n => graves r' n same) fun id => buried r' id same
  files t id d found path ino file := by
    have found' : disk'.trees.lookup (t, id) = some d := found
    exact (inv.files t id d (trees _ d found') path ino file).keeps keeps (mem_trees found' file)
  trees t id d found := by
    have found' : disk'.trees.lookup (t, id) = some d := found
    have found := trees _ d found'
    obtain ⟨c, k, publisher, known, tenant, treeId, content⟩ := inv.trees t id d found
    refine ⟨c, k, publisher, known, tenant, treeId, ?_⟩
    show view disk'.inodes d = k.content
    rw [view_keeps keeps (fun path ino file => ⟨_, inv.files t id d found path ino file⟩)
      fun path ino file => mem_trees found' file]
    exact content
  below := inv.below_noNew noNew
  begun := inv.begun

end Frames

end HullCi.Fetch.Blobs
