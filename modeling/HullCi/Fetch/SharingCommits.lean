/-
**A commit keeps what trees and blobs hold.**

A commit names in a blob only a file it has made fit for it, and renames over a staged file only a
blob of the same key; no two staged files collide, so neither changes what the staged tree holds.

* `Inv.linkBlob`, `Inv.setMode`, `Inv.linkScratch`, `Inv.renameScratch`, `Inv.publish` — the calls
  that change a name or a mode.
* `inv_commitStep` — any call of a commit.
* `inv_begin` — a verified tree is staged.
-/

import HullCi.Fetch.Sharing

namespace HullCi.Fetch.Blobs

open HullCi.Base

/-! ### The calls of a commit -/

section Commits

variable {blobId : List UInt8 → String} {labels : List Label} {s : State} {c : ℕ} {k : Commit}

theorem Inv.slot (inv : Inv blobId labels s) (known : s.commits.lookup c = some k) :
    CommitOk blobId s.disk c k := by
  have slot := inv.commits c
  rw [known] at slot
  exact slot

theorem entry_eq_some {path : List String} {node : Node} : s.entry c path = some node ↔
    ∃ d, s.disk.staged.lookup c = some d ∧ d.lookup path = some node :=
  Option.bind_eq_some_iff

theorem inode_eq_some {path : List String} {ino : ℕ} {i : Inode} :
    s.inode c path = some (ino, i) ↔ ∃ d, s.disk.staged.lookup c = some d ∧
      d.lookup path = some (.file ino) ∧ s.disk.inodes.lookup ino = some i := by
  unfold State.inode
  rw [Option.bind_eq_some_iff]
  constructor
  · rintro ⟨node, entry, found⟩
    obtain ⟨d, here, file⟩ := entry_eq_some.mp entry
    cases node with
    | dir => cases found
    | symlink target => cases found
    | file ino' =>
      obtain ⟨i', inode, same⟩ := Option.map_eq_some_iff.mp found
      cases same
      exact ⟨d, here, file, inode⟩
  · rintro ⟨d, here, file, inode⟩
    refine ⟨.file ino, entry_eq_some.mpr ⟨d, here, file⟩, ?_⟩
    show (s.disk.inodes.lookup ino).map _ = _
    rw [inode]
    rfl

/-- The commit goes on without having read or linked anything new. -/
theorem CommitOk.onward {disk : Disk} (ok : CommitOk blobId disk c k) (pc : CommitPc)
    (alive : k.pc ≠ .discard ∨ pc = .discard) (linked : pc.linked = none)
    (statted : pc.statted = none) (keyed : pc.keyed = none)
    (moded : pc.moded = none ∨ pc.moded = k.pc.moded) : CommitOk blobId disk c { k with pc := pc } where
  scratch ino found := ⟨(ok.scratch ino found).1, fun key here => by
    have here : pc.linked = some key := here
    rw [linked] at here
    cases here⟩
  files := ok.files
  content d found still := by
    rcases alive with alive | gone
    · exact ok.content d found alive
    · exact absurd gone still
  statted d found path exec here := by
    have here : pc.statted = some (path, exec) := here
    rw [statted] at here
    cases here
  keyed d found path key here := by
    have here : pc.keyed = some (path, key) := here
    rw [keyed] at here
    cases here
  moded d found path key here := by
    have here : pc.moded = some (path, key) := here
    rcases moded with none | same
    · rw [none] at here
      cases here
    · rw [same] at here
      exact ok.moded d found path key here

theorem Inv.call (inv : Inv blobId labels s) (known : s.commits.lookup c = some k) {pc : CommitPc}
    {disk' : Disk} (keeps : Keeps s.disk disk') (noNew : NoNew s.disk disk')
    (blobs : ∀ tenant key ino, disk'.blobs.lookup (tenant, key) = some ino →
      s.disk.blobs.lookup (tenant, key) = some ino ∨ Fit blobId disk' ino tenant key)
    (trees : disk'.trees = s.disk.trees) (graves : disk'.graves = s.disk.graves)
    (buried : disk'.buried = s.disk.buried)
    (links : ∀ c', c' ≠ c → disk'.links.lookup c' = s.disk.links.lookup c')
    (stagings : ∀ c', c' ≠ c → disk'.staged.lookup c' = s.disk.staged.lookup c')
    (ok : CommitOk blobId disk' c { k with pc := pc }) :
    Inv blobId labels ({ s with disk := disk' }.goto c k pc) :=
  inv.commit ((Table.lookup_insert _ _ _ _).trans (if_pos rfl))
    (fun _ other => (Table.lookup_insert _ _ _ _).trans (if_neg other))
    (.inl ⟨k, known, rfl, rfl, rfl⟩) keeps (inv.below_noNew noNew) blobs trees graves buried links stagings ok

theorem Inv.goto (inv : Inv blobId labels s) (known : s.commits.lookup c = some k) {pc : CommitPc}
    (ok : CommitOk blobId s.disk c { k with pc := pc }) : Inv blobId labels (s.goto c k pc) :=
  inv.call known (keeps_same rfl) (noNew_same rfl rfl) (fun _ _ _ found => .inl found) rfl rfl rfl
    (fun _ _ => rfl) (fun _ _ => rfl) ok

theorem unlinkScratch_links (disk : Disk) (c c' : ℕ) : (disk.unlinkScratch c).links.lookup c' =
    if c' = c then none else disk.links.lookup c' := by
  unfold Disk.unlinkScratch
  cases found : disk.links.lookup c with
  | none =>
    split_ifs with same
    · rw [same]
      exact found
    · rfl
  | some ino =>
    show (Disk.reap _ _).links.lookup c' = _
    rw [(sameNames_reap _ _).links]
    exact Table.lookup_erase _ _ _

/-- Unlinking a scratch name touches nothing that has another name. -/
theorem unlinkScratch_rest (disk : Disk) (c : ℕ) : Keeps disk (disk.unlinkScratch c) ∧
    NoNew disk (disk.unlinkScratch c) ∧ (disk.unlinkScratch c).blobs = disk.blobs ∧
    (disk.unlinkScratch c).trees = disk.trees ∧ (disk.unlinkScratch c).graves = disk.graves ∧
    (disk.unlinkScratch c).staged = disk.staged ∧ (disk.unlinkScratch c).buried = disk.buried := by
  unfold Disk.unlinkScratch
  cases disk.links.lookup c with
  | none => exact ⟨keeps_same rfl, noNew_same rfl rfl, rfl, rfl, rfl, rfl, rfl⟩
  | some ino =>
    have keeps : Keeps disk { disk with links := disk.links.erase c } := keeps_same rfl
    have noNew : NoNew disk { disk with links := disk.links.erase c } := noNew_same rfl rfl
    have same := sameNames_reap { disk with links := disk.links.erase c } ino
    exact ⟨keeps.reap ino, noNew.reap ino, same.blobs, same.trees, same.graves, same.staged,
      same.buried⟩

theorem Inv.unscratch (inv : Inv blobId labels s) (known : s.commits.lookup c = some k) (done : Bool)
    {pc : CommitPc} (ok : CommitOk blobId s.disk c { k with pc := pc }) :
    Inv blobId labels
      ({ s with disk := if done then s.disk.unlinkScratch c else s.disk }.goto c k pc) := by
  cases done with
  | false => exact inv.goto known ok
  | true =>
    obtain ⟨keeps, noNew, blobs, trees, graves, stagings, buried⟩ := unlinkScratch_rest s.disk c
    have links : ∀ c', c' ≠ c → (s.disk.unlinkScratch c).links.lookup c' = s.disk.links.lookup c' :=
      fun c' other => by rw [unlinkScratch_links, if_neg other]
    have ok' : CommitOk blobId (s.disk.unlinkScratch c) c { k with pc := pc } := by
      refine ok.keeps keeps (fun ino found => ?_) (by rw [stagings])
      rw [unlinkScratch_links, if_pos rfl] at found
      cases found
    have rest : ∀ c', c' ≠ c → (s.disk.unlinkScratch c).staged.lookup c' = s.disk.staged.lookup c' :=
      fun c' _ => by rw [stagings]
    exact inv.call known keeps noNew (fun t key ino found => .inl (blobs ▸ found)) trees graves
      buried links rest ok'

theorem Inv.linkBlob (inv : Inv blobId labels s) (known : s.commits.lookup c = some k)
    {path : List String} {key : BlobKey} (moded : k.pc.moded = some (path, key)) {disk' : Disk}
    {taken : Bool} (links : s.linkBlob c k path key = some (disk', taken)) {pc : CommitPc}
    (ok : CommitOk blobId s.disk c { k with pc := pc }) :
    Inv blobId labels ({ s with disk := disk' }.goto c k pc) := by
  obtain ⟨⟨ino, i⟩, here, made⟩ := Option.map_eq_some_iff.mp links
  obtain ⟨d, found, file, -⟩ := inode_eq_some.mp here
  obtain ⟨ino', file', fit⟩ := (inv.slot known).moded d found path key moded
  rw [file, Option.some.injEq, Node.file.injEq] at file'
  subst file'
  cases blob : s.disk.blobs.lookup (k.tenant, key) with
  | some other =>
    rw [blob] at made
    cases made
    exact inv.goto known ok
  | none =>
    rw [blob] at made
    cases made
    refine inv.call known (keeps_same rfl) (noNew_same rfl rfl) (fun t key' ino' found => ?_) rfl rfl
      rfl (fun _ _ => rfl) (fun _ _ => rfl) (ok.keeps (keeps_same rfl) (fun _ found => found) rfl)
    have found : (s.disk.blobs.insert (k.tenant, key) ino).lookup (t, key') = some ino' := found
    rw [Table.lookup_insert] at found
    split_ifs at found with same
    · obtain rfl := Option.some.inj found
      obtain ⟨rfl, rfl⟩ := Prod.mk.inj same
      exact .inr fit
    · exact .inl found

/-- Making a file fit for its blob changes neither its bytes nor its mode class. -/
theorem keeps_chmod {disk : Disk} {ino : ℕ} {i : Inode} {key : BlobKey}
    (inode : disk.inodes.lookup ino = some i) (exec : execOf i.mode = key.exec) :
    Keeps disk (disk.chmod ino i key.mode) := by
  intro ino' i' old _
  show ∃ i'', (disk.inodes.insert ino _).lookup ino' = some i'' ∧ _
  rw [Table.lookup_insert]
  by_cases same : ino' = ino
  · subst same
    obtain rfl := Option.some.inj (inode.symm.trans old)
    refine ⟨_, if_pos rfl, rfl, rfl, by rw [execOf_mode, exec], fun key' mode => ?_⟩
    have class' : key.exec = key'.exec := by rw [← exec, mode, execOf_mode]
    show key.mode = key'.mode
    unfold BlobKey.mode
    rw [class']
  · exact ⟨i', by rw [if_neg same]; exact old, .refl i'⟩

theorem noNew_chmod {disk : Disk} {ino : ℕ} {i : Inode} (mode : ℕ)
    (inode : disk.inodes.lookup ino = some i) : NoNew disk (disk.chmod ino i mode) := by
  refine ⟨rfl, fun ino' i' new => ?_⟩
  have new : (disk.inodes.insert ino { i with mode := mode }).lookup ino' = some i' := new
  rw [Table.lookup_insert] at new
  split_ifs at new with same
  · obtain rfl := Option.some.inj new
    exact ⟨i, same ▸ inode, rfl⟩
  · exact ⟨i', new, rfl⟩

theorem Inv.setMode (inv : Inv blobId labels s) (known : s.commits.lookup c = some k)
    {path : List String} {key : BlobKey} (pc : k.pc = .setMode path key) {ino : ℕ} {i : Inode}
    (here : s.inode c path = some (ino, i)) :
    Inv blobId labels
      ({ s with disk := s.disk.chmod ino i key.mode }.goto c k (.shard path key)) := by
  have ok := inv.slot known
  obtain ⟨d, found, file, inode⟩ := inode_eq_some.mp here
  obtain ⟨ino', file', i', inode', id, exec⟩ := ok.keyed d found path key (by rw [pc]; rfl)
  rw [file, Option.some.injEq, Node.file.injEq] at file'
  subst file'
  obtain rfl := Option.some.inj (inode.symm.trans inode')
  obtain ⟨i', inode', owner⟩ := ok.files d found path ino file
  obtain rfl := Option.some.inj (inode.symm.trans inode')
  have keeps := keeps_chmod inode exec
  have kept : CommitOk blobId (s.disk.chmod ino i key.mode) c k :=
    ok.keeps keeps (fun _ same => same) rfl
  have shard : CommitOk blobId (s.disk.chmod ino i key.mode) c { k with pc := .shard path key } :=
    { scratch := fun ino' link => ⟨(kept.scratch ino' link).1, nofun⟩
      files := kept.files
      content := fun d' found' _ => kept.content d' found' (by rw [pc]; exact nofun)
      statted := nofun
      keyed := nofun
      moded := fun d' found' path' key' same => by
        obtain ⟨rfl, rfl⟩ := Prod.mk.inj (Option.some.inj same)
        obtain rfl := Option.some.inj (found.symm.trans found')
        exact ⟨ino, file, _, (Table.lookup_insert _ _ _ _).trans (if_pos rfl), owner, id, rfl⟩ }
  exact inv.call known keeps (noNew_chmod _ inode) (fun _ _ _ old => .inl old) rfl rfl rfl
    (fun _ _ => rfl) (fun _ _ => rfl) shard

theorem Inv.linkScratch (inv : Inv blobId labels s) (known : s.commits.lookup c = some k)
    {path : List String} {key : BlobKey} (pc : k.pc = .linkScratch path key) {ino : ℕ}
    (blob : s.disk.blobs.lookup (k.tenant, key) = some ino) :
    Inv blobId labels ({ s with disk := { s.disk with links := s.disk.links.insert c ino } }.goto c k
      (.renameScratch path key)) := by
  have ok := inv.slot known
  have fit := inv.blobs k.tenant key ino blob
  have linked : CommitOk blobId { s.disk with links := s.disk.links.insert c ino } c
      { k with pc := .renameScratch path key } :=
    { scratch := fun ino' link => by
        obtain rfl := Option.some.inj
          (((Table.lookup_insert s.disk.links c ino c).trans (if_pos rfl)).symm.trans link)
        refine ⟨fit.owned, fun key' same => ?_⟩
        obtain rfl := Option.some.inj same
        exact fit
      files := ok.files
      content := fun d found _ => ok.content d found (by rw [pc]; exact nofun)
      statted := nofun
      keyed := nofun
      moded := fun d found path' key' same => ok.moded d found path' key' (by rw [pc]; exact same) }
  exact inv.call known (keeps_same rfl) (noNew_same rfl rfl) (fun _ _ _ old => .inl old) rfl rfl rfl
    (fun _ other => (Table.lookup_insert _ _ _ _).trans (if_neg other)) (fun _ _ => rfl) linked

/-- No two staged files that differ have the same content address. -/
def Distinct (blobId : List UInt8 → String) (labels : List Label) : Prop :=
  ∀ b b', Staged labels b → Staged labels b' → blobId b = blobId b' → b = b'

theorem Inv.same_content (inv : Inv blobId labels s) (distinct : Distinct blobId labels)
    {ino ino' : ℕ} {tenant tenant' : String} {key : BlobKey} (fit : Fit blobId s.disk ino tenant key)
    (fit' : Fit blobId s.disk ino' tenant' key) :
    contentOf s.disk.inodes (.file ino) = contentOf s.disk.inodes (.file ino') := by
  obtain ⟨i, found, -, id, mode⟩ := fit
  obtain ⟨i', found', -, id', mode'⟩ := fit'
  have bytes : i.bytes = i'.bytes :=
    distinct i.bytes i'.bytes (inv.below ino i found).2 (inv.below ino' i' found').2 (id.trans id'.symm)
  simp only [contentOf, found, found', Option.map_some, bytes, mode, mode']

/-- The directory holds the same with a file in place of one of the same content. -/
theorem view_replace {inodes : Table ℕ Inode} {d : Dir} {path : List String} {ino ino₀ : ℕ}
    (file : d.lookup path = some (.file ino₀))
    (same : contentOf inodes (.file ino) = contentOf inodes (.file ino₀)) :
    view inodes (d.insert path (.file ino)) = view inodes d := by
  funext path'
  unfold view
  rw [Table.lookup_insert]
  split_ifs with here
  · rw [here, file, Option.bind_some, Option.bind_some, same]
  · rfl

/-- The scratch name is renamed over an entry of the staged tree. -/
theorem Inv.replace (inv : Inv blobId labels s) (known : s.commits.lookup c = some k) {d : Dir}
    (owned : ∀ path ino, d.lookup path = some (.file ino) → Owned s.disk ino k.tenant)
    (held : view s.disk.inodes d = k.content) (old : Option Node) :
    Inv blobId labels ({ s with disk := Disk.reapNode { s.disk with
      links := s.disk.links.erase c
      staged := s.disk.staged.insert c d } old }.goto c k .walk) := by
  generalize moved : ({ s.disk with
    links := s.disk.links.erase c
    staged := s.disk.staged.insert c d } : Disk) = disk
  have keeps : Keeps s.disk disk := by rw [← moved]; exact keeps_same rfl
  have keeps := keeps.reapNode old
  have noNew : NoNew s.disk disk := by rw [← moved]; exact noNew_same rfl rfl
  have names := sameNames_reapNode disk old
  have links : ∀ c', (disk.reapNode old).links.lookup c' =
      if c' = c then none else s.disk.links.lookup c' := fun c' => by
    rw [names.links, ← moved]
    exact Table.lookup_erase _ _ _
  have stagings : ∀ c', (disk.reapNode old).staged.lookup c' =
      if c' = c then some d else s.disk.staged.lookup c' := fun c' => by
    rw [names.staged, ← moved]
    exact Table.lookup_insert _ _ _ _
  have stays : ∀ path ino, d.lookup path = some (.file ino) → ino ∈ (disk.reapNode old).names :=
    fun path ino file => mem_staged ((stagings c).trans (if_pos rfl)) file
  have walk : CommitOk blobId (disk.reapNode old) c { k with pc := .walk } :=
    { scratch := fun ino link => by
        rw [links, if_pos rfl] at link
        cases link
      files := fun d' found path ino file => by
        rw [stagings, if_pos rfl] at found
        obtain rfl := Option.some.inj found
        exact (owned path ino file).keeps keeps (stays path ino file)
      content := fun d' found _ => by
        rw [stagings, if_pos rfl] at found
        obtain rfl := Option.some.inj found
        rw [view_keeps keeps (fun path ino file => ⟨_, owned path ino file⟩) stays]
        exact held
      statted := nofun
      keyed := nofun
      moded := nofun }
  exact inv.call known keeps (noNew.reapNode old)
    (fun t key ino found => .inl (by rw [names.blobs, ← moved] at found; exact found))
    (by rw [names.trees, ← moved]) (by rw [names.graves, ← moved]) (by rw [names.buried, ← moved])
    (fun c' other => by rw [links, if_neg other]) (fun c' other => by rw [stagings, if_neg other])
    walk

/-- **A blob renamed over a staged file holds what the file held.** -/
theorem Inv.renameScratch (inv : Inv blobId labels s) (distinct : Distinct blobId labels)
    (known : s.commits.lookup c = some k) {path : List String} {key : BlobKey}
    (pc : k.pc = .renameScratch path key) {disk' : Disk}
    (renamed : s.disk.renameScratch c path = some disk') :
    Inv blobId labels ({ s with disk := disk' }.goto c k .walk) := by
  have ok := inv.slot known
  unfold Disk.renameScratch at renamed
  cases link : s.disk.links.lookup c with
  | none =>
    rw [link] at renamed
    cases renamed
  | some ino =>
    cases found : s.disk.staged.lookup c with
    | none =>
      rw [link, found] at renamed
      cases renamed
    | some d =>
      simp only [link, found] at renamed
      split_ifs at renamed with same
      · obtain rfl := Option.some.inj renamed
        exact inv.goto known (ok.onward .walk (.inl (by rw [pc]; exact nofun)) rfl rfl rfl (.inl rfl))
      · obtain rfl := Option.some.inj renamed
        obtain ⟨-, fit⟩ := ok.scratch ino link
        have fit := fit key (by rw [pc]; rfl)
        obtain ⟨ino₀, file₀, fit₀⟩ := ok.moded d found path key (by rw [pc]; rfl)
        have owned : ∀ path' ino', (d.insert path (.file ino)).lookup path' = some (.file ino') →
            Owned s.disk ino' k.tenant := by
          intro path' ino' file
          rw [Table.lookup_insert] at file
          split_ifs at file with here
          · cases file
            exact fit.owned
          · exact ok.files d found path' ino' file
        have held : view s.disk.inodes (d.insert path (.file ino)) = k.content :=
          (view_replace file₀ (inv.same_content distinct fit fit₀)).trans
            (ok.content d found (by rw [pc]; exact nofun))
        exact inv.replace known owned held (d.lookup path)

/-- **What a commit renames into place holds what it had staged.** -/
theorem Inv.publish (inv : Inv blobId labels s) (known : s.commits.lookup c = some k)
    (pc : k.pc = .rename) {d : Dir} (found : s.disk.staged.lookup c = some d) :
    Inv blobId labels ({ s with
      disk := { s.disk with
        staged := s.disk.staged.erase c
        trees := s.disk.trees.insert (k.tenant, k.treeId) d }
      publisher := s.publisher.insert (k.tenant, k.treeId) c }.goto c k .done) := by
  have ok := inv.slot known
  have gone : ∀ c', (s.disk.staged.erase c).lookup c' =
      if c' = c then none else s.disk.staged.lookup c' := Table.lookup_erase _ _
  have commits : ∀ c', (s.commits.insert c { k with pc := .done }).lookup c' =
      if c' = c then some { k with pc := .done } else s.commits.lookup c' :=
    Table.lookup_insert _ _ _
  refine
    { blobs := inv.blobs
      commits := fun c' => ?_
      sweeps := fun r => (inv.sweeps r).keeps (keeps_same rfl) (fun _ => rfl) fun _ => rfl
      files := fun t id d' here => ?_
      trees := fun t id d' here => ?_
      below := inv.below
      begun := fun c' k' here => ?_ }
  · show CommitSlot blobId _ c' ((s.commits.insert c { k with pc := .done }).lookup c')
    rw [commits]
    split_ifs with same
    · subst same
      have empty : ∀ d', (s.disk.staged.erase c').lookup c' ≠ some d' := fun d' here => by
        rw [gone, if_pos rfl] at here
        cases here
      exact
        { scratch := fun ino link => ⟨(ok.scratch ino link).1, nofun⟩
          files := fun d' here => absurd here (empty d')
          content := fun d' here => absurd here (empty d')
          statted := nofun
          keyed := nofun
          moded := nofun }
    · exact (inv.commits c').keeps (keeps_same rfl) rfl ((gone c').trans (if_neg same))
  · have here : (s.disk.trees.insert (k.tenant, k.treeId) d).lookup (t, id) = some d' := here
    rw [Table.lookup_insert] at here
    split_ifs at here with same
    · obtain rfl := Option.some.inj here
      obtain ⟨rfl, rfl⟩ := Prod.mk.inj same
      exact ok.files d found
    · exact inv.files t id d' here
  · have here : (s.disk.trees.insert (k.tenant, k.treeId) d).lookup (t, id) = some d' := here
    rw [Table.lookup_insert] at here
    split_ifs at here with same
    · obtain rfl := Option.some.inj here
      obtain ⟨rfl, rfl⟩ := Prod.mk.inj same
      exact ⟨c, { k with pc := .done }, (Table.lookup_insert _ _ _ _).trans (if_pos rfl),
        (commits c).trans (if_pos rfl), rfl, rfl, ok.content d found (by rw [pc]; exact nofun)⟩
    · obtain ⟨c', k', publisher, known', tenant, treeId, content⟩ := inv.trees t id d' here
      have publisher' : (s.publisher.insert (k.tenant, k.treeId) c).lookup (t, id) = some c' :=
        (Table.lookup_insert _ _ _ _).trans ((if_neg same).trans publisher)
      by_cases mine : c' = c
      · subst mine
        obtain rfl := Option.some.inj (known.symm.trans known')
        exact ⟨c', { k with pc := .done }, publisher', (commits c').trans (if_pos rfl), tenant,
          treeId, content⟩
      · exact ⟨c', k', publisher', (commits c').trans ((if_neg mine).trans known'), tenant, treeId,
          content⟩
  · have here : (s.commits.insert c { k with pc := .done }).lookup c' = some k' := here
    rw [commits] at here
    split_ifs at here with same
    · obtain rfl := Option.some.inj here
      subst same
      exact inv.begun c' k known
    · exact inv.begun c' k' here

theorem Inv.stat (inv : Inv blobId labels s) (known : s.commits.lookup c = some k)
    (alive : k.pc ≠ .discard) {path : List String} {ino : ℕ} {i : Inode}
    (here : s.inode c path = some (ino, i)) :
    Inv blobId labels (s.goto c k (.blobId path (execOf i.mode))) := by
  have ok := inv.slot known
  obtain ⟨d, found, file, inode⟩ := inode_eq_some.mp here
  refine inv.goto known
    { scratch := fun ino' link => ⟨(ok.scratch ino' link).1, nofun⟩
      files := ok.files
      content := fun d' found' _ => ok.content d' found' alive
      statted := fun d' found' path' exec same => ?_
      keyed := nofun
      moded := nofun }
  obtain ⟨rfl, rfl⟩ := Prod.mk.inj (Option.some.inj same)
  obtain rfl := Option.some.inj (found.symm.trans found')
  exact ⟨ino, i, file, inode, rfl⟩

theorem Inv.readContent (inv : Inv blobId labels s) (known : s.commits.lookup c = some k)
    {path : List String} {exec : Bool} (pc : k.pc = .blobId path exec) {ino : ℕ} {i : Inode}
    (here : s.inode c path = some (ino, i)) :
    Inv blobId labels (s.goto c k (.setMode path ⟨blobId i.bytes, exec⟩)) := by
  have ok := inv.slot known
  obtain ⟨d, found, file, inode⟩ := inode_eq_some.mp here
  obtain ⟨ino', i', file', inode', mode⟩ := ok.statted d found path exec (by rw [pc]; rfl)
  rw [file, Option.some.injEq, Node.file.injEq] at file'
  subst file'
  obtain rfl := Option.some.inj (inode.symm.trans inode')
  refine inv.goto known
    { scratch := fun ino' link => ⟨(ok.scratch ino' link).1, nofun⟩
      files := ok.files
      content := fun d' found' _ => ok.content d' found' (by rw [pc]; exact nofun)
      statted := nofun
      keyed := fun d' found' path' key same => ?_
      moded := nofun }
  obtain ⟨rfl, rfl⟩ := Prod.mk.inj (Option.some.inj same)
  obtain rfl := Option.some.inj (found.symm.trans found')
  exact ⟨ino, file, i, inode, rfl, mode⟩

/-- **One call of a commit.** -/
theorem inv_commitStep (inv : Inv blobId labels s) (distinct : Distinct blobId labels)
    (known : s.commits.lookup c = some k) (done : Bool) :
    Inv blobId labels (s.commitStep blobId c k done) := by
  have ok := inv.slot known
  have discard : Inv blobId labels (s.goto c k .discard) :=
    inv.goto known (ok.onward .discard (.inr rfl) rfl rfl rfl (.inl rfl))
  have onward : ∀ pc : CommitPc, k.pc ≠ .discard → pc.linked = none → pc.statted = none →
      pc.keyed = none → (pc.moded = none ∨ pc.moded = k.pc.moded) →
      CommitOk blobId s.disk c { k with pc := pc } :=
    fun pc alive => ok.onward pc (.inl alive)
  unfold State.commitStep
  cases pc : k.pc with
  | isDir =>
    have walk := onward .walk (by rw [pc]; exact nofun) rfl rfl rfl (.inl rfl)
    dsimp only
    split_ifs
    · exact discard
    · exact inv.goto known walk
  | walk => exact inv
  | stat path =>
    have alive : k.pc ≠ .discard := by rw [pc]; exact nofun
    dsimp only
    split
    · split
      · rename_i here
        exact inv.stat known alive here
      · exact discard
    · exact inv.goto known (onward .walk alive rfl rfl rfl (.inl rfl))
    · exact discard
  | blobId path exec =>
    dsimp only
    split
    · rename_i here
      exact inv.readContent known pc here
    · exact discard
  | setMode path key =>
    dsimp only
    split
    · rename_i here
      exact inv.setMode known pc here
    · exact discard
  | shard path key =>
    have link := onward (.link path key) (by rw [pc]; exact nofun) rfl rfl rfl (.inr (by rw [pc]; rfl))
    dsimp only
    split_ifs
    · exact inv.goto known link
    · exact discard
  | link path key =>
    have alive : k.pc ≠ .discard := by rw [pc]; exact nofun
    have walk := onward .walk alive rfl rfl rfl (.inl rfl)
    have scratch := onward (.clearScratch path key) alive rfl rfl rfl (.inr (by rw [pc]; rfl))
    dsimp only
    split
    · rename_i links
      refine inv.linkBlob known (by rw [pc]; rfl) links ?_
      split_ifs
      · exact scratch
      · exact walk
    · exact inv.goto known walk
  | clearScratch path key =>
    exact inv.unscratch known done
      (onward _ (by rw [pc]; exact nofun) rfl rfl rfl (.inr (by rw [pc]; rfl)))
  | linkScratch path key =>
    have drop : ∀ missing, CommitOk blobId s.disk c { k with pc := .dropScratch path key missing } :=
      fun missing => onward _ (by rw [pc]; exact nofun) rfl rfl rfl (.inr (by rw [pc]; rfl))
    dsimp only
    split
    · rename_i blob
      split_ifs
      · exact inv.goto known (drop false)
      · exact inv.linkScratch known pc blob
    · exact inv.goto known (drop true)
    · exact inv.goto known (drop false)
  | renameScratch path key =>
    have drop : ∀ missing, CommitOk blobId s.disk c { k with pc := .dropScratch path key missing } :=
      fun missing => onward _ (by rw [pc]; exact nofun) rfl rfl rfl (.inr (by rw [pc]; rfl))
    dsimp only
    split_ifs
    · split
      · rename_i renamed
        exact inv.renameScratch distinct known pc renamed
      · exact inv.goto known (drop true)
    · exact inv.goto known (drop false)
  | dropScratch path key missing =>
    have alive : k.pc ≠ .discard := by rw [pc]; exact nofun
    have walk := onward .walk alive rfl rfl rfl (.inl rfl)
    have relink := onward (.relink path key) alive rfl rfl rfl (.inr (by rw [pc]; rfl))
    refine inv.unscratch known done ?_
    split_ifs
    · exact relink
    · exact walk
  | relink path key =>
    have walk := onward .walk (by rw [pc]; exact nofun) rfl rfl rfl (.inl rfl)
    dsimp only
    split
    · rename_i links
      exact inv.linkBlob known (by rw [pc]; rfl) links walk
    · exact inv.goto known walk
  | lastScratch =>
    exact inv.unscratch known done (onward _ (by rw [pc]; exact nofun) rfl rfl rfl (.inl rfl))
  | parent =>
    have rename := onward .rename (by rw [pc]; exact nofun) rfl rfl rfl (.inl rfl)
    dsimp only
    split_ifs
    · exact inv.goto known rename
    · exact discard
  | rename =>
    dsimp only
    split
    · rename_i found
      split_ifs
      · exact inv.publish known pc found
      · exact discard
    · exact discard
  | discard => exact inv
  | done => exact inv

end Commits

/-! ### A verified tree is staged -/

section Staging

variable {disk : Disk} {tenant : String} {labels : List Label}

/-- What a staging directory holds while the entries of an archive are written into it. -/
structure Staging (disk : Disk) (tenant : String) (labels : List Label)
    (at' : Table ℕ Inode × ℕ × Dir) : Prop where
  keeps : ∀ ino i, disk.inodes.lookup ino = some i → at'.1.lookup ino = some i
  below : ∀ ino i, at'.1.lookup ino = some i → ino < at'.2.1 ∧ Staged labels i.bytes
  files : ∀ path ino, at'.2.2.lookup path = some (.file ino) →
    ∃ i, at'.1.lookup ino = some i ∧ i.tenant = tenant

theorem Staging.stageOne {at' : Table ℕ Inode × ℕ × Dir} (ok : Staging disk tenant labels at')
    (e : List String × Entry)
    (known : ∀ bytes mode, e.2 = .file bytes mode → Staged labels bytes) :
    Staging disk tenant labels (stageOne tenant at' e) := by
  obtain ⟨path, entry⟩ := e
  have fresh : at'.1.lookup at'.2.1 = none := by
    cases found : at'.1.lookup at'.2.1 with
    | none => rfl
    | some i => exact absurd (ok.below _ i found).1 (lt_irrefl _)
  have flat : ∀ node, (∀ ino, node ≠ Node.file ino) →
      Staging disk tenant labels (at'.1, at'.2.1, at'.2.2.insert path node) := by
    intro node other
    refine ⟨ok.keeps, ok.below, fun path' ino found => ?_⟩
    have found : (at'.2.2.insert path node).lookup path' = some (.file ino) := found
    rw [Table.lookup_insert] at found
    split_ifs at found
    · exact absurd (Option.some.inj found) (other ino)
    · exact ok.files path' ino found
  cases entry with
  | dir => exact flat .dir nofun
  | symlink target => exact flat (.symlink target) nofun
  | file bytes mode =>
    have inodes : ∀ ino, (at'.1.insert at'.2.1 ⟨bytes, mode, tenant⟩).lookup ino =
        if ino = at'.2.1 then some ⟨bytes, mode, tenant⟩ else at'.1.lookup ino :=
      Table.lookup_insert _ _ _
    have stays : ∀ ino i, at'.1.lookup ino = some i →
        (at'.1.insert at'.2.1 ⟨bytes, mode, tenant⟩).lookup ino = some i := by
      intro ino i found
      rw [inodes, if_neg]
      · exact found
      · rintro rfl
        rw [fresh] at found
        cases found
    refine ⟨fun ino i found => stays ino i (ok.keeps ino i found), fun ino i found => ?_,
      fun path' ino found => ?_⟩
    · have found := (inodes ino).symm.trans found
      split_ifs at found with same
      · obtain rfl := Option.some.inj found
        exact ⟨same ▸ Nat.lt_succ_self _, known bytes mode rfl⟩
      · obtain ⟨lt, staged⟩ := ok.below ino i found
        exact ⟨Nat.lt_succ_of_lt lt, staged⟩
    · have found : (at'.2.2.insert path (.file at'.2.1)).lookup path' = some (.file ino) := found
      rw [Table.lookup_insert] at found
      split_ifs at found
      · cases found
        exact ⟨_, (inodes _).trans (if_pos rfl), rfl⟩
      · obtain ⟨i, inode, owner⟩ := ok.files path' ino found
        exact ⟨i, stays ino i inode, owner⟩

theorem Staging.view_stageOne {at' : Table ℕ Inode × ℕ × Dir} (ok : Staging disk tenant labels at')
    (e : List String × Entry) (path : List String) :
    view (Blobs.stageOne tenant at' e).1 (Blobs.stageOne tenant at' e).2.2 path =
      if e.1 = path then some e.2.content else view at'.1 at'.2.2 path := by
  obtain ⟨path', entry⟩ := e
  unfold view
  cases entry with
  | dir =>
    show ((at'.2.2.insert path' .dir).lookup path).bind _ = _
    rw [Table.lookup_insert]
    by_cases same : path = path'
    · rw [if_pos same, if_pos same.symm]
      rfl
    · rw [if_neg same, if_neg fun eq => same eq.symm]
      rfl
  | symlink target =>
    show ((at'.2.2.insert path' (.symlink target)).lookup path).bind _ = _
    rw [Table.lookup_insert]
    by_cases same : path = path'
    · rw [if_pos same, if_pos same.symm]
      rfl
    · rw [if_neg same, if_neg fun eq => same eq.symm]
      rfl
  | file bytes mode =>
    show ((at'.2.2.insert path' (.file at'.2.1)).lookup path).bind
      (contentOf (at'.1.insert at'.2.1 ⟨bytes, mode, tenant⟩)) = _
    rw [Table.lookup_insert]
    by_cases same : path = path'
    · rw [if_pos same, if_pos same.symm, Option.bind_some, contentOf, Table.lookup_insert, if_pos rfl]
      rfl
    · rw [if_neg same, if_neg fun eq => same eq.symm]
      cases found : at'.2.2.lookup path with
      | none => rfl
      | some node =>
        rw [Option.bind_some, Option.bind_some]
        cases node with
        | dir => rfl
        | symlink target => rfl
        | file ino =>
          obtain ⟨i, inode, -⟩ := ok.files path ino found
          have lt := (ok.below ino i inode).1
          rw [contentOf, contentOf, Table.lookup_insert, if_neg (Nat.ne_of_lt lt)]

/-- **All entries.** -/
theorem Staging.foldl (entries : List (List String × Entry)) :
    ∀ {at' : Table ℕ Inode × ℕ × Dir}, Staging disk tenant labels at' →
      (∀ path bytes mode, (path, Entry.file bytes mode) ∈ entries → Staged labels bytes) →
      Staging disk tenant labels (entries.foldl (Blobs.stageOne tenant) at') ∧
      ∀ path, view (entries.foldl (Blobs.stageOne tenant) at').1
          (entries.foldl (Blobs.stageOne tenant) at').2.2 path =
        entries.foldl (fun held e => if e.1 = path then some e.2.content else held)
          (view at'.1 at'.2.2 path) := by
  induction entries with
  | nil => exact fun ok _ => ⟨ok, fun _ => rfl⟩
  | cons e entries ih =>
    intro at' ok known
    have one := ok.stageOne e fun bytes mode same =>
      known e.1 bytes mode (List.mem_cons.mpr (.inl (Prod.ext rfl same.symm)))
    obtain ⟨all, views⟩ := ih one fun path bytes mode mem =>
      known path bytes mode (List.mem_cons_of_mem e mem)
    refine ⟨all, fun path => ?_⟩
    rw [List.foldl_cons, List.foldl_cons, views, ok.view_stageOne]

variable {blobId : List UInt8 → String} {s : State}

/-- **A tree that is staged holds what its archive says, in inodes of its own.** -/
theorem inv_begin (inv : Inv blobId labels s) {c : ℕ} {treeId : String}
    {entries : List (List String × Entry)} (mem : .begin c tenant treeId entries ∈ labels) :
    Inv blobId labels (step blobId s (.begin c tenant treeId entries)) := by
  cases known : s.commits.lookup c with
  | some k =>
    simp only [step, known]
    exact inv
  | none =>
    simp only [step, known]
    have slot := inv.commits c
    rw [known] at slot
    obtain ⟨unlinked, -⟩ := slot
    have start : Staging s.disk tenant labels (s.disk.inodes, s.disk.next, ∅) :=
      ⟨fun _ _ found => found, inv.below, fun path ino found => by cases found⟩
    obtain ⟨ok, views⟩ := start.foldl entries fun path bytes mode here =>
      ⟨c, tenant, treeId, entries, path, mode, mem, here⟩
    generalize entries.foldl (stageOne tenant) (s.disk.inodes, s.disk.next, ∅) = at' at ok views
    obtain ⟨inodes, next, d⟩ := at'
    have keeps : Keeps s.disk { s.disk with
        inodes := inodes, next := next, staged := s.disk.staged.insert c d } :=
      fun ino i found _ => ⟨i, ok.keeps ino i found, .refl i⟩
    have mine : (s.disk.staged.insert c d).lookup c = some d :=
      (Table.lookup_insert _ _ _ _).trans (if_pos rfl)
    refine inv.commit ((Table.lookup_insert _ _ _ _).trans (if_pos rfl))
      (fun _ other => (Table.lookup_insert _ _ _ _).trans (if_neg other))
      (.inr ⟨known, entries, mem, rfl⟩) keeps ok.below (fun _ _ _ found => .inl found) rfl rfl rfl
      (fun _ _ => rfl) (fun _ other => (Table.lookup_insert _ _ _ _).trans (if_neg other)) ?_
    exact
      { scratch := fun ino link => by
          have link : s.disk.links.lookup c = some ino := link
          rw [unlinked] at link
          cases link
        files := fun d' found => by
          obtain rfl := Option.some.inj (mine.symm.trans found)
          exact ok.files
        content := fun d' found _ => by
          obtain rfl := Option.some.inj (mine.symm.trans found)
          exact funext views
        statted := nofun
        keyed := nofun
        moded := nofun }

end Staging

end HullCi.Fetch.Blobs
