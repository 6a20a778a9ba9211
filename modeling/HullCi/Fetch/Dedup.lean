/-
**Sharing blobs: names, inodes, and the calls that commits and sweeps make on them.**

A disk has inodes and names for them: blobs, scratch names, and the files of trees that are staged,
published or being deleted. A file's bytes are never written again once it is staged; a name is
linked, renamed or unlinked, and an inode that no name refers to is freed. Every file-system call is
one step of the commit or sweep it belongs to, and may fail.

* `Disk` — the names and inodes of all tenants, and the calls.
* `CommitPc`, `SweepPc` — how far a commit and a sweep have come.
* `step` — the next call of any of them.
-/

import HullCi.Base.Run
import HullCi.Base.Table

namespace HullCi.Fetch.Blobs

open HullCi.Base

/-! ### Inodes and names -/

/-- The two halves of a blob's identity. -/
structure BlobKey where
  id : String
  exec : Bool
  deriving DecidableEq, Repr

/-- `file_mode`: whether keel records the file as executable. -/
def execOf (mode : ℕ) : Bool :=
  mode &&& 0o111 ≠ 0

/-- The canonical permission of a key's mode class. -/
def BlobKey.mode (key : BlobKey) : ℕ :=
  if key.exec then 0o755 else 0o644

@[simp] theorem execOf_mode (key : BlobKey) : execOf key.mode = key.exec := by
  unfold BlobKey.mode
  cases key.exec <;> decide

/-- A file's inode, with the tenant whose staging wrote it, which nothing reads. Its link count is
the number of its names. -/
structure Inode where
  bytes : List UInt8
  mode : ℕ
  tenant : String
  deriving DecidableEq, Repr

/-- A directory entry. -/
inductive Node
  | dir
  | file (ino : ℕ)
  | symlink (target : String)
  deriving DecidableEq, Repr

/-- A whole directory tree, by the paths in it. -/
abbrev Dir := Table (List String) Node

/-- The inodes a directory tree names. -/
def filesOf (d : Dir) : List ℕ :=
  (Table.values d).filterMap fun
    | .file ino => some ino
    | _ => none

structure Disk where
  inodes : Table ℕ Inode
  next : ℕ
  blobs : Table (String × BlobKey) ℕ
  /-- `<staged>.blob-link`, one for each commit. -/
  links : Table ℕ ℕ
  /-- The scratch names of a sweep. -/
  graves : Table (ℕ × ℕ) ℕ
  trees : Table (String × String) Dir
  staged : Table ℕ Dir
  /-- The trees a sweep has renamed away. -/
  buried : Table (ℕ × String) Dir

namespace Disk

def new : Disk := ⟨∅, 0, ∅, ∅, ∅, ∅, ∅, ∅⟩

/-- Every name, by the inode it refers to. -/
def names (disk : Disk) : List ℕ :=
  Table.values disk.blobs ++ Table.values disk.links ++ Table.values disk.graves
    ++ (Table.values disk.trees).flatMap filesOf ++ (Table.values disk.staged).flatMap filesOf
    ++ (Table.values disk.buried).flatMap filesOf

/-- `st_nlink`. -/
def nlink (disk : Disk) (ino : ℕ) : ℕ :=
  disk.names.count ino

/-- `chmod` of an inode. -/
def chmod (disk : Disk) (ino : ℕ) (i : Inode) (mode : ℕ) : Disk :=
  { disk with inodes := disk.inodes.insert ino { i with mode := mode } }

/-- An inode that lost a name is freed when it has no other. -/
def reap (disk : Disk) (ino : ℕ) : Disk :=
  if ino ∈ disk.names then disk else { disk with inodes := disk.inodes.erase ino }

/-- Unlink the scratch name of a commit. -/
def unlinkScratch (disk : Disk) (c : ℕ) : Disk :=
  match disk.links.lookup c with
  | some ino => reap { disk with links := disk.links.erase c } ino
  | none => disk

/-- Unlink a scratch name of a sweep. -/
def unlinkGrave (disk : Disk) (name : ℕ × ℕ) : Disk :=
  match disk.graves.lookup name with
  | some ino => reap { disk with graves := disk.graves.erase name } ino
  | none => disk

/-- Free what a removed directory entry named. -/
def reapNode (disk : Disk) : Option Node → Disk
  | some (.file ino) => disk.reap ino
  | _ => disk

/-- Remove one entry of a staging directory. -/
def removeStaged (disk : Disk) (c : ℕ) (path : List String) : Disk :=
  match disk.staged.lookup c with
  | some d => reapNode { disk with staged := disk.staged.insert c (d.erase path) } (d.lookup path)
  | none => disk

/-- Remove one entry of a tree in a sweep's scratch directory. -/
def removeBuried (disk : Disk) (name : ℕ × String) (path : List String) : Disk :=
  match disk.buried.lookup name with
  | some d =>
    reapNode { disk with buried := disk.buried.insert name (d.erase path) } (d.lookup path)
  | none => disk

/-- Rename the scratch name over a staged file; onto another name of the same inode it does
nothing, and the scratch name stays. -/
def renameScratch (disk : Disk) (c : ℕ) (path : List String) : Option Disk :=
  match disk.links.lookup c, disk.staged.lookup c with
  | some ino, some d =>
    if d.lookup path = some (.file ino) then some disk
    else some (reapNode { disk with
      links := disk.links.erase c
      staged := disk.staged.insert c (d.insert path (.file ino)) } (d.lookup path))
  | _, _ => none

end Disk

/-! ### What a directory holds -/

inductive Content
  | dir
  | file (bytes : List UInt8) (exec : Bool)
  | symlink (target : String)
  deriving DecidableEq, Repr

/-- What a node holds; `none` for a file whose inode is gone. -/
def contentOf (inodes : Table ℕ Inode) : Node → Option Content
  | .dir => some .dir
  | .symlink target => some (.symlink target)
  | .file ino => (inodes.lookup ino).map fun i => .file i.bytes (execOf i.mode)

/-- What a path of the tree holds. -/
def view (inodes : Table ℕ Inode) (d : Dir) (path : List String) : Option Content :=
  (d.lookup path).bind (contentOf inodes)

/-- An entry of a verified archive, as the extractor writes it. -/
inductive Entry
  | dir
  | file (bytes : List UInt8) (mode : ℕ)
  | symlink (target : String)
  deriving DecidableEq, Repr

def Entry.content : Entry → Content
  | .dir => .dir
  | .file bytes mode => .file bytes (execOf mode)
  | .symlink target => .symlink target

/-- What a list of entries stages at each path; a later entry replaces an earlier one. -/
def stagedContent (entries : List (List String × Entry)) (path : List String) : Option Content :=
  entries.foldl (fun held e => if e.1 = path then some e.2.content else held) none

/-- Write one entry into a staging directory; a file gets an inode of its own. -/
def stageOne (tenant : String) (at' : Table ℕ Inode × ℕ × Dir) (entry : List String × Entry) :
    Table ℕ Inode × ℕ × Dir :=
  match entry.2 with
  | .dir => (at'.1, at'.2.1, at'.2.2.insert entry.1 .dir)
  | .symlink target => (at'.1, at'.2.1, at'.2.2.insert entry.1 (.symlink target))
  | .file bytes mode =>
    (at'.1.insert at'.2.1 ⟨bytes, mode, tenant⟩, at'.2.1 + 1, at'.2.2.insert entry.1 (.file at'.2.1))

/-! ### Commits and sweeps -/

/-- What a commit does next. -/
inductive CommitPc
  | isDir
  | walk
  | stat (path : List String)
  | blobId (path : List String) (exec : Bool)
  | setMode (path : List String) (key : BlobKey)
  | shard (path : List String) (key : BlobKey)
  | link (path : List String) (key : BlobKey)
  | clearScratch (path : List String) (key : BlobKey)
  | linkScratch (path : List String) (key : BlobKey)
  | renameScratch (path : List String) (key : BlobKey)
  | dropScratch (path : List String) (key : BlobKey) (notFound : Bool)
  | relink (path : List String) (key : BlobKey)
  | lastScratch
  | parent
  | rename
  | discard
  | done
  deriving DecidableEq, Repr

/-- A commit, what its staged tree held when it came, and what it has walked. -/
structure Commit where
  tenant : String
  treeId : String
  content : List String → Option Content
  visited : List (List String)
  pc : CommitPc

/-- What a sweep does next. -/
inductive SweepPc
  | list
  | rename (key : BlobKey)
  | restat (key : BlobKey)
  | restore (key : BlobKey)
  | drop (key : BlobKey)
  | unlink (key : BlobKey)
  deriving DecidableEq, Repr

structure Sweep where
  tenant : String
  seq : ℕ
  pc : SweepPc
  deriving DecidableEq, Repr

structure State where
  disk : Disk
  commits : Table ℕ Commit
  sweeps : Table ℕ Sweep
  /-- Which commit renamed a tree into place. -/
  publisher : Table (String × String) ℕ

namespace State

def new : State := ⟨.new, ∅, ∅, ∅⟩

/-- The commit goes on. -/
def goto (s : State) (c : ℕ) (k : Commit) (pc : CommitPc) : State :=
  { s with commits := s.commits.insert c { k with pc := pc } }

/-- The sweep goes on. -/
def turn (s : State) (r : ℕ) (w : Sweep) (pc : SweepPc) : State :=
  { s with sweeps := s.sweeps.insert r { w with pc := pc } }

/-- The staged entry of a commit. -/
def entry (s : State) (c : ℕ) (path : List String) : Option Node :=
  (s.disk.staged.lookup c).bind fun d => d.lookup path

/-- The staged file of a commit. -/
def inode (s : State) (c : ℕ) (path : List String) : Option (ℕ × Inode) :=
  (s.entry c path).bind fun
    | .file ino => (s.disk.inodes.lookup ino).map fun i => (ino, i)
    | _ => none

/-- `hard_link` of the staged file to its blob's name, with whether that name was taken. -/
def linkBlob (s : State) (c : ℕ) (k : Commit) (path : List String) (key : BlobKey) :
    Option (Disk × Bool) :=
  (s.inode c path).map fun (ino, _) =>
    match s.disk.blobs.lookup (k.tenant, key) with
    | some _ => (s.disk, true)
    | none => ({ s.disk with blobs := s.disk.blobs.insert (k.tenant, key) ino }, false)

section Steps

variable (blobId : List UInt8 → String)

/-- The next call of a commit, which succeeds or fails. -/
def commitStep (s : State) (c : ℕ) (k : Commit) (ok : Bool) : State :=
  match k.pc with
  | .isDir =>
    if ok && (s.disk.trees.lookup (k.tenant, k.treeId)).isSome then s.goto c k .discard
    else s.goto c k .walk
  | .walk => s
  | .stat path =>
    match s.entry c path, ok with
    | some (.file _), true =>
      match s.inode c path with
      | some (_, i) => s.goto c k (.blobId path (execOf i.mode))
      | none => s.goto c k .discard
    | some _, true => s.goto c k .walk
    | _, _ => s.goto c k .discard
  | .blobId path exec =>
    match s.inode c path, ok with
    | some (_, i), true => s.goto c k (.setMode path ⟨blobId i.bytes, exec⟩)
    | _, _ => s.goto c k .discard
  | .setMode path key =>
    match s.inode c path, ok with
    | some (ino, i), true =>
      { s with disk := s.disk.chmod ino i key.mode }.goto c k (.shard path key)
    | _, _ => s.goto c k .discard
  | .shard path key => if ok then s.goto c k (.link path key) else s.goto c k .discard
  | .link path key =>
    match s.linkBlob c k path key, ok with
    | some (disk, taken), true =>
      { s with disk := disk }.goto c k (if taken then .clearScratch path key else .walk)
    | _, _ => s.goto c k .walk
  | .clearScratch path key =>
    { s with disk := if ok then s.disk.unlinkScratch c else s.disk }.goto c k (.linkScratch path key)
  | .linkScratch path key =>
    match s.disk.blobs.lookup (k.tenant, key), ok with
    | some ino, true =>
      if (s.disk.links.lookup c).isSome then s.goto c k (.dropScratch path key false)
      else { s with disk := { s.disk with links := s.disk.links.insert c ino } }.goto c k
        (.renameScratch path key)
    | none, true => s.goto c k (.dropScratch path key true)
    | _, false => s.goto c k (.dropScratch path key false)
  | .renameScratch path key =>
    if ok then
      match s.disk.renameScratch c path with
      | some disk => { s with disk := disk }.goto c k .walk
      | none => s.goto c k (.dropScratch path key true)
    else s.goto c k (.dropScratch path key false)
  | .dropScratch path key notFound =>
    { s with disk := if ok then s.disk.unlinkScratch c else s.disk }.goto c k
      (if notFound then .relink path key else .walk)
  | .relink path key =>
    match s.linkBlob c k path key, ok with
    | some (disk, _), true => { s with disk := disk }.goto c k .walk
    | _, _ => s.goto c k .walk
  | .lastScratch =>
    { s with disk := if ok then s.disk.unlinkScratch c else s.disk }.goto c k .parent
  | .parent => if ok then s.goto c k .rename else s.goto c k .discard
  | .rename =>
    match s.disk.staged.lookup c, ok with
    | some d, true =>
      -- A rename onto a directory that has entries fails; onto an empty one it replaces it.
      if ((s.disk.trees.lookup (k.tenant, k.treeId)).all fun old => old.entries.isEmpty) = true then
        { s with
          disk := { s.disk with
            staged := s.disk.staged.erase c
            trees := s.disk.trees.insert (k.tenant, k.treeId) d }
          publisher := s.publisher.insert (k.tenant, k.treeId) c }.goto c k .done
      else s.goto c k .discard
    | _, _ => s.goto c k .discard
  | .discard => s
  | .done => s

/-- The next call of a sweep on the blob it has picked. -/
def sweepStep (s : State) (r : ℕ) (w : Sweep) (ok : Bool) : State :=
  match w.pc with
  | .list => s
  | .rename key =>
    match s.disk.blobs.lookup (w.tenant, key), ok with
    | some ino, true =>
      { s with disk := { s.disk with
        blobs := s.disk.blobs.erase (w.tenant, key)
        graves := s.disk.graves.insert (r, w.seq) ino } }.turn r w (.restat key)
    | _, _ => s.turn r w .list
  | .restat key =>
    match s.disk.graves.lookup (r, w.seq), ok with
    | some ino, true =>
      s.turn r w (if 1 < s.disk.nlink ino then .restore key else .unlink key)
    | _, _ => s.turn r w .list
  | .restore key =>
    match s.disk.graves.lookup (r, w.seq), s.disk.blobs.lookup (w.tenant, key), ok with
    | some ino, none, true =>
      { s with disk := { s.disk with
        blobs := s.disk.blobs.insert (w.tenant, key) ino } }.turn r w (.drop key)
    | _, _, _ => s.turn r w (.drop key)
  | .drop _ =>
    { s with disk := if ok then s.disk.unlinkGrave (r, w.seq) else s.disk }.turn r w .list
  | .unlink _ =>
    { s with disk := if ok then s.disk.unlinkGrave (r, w.seq) else s.disk }.turn r w .list

end Steps

end State

inductive Label
  | begin (c : ℕ) (tenant treeId : String) (entries : List (List String × Entry))
  | visit (c : ℕ) (path : List String)
  | walked (c : ℕ)
  | commit (c : ℕ) (ok : Bool)
  | discard (c : ℕ) (path : List String)
  | reclaim (r : ℕ) (tenant : String)
  | bury (r : ℕ) (treeId : String)
  | dig (r : ℕ) (treeId : String) (path : List String)
  | pick (r : ℕ) (key : BlobKey)
  | sweep (r : ℕ) (ok : Bool)
  | close (r seq : ℕ)
  deriving DecidableEq, Repr

/-- One step. -/
def step (blobId : List UInt8 → String) (s : State) : Label → State
  -- A verified tree arrives in a staging directory of its own.
  | .begin c tenant treeId entries =>
    match s.commits.lookup c with
    | some _ => s
    | none =>
      let (inodes, next, d) := entries.foldl (stageOne tenant) (s.disk.inodes, s.disk.next, ∅)
      { s with
        disk := { s.disk with
          inodes := inodes
          next := next
          staged := s.disk.staged.insert c d }
        commits := s.commits.insert c ⟨tenant, treeId, stagedContent entries, [], .isDir⟩ }
  | .visit c path =>
    match s.commits.lookup c with
    | some k =>
      if k.pc = .walk ∧ (s.entry c path).isSome = true then
        s.goto c { k with visited := path :: k.visited } (.stat path)
      else s
    | none => s
  -- The walk ends when no entry is left.
  | .walked c =>
    match s.commits.lookup c with
    | some k =>
      if k.pc = .walk ∧ ∀ d ∈ s.disk.staged.lookup c, ∀ path ∈ d.keys, path ∈ k.visited then
        s.goto c k .lastScratch
      else s
    | none => s
  | .commit c ok =>
    match s.commits.lookup c with
    | some k => s.commitStep blobId c k ok
    | none => s
  -- `remove_dir_all`, one entry at a time.
  | .discard c path =>
    match s.commits.lookup c with
    | some k => if k.pc = .discard then { s with disk := s.disk.removeStaged c path } else s
    | none => s
  | .reclaim r tenant =>
    match s.sweeps.lookup r with
    | some _ => s
    | none => { s with sweeps := s.sweeps.insert r ⟨tenant, 0, .list⟩ }
  -- A tree that is not pinned is renamed into the scratch directory of the sweep.
  | .bury r treeId =>
    match s.sweeps.lookup r with
    | some w =>
      match s.disk.trees.lookup (w.tenant, treeId), s.disk.buried.lookup (r, treeId) with
      | some d, none =>
        { s with disk := { s.disk with
          trees := s.disk.trees.erase (w.tenant, treeId)
          buried := s.disk.buried.insert (r, treeId) d } }
      | _, _ => s
    | none => s
  | .dig r treeId path => { s with disk := s.disk.removeBuried (r, treeId) path }
  -- A blob with one name is a candidate.
  | .pick r key =>
    match s.sweeps.lookup r with
    | some w =>
      match s.disk.blobs.lookup (w.tenant, key) with
      | some ino =>
        if w.pc = .list ∧ s.disk.nlink ino ≤ 1 then
          s.turn r { w with seq := w.seq + 1 } (.rename key)
        else s
      | none => s
    | none => s
  | .sweep r ok =>
    match s.sweeps.lookup r with
    | some w => s.sweepStep r w ok
    | none => s
  -- What is left in the scratch directory of the sweep goes with it.
  | .close r seq =>
    match s.sweeps.lookup r with
    | some w => if w.pc = .list then { s with disk := s.disk.unlinkGrave (r, seq) } else s
    | none => s

end HullCi.Fetch.Blobs
