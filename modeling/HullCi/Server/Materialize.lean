/-
**A workspace is an exact and independent copy of the stored tree.**

The tree is walked with a stack of directories still to be read. Each regular file is cloned, or
copied when its clone fails; each is a new inode either way, and what a clone shares with its source
is never written through. The mode is set last, on both ways.

* `copyDir` — the walk, one entry at a time; it keeps a list of its calls.
* `Walking` — what holds between two entries: what is placed and what is left make up the tree.
* `Walking.copyDir` — the walk places all of it, or ends at an entry that cannot be placed.
* `materialize_exact` — the copy is exact, its files are inodes of their own, no call resolves a
  link, the store is as it was, and the report counts each entry once.

Clones fail as they like; every other call fails only for what is there and for the modes.
-/

import Mathlib.Data.List.Nodup
import Mathlib.Data.List.Perm.Basic
import Mathlib.Logic.Function.Basic

namespace HullCi.Server.Materialize

/-- A path below the root of a tree. -/
abbrev Path := List String

/-- A directory of the store, in the order it is read. -/
inductive Entries where
  | nil
  | dir (name : String) (mode : ℕ) (below rest : Entries)
  | link (name target : String) (rest : Entries)
  | file (name : String) (ino : ℕ) (rest : Entries)
  /-- A device, a pipe or a socket. -/
  | other (name : String) (rest : Entries)

/-- What is found under one path, links not followed. -/
inductive Item where
  | dir (mode : ℕ)
  | link (target : String)
  | file (ino : ℕ)
  | other
  deriving DecidableEq, Repr

structure Inode where
  bytes : List UInt8
  mode : ℕ
  deriving DecidableEq, Repr

/-- An item with what its inode holds. -/
inductive Seen where
  | dir (mode : ℕ)
  | link (target : String)
  | file (inode : Inode)
  | other
  deriving DecidableEq, Repr

def Item.seen (inodes : ℕ → Inode) : Item → Seen
  | .dir mode => .dir mode
  | .link target => .link target
  | .file ino => .file (inodes ino)
  | .other => .other

def look (inodes : ℕ → Inode) (e : Path × Item) : Path × Seen :=
  (e.1, e.2.seen inodes)

/-- Every entry of a tree, with its path. -/
def flat (p : Path) : Entries → List (Path × Item)
  | .nil => []
  | .dir name mode below rest =>
    (p ++ [name], .dir mode) :: (flat (p ++ [name]) below ++ flat p rest)
  | .link name target rest => (p ++ [name], .link target) :: flat p rest
  | .file name ino rest => (p ++ [name], .file ino) :: flat p rest
  | .other name rest => (p ++ [name], .other) :: flat p rest

/-- The owner may list, enter and change a directory of this mode. -/
def ownerAll (mode : ℕ) : Bool :=
  mode &&& 0o700 == 0o700

/-- A stored tree: no path twice, every file has its inode, and the directories are as the extractor
makes them. -/
structure Store where
  entries : Entries
  inodes : ℕ → Inode
  next : ℕ
  distinct : ((flat [] entries).map Prod.fst).Nodup
  allocated : ∀ p ino, (p, Item.file ino) ∈ flat [] entries → ino < next
  extracted : ∀ p mode, (p, Item.dir mode) ∈ flat [] entries → ownerAll mode = true

/-- Every entry of the stored tree. -/
def Store.items (s : Store) : List (Path × Item) :=
  flat [] s.entries

def Store.seen (s : Store) : List (Path × Seen) :=
  s.items.map (look s.inodes)

/-- The calls of the walk, by the path they are made on. -/
inductive Call where
  | readDir (p : Path)
  | symlinkMetadata (p : Path)
  | createDir (p : Path)
  | setPermissions (p : Path)
  | readLink (p : Path)
  | symlink (p : Path)
  | reflink (p : Path)
  | removeFile (p : Path)
  | copy (p : Path)
  deriving DecidableEq, Repr

structure MaterializeReport where
  cloned : ℕ := 0
  copied : ℕ := 0
  symlinks : ℕ := 0
  directories : ℕ := 0
  fallbackReason : Option String := none
  deriving DecidableEq, Repr

/-- The inodes of the disk, and what the workspace holds. -/
structure Disk where
  inodes : ℕ → Inode
  next : ℕ
  made : List (Path × Item)
  calls : List Call
  report : MaterializeReport

inductive CopyError where
  | alreadyExists
  | notFound
  | permissionDenied
  | unexpectedFileType
  deriving DecidableEq, Repr

/-- A clone that failed: why, and what it left behind. -/
structure Refusal where
  reason : String
  left : Option Inode

/-- Who runs, and how the clone of each file ends. -/
structure Setting where
  privileged : Bool
  cloneWhenSupported : Bool
  refused : Path → Option Refusal

/-- A file of this mode can be opened for reading. -/
def Setting.mayRead (setting : Setting) (mode : ℕ) : Bool :=
  setting.privileged || mode &&& 0o400 != 0

/-- How the clone of a file of this mode ends. -/
def Setting.clone (setting : Setting) (p : Path) (mode : ℕ) : Option Refusal :=
  if setting.mayRead mode then setting.refused p else some ⟨"Permission denied", none⟩

namespace Disk

def call (d : Disk) (c : Call) : Disk :=
  { d with calls := d.calls ++ [c] }

def seen (d : Disk) : List (Path × Seen) :=
  d.made.map (look d.inodes)

/-- A directory of the workspace in which entries can be made. -/
def isOpen (d : Disk) (p : Path) : Bool :=
  p == [] || d.made.any fun e => e.1 == p && match e.2 with
    | .dir mode => ownerAll mode
    | _ => false

/-- Makes a new entry: there is none yet, and its directory is there. -/
def make (d : Disk) (p : Path) (item : Item) : Disk × Except CopyError Unit :=
  if d.made.any fun e => e.1 == p then (d, .error .alreadyExists)
  else if d.isOpen p.dropLast then ({ d with made := d.made ++ [(p, item)] }, .ok ())
  else (d, .error .notFound)

/-- Makes a new file, with an inode of its own; its mode is the one that `copy_permissions` sets
after it, whatever the call left. -/
def makeFile (d : Disk) (p : Path) (inode : Inode) : Disk × Except CopyError Unit :=
  { d with inodes := Function.update d.inodes d.next inode, next := d.next + 1 }.make p
    (.file d.next)

def removeFile (d : Disk) (p : Path) : Disk :=
  { d.call (.removeFile p) with made := d.made.filter fun e => e.1 ≠ p }

end Disk

/-- What follows a call that did not fail. -/
def andThen (result : Disk × Except CopyError Unit) (f : Disk → Disk) :
    Disk × Except CopyError Unit :=
  match result with
  | (d, .ok ()) => (f d, .ok ())
  | failed => failed

/-- `create_dir` and `copy_permissions`. -/
def createDir (d : Disk) (p : Path) (mode : ℕ) : Disk × Except CopyError Unit :=
  andThen ((d.call (.createDir p)).make p (.dir mode)) fun d =>
    { d.call (.setPermissions p) with report.directories := d.report.directories + 1 }

def copySymlink (d : Disk) (p : Path) (target : String) : Disk × Except CopyError Unit :=
  andThen (((d.call (.readLink p)).call (.symlink p)).make p (.link target)) fun d =>
    { d with report.symlinks := d.report.symlinks + 1 }

/-- `fs::copy` and `copy_permissions`. -/
def copyFile (setting : Setting) (d : Disk) (p : Path) (ino : ℕ) :
    Disk × Except CopyError Unit :=
  let d := d.call (.copy p)
  if setting.mayRead (d.inodes ino).mode then
    andThen (d.makeFile p (d.inodes ino)) fun d =>
      { d.call (.setPermissions p) with report.copied := d.report.copied + 1 }
  else (d, .error .permissionDenied)

/-- What a failed clone leaves is removed again, and its reason kept if it is the first. -/
def fallBack (d : Disk) (p : Path) (refusal : Refusal) : Disk :=
  let d := { d with
    report.fallbackReason := d.report.fallbackReason.or (some refusal.reason) }
  let d := match refusal.left with
    | none => d
    | some inode => (d.makeFile p inode).1
  d.removeFile p

/-- Clones a file, or copies it. -/
def placeFile (setting : Setting) (d : Disk) (p : Path) (ino : ℕ) :
    Disk × Except CopyError Unit :=
  if setting.cloneWhenSupported then
    let d := d.call (.reflink p)
    match setting.clone p (d.inodes ino).mode with
    | none =>
      andThen (d.makeFile p (d.inodes ino)) fun d =>
        { d.call (.setPermissions p) with report.cloned := d.report.cloned + 1 }
    | some refusal => copyFile setting (fallBack d p refusal) p ino
  else copyFile setting d p ino

def Entries.size : Entries → ℕ
  | .nil => 0
  | .dir _ _ below rest => below.size + rest.size + 2
  | .link _ _ rest => rest.size + 1
  | .file _ _ rest => rest.size + 1
  | .other _ rest => rest.size + 1

/-- The size of all that is on the stack. -/
def stackSize : List (Path × Entries) → ℕ
  | [] => 0
  | e :: pending => e.2.size + 1 + stackSize pending

/-- The walk, inside a directory: what is left of it, and the stack of the others. -/
def copyDir (setting : Setting) (p : Path) (entries : Entries)
    (pending : List (Path × Entries)) (d : Disk) : Disk × Except CopyError Unit :=
  match entries with
  | .nil =>
    match pending with
    | [] => (d, .ok ())
    | (q, below) :: pending => copyDir setting q below pending (d.call (.readDir q))
  | .dir name mode below rest =>
    let q := p ++ [name]
    match createDir (d.call (.symlinkMetadata q)) q mode with
    | (d, .ok ()) => copyDir setting p rest ((q, below) :: pending) d
    | failed => failed
  | .link name target rest =>
    let q := p ++ [name]
    match copySymlink (d.call (.symlinkMetadata q)) q target with
    | (d, .ok ()) => copyDir setting p rest pending d
    | failed => failed
  | .file name ino rest =>
    let q := p ++ [name]
    match placeFile setting (d.call (.symlinkMetadata q)) q ino with
    | (d, .ok ()) => copyDir setting p rest pending d
    | failed => failed
  | .other name _ => (d.call (.symlinkMetadata (p ++ [name])), .error .unexpectedFileType)
termination_by entries.size + stackSize pending
decreasing_by all_goals simp only [Entries.size, stackSize]; omega

/-- The disk before the walk. -/
def Store.disk (s : Store) : Disk where
  inodes := s.inodes
  next := s.next
  made := []
  calls := []
  report := {}

/-- Copies the tree to a destination where there is nothing yet. -/
def materialize (setting : Setting) (existing : Bool) (s : Store) :
    Disk × Except CopyError MaterializeReport :=
  if existing then (s.disk, .error .alreadyExists)
  else
    match copyDir setting [] s.entries [] (s.disk.call (.readDir [])) with
    | (d, .ok ()) => (d, .ok d.report)
    | (d, .error e) => (d, .error e)

/-! ### What a copy has to be -/

/-- The way an entry gets into the workspace. -/
inductive Way where
  | cloned
  | copied
  | symlink
  | directory
  | never
  deriving DecidableEq, Repr

def MaterializeReport.count (report : MaterializeReport) : Way → ℕ
  | .cloned => report.cloned
  | .copied => report.copied
  | .symlink => report.symlinks
  | .directory => report.directories
  | .never => 0

def Setting.way (setting : Setting) (v : Path × Seen) : Way :=
  match v.2 with
  | .dir _ => .directory
  | .link _ => .symlink
  | .file inode =>
    if setting.mayRead inode.mode then
      if setting.cloneWhenSupported && (setting.clone v.1 inode.mode).isNone then .cloned
      else .copied
    else .never
  | .other => .never

def Item.ino : Item → Option ℕ
  | .file ino => some ino
  | _ => none

def Call.path : Call → Path
  | .readDir p | .symlinkMetadata p | .createDir p | .setPermissions p | .readLink p
  | .symlink p | .reflink p | .removeFile p | .copy p => p

/-- The call does on such an item what it says, without following it. -/
def Call.fits : Call → Item → Bool
  | .readDir _, .dir _ | .createDir _, .dir _ | .setPermissions _, .dir _ => true
  | .readLink _, .link _ | .symlink _, .link _ => true
  | .reflink _, .file _ | .removeFile _, .file _ | .copy _, .file _
  | .setPermissions _, .file _ => true
  | .symlinkMetadata _, _ => true
  | _, _ => false

/-- No link is resolved: the call is on an item it fits, and everything above it is a directory. -/
structure Direct (items : List (Path × Item)) (c : Call) : Prop where
  item : c = .readDir [] ∨ ∃ item, (c.path, item) ∈ items ∧ c.fits item = true
  above : ∀ a, a <+: c.path → a ≠ [] → a ≠ c.path → ∃ mode, (a, .dir mode) ∈ items

/-- What holds of the disk at any time, and when the walk has ended as well. -/
structure Kept (s : Store) (d : Disk) : Prop where
  stored : ∀ ino < s.next, d.inodes ino = s.inodes ino
  next : s.next ≤ d.next
  fresh : ∀ e ∈ d.made, ∀ ino, e.2 = .file ino → s.next ≤ ino ∧ ino < d.next
  apart : (d.made.filterMap fun e => e.2.ino).Nodup
  direct : ∀ c ∈ d.calls, Direct s.items c

/-- What is placed and what is left make up the tree. -/
structure Walking (setting : Setting) (s : Store) (left : List (Path × Item)) (d : Disk) :
    Prop where
  kept : Kept s d
  split : (d.seen ++ left.map (look s.inodes)).Perm s.seen
  inside : ∀ e ∈ left, e ∈ s.items
  placed : ∀ v ∈ d.seen, setting.way v ≠ .never
  counted : ∀ way ≠ .never, d.report.count way = d.seen.countP fun v => setting.way v = way

/-! ### The paths of a tree -/

theorem flat_below {p q : Path} {item : Item} {entries : Entries}
    (mem : (q, item) ∈ flat p entries) : ∃ name, p ++ [name] <+: q := by
  induction entries generalizing p with
  | nil => cases mem
  | dir name mode below rest ihBelow ihRest =>
    rw [flat, List.mem_cons, List.mem_append] at mem
    obtain own | inner | later := mem
    · cases own
      exact ⟨name, List.prefix_rfl⟩
    · obtain ⟨_, under⟩ := ihBelow inner
      exact ⟨name, (List.prefix_append _ _).trans under⟩
    · exact ihRest later
  | link name target rest ih | file name ino rest ih | other name rest ih =>
    obtain own | later := List.mem_cons.mp mem
    · cases own
      exact ⟨name, List.prefix_rfl⟩
    · exact ih later

theorem flat_above {p q a : Path} {item : Item} {entries : Entries}
    (mem : (q, item) ∈ flat p entries) (above : a <+: q) (less : a ≠ q)
    (long : p.length < a.length) : ∃ mode, (a, .dir mode) ∈ flat p entries := by
  have top : ∀ name, a <+: p ++ [name] → a ≠ p ++ [name] → False := by
    intro name under other
    have bound := under.length_le
    rw [List.length_append, List.length_singleton] at bound
    exact other (under.eq_of_length (by rw [List.length_append, List.length_singleton]; omega))
  induction entries generalizing p with
  | nil => cases mem
  | dir name mode below rest ihBelow ihRest =>
    rw [flat, List.mem_cons, List.mem_append] at mem
    obtain own | inner | later := mem
    · cases own
      exact (top name above less).elim
    · obtain ⟨_, under⟩ := flat_below inner
      have shared : p ++ [name] <+: a :=
        List.prefix_of_prefix_length_le ((List.prefix_append _ _).trans under) above
          (by rw [List.length_append, List.length_singleton]; omega)
      by_cases same : p ++ [name] = a
      · exact ⟨mode, by rw [← same]; exact List.mem_cons_self⟩
      · have more : (p ++ [name]).length < a.length :=
          Nat.lt_of_le_of_ne shared.length_le fun eq => same (shared.eq_of_length eq)
        obtain ⟨mode', there⟩ := ihBelow inner more fun name' under' other => by
          have bound := under'.length_le
          rw [List.length_append, List.length_singleton] at bound
          exact other (under'.eq_of_length
            (by rw [List.length_append, List.length_singleton]; omega))
        exact ⟨mode', List.mem_cons_of_mem _ (List.mem_append_left _ there)⟩
    · obtain ⟨mode', there⟩ := ihRest later long top
      exact ⟨mode', List.mem_cons_of_mem _ (List.mem_append_right _ there)⟩
  | link name target rest ih | file name ino rest ih | other name rest ih =>
    obtain own | later := List.mem_cons.mp mem
    · cases own
      exact (top name above less).elim
    · obtain ⟨mode', there⟩ := ih later long top
      exact ⟨mode', List.mem_cons_of_mem _ there⟩

theorem direct_of {s : Store} {q : Path} {item : Item} {c : Call} (mem : (q, item) ∈ s.items)
    (at' : c.path = q) (fits : c.fits item = true) : Direct s.items c where
  item := .inr ⟨item, by rw [at']; exact mem, fits⟩
  above a above some less := by
    rw [at'] at above less
    exact flat_above mem above less (List.length_pos_iff.mpr some)

/-! ### Looking at the disk -/

theorem look_congr {inodes inodes' : ℕ → Inode} {e : Path × Item}
    (same : ∀ ino, e.2 = .file ino → inodes ino = inodes' ino) :
    look inodes e = look inodes' e := by
  obtain ⟨p, item⟩ := e
  cases item with
  | file ino =>
    unfold look Item.seen
    dsimp only
    rw [same ino rfl]
  | dir mode | link target | other => rfl

namespace Disk

def put (d : Disk) (p : Path) (item : Item) : Disk :=
  { d with made := d.made ++ [(p, item)] }

def putFile (d : Disk) (p : Path) (inode : Inode) : Disk :=
  { d with
    inodes := Function.update d.inodes d.next inode, next := d.next + 1,
    made := d.made ++ [(p, .file d.next)] }

theorem make_eq {d : Disk} {p : Path} (free : p ∉ d.made.map Prod.fst)
    (under : d.isOpen p.dropLast = true) (item : Item) :
    d.make p item = (d.put p item, .ok ()) := by
  have absent : ¬ (d.made.any fun e => e.1 == p) = true := by
    intro found
    obtain ⟨e, mem, same⟩ := List.any_eq_true.mp found
    exact free (List.mem_map.mpr ⟨e, mem, eq_of_beq same⟩)
  rw [make, if_neg absent, if_pos under, put]

theorem makeFile_eq {d : Disk} {p : Path} (free : p ∉ d.made.map Prod.fst)
    (under : d.isOpen p.dropLast = true) (inode : Inode) :
    d.makeFile p inode = (d.putFile p inode, .ok ()) := by
  unfold makeFile
  exact make_eq (d := { d with
    inodes := Function.update d.inodes d.next inode, next := d.next + 1 }) free under _

theorem isOpen_append {d d' : Disk} {p : Path} {e : Path × Item}
    (made : d'.made = d.made ++ [e]) (under : d.isOpen p = true) : d'.isOpen p = true := by
  unfold isOpen at under ⊢
  rw [made, List.any_append, ← Bool.or_assoc, under, Bool.true_or]

theorem isOpen_dir {d d' : Disk} {p : Path} {mode : ℕ} (all : ownerAll mode = true)
    (made : d'.made = d.made ++ [(p, .dir mode)]) : d'.isOpen p = true := by
  unfold isOpen
  rw [made, List.any_append, List.any_cons, beq_self_eq_true]
  simp [all]

/-- An inode that no entry names. -/
def alloc (d : Disk) (inode : Inode) : Disk :=
  { d with inodes := Function.update d.inodes d.next inode, next := d.next + 1 }

theorem removeFile_free {d : Disk} {p : Path} (free : p ∉ d.made.map Prod.fst) :
    d.removeFile p = d.call (.removeFile p) := by
  have all : (d.made.filter fun e => e.1 ≠ p) = d.made := by
    rw [List.filter_eq_self]
    intro e mem
    exact decide_eq_true fun same => free (List.mem_map.mpr ⟨e, mem, same⟩)
  unfold removeFile
  rw [all]
  rfl

theorem removeFile_putFile {d : Disk} {p : Path} (free : p ∉ d.made.map Prod.fst)
    (inode : Inode) :
    (d.putFile p inode).removeFile p = (d.alloc inode).call (.removeFile p) := by
  rw [← removeFile_free (d := d.alloc inode) free]
  unfold removeFile putFile
  dsimp only
  rw [List.filter_append, List.filter_cons_of_neg (by simp), List.filter_nil, List.append_nil]
  rfl

end Disk

/-! ### What each call keeps -/

section Kept

variable {s : Store} {d : Disk}

theorem Kept.call (kept : Kept s d) {c : Call} (direct : Direct s.items c) :
    Kept s (d.call c) where
  stored := kept.stored
  next := kept.next
  fresh := kept.fresh
  apart := kept.apart
  direct c' mem := by
    obtain old | new := List.mem_append.mp mem
    · exact kept.direct c' old
    · cases List.mem_singleton.mp new
      exact direct

theorem Kept.report (kept : Kept s d) (report : MaterializeReport) :
    Kept s { d with report := report } :=
  ⟨kept.stored, kept.next, kept.fresh, kept.apart, kept.direct⟩

theorem Kept.put (kept : Kept s d) {p : Path} {item : Item} (none' : item.ino = none) :
    Kept s (d.put p item) where
  stored := kept.stored
  next := kept.next
  fresh e mem ino is := by
    obtain old | new := List.mem_append.mp mem
    · exact kept.fresh e old ino is
    · cases List.mem_singleton.mp new
      cases is
      cases none'
  apart := by
    show ((d.made ++ [(p, item)]).filterMap fun e => e.2.ino).Nodup
    rw [List.filterMap_append, List.filterMap_cons_none (by exact none'), List.filterMap_nil,
      List.append_nil]
    exact kept.apart
  direct := kept.direct

theorem Item.ino_eq {item : Item} {ino : ℕ} (is : item.ino = some ino) : item = .file ino := by
  cases item with
  | file ino' =>
    cases is
    rfl
  | dir mode | link target | other => cases is

theorem Kept.alloc (kept : Kept s d) (inode : Inode) : Kept s (d.alloc inode) where
  stored ino less := by
    show Function.update d.inodes d.next inode ino = _
    rw [Function.update_of_ne (by have := kept.next; omega), kept.stored ino less]
  next := Nat.le_succ_of_le kept.next
  fresh e mem ino is := by
    obtain ⟨least, most⟩ := kept.fresh e mem ino is
    exact ⟨least, Nat.lt_succ_of_lt most⟩
  apart := kept.apart
  direct := kept.direct

theorem Kept.seen_alloc (kept : Kept s d) (inode : Inode) : (d.alloc inode).seen = d.seen := by
  refine List.map_congr_left fun e mem => look_congr fun ino is => ?_
  have less := (kept.fresh e mem ino is).2
  show Function.update d.inodes d.next inode ino = _
  rw [Function.update_of_ne (by omega)]

theorem Kept.putFile (kept : Kept s d) {p : Path} {inode : Inode} :
    Kept s (d.putFile p inode) where
  stored := (kept.alloc inode).stored
  next := (kept.alloc inode).next
  fresh e mem ino is := by
    obtain old | new := List.mem_append.mp mem
    · exact (kept.alloc inode).fresh e old ino is
    · cases List.mem_singleton.mp new
      cases is
      exact ⟨kept.next, Nat.lt_succ_self _⟩
  apart := by
    show ((d.made ++ [(p, Item.file d.next)]).filterMap fun e => e.2.ino).Nodup
    rw [List.filterMap_append, List.filterMap_cons_some (by rfl), List.filterMap_nil]
    refine List.Nodup.append kept.apart (List.nodup_singleton _) ?_
    rw [List.disjoint_singleton, List.mem_filterMap]
    rintro ⟨e, mem, is⟩
    exact absurd (kept.fresh e mem _ (Item.ino_eq is)).2 (Nat.lt_irrefl _)
  direct := kept.direct

theorem Kept.seen_putFile (kept : Kept s d) (p : Path) (inode : Inode) :
    (d.putFile p inode).seen = d.seen ++ [(p, .file inode)] := by
  show (d.made ++ [(p, Item.file d.next)]).map (look (Function.update d.inodes d.next inode)) = _
  rw [List.map_append, List.map_singleton, look, Item.seen, Function.update_self]
  congr 1
  exact kept.seen_alloc inode

end Kept

/-! ### One entry -/

section Walking

variable {setting : Setting} {s : Store} {left : List (Path × Item)} {d : Disk}

theorem Walking.call (walking : Walking setting s left d) {c : Call}
    (direct : Direct s.items c) : Walking setting s left (d.call c) :=
  { walking with kept := walking.kept.call direct }

theorem Walking.same {d' : Disk} (walking : Walking setting s left d) (kept : Kept s d')
    (seen : d'.seen = d.seen) (counted : ∀ w, d'.report.count w = d.report.count w) :
    Walking setting s left d' where
  kept := kept
  split := by
    rw [seen]
    exact walking.split
  inside := walking.inside
  placed v mem := walking.placed v (by rwa [seen] at mem)
  counted w real := by
    rw [counted, seen]
    exact walking.counted w real

theorem Walking.perm {left' : List (Path × Item)} (walking : Walking setting s left d)
    (perm : left.Perm left') : Walking setting s left' d where
  kept := walking.kept
  split := ((perm.map _).symm.append_left _).trans walking.split
  inside e mem := walking.inside e (perm.mem_iff.mpr mem)
  placed := walking.placed
  counted := walking.counted

theorem map_look_fst (inodes : ℕ → Inode) (l : List (Path × Item)) :
    (l.map (look inodes)).map Prod.fst = l.map Prod.fst := by
  rw [List.map_map]
  rfl

/-- The next path is free, since no path is twice in the tree. -/
theorem Walking.free {q : Path} {item : Item}
    (walking : Walking setting s ((q, item) :: left) d) : q ∉ d.made.map Prod.fst := by
  have paths := walking.split.map Prod.fst
  rw [List.map_append, Disk.seen, Store.seen, map_look_fst, map_look_fst, map_look_fst] at paths
  have distinct := (paths.nodup_iff).mpr s.distinct
  intro mem
  exact (List.nodup_append.mp distinct).2.2 q mem q List.mem_cons_self rfl

theorem Walking.add {e : Path × Item} {d' : Disk} (walking : Walking setting s (e :: left) d)
    (kept : Kept s d') (seen : d'.seen = d.seen ++ [look s.inodes e]) (way : Way)
    (is : setting.way (look s.inodes e) = way) (some' : way ≠ .never)
    (counted : ∀ w, d'.report.count w = d.report.count w + if way = w then 1 else 0) :
    Walking setting s left d' where
  kept := kept
  split := by
    rw [seen, List.append_assoc]
    exact walking.split
  inside e' mem := walking.inside e' (List.mem_cons_of_mem _ mem)
  placed v mem := by
    rw [seen, List.mem_append, List.mem_singleton] at mem
    obtain old | rfl := mem
    · exact walking.placed v old
    · rw [is]
      exact some'
  counted w real := by
    rw [counted, seen, List.countP_append, walking.counted w real, List.countP_singleton, is]
    simp

variable {q : Path}

theorem Walking.createDir {mode : ℕ} (walking : Walking setting s ((q, .dir mode) :: left) d)
    (under : d.isOpen q.dropLast = true) :
    ∃ d', createDir d q mode = (d', .ok ()) ∧ Walking setting s left d' ∧
      d'.made = d.made ++ [(q, .dir mode)] := by
  have mem := walking.inside _ List.mem_cons_self
  have called := walking.call (c := .createDir q) (direct_of mem rfl rfl)
  unfold Materialize.createDir
  rw [Disk.make_eq called.free under]
  refine ⟨_, rfl, called.add
    (((called.kept.put rfl).call (c := .setPermissions q) (direct_of mem rfl rfl)).report _)
    ?_ .directory rfl nofun ?_, rfl⟩
  · exact List.map_append
  · intro w
    cases w <;> rfl

theorem Walking.copySymlink {target : String}
    (walking : Walking setting s ((q, .link target) :: left) d)
    (under : d.isOpen q.dropLast = true) :
    ∃ d', copySymlink d q target = (d', .ok ()) ∧ Walking setting s left d' ∧
      d'.made = d.made ++ [(q, .link target)] := by
  have mem := walking.inside _ List.mem_cons_self
  have called := (walking.call (c := .readLink q) (direct_of mem rfl rfl)).call
    (c := .symlink q) (direct_of mem rfl rfl)
  unfold Materialize.copySymlink
  rw [Disk.make_eq called.free under]
  refine ⟨_, rfl, called.add ((called.kept.put rfl).report _) ?_ .symlink rfl nofun ?_, rfl⟩
  · exact List.map_append
  · intro w
    cases w <;> rfl

variable {ino : ℕ}

theorem Walking.source (walking : Walking setting s ((q, .file ino) :: left) d) :
    d.inodes ino = s.inodes ino :=
  walking.kept.stored ino (s.allocated q ino (walking.inside _ List.mem_cons_self))

theorem way_file {setting : Setting} {p : Path} {inode : Inode}
    (readable : setting.mayRead inode.mode = true) :
    setting.way (p, .file inode) =
      if setting.cloneWhenSupported && (setting.clone p inode.mode).isNone then .cloned
      else .copied := by
  unfold Setting.way
  dsimp only
  rw [if_pos readable]

theorem Walking.putFile (walking : Walking setting s ((q, .file ino) :: left) d) (way : Way)
    (is : setting.way (q, .file (s.inodes ino)) = way) (some' : way ≠ .never)
    {report : MaterializeReport}
    (counted : ∀ w, report.count w = d.report.count w + if way = w then 1 else 0) :
    Walking setting s left
      { (d.putFile q (s.inodes ino)).call (.setPermissions q) with report := report } := by
  have mem := walking.inside _ List.mem_cons_self
  refine walking.add ((walking.kept.putFile.call (direct_of mem rfl rfl)).report _) ?_ way is
    some' counted
  exact walking.kept.seen_putFile q (s.inodes ino)

theorem Walking.copyFile (walking : Walking setting s ((q, .file ino) :: left) d)
    (under : d.isOpen q.dropLast = true)
    (refused : (setting.cloneWhenSupported &&
      (setting.clone q (s.inodes ino).mode).isNone) = false) :
    if setting.mayRead (s.inodes ino).mode then
      ∃ d' new, copyFile setting d q ino = (d', .ok ()) ∧ Walking setting s left d' ∧
        d'.made = d.made ++ [(q, .file new)]
    else
      ∃ d', copyFile setting d q ino = (d', .error .permissionDenied) ∧ Kept s d' := by
  have mem := walking.inside _ List.mem_cons_self
  have called := walking.call (c := .copy q) (direct_of mem rfl rfl)
  unfold Materialize.copyFile
  dsimp only
  rw [called.source]
  split_ifs with readable
  · rw [Disk.makeFile_eq called.free under]
    refine ⟨_, d.next, rfl, called.putFile .copied ?_ nofun ?_, rfl⟩
    · rw [way_file readable, refused]
      rfl
    · intro w
      cases w <;> rfl
  · exact ⟨_, rfl, called.kept⟩

theorem Walking.fallBack (walking : Walking setting s ((q, .file ino) :: left) d)
    (under : d.isOpen q.dropLast = true) (refusal : Refusal) :
    Walking setting s ((q, .file ino) :: left) (fallBack d q refusal) ∧
      (fallBack d q refusal).made = d.made := by
  have mem := walking.inside _ List.mem_cons_self
  obtain ⟨reason, left'⟩ := refusal
  have noted : Walking setting s ((q, .file ino) :: left) { d with
      report.fallbackReason := d.report.fallbackReason.or (some reason) } :=
    walking.same (walking.kept.report _) rfl fun w => by cases w <;> rfl
  unfold Materialize.fallBack
  cases left' with
  | none =>
    dsimp only
    rw [Disk.removeFile_free noted.free]
    exact ⟨noted.call (direct_of mem rfl rfl), rfl⟩
  | some inode =>
    dsimp only
    rw [Disk.makeFile_eq noted.free under, Disk.removeFile_putFile noted.free]
    have more := noted.same (noted.kept.alloc inode) (noted.kept.seen_alloc inode) fun _ => rfl
    exact ⟨more.call (direct_of mem rfl rfl), rfl⟩

theorem Walking.placeFile (walking : Walking setting s ((q, .file ino) :: left) d)
    (under : d.isOpen q.dropLast = true) :
    if setting.mayRead (s.inodes ino).mode then
      ∃ d' new, placeFile setting d q ino = (d', .ok ()) ∧ Walking setting s left d' ∧
        d'.made = d.made ++ [(q, .file new)]
    else
      ∃ d', placeFile setting d q ino = (d', .error .permissionDenied) ∧ Kept s d' := by
  have mem := walking.inside _ List.mem_cons_self
  have called := walking.call (c := .reflink q) (direct_of mem rfl rfl)
  unfold Materialize.placeFile
  by_cases clones : setting.cloneWhenSupported = true
  · rw [if_pos clones]
    dsimp only
    rw [called.source]
    cases ends : setting.clone q (s.inodes ino).mode with
    | none =>
      have readable : setting.mayRead (s.inodes ino).mode = true := by
        unfold Setting.clone at ends
        split_ifs at ends with readable
        exact readable
      dsimp only
      rw [if_pos readable, Disk.makeFile_eq called.free under]
      refine ⟨_, d.next, rfl, called.putFile .cloned ?_ nofun ?_, rfl⟩
      · rw [way_file readable, clones, ends]
        rfl
      · intro w
        cases w <;> rfl
    | some refusal =>
      obtain ⟨fallen, made⟩ := called.fallBack under refusal
      have copied := fallen.copyFile (by unfold Disk.isOpen; rw [made]; exact under)
        (by rw [ends, Option.isNone_some, Bool.and_false])
      rw [made] at copied
      exact copied
  · rw [if_neg clones]
    exact walking.copyFile under (by rw [Bool.not_eq_true] at clones; rw [clones, Bool.false_and])

end Walking

/-! ### The walk -/

/-- A directory that may be filled is there, on both sides. -/
def Ready (s : Store) (d : Disk) (p : Path) : Prop :=
  d.isOpen p = true ∧ (p = [] ∨ ∃ mode, (p, .dir mode) ∈ s.items)

theorem Ready.mono {s : Store} {d d' : Disk} {p : Path} {e : Path × Item}
    (made : d'.made = d.made ++ [e]) (ready : Ready s d p) : Ready s d' p :=
  ⟨Disk.isOpen_append made ready.1, ready.2⟩

/-- All that is left of the tree inside a directory. -/
def pile (p : Path) (entries : Entries) (pending : List (Path × Entries)) :
    List (Path × Item) :=
  flat p entries ++ pending.flatMap fun e => flat e.1 e.2

/-- The walk ends with everything placed, or at an entry that cannot be placed. -/
theorem Walking.copyDir {setting : Setting} {s : Store} (p : Path) (entries : Entries)
    (pending : List (Path × Entries)) (d : Disk)
    (walking : Walking setting s (pile p entries pending) d)
    (ready : ∀ q ∈ p :: pending.map Prod.fst, Ready s d q) :
    ∃ d', Kept s d' ∧
      (copyDir setting p entries pending d = (d', .ok ()) ∧ Walking setting s [] d' ∨
        ∃ e, copyDir setting p entries pending d = (d', .error e) ∧
          ∃ v ∈ s.seen, setting.way v = .never) := by
  have here : ∀ {q : Path} {d : Disk} {name : String}, Ready s d q →
      d.isOpen (q ++ [name]).dropLast = true := by
    intro q d name ready
    rw [List.dropLast_concat]
    exact ready.1
  -- An entry is looked at first.
  have looked : ∀ {q : Path} {item : Item} {left : List (Path × Item)} {d : Disk},
      Walking setting s ((q, item) :: left) d →
        Walking setting s ((q, item) :: left) (d.call (.symlinkMetadata q)) ∧
          (q, item) ∈ s.items := by
    intro q item left d walking
    have mem := walking.inside _ List.mem_cons_self
    exact ⟨walking.call (direct_of mem rfl rfl), mem⟩
  induction p, entries, pending, d using copyDir.induct setting with
  | case1 p d =>
    rw [Materialize.copyDir]
    exact ⟨d, walking.kept, .inl ⟨rfl, walking⟩⟩
  | case2 p d q below pending ih =>
    rw [Materialize.copyDir]
    have direct : Direct s.items (.readDir q) := by
      obtain rfl | ⟨mode, mem⟩ := (ready q (by simp)).2
      · exact ⟨.inl rfl, fun a above some _ => absurd (List.prefix_nil.mp above) some⟩
      · exact direct_of mem rfl rfl
    exact ih (walking.call direct) fun q' mem => ready q' (List.mem_cons_of_mem _ mem)
  | case3 p pending d name mode below rest q d' made ih =>
    rw [Materialize.copyDir]
    obtain ⟨walking, mem⟩ := looked walking
    obtain ⟨d'', made', placed, more⟩ := walking.createDir (here (ready p List.mem_cons_self))
    rw [made'] at made ⊢
    cases made
    refine ih (placed.perm ?_) fun q' there => ?_
    · unfold pile
      rw [List.flatMap_cons, ← List.append_assoc]
      exact List.perm_append_comm.append_right _
    · rw [List.map_cons, List.mem_cons, List.mem_cons] at there
      obtain rfl | rfl | there := there
      · exact (ready _ List.mem_cons_self).mono more
      · exact ⟨Disk.isOpen_dir (s.extracted _ _ mem) more, .inr ⟨mode, mem⟩⟩
      · exact (ready q' (List.mem_cons_of_mem _ there)).mono more
  | case4 p pending d name mode below rest q never =>
    obtain ⟨walking, mem⟩ := looked walking
    obtain ⟨d'', made', placed, more⟩ := walking.createDir (here (ready p List.mem_cons_self))
    exact (never d'' made').elim
  | case5 p pending d name target rest q d' made ih =>
    rw [Materialize.copyDir]
    obtain ⟨walking, mem⟩ := looked walking
    obtain ⟨d'', made', placed, more⟩ := walking.copySymlink (here (ready p List.mem_cons_self))
    rw [made'] at made ⊢
    cases made
    exact ih placed fun q' there => (ready q' there).mono more
  | case6 p pending d name target rest q never =>
    obtain ⟨walking, mem⟩ := looked walking
    obtain ⟨d'', made', placed, more⟩ := walking.copySymlink (here (ready p List.mem_cons_self))
    exact (never d'' made').elim
  | case7 p pending d name ino rest q d' made ih =>
    rw [Materialize.copyDir]
    obtain ⟨walking, mem⟩ := looked walking
    have placed := walking.placeFile (here (ready p List.mem_cons_self))
    split_ifs at placed
    · obtain ⟨d'', new, made', placed, more⟩ := placed
      rw [made'] at made ⊢
      cases made
      exact ih placed fun q' there => (ready q' there).mono more
    · obtain ⟨d'', failed, -⟩ := placed
      rw [failed] at made
      cases made
  | case8 p pending d name ino rest q never =>
    rw [Materialize.copyDir]
    obtain ⟨walking, mem⟩ := looked walking
    have placed := walking.placeFile (here (ready p List.mem_cons_self))
    split_ifs at placed with readable
    · obtain ⟨d'', new, made', -⟩ := placed
      exact (never d'' made').elim
    · obtain ⟨d'', failed, kept⟩ := placed
      rw [failed]
      refine ⟨d'', kept, .inr ⟨_, rfl, _, List.mem_map_of_mem mem, ?_⟩⟩
      unfold Setting.way look Item.seen
      dsimp only
      rw [if_neg readable]
  | case9 p pending d name rest =>
    rw [Materialize.copyDir]
    obtain ⟨walking, mem⟩ := looked walking
    exact ⟨_, walking.kept, .inr ⟨_, rfl, _, List.mem_map_of_mem mem, rfl⟩⟩

/-! ### The copy -/

/-- The runner can place such an entry. -/
def Setting.Placeable (setting : Setting) (s : Store) (item : Item) : Prop :=
  item ≠ .other ∧ ∀ ino, item = .file ino → setting.mayRead (s.inodes ino).mode = true

theorem way_never {setting : Setting} {s : Store} {e : Path × Item} :
    setting.way (look s.inodes e) ≠ .never ↔ setting.Placeable s e.2 := by
  obtain ⟨p, item⟩ := e
  unfold Setting.Placeable
  cases item with
  | dir mode | link target => exact iff_of_true nofun ⟨nofun, nofun⟩
  | other => exact iff_of_false (fun some' => some' rfl) fun placeable => placeable.1 rfl
  | file ino =>
    unfold look Item.seen Setting.way
    dsimp only
    split_ifs with readable clones
    · exact iff_of_true nofun ⟨nofun, fun _ same => by cases same; exact readable⟩
    · exact iff_of_true nofun ⟨nofun, fun _ same => by cases same; exact readable⟩
    · exact iff_of_false (fun some' => some' rfl) fun placeable => readable (placeable.2 ino rfl)

theorem countP_ways (setting : Setting) {l : List (Path × Seen)}
    (some' : ∀ v ∈ l, setting.way v ≠ .never) :
    (l.countP fun v => setting.way v = .cloned) + (l.countP fun v => setting.way v = .copied) +
      (l.countP fun v => setting.way v = .symlink) +
      (l.countP fun v => setting.way v = .directory) = l.length := by
  induction l with
  | nil => rfl
  | cons v l ih =>
    have rest := ih fun v' mem => some' v' (List.mem_cons_of_mem _ mem)
    have here := some' v List.mem_cons_self
    rw [List.countP_cons, List.countP_cons, List.countP_cons, List.countP_cons, List.length_cons]
    cases way : setting.way v with
    | never => exact absurd way here
    | cloned | copied | symlink | directory =>
      simp
      omega

/-- A later write through a file of the workspace, or a change of its mode. -/
def Disk.write (d : Disk) (w : ℕ × Inode) : Disk :=
  { d with inodes := Function.update d.inodes w.1 w.2 }

theorem Kept.writes {s : Store} {d : Disk} (kept : Kept s d) (writes : List (ℕ × Inode))
    (own : ∀ w ∈ writes, ∃ p, (p, .file w.1) ∈ d.made) :
    ∀ ino < s.next, (writes.foldl Disk.write d).inodes ino = s.inodes ino := by
  have run : ∀ d' : Disk, (∀ ino < s.next, d'.inodes ino = s.inodes ino) →
      ∀ ino < s.next, (writes.foldl Disk.write d').inodes ino = s.inodes ino := by
    induction writes with
    | nil => exact fun d' stored => stored
    | cons w writes ih =>
      intro d' stored
      refine ih (fun w' mem => own w' (List.mem_cons_of_mem _ mem)) _ fun ino less => ?_
      obtain ⟨p, mem⟩ := own w List.mem_cons_self
      have least := (kept.fresh _ mem _ rfl).1
      show Function.update d'.inodes w.1 w.2 ino = _
      rw [Function.update_of_ne (by omega)]
      exact stored ino less
  exact run d kept.stored

/-- What the workspace and the report are, once `materialize` has returned. -/
structure ExactCopy (setting : Setting) (s : Store) (d : Disk)
    (result : Except CopyError MaterializeReport) : Prop where
  finished : (∃ report, result = .ok report) ↔ ∀ e ∈ s.items, setting.Placeable s e.2
  copy : ∀ report, result = .ok report → d.seen.Perm s.seen
  counted : ∀ report, result = .ok report →
    (∀ way ≠ .never, report.count way = s.seen.countP fun v => setting.way v = way) ∧
      report.cloned + report.copied + report.symlinks + report.directories = s.items.length
  /-- The store is as it was, no two files share an inode, and no call resolves a link. -/
  kept : Kept s d
  /-- Nothing that is written in the workspace later changes the store. -/
  later : ∀ writes : List (ℕ × Inode), (∀ w ∈ writes, ∃ p, (p, .file w.1) ∈ d.made) →
    s.items.map (look (writes.foldl Disk.write d).inodes) = s.seen

theorem Walking.start (setting : Setting) (s : Store) :
    Walking setting s (pile [] s.entries []) (s.disk.call (.readDir [])) where
  kept := Kept.call (d := s.disk)
    ⟨fun _ _ => rfl, Nat.le_refl _, (fun _ mem => nomatch mem), List.nodup_nil,
      (fun _ mem => nomatch mem)⟩
    ⟨.inl rfl, fun a above some _ => absurd (List.prefix_nil.mp above) some⟩
  split := by
    unfold pile
    rw [List.flatMap_nil, List.append_nil]
    exact List.Perm.refl _
  inside e mem := by
    unfold pile at mem
    rw [List.flatMap_nil, List.append_nil] at mem
    exact mem
  placed := nofun
  counted way _ := by cases way <;> rfl

theorem Walking.all {setting : Setting} {s : Store} {d : Disk} (walking : Walking setting s [] d) :
    d.seen.Perm s.seen := by
  have all := walking.split
  rw [List.map_nil, List.append_nil] at all
  exact all

theorem materialize_ends (setting : Setting) (s : Store) : ∃ d, Kept s d ∧
    (materialize setting false s = (d, .ok d.report) ∧ Walking setting s [] d ∨
      ∃ e, materialize setting false s = (d, .error e) ∧
        ∃ v ∈ s.seen, setting.way v = .never) := by
  obtain ⟨d, kept, ends⟩ := (Walking.start setting s).copyDir [] s.entries [] _ fun q mem => by
    cases List.mem_singleton.mp mem
    exact ⟨rfl, .inl rfl⟩
  refine ⟨d, kept, ?_⟩
  unfold materialize
  rw [if_neg Bool.false_ne_true]
  obtain ⟨ok, walking⟩ | ⟨e, failed, never⟩ := ends
  · rw [ok]
    exact .inl ⟨rfl, walking⟩
  · rw [failed]
    exact .inr ⟨e, rfl, never⟩

theorem materialize_finished (setting : Setting) (s : Store) :
    (∃ report, (materialize setting false s).2 = .ok report) ↔
      ∀ e ∈ s.items, setting.Placeable s e.2 := by
  obtain ⟨d, -, ⟨ok, walking⟩ | ⟨e, failed, v, mem, never⟩⟩ := materialize_ends setting s
  · rw [ok]
    refine iff_of_true ⟨_, rfl⟩ fun e mem => way_never.mp ?_
    exact walking.placed _ (walking.all.mem_iff.mpr (List.mem_map_of_mem mem))
  · rw [failed]
    refine iff_of_false nofun fun placeable => ?_
    obtain ⟨e, there, rfl⟩ := List.mem_map.mp mem
    exact way_never.mpr (placeable e there) never

theorem Walking.total {setting : Setting} {s : Store} {d : Disk}
    (walking : Walking setting s [] d) :
    (∀ way ≠ .never, d.report.count way = s.seen.countP fun v => setting.way v = way) ∧
      d.report.cloned + d.report.copied + d.report.symlinks + d.report.directories =
        s.items.length := by
  constructor
  · intro way real
    rw [walking.counted way real]
    exact walking.all.countP_eq _
  · have total := countP_ways setting walking.placed
    rw [walking.all.length_eq, Store.seen, List.length_map, ← walking.counted .cloned nofun,
      ← walking.counted .copied nofun, ← walking.counted .symlink nofun,
      ← walking.counted .directory nofun] at total
    exact total

/-- **A materialized workspace is an exact copy of the stored tree, and nothing in it can change the
tree.** It is finished exactly when every entry can be placed: no device, pipe or socket, and no
file that the runner may not read. -/
theorem materialize_exact (setting : Setting) (s : Store) :
    ExactCopy setting s (materialize setting false s).1 (materialize setting false s).2 := by
  have finished := materialize_finished setting s
  obtain ⟨d, kept, ends⟩ := materialize_ends setting s
  have later : ∀ writes : List (ℕ × Inode), (∀ w ∈ writes, ∃ p, (p, .file w.1) ∈ d.made) →
      s.items.map (look (writes.foldl Disk.write d).inodes) = s.seen := by
    intro writes own
    refine List.map_congr_left fun e mem => look_congr fun ino is => ?_
    obtain ⟨p, item⟩ := e
    cases is
    exact kept.writes writes own ino (s.allocated p ino mem)
  obtain ⟨ok, walking⟩ | ⟨e, failed, -⟩ := ends
  · rw [ok] at finished ⊢
    exact ⟨finished, fun _ _ => walking.all,
      (fun report is => by cases is; exact walking.total), kept, later⟩
  · rw [failed] at finished ⊢
    exact ⟨finished, nofun, nofun, kept, later⟩

/-- A tree of one file that its owner may not read. -/
def sealed : Store where
  entries := .file "key" 0 .nil
  inodes := fun _ => ⟨[1], 0o000⟩
  next := 1
  distinct := List.nodup_singleton _
  allocated p ino mem := by
    cases List.mem_singleton.mp mem
    exact Nat.one_pos
  extracted p mode mem := by cases List.mem_singleton.mp mem

/-- **A file that the runner may not read stops the copy**, since neither way can open it. -/
theorem unreadable_file_stops : ¬ ∀ (setting : Setting) (s : Store),
    (∀ e ∈ s.items, e.2 ≠ .other) → ∃ report, (materialize setting false s).2 = .ok report := by
  intro all
  let setting : Setting := ⟨false, true, fun _ => none⟩
  have done := all setting sealed fun e mem => by
    cases List.mem_singleton.mp mem
    nofun
  have placeable := (materialize_finished setting sealed).mp done _ List.mem_cons_self
  exact absurd (placeable.2 0 rfl) (by decide)

end HullCi.Server.Materialize
