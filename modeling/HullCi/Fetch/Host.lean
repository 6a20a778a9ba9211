/-
**The host's file system, as the calls of an extraction see it.**

Every object has one real path, and its parent is a directory: that is part of the type. A call
names a path below a directory; the path's parent is resolved as the kernel does it, links followed,
within a bounded number of steps.

* `Fs.create` — the one way an object comes to be: a new name in an existing directory.
* `lookup_create`, `lookup_modify` — what is left of the other objects: everything.
-/

import HullCi.Base.Table
import HullCi.Base.Walk

namespace HullCi.Fetch

open HullCi.Base

/-- An operating-system string: text, or bytes that are no UTF-8. -/
inductive OsStr
  | text (s : String)
  | raw (bytes : List UInt8)
  deriving DecidableEq, Repr

/-- A path of names. -/
abbrev Path := List OsStr

/-- A path as it is written: a link's target, an entry's name. -/
abbrev RawPath := List (Component OsStr)

/-- A file-system object. -/
inductive Node
  | dir
  | file (bytes : List UInt8) (mode : ℕ)
  | symlink (target : RawPath)
  deriving DecidableEq, Repr

def Node.kind : Node → Kind OsStr
  | .dir => .dir
  | .file _ _ => .file
  | .symlink target => .link target

/-- A file system: its objects by their real paths, each in a directory. -/
structure Fs where
  nodes : Table Path Node
  nested : ∀ parent name node, nodes.lookup (parent ++ [name]) = some node →
    parent = [] ∨ nodes.lookup parent = some .dir

namespace Fs

/-- The object at a real path; the root is a directory. -/
def lookup (fs : Fs) (path : Path) : Option Node :=
  if path = [] then some .dir else fs.nodes.lookup path

/-- What resolution sees of the file system. -/
def tree (fs : Fs) : Path → Option (Kind OsStr) :=
  fun path => (fs.lookup path).map Node.kind

theorem parent_of_lookup {fs : Fs} {parent : Path} {name : OsStr} {node : Node}
    (found : fs.lookup (parent ++ [name]) = some node) : fs.lookup parent = some .dir := by
  unfold lookup at found ⊢
  rw [if_neg (by simp)] at found
  rcases fs.nested parent name node found with rfl | dir
  · rw [if_pos rfl]
  · split
    · rfl
    · exact dir

/-! ### Creating and rewriting objects -/

/-- A new object in an existing directory. -/
def create (fs : Fs) (parent : Path) (name : OsStr) (node : Node) : Option Fs :=
  if free : fs.lookup parent = some .dir ∧ fs.nodes.lookup (parent ++ [name]) = none then
    some {
      nodes := fs.nodes.insert (parent ++ [name]) node
      nested := by
        intro parent' name' node' found
        rw [Table.lookup_insert] at found
        by_cases empty : parent' = []
        · exact .inl empty
        · have dir : fs.lookup parent' = some .dir := by
            split at found
            · rename_i same
              rw [(List.append_inj' same rfl).1]
              exact free.1
            · refine @parent_of_lookup _ _ name' node' ?_
              unfold lookup
              rw [if_neg (by simp)]
              exact found
          unfold lookup at dir
          rw [if_neg empty] at dir
          right
          rw [Table.lookup_insert, if_neg, dir]
          intro same
          rw [← same, dir] at free
          cases free.2 }
  else none

/-- Rewriting a file in place. -/
def modifyFile (fs : Fs) (path : Path) (f : List UInt8 → ℕ → List UInt8 × ℕ) : Fs where
  nodes := fs.nodes.modify path fun
    | .file bytes mode => .file (f bytes mode).1 (f bytes mode).2
    | node => node
  nested := by
    intro parent name node found
    have old : ∃ node', fs.nodes.lookup (parent ++ [name]) = some node' := by
      rw [Table.lookup_modify] at found
      split at found
      · rename_i same
        obtain ⟨node', known, -⟩ := Option.map_eq_some_iff.mp found
        exact ⟨node', same ▸ known⟩
      · exact ⟨node, found⟩
    obtain ⟨node', known⟩ := old
    refine (fs.nested parent name node' known).imp_right fun dir => ?_
    rw [Table.lookup_modify]
    split
    · rename_i same
      rw [← same, dir]
      rfl
    · exact dir

theorem create_eq_some {fs fs' : Fs} {parent : Path} {name : OsStr} {node : Node}
    (made : fs.create parent name node = some fs') :
    fs.lookup parent = some .dir ∧ fs.lookup (parent ++ [name]) = none ∧
      ∀ path, fs'.lookup path = if path = parent ++ [name] then some node else fs.lookup path := by
  unfold create at made
  split at made
  · rename_i free
    obtain rfl := Option.some.inj made
    refine ⟨free.1, ?_, fun path => ?_⟩
    · unfold lookup
      rw [if_neg (by simp)]
      exact free.2
    · unfold lookup
      dsimp only
      by_cases root : path = []
      · rw [if_pos root, if_pos root, if_neg (by simp [root])]
      · rw [if_neg root, if_neg root, Table.lookup_insert]
  · cases made

theorem lookup_modifyFile (fs : Fs) (path : Path) (f : List UInt8 → ℕ → List UInt8 × ℕ)
    (path' : Path) :
    (fs.modifyFile path f).lookup path' =
      if path' = path then (fs.lookup path).map fun
        | .file bytes mode => .file (f bytes mode).1 (f bytes mode).2
        | node => node
      else fs.lookup path' := by
  unfold lookup modifyFile
  dsimp only
  by_cases root : path' = []
  · rw [if_pos root]
    split
    · rename_i same
      rw [if_pos (same ▸ root)]
      rfl
    · rfl
  · rw [if_neg root, Table.lookup_modify]
    by_cases same : path' = path
    · rw [if_pos same, if_pos same, if_neg (same ▸ root)]
    · rw [if_neg same, if_neg same, if_neg root]

/-! ### The calls -/

/-- The kernel's resolution of a call's parent directory: at most `patience` steps. -/
def parentDir (fs : Fs) (patience : ℕ) (dest rel : Path) : Option Path :=
  resolveDir fs.tree patience dest (named rel.dropLast)

/-- `mkdir`, `open` with `O_EXCL`, `symlink`: a new object at `dest.join(rel)`, and its real path. -/
def createAt (fs : Fs) (patience : ℕ) (dest rel : Path) (node : Node) : Option (Fs × Path) :=
  match rel.getLast?, fs.parentDir patience dest rel with
  | some name, some parent => (fs.create parent name node).map fun fs => (fs, parent ++ [name])
  | _, _ => none

/-- The file a path leads to, links followed to the end. -/
def resolveFile (fs : Fs) (patience : ℕ) (dest rel : Path) : Option Path :=
  match Cursor.walk fs.tree patience ⟨dest, named rel⟩ with
  | ⟨here, [.normal name]⟩ => if fs.tree (here ++ [name]) = some .file then some (here ++ [name])
    else none
  | _ => none

/-- `chmod` of a file. -/
def chmod (fs : Fs) (patience : ℕ) (dest rel : Path) (mode : ℕ) : Option Fs :=
  (fs.resolveFile patience dest rel).map fun path => fs.modifyFile path fun bytes _ => (bytes, mode)

/-- Appending to the file a handle was opened for. -/
def write (fs : Fs) (path : Path) (bytes : List UInt8) : Fs :=
  fs.modifyFile path fun old mode => (old ++ bytes, mode)

/-- A directory's entries, when the path is a directory. -/
def readDir (fs : Fs) (dest : Path) : Option (List OsStr) :=
  if fs.lookup dest = some .dir then
    some (fs.nodes.keys.filterMap fun path =>
      if path.dropLast = dest then path.getLast? else none)
  else none

end Fs

end HullCi.Fetch
