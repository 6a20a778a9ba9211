/-
**`subtree_digest`: what a step's input globs select, as a content address.**

A tree's index keeps every entry with the id its walk computed. A glob without wildcards before a
final `**` is resolved by descent; any other is a walk of the structure. No file is ever opened. The
hash is a parameter.

* `segmentMatches` — `*` and `?` within one name, iterative with one point to come back to.
* `collect` — the walk; `**` takes no segment, or one directory and then itself again.
* `Shape.parse` — which of the two resolutions a glob needs.
-/

import HullCi.Base.Wildcard
import HullCi.Proto.Text
import Mathlib.Data.List.Dedup
import Mathlib.Data.List.Sort
import Mathlib.Data.String.Basic

namespace HullCi.Fetch

open HullCi.Base HullCi.Proto

/-! ### The index -/

/-- A content address. -/
abbrev ObjectId := List UInt8

/-- Lowercase hex. -/
def ObjectId.toHex (id : ObjectId) : String :=
  String.ofList (id.flatMap fun b => [Nat.digitChar (b.toNat / 16), Nat.digitChar (b.toNat % 16)])

def modeDir : ℕ := 0o040000

/-- An entry without its name: a file or symlink, or a directory with its entries. -/
inductive Index
  | leaf (mode : ℕ) (id : ObjectId)
  | dir (id : ObjectId) (entries : List (String × Index))

namespace Index

def mode : Index → ℕ
  | .leaf mode _ => mode
  | .dir _ _ => modeDir

def id : Index → ObjectId
  | .leaf _ id => id
  | .dir id _ => id

def isDir : Index → Bool
  | .leaf _ _ => false
  | .dir _ _ => true

def entries : Index → List (String × Index)
  | .leaf _ _ => []
  | .dir _ entries => entries

/-- What a walk builds: entries sorted by name, names unique and such as a directory can hold. -/
inductive Sound : Index → Prop
  | leaf (mode : ℕ) (id : ObjectId) : Sound (.leaf mode id)
  | dir (id : ObjectId) {entries : List (String × Index)}
      (sorted : entries.Pairwise fun a b => a.1 < b.1)
      (names : ∀ e ∈ entries, e.1.toList ≠ [] ∧ '/' ∉ e.1.toList)
      (subs : ∀ e ∈ entries, Sound e.2) : Sound (.dir id entries)

/-- The entry of a name; the entries are sorted, so the search may be a binary one. -/
def child (dir : Index) (name : String) : Option Index :=
  dir.entries.lookup name

end Index

/-- A whole verified tree's structure. -/
structure TreeIndex where
  id : ObjectId
  entries : List (String × Index)
  sound : (Index.dir id entries).Sound

def TreeIndex.root (index : TreeIndex) : Index :=
  .dir index.id index.entries

/-! ### Matching within a segment -/

/-- The loop of `segment_matches` on what is left of pattern and name; `star` is what follows the
last `*`, and where in the name it was last resumed. -/
def segmentLoop : ℕ → List Char → List Char → Option (List Char × List Char) → Bool
  | 0, _, _, _ => false
  | _ + 1, pattern, [], _ => pattern.all (· == '*')
  | fuel + 1, pattern, c :: name, star =>
    let back :=
      match star with
      | some (after, resume) => segmentLoop fuel after resume.tail (some (after, resume.tail))
      | none => false
    match pattern with
    | q :: rest =>
      if q = '?' || q = c then segmentLoop fuel rest name star
      else if q = '*' then segmentLoop fuel rest (c :: name) (some (rest, c :: name))
      else back
    | [] => back

/-- `*` / `?` matching within one path segment. -/
def segmentMatches (pattern name : String) : Bool :=
  segmentLoop ((name.toList.length + 1) * (pattern.toList.length + 2)) pattern.toList name.toList none

/-! ### Selecting -/

structure Matched where
  path : String
  mode : ℕ
  id : ObjectId
  deriving DecidableEq, Repr

/-- `join("/")`. -/
def joinPath (names : List String) : String :=
  String.ofList (['/'].intercalate (names.map String.toList))

/-- The directories that `**` leads to, in walk order, each visited at its path. -/
def globstar (visit : Index → List String → List Matched) (front : List String) :
    Index → List Matched
  | .leaf _ _ => []
  | .dir id entries => visit (.dir id entries) front ++ globstarEntries visit front entries
where
  globstarEntries (visit : Index → List String → List Matched) (front : List String) :
      List (String × Index) → List Matched
    | [] => []
    | (name, sub) :: rest =>
      globstar visit (front ++ [name]) sub ++ globstarEntries visit front rest

/-- Walk the structure, collecting the entries the pattern selects. -/
def collect : List String → Index → List String → List Matched
  | [], _, _ => []
  | first :: rest, dir, front =>
    if first = "**" then
      if rest = [] then
        if dir.entries = [] then [] else [⟨joinPath front, modeDir, dir.id⟩]
      else globstar (collect rest) front dir
    else
      dir.entries.flatMap fun e =>
        if segmentMatches first e.1 then
          if rest = [] then [⟨joinPath (front ++ [e.1]), e.2.mode, e.2.id⟩]
          else collect rest e.2 (front ++ [e.1])
        else []

/-- The entry a path leads to. -/
def descend (dir : Index) : List String → Option Index
  | [] => none
  | [last] => dir.child last
  | name :: rest => (dir.child name).bind fun sub => descend sub rest

/-! ### Glob shapes -/

inductive GlobError
  | malformed (glob : String)
  | tooManyGlobstars (limit : ℕ)
  deriving DecidableEq, Repr

/-- `Display`. -/
def GlobError.text : GlobError → String
  | .malformed glob => "`" ++ glob ++ "` is not a valid inputs glob: it must be a relative path with "
      ++ "no `.` or `..` segments"
  | .tooManyGlobstars limit =>
    "an inputs glob may hold at most " ++ toString limit ++ " `**` segments"

/-- The most `**` segments one `inputs` glob may hold. -/
def maxGlobstars : ℕ := 4

/-- What kind of resolution a glob needs. -/
inductive Shape
  | exact (path : List String)
  | subtree (path : List String)
  | pattern (segments : List String)
  deriving DecidableEq, Repr

/-- A metacharacter in the segment. -/
def wild (segment : String) : Bool :=
  isWild segment.toList

/-- The segments of a trimmed glob. -/
def segmentsOf (malformed : GlobError) :
    List (List Char) → List String → Except GlobError (List String)
  | [], segments => .ok segments
  | seg :: rest, segments =>
    if seg = [] then
      if segments = [] then .error malformed else segmentsOf malformed rest segments
    else if seg = ['.'] ∨ seg = ['.', '.'] then .error malformed
    else segmentsOf malformed rest (segments ++ [String.ofList seg])

/-- Distinguish the two costs at parse time. -/
def Shape.parse (glob : String) : Except GlobError Shape := do
  let trimmed := (trim glob).toList
  if trimmed = [] ∨ trimmed.head? = some '/' then throw (.malformed glob)
  let segments ← segmentsOf (.malformed glob) (trimmed.splitOn '/') []
  if segments = [] then throw (.malformed glob)
  if segments.count "**" > maxGlobstars then throw (.tooManyGlobstars maxGlobstars)
  let leadingWild := segments.dropLast.any wild
  if segments.getLast? = some "**" ∧ !leadingWild then
    return .subtree segments.dropLast
  else if !leadingWild ∧ !segments.getLast?.any wild then
    return .exact segments
  else
    return .pattern segments

/-- Hashed into the digest, so that two shapes never produce the same bytes. -/
def Shape.tag : Shape → UInt8
  | .exact _ => 1
  | .subtree _ => 2
  | .pattern _ => 3

/-- Keep the first of neighbours with one path. -/
def dedupByPath : List Matched → List Matched
  | [] => []
  | m :: rest =>
    match dedupByPath rest with
    | [] => [m]
    | next :: rest => if m.path = next.path then m :: rest else m :: next :: rest

/-- What `subtree_digest` folds. -/
def TreeIndex.select (index : TreeIndex) : Shape → List Matched
  | .exact path | .subtree path =>
    match descend index.root path with
    | some entry =>
      if entry.isDir && entry.entries.isEmpty then []
      else [⟨joinPath path, entry.mode, entry.id⟩]
    | none =>
      if path.isEmpty && !index.entries.isEmpty then [⟨"", modeDir, index.id⟩] else []
  | .pattern segments =>
    dedupByPath ((collect segments index.root []).mergeSort fun a b => a.path ≤ b.path)

/-! ### Folding -/

def digestDomain : String := "hull-ci/subtree-digest/v1"

def leBytes (width n : ℕ) : List UInt8 :=
  (List.range width).map fun i => UInt8.ofNat (n / 256 ^ i)

/-- A length before its bytes. -/
def lp (bytes : List UInt8) : List UInt8 :=
  leBytes 8 bytes.length ++ bytes

structure GlobDigest where
  digest : String
  selected : ℕ
  deriving DecidableEq, Repr

def GlobDigest.selectedNothing (digest : GlobDigest) : Bool :=
  digest.selected == 0

/-- Fold matched entries into one digest. -/
def fold (blake3 : List UInt8 → ObjectId) (glob : String) (shape : UInt8)
    (matched : List Matched) : GlobDigest where
  digest := (blake3 (digestDomain.toUTF8.toList ++ [shape] ++ lp glob.toUTF8.toList
    ++ leBytes 8 matched.length ++ matched.flatMap fun m =>
      lp m.path.toUTF8.toList ++ leBytes 4 m.mode ++ m.id)).toHex
  selected := matched.length

/-- The digest of everything the glob selects. -/
def TreeIndex.subtreeDigest (blake3 : List UInt8 → ObjectId) (index : TreeIndex) (glob : String) :
    Except GlobError GlobDigest := do
  let shape ← Shape.parse glob
  return fold blake3 glob shape.tag (index.select shape)

end HullCi.Fetch
