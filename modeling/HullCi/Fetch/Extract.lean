/-
**The paranoid tar reader.**

Entries are checked one by one and placed below a destination that starts empty. Nothing is ever
sanitized: an entry that breaks a rule ends the extraction. The tar parser and Unicode normalization
are not part of this repository: an archive is the entries the parser yields, the last of them
possibly an error, and `nfc` is a parameter.

* `State` — what the reader remembers, and the file system as its calls leave it. The host may make
  any call fail: `trouble` says which, so that the end states of all runs are the states of all
  moments.
* `made`, `placed` — the objects created, by the path asked for and the real one, and the paths
  that entries claimed, in order.
-/

import HullCi.Proto.Text
import HullCi.Fetch.Host

namespace HullCi.Fetch

open HullCi.Base HullCi.Proto

/-! ### Limits, errors and entries -/

/-- What bounds one extraction. -/
structure Limits where
  maxEntries : ℕ := 500000
  maxFileBytes : ℕ := 512 * 1024 * 1024
  maxTotalBytes : ℕ := 4 * 1024 * 1024 * 1024
  maxPathDepth : ℕ := 64
  maxNameBytes : ℕ := 255
  deriving DecidableEq, Repr

/-- Why one entry was refused. -/
inductive Rejection
  | absolutePath
  | parentTraversal
  | nonUtf8Path
  | illegalByte
  | backslashInName
  | nameTooLong (limit : ℕ)
  | tooDeep (limit : ℕ)
  | duplicate
  | unicodeCollision (with' : String)
  | privilegedMode (mode : ℕ)
  | hardLink
  | specialFile (kind : String)
  | absoluteSymlinkTarget
  | symlinkEscapesRoot
  | symlinkAncestor (link : String)
  | fileTooLarge (limit : ℕ)
  | conflict
  deriving DecidableEq, Repr

inductive ExtractError
  | archiveTooLarge (limit : ℕ)
  | tooManyEntries (limit : ℕ)
  | contentTooLarge (limit : ℕ)
  | rejected (path : String) (reason : Rejection)
  | malformed (message : String)
  | destinationNotEmpty
  | io (message : String)
  deriving DecidableEq, Repr

inductive EntryType
  | regular
  | continuous
  | directory
  | symlink
  | link
  | char
  | block
  | fifo
  | xGlobalHeader
  | other
  deriving DecidableEq, Repr

/-- One entry, as the tar parser yields it. -/
structure Entry where
  kind : EntryType
  /-- The raw path, cut and rendered for error messages. -/
  display : String
  mode : Option ℕ := some 0o644
  path : Option RawPath
  size : Option ℕ := none
  data : List UInt8 := []
  /-- The error the stream ends in after the data, if the entry is cut short. -/
  torn : Option ExtractError := none
  /-- `none` for a name that cannot be read, `some none` for no name. -/
  linkName : Option (Option RawPath) := some none
  deriving DecidableEq, Repr

/-- What an archive extracted to. -/
structure Extracted where
  files : ℕ := 0
  dirs : ℕ := 0
  symlinks : ℕ := 0
  bytes : ℕ := 0
  deriving DecidableEq, Repr

/-! ### The reader's state -/

/-- What one extraction is given: the destination, its caps, and what the host brings. -/
structure Setting where
  dest : Path
  limits : Limits
  nfc : String → String
  patience : ℕ

/-- An object created: the path asked for below the destination, and where it really lies. -/
structure Made where
  asked : Path
  place : Path
  deriving DecidableEq, Repr

structure State where
  fs : Fs
  trouble : List Bool
  claimed : Table String String := ∅
  dirs : List Path := []
  symlinks : List Path := []
  out : Extracted := {}
  made : List Made := []
  placed : List Path := []

/-- A state, and the error that ended the extraction there. -/
abbrev Outcome := State × Option ExtractError

/-- `?`: go on unless an error ended it. -/
def Outcome.andThen (r : Outcome) (next : State → Outcome) : Outcome :=
  match r with
  | (st, none) => next st
  | (st, some e) => (st, some e)

/-- `to_string_lossy` of a name. -/
def OsStr.lossy : OsStr → String
  | .text s => s
  | .raw _ => String.singleton (Char.ofNat 0xFFFD)

def lossy (rel : Path) : String :=
  "/".intercalate (rel.map OsStr.lossy)

namespace State

variable (cfg : Setting)

/-- A call that creates an object, unless the host makes it fail. -/
def create (st : State) (rel : Path) (node : Node) : State × Option Path :=
  let st' := { st with trouble := st.trouble.tail }
  if st.trouble.headD false then (st', none)
  else
    match st.fs.createAt cfg.patience cfg.dest rel node with
    | none => (st', none)
    | some (fs, place) => ({ st' with fs := fs, made := st.made ++ [⟨rel, place⟩] }, some place)

/-- Create a path and its missing ancestors below `done`, one component at a time. -/
def makeDirs (st : State) (done : Path) : Path → State × Option Rejection
  | [] => (st, none)
  | c :: rest =>
    if done ++ [c] ∈ st.dirs then makeDirs st (done ++ [c]) rest
    else
      match st.create cfg (done ++ [c]) .dir with
      | (st, some _) => makeDirs { st with dirs := (done ++ [c]) :: st.dirs } (done ++ [c]) rest
      | (st, none) => (st, some .conflict)

/-- `make_dirs`, its refusal told with the entry it was for. -/
def makeDirsFor (st : State) (rel : Path) (display : String) : Outcome :=
  match st.makeDirs cfg [] rel with
  | (st, none) => (st, none)
  | (st, some reason) => (st, some (.rejected display reason))

/-- One map answers both "seen already?" and "collides under normalization?". -/
def claim (st : State) (rel : Path) (display : String) : Outcome :=
  let key := cfg.nfc (lossy rel)
  let claimed := st.claimed.insert key display
  match st.claimed.lookup key with
  | none => ({ st with claimed := claimed, placed := st.placed ++ [rel] }, none)
  | some prev =>
    ({ st with claimed := claimed }, some (.rejected display
      (if prev = display then .duplicate else .unicodeCollision prev)))

/-- The first prefix of a path that was materialized as a link. -/
def checkSymlinkAncestors (st : State) (done : Path) : Path → Option Rejection
  | [] => none
  | c :: rest =>
    if done ++ [c] ∈ st.symlinks then some (.symlinkAncestor (lossy (done ++ [c])))
    else checkSymlinkAncestors st (done ++ [c]) rest

/-- Validate a path component-wise; `.` names the directory it appears in and is dropped. -/
def checkPath (limits : Limits) (out : Path) : RawPath → Except Rejection (Option Path)
  | [] => .ok (if out.isEmpty then none else some out)
  | .curDir :: rest => checkPath limits out rest
  | .parentDir :: _ => .error .parentTraversal
  | .rootDir :: _ => .error .absolutePath
  | .normal (.raw _) :: _ => .error .nonUtf8Path
  | .normal (.text name) :: rest =>
    if limits.maxNameBytes < name.utf8ByteSize then .error (.nameTooLong limits.maxNameBytes)
    else if name.toList.contains '\\' then .error .backslashInName
    else if name.toList.any isControl then .error .illegalByte
    else if limits.maxPathDepth < out.length + 1 then .error (.tooDeep limits.maxPathDepth)
    else checkPath limits (out ++ [.text name]) rest

/-- `set_mode`: the exec bits decide which of two modes a file gets. -/
def setMode (st : State) (rel : Path) (mode : ℕ) : Outcome :=
  let st' := { st with trouble := st.trouble.tail }
  if st.trouble.headD false then (st', some (.io "set_permissions"))
  else
    match st.fs.chmod cfg.patience cfg.dest rel (if mode &&& 0o111 ≠ 0 then 0o755 else 0o644) with
    | none => (st', some (.io "set_permissions"))
    | some fs => ({ st' with fs := fs }, none)

/-- Copy an entry's data into the file just opened, with a hard stop one byte past the room. -/
def copyData (st : State) (entry : Entry) (place : Path) : Outcome :=
  let room := min cfg.limits.maxFileBytes (cfg.limits.maxTotalBytes - st.out.bytes)
  let stop := (room + 1) % 2 ^ 64
  let st' := { st with trouble := st.trouble.tail }
  if st.trouble.headD false then (st', some (.malformed "write"))
  else
    let written := entry.data.take stop
    let st' := { st' with fs := st.fs.write place written }
    -- A stream cut short is noticed only when the copy reads on past the data.
    match if entry.data.length < stop then entry.torn else none with
    | some e => (st', some e)
    | none =>
      if cfg.limits.maxFileBytes < written.length then
        (st', some (.rejected entry.display (.fileTooLarge cfg.limits.maxFileBytes)))
      else if room < written.length then
        (st', some (.contentTooLarge cfg.limits.maxTotalBytes))
      else ({ st' with out := { st.out with bytes := st.out.bytes + written.length } }, none)

/-- The parent of a path, made if it has one below the destination. -/
def makeParent (st : State) (rel : Path) (display : String) : Outcome :=
  if rel.dropLast.isEmpty then (st, none) else st.makeDirsFor cfg rel.dropLast display

def writeFile (st : State) (entry : Entry) (rel : Path) (mode : ℕ) : Outcome :=
  if cfg.limits.maxFileBytes < entry.size.getD 0 then
    (st, some (.rejected entry.display (.fileTooLarge cfg.limits.maxFileBytes)))
  else
    (st.makeParent cfg rel entry.display).andThen fun st =>
      match st.create cfg rel (.file [] 0o644) with
      | (st, none) => (st, some (.rejected entry.display .conflict))
      | (st, some place) =>
        (st.copyData cfg entry place).andThen fun st => st.setMode cfg rel mode

/-- Resolve a target lexically against the link's own directory. -/
def checkTarget (stack : List OsStr) : RawPath → Option Rejection
  | [] => none
  | .curDir :: rest => checkTarget stack rest
  | .parentDir :: rest =>
    if stack.isEmpty then some .symlinkEscapesRoot else checkTarget stack.dropLast rest
  | .normal name :: rest => checkTarget (stack ++ [name]) rest
  | .rootDir :: _ => some .absoluteSymlinkTarget

/-- `symlink`: the kernel refuses an empty target. -/
def symlink (st : State) (rel : Path) (target : RawPath) : State × Option Path :=
  if target.isEmpty then ({ st with trouble := st.trouble.tail }, none)
  else st.create cfg rel (.symlink target)

def writeSymlink (st : State) (rel : Path) (target : RawPath) (display : String) : Outcome :=
  if target.head? = some .rootDir then
    (st, some (.rejected display .absoluteSymlinkTarget))
  else
    match checkTarget rel.dropLast target with
    | some reason => (st, some (.rejected display reason))
    | none =>
      (st.makeParent cfg rel display).andThen fun st =>
        match st.symlink cfg rel target with
        | (st, none) => (st, some (.rejected display .conflict))
        | (st, some _) => ({ st with symlinks := rel :: st.symlinks }, none)

/-- Place one checked entry. -/
def place (st : State) (entry : Entry) (mode : ℕ) (rel : Path) : Outcome :=
  let reject := fun reason => (st, some (.rejected entry.display reason))
  match entry.kind with
  | .directory =>
    (st.claim cfg rel entry.display).andThen fun st =>
      (st.makeDirsFor cfg rel entry.display).andThen fun st =>
        ({ st with out := { st.out with dirs := st.out.dirs + 1 } }, none)
  | .regular | .continuous =>
    (st.claim cfg rel entry.display).andThen fun st =>
      (st.writeFile cfg entry rel mode).andThen fun st =>
        ({ st with out := { st.out with files := st.out.files + 1 } }, none)
  | .symlink =>
    (st.claim cfg rel entry.display).andThen fun st =>
      match entry.linkName with
      | none => (st, some (.rejected entry.display .nonUtf8Path))
      | some none => (st, some (.malformed "symlink entry without a target"))
      | some (some target) =>
        (st.writeSymlink cfg rel target entry.display).andThen fun st =>
          ({ st with out := { st.out with symlinks := st.out.symlinks + 1 } }, none)
  | .link => reject .hardLink
  | .char => reject (.specialFile "character device")
  | .block => reject (.specialFile "block device")
  | .fifo => reject (.specialFile "fifo")
  | .xGlobalHeader | .other => reject (.specialFile "unsupported type")

def entry (st : State) (entry : Entry) : Outcome :=
  let reject := fun reason => (st, some (.rejected entry.display reason))
  if entry.kind = .xGlobalHeader then (st, none)
  else if cfg.limits.maxEntries ≤ st.out.files + st.out.dirs + st.out.symlinks then
    (st, some (.tooManyEntries cfg.limits.maxEntries))
  else
    let mode := entry.mode.getD 0o644
    if mode &&& 0o7000 ≠ 0 then reject (.privilegedMode mode)
    else
      match entry.path with
      | none => reject .nonUtf8Path
      | some path =>
        match checkPath cfg.limits [] path with
        | .error reason => reject reason
        | .ok none => (st, none)
        | .ok (some rel) =>
          match st.checkSymlinkAncestors [] rel with
          | some reason => reject reason
          | none => st.place cfg entry mode rel

/-- The archive's entries, one after the other; the parser may end them with an error. -/
def entries (st : State) : List (Except ExtractError Entry) → Outcome
  | [] => (st, none)
  | .error e :: _ => (st, some e)
  | .ok e :: rest => (st.entry cfg e).andThen fun st => entries st rest

end State

/-- Extract an archive into a directory that must be empty. -/
def extractInto (cfg : Setting) (fs : Fs) (trouble : List Bool)
    (archive : List (Except ExtractError Entry)) : Outcome :=
  let st : State := { fs := fs, trouble := trouble }
  match fs.readDir cfg.dest with
  | none => (st, some (.io "read_dir"))
  | some (_ :: _) => (st, some .destinationNotEmpty)
  | some [] => st.entries cfg archive

end HullCi.Fetch
