/-
**The journal on disk: one file for each debt, published by a rename.**

Any number of threads record and forget entries, a system call at a time, in any order; each call
may fail, a write may be short, the process may be killed between any two calls, and the power may
be lost.

* `extension_append`, `tmpName_hidden`, `tmpName_number` — which files are entries, and that the
  scratch files of two writes are two.
* `FileJournal.step` — one system call, one call that comes in, one restart.
* `Ledger` — what the directory is for: a journal, and the journals a loss of power may bring back.
* `FileJournal.Holds` — a state of the directory holds the entries of a journal, and no others.
-/

import HullCi.Base.Disk
import HullCi.Base.Run
import HullCi.Control.Journal
import HullCi.Secrets.Context

namespace HullCi.Server

open HullCi.Base HullCi.Proto HullCi.Control

/-! ### File names -/

/-- `Path::extension` of a file name. -/
def extension (name : String) : Option String :=
  let backwards := name.toList.reverse
  let front := backwards.dropWhile (· != '.')
  if front = [] ∨ front = ['.'] ∨ name = ".." then none
  else some (String.ofList (backwards.takeWhile (· != '.')).reverse)

/-- The file of one job's entry. -/
def entryName (jobId : JobId) : String :=
  jobId ++ ".json"

/-- The scratch file of one write. -/
def tmpName (jobId : JobId) (pid n : ℕ) : String :=
  "." ++ jobId ++ "." ++ toString pid ++ "." ++ toString n ++ ".tmp"

/-- A file that `outstanding` reads. -/
def IsEntry (name : String) : Prop :=
  extension name = some "json"

instance (name : String) : Decidable (IsEntry name) := inferInstanceAs (Decidable (_ = _))

theorem extension_append {front back : List Char} (filled : front ≠ []) (plain : '.' ∉ back)
    (long : back ≠ []) :
    extension (String.ofList (front ++ '.' :: back)) = some (String.ofList back) := by
  have before : ∀ c ∈ back.reverse, (c != '.') = true := by
    intro c member
    rw [List.mem_reverse] at member
    exact bne_iff_ne.mpr fun same => plain (same ▸ member)
  have after : (front ++ '.' :: back).reverse = back.reverse ++ '.' :: front.reverse := by
    rw [List.reverse_append, List.reverse_cons, List.append_assoc, List.singleton_append]
  have rest : (front ++ '.' :: back).reverse.dropWhile (· != '.') = '.' :: front.reverse := by
    rw [after, List.dropWhile_append_of_pos before]
    rfl
  have taken : (front ++ '.' :: back).reverse.takeWhile (· != '.') = back.reverse := by
    rw [after, List.takeWhile_append_of_pos before, List.takeWhile_cons_of_neg (by decide),
      List.append_nil]
  have notUp : String.ofList (front ++ '.' :: back) ≠ ".." := by
    intro same
    have chars : front ++ '.' :: back = "..".toList := by
      rw [← same, String.toList_ofList]
    have size : (front ++ '.' :: back).length = 2 := congrArg List.length chars
    have one : 0 < front.length := List.length_pos_iff.mpr filled
    have two : 0 < back.length := List.length_pos_iff.mpr long
    rw [List.length_append, List.length_cons] at size
    omega
  unfold extension
  dsimp only
  rw [String.toList_ofList, rest, taken, List.reverse_reverse, if_neg]
  rintro (none | dot | up)
  · cases none
  · exact filled (List.reverse_eq_nil_iff.mp (List.cons.inj dot).2)
  · exact notUp up

theorem entryName_isEntry {jobId : JobId} (filled : jobId ≠ "") : IsEntry (entryName jobId) := by
  have chars : jobId.toList ≠ [] := fun none => filled (String.toList_eq_nil_iff.mp none)
  have named : entryName jobId = String.ofList (jobId.toList ++ '.' :: "json".toList) := by
    rw [String.ofList_append, String.ofList_toList]
    rfl
  unfold IsEntry
  rw [named, extension_append chars (by decide) (by decide)]
  rfl

theorem entryName_inj {jobId jobId' : JobId} (same : entryName jobId = entryName jobId') :
    jobId = jobId' :=
  String.append_left_inj ".json" |>.mp same

/-- The characters of a scratch name, up to the number of the write. -/
def tmpFront (jobId : JobId) (pid : ℕ) : List Char :=
  ("." ++ jobId ++ "." ++ toString pid).toList

theorem tmpName_eq (jobId : JobId) (pid n : ℕ) :
    tmpName jobId pid n =
      String.ofList (tmpFront jobId pid ++ '.' :: (toString n).toList) ++ ".tmp" := by
  have dotted : String.ofList ('.' :: (toString n).toList) = "." ++ toString n := by
    rw [← List.singleton_append, String.ofList_append, String.ofList_toList]
  unfold tmpName tmpFront
  rw [String.ofList_append, String.ofList_toList, dotted, ← String.append_assoc]

theorem tmpName_hidden (jobId : JobId) (pid n : ℕ) : ¬ IsEntry (tmpName jobId pid n) := by
  have named : tmpName jobId pid n = String.ofList
      ((tmpFront jobId pid ++ '.' :: (toString n).toList) ++ '.' :: "tmp".toList) := by
    rw [tmpName_eq, @String.ofList_append (tmpFront jobId pid ++ _)]
    rfl
  unfold IsEntry
  rw [named, extension_append (by simp) (by decide) (by decide)]
  decide

/-- Two writes with different numbers have different scratch files. -/
theorem tmpName_number {jobId jobId' : JobId} {pid pid' n n' : ℕ}
    (same : tmpName jobId pid n = tmpName jobId' pid' n') : n = n' := by
  rw [tmpName_eq, tmpName_eq] at same
  have fronts := (String.append_left_inj ".tmp").mp same
  have digits : ∀ m : ℕ, '.' ∉ (toString m).toList ∧ (toString m).toList ≠ [] := by
    intro m
    rw [Nat.toString_eq_repr, Nat.toList_repr]
    refine ⟨fun dot => ?_, Nat.toDigits_ne_nil⟩
    have digit := Nat.isDigit_of_mem_toDigits (by decide) (by decide) dot
    exact absurd digit (by decide)
  have extensions := congrArg extension fronts
  have filled : ∀ (j : JobId) (p : ℕ), tmpFront j p ≠ [] := by
    intro j p
    unfold tmpFront
    simp
  rw [extension_append (filled _ _) (digits n).1 (digits n).2,
    extension_append (filled _ _) (digits n').1 (digits n').2, Option.some.injEq,
    String.ofList_toList, String.ofList_toList] at extensions
  exact Secrets.toString_inj extensions

/-! ### The journal -/

/-- Why the journal could not do what was asked. -/
inductive JournalError
  | write (jobId detail : String)
  | read (detail : String)
  deriving DecidableEq, Repr

/-- `serde_json` for an intent: what is written can be read back. -/
structure Codec where
  toVec : JobIntent → List UInt8
  fromSlice : List UInt8 → Except String JobIntent
  fromSlice_toVec : ∀ intent, fromSlice (toVec intent) = .ok intent

/-- A call of the journal. -/
inductive Call
  | record (intent : JobIntent)
  | forget (jobId : JobId)
  deriving DecidableEq, Repr

def Call.jobId : Call → JobId
  | .record intent => intent.jobId
  | .forget jobId => jobId

/-- What the system answers a call of its own: how much it wrote, if it was asked to write, or its
error. -/
inductive Reply
  | ok (written : ℕ)
  | err (why : String)
  deriving DecidableEq, Repr

/-- Where a thread is: the system call it makes next. -/
inductive Frame
  | numbering (bytes : List UInt8)
  | creating (n : ℕ) (bytes : List UInt8)
  | writing (n file : ℕ) (left : List UInt8)
  | syncing (n file : ℕ)
  | publishing (n : ℕ)
  | removing (n : ℕ) (error : JournalError)
  | unlinking
  | returning (result : Except JournalError Unit)
  | done (result : Except JournalError Unit)
  | cut

/-- The number of the scratch file a thread has. -/
def Frame.number : Frame → Option ℕ
  | .creating n _ => some n
  | .writing n _ _ => some n
  | .syncing n _ => some n
  | .publishing n => some n
  | .removing n _ => some n
  | _ => none

structure Thread where
  call : Call
  frame : Frame

/-- The process is gone, and its calls with it. -/
def Thread.kill (t : Thread) : Thread :=
  match t.frame with
  | .done _ => t
  | _ => { t with frame := .cut }

/-- The directory, the counter of scratch names, the process, and every thread there ever was. -/
structure FileJournal where
  disk : Disk String UInt8
  seq : ℕ
  pid : ℕ
  threads : List Thread

namespace FileJournal

def new (pid : ℕ) : FileJournal where
  disk := .empty
  seq := 0
  pid := pid
  threads := []

section Model

variable (codec : Codec) (dir : String)

/-- `entry_path`: whether the job has a file at all. -/
def entryPath (jobId : JobId) : Except JournalError String :=
  match checkPathSegment jobId with
  | .ok () => .ok (entryName jobId)
  | .error why =>
    .error (.write (sanitizeSummary jobId 80) ("not a usable file name: " ++ why))

/-- A call up to its first system call. -/
def begin (call : Call) : Thread where
  call := call
  frame :=
    match entryPath call.jobId, call with
    | .ok _, .record intent => .numbering (codec.toVec intent)
    | .ok _, .forget _ => .unlinking
    | .error e, .record _ => .returning (.error e)
    | .error _, .forget _ => .returning (.ok ())

/-- `write_all`, with so much left to write. -/
def writeAll (n file : ℕ) (left : List UInt8) : Frame :=
  if left = [] then .syncing n file else .writing n file left

/-- The same after one write, which is an error if nothing was written. -/
def afterWrite (jobId : JobId) (n file : ℕ) (left : List UInt8) (written : ℕ) : Frame :=
  if written = 0 then .removing n (.write jobId "failed to write whole buffer")
  else writeAll n file (left.drop written)

/-- One system call of a thread, its look at the counter, or its return. -/
def turn (s : FileJournal) (call : Call) (frame : Frame) (reply : Reply) :
    FileJournal × Frame :=
  match frame, reply with
  | .numbering bytes, _ => ({ s with seq := s.seq + 1 }, .creating s.seq bytes)
  | .creating n bytes, .ok _ =>
    ({ s with disk := s.disk.create (tmpName call.jobId s.pid n) },
      writeAll n (s.disk.opened (tmpName call.jobId s.pid n)) bytes)
  | .creating _ _, .err why => (s, .returning (.error (.write call.jobId why)))
  | .writing n file left, .ok written =>
    ({ s with disk := s.disk.write file (left.take written) },
      afterWrite call.jobId n file left written)
  | .writing n _ _, .err why => (s, .removing n (.write call.jobId why))
  | .syncing n file, .ok _ => ({ s with disk := s.disk.sync file }, .publishing n)
  | .syncing n _, .err why => (s, .removing n (.write call.jobId why))
  | .publishing n, .ok _ =>
    ({ s with disk := s.disk.rename (tmpName call.jobId s.pid n) (entryName call.jobId) },
      .returning (.ok ()))
  | .publishing n, .err why =>
    (s, .removing n (.write call.jobId
      ("could not publish " ++ dir ++ "/" ++ entryName call.jobId ++ ": " ++ why)))
  | .removing n e, .ok _ =>
    ({ s with disk := s.disk.unlink (tmpName call.jobId s.pid n) }, .returning (.error e))
  | .removing _ e, .err _ => (s, .returning (.error e))
  | .unlinking, .ok _ =>
    ({ s with disk := s.disk.unlink (entryName call.jobId) }, .returning (.ok ()))
  | .unlinking, .err _ => (s, .returning (.ok ()))
  | .returning result, _ => (s, .done result)
  | .done result, _ => (s, .done result)
  | .cut, _ => (s, .cut)

/-- What happens next: a call comes in, a thread makes its next system call, the process is started
again after it was killed, or after the power was lost. -/
inductive Label
  | call (call : Call)
  | turn (thread : ℕ) (reply : Reply)
  | killed (pid : ℕ)
  | powerLost (back : ℕ) (garbage : ℕ → List UInt8) (pid : ℕ)

/-- One step. A job id is minted in hex, so no call comes with one that has a `/`. -/
def step (s : FileJournal) : Label → FileJournal
  | .call call =>
    if '/' ∈ call.jobId.toList then s else { s with threads := s.threads ++ [begin codec call] }
  | .turn thread reply =>
    match s.threads[thread]? with
    | some t =>
      { (turn dir s t.call t.frame reply).1 with
        threads := s.threads.set thread ⟨t.call, (turn dir s t.call t.frame reply).2⟩ }
    | none => s
  | .killed pid => { s with seq := 0, pid := pid, threads := s.threads.map Thread.kill }
  | .powerLost back garbage pid =>
    { disk := s.disk.lose back garbage
      seq := 0
      pid := pid
      threads := s.threads.map Thread.kill }

/-- Every entry, as the next start reads it; `unreadable` are the files it fails to read. -/
def outstanding (s : FileJournal) (listed : Except String Unit) (unreadable : String → Bool) :
    Except JournalError (List JobIntent) :=
  match listed with
  | .error why => .error (.read ("could not list " ++ dir ++ ": " ++ why))
  | .ok () => .ok (s.disk.names.entries.filterMap fun e =>
      if IsEntry e.1 ∧ unreadable e.1 = false then
        (codec.fromSlice (s.disk.files e.2)).toOption
      else none)

end Model

end FileJournal

/-! ### The ledger -/

/-- What happens to the journal: a call takes effect, nothing does, or the power is lost. -/
inductive Happening
  | op (thread : ℕ) (call : Call)
  | nothing
  | lost (back : ℕ)
  deriving DecidableEq, Repr

/-- A journal, and the journals a loss of power may bring back. -/
structure Ledger where
  now : Journal
  past : List Journal

namespace Ledger

def new : Ledger := ⟨.new, []⟩

def all (l : Ledger) : List Journal :=
  l.now :: l.past

/-- What a call does to a journal. -/
def effect (journal : Journal) : Call → Journal
  | .record intent => journal.record intent
  | .forget jobId => journal.forget jobId

def happen (l : Ledger) : Happening → Ledger
  | .op _ call => ⟨effect l.now call, l.all⟩
  | .nothing => ⟨l.now, l.all⟩
  | .lost back => ⟨l.all[back]?.getD l.now, []⟩

end Ledger

namespace FileJournal

/-- What a system call of a thread does to the ledger: the call takes effect at its `rename` or its
`unlink`, when that succeeds. -/
def mark (thread : ℕ) (call : Call) : Frame → Reply → List Happening
  | .creating _ _, .ok _ => [.nothing]
  | .publishing _, .ok _ => [.op thread call]
  | .removing _ _, .ok _ => [.nothing]
  | .unlinking, .ok _ => [.op thread call]
  | _, _ => []

/-- What a step does to the ledger. -/
def marks (s : FileJournal) : Label → List Happening
  | .turn thread reply =>
    match s.threads[thread]? with
    | some t => mark thread t.call t.frame reply
    | none => []
  | .powerLost back _ _ => [.lost back]
  | _ => []

/-- What a run does to the ledger, step by step. -/
def history (codec : Codec) (dir : String) : FileJournal → List Label → List Happening
  | _, [] => []
  | s, l :: labels => marks s l ++ history codec dir (step codec dir s l) labels

/-- What a thread's call has done to the ledger. -/
def effectsOf (thread : ℕ) (happenings : List Happening) : List Call :=
  happenings.filterMap fun
    | .op thread' call => if thread' = thread then some call else none
    | _ => none

/-- The answer of a call is what it did: a recorded intent took effect once, one that was refused
never did, and dropping an entry never fails. -/
def Answers (call : Call) (result : Except JournalError Unit) (effects : List Call) : Prop :=
  match call, result with
  | .record _, .ok _ => effects = [call]
  | .record _, .error _ => effects = []
  | .forget _, .ok _ => effects = [] ∨ effects = [call]
  | .forget _, .error _ => False

/-- What a call has done, by how far it has come; a call that was cut off did all or nothing. -/
def Accounts (t : Thread) (effects : List Call) : Prop :=
  match t.frame with
  | .returning result => Answers t.call result effects
  | .done result => Answers t.call result effects
  | .cut => effects = [] ∨ effects = [t.call]
  | _ => effects = []

/-! ### What the directory holds -/

/-- A state of the directory holds the entries of a journal, and no others. -/
structure Holds (codec : Codec) (disk : Disk String UInt8) (names : Table String ℕ)
    (journal : Journal) : Prop where
  named : ∀ name file, IsEntry name → names.lookup name = some file →
    ∃ jobId, jobId ≠ "" ∧ name = entryName jobId
  reads : ∀ jobId, jobId ≠ "" →
    disk.readIn names (entryName jobId) = (journal.get jobId).map codec.toVec
  filled : ∀ jobId intent, journal.get jobId = some intent → jobId ≠ ""

theorem Holds.same {codec : Codec} {disk : Disk String UInt8} {names names' : Table String ℕ}
    {journal : Journal} (holds : Holds codec disk names journal)
    (same : ∀ name, IsEntry name → names'.lookup name = names.lookup name) :
    Holds codec disk names' journal where
  named := fun name file entry bound => holds.named name file entry (same name entry ▸ bound)
  reads := by
    intro jobId filled
    rw [← holds.reads jobId filled]
    exact congrArg (Option.map disk.files) (same _ (entryName_isEntry filled))
  filled := holds.filled

theorem Holds.kept {codec : Codec} {disk disk' : Disk String UInt8} {names : Table String ℕ}
    {journal : Journal} (holds : Holds codec disk names journal) (kept : disk.Kept IsEntry disk')
    (member : names ∈ disk.dirs) : Holds codec disk' names journal where
  named := holds.named
  reads := by
    intro jobId filled
    rw [← holds.reads jobId filled]
    exact kept.readIn member (entryName_isEntry filled)
  filled := holds.filled

/-- Every state of the directory holds the journal the ledger has for it. -/
def Mirrors (codec : Codec) (disk : Disk String UInt8) (l : Ledger) : Prop :=
  List.Forall₂ (Holds codec disk) disk.dirs l.all

theorem Mirrors.kept {codec : Codec} {disk disk' : Disk String UInt8} {l : Ledger}
    (mirrors : Mirrors codec disk l) (kept : disk.Kept IsEntry disk') :
    List.Forall₂ (Holds codec disk') disk.dirs l.all := by
  have zipped := mirrors
  unfold Mirrors at zipped
  rw [List.forall₂_iff_get] at zipped ⊢
  refine ⟨zipped.1, fun i before after => ?_⟩
  exact (zipped.2 i before after).kept kept (List.get_mem _ _)

end FileJournal

end HullCi.Server
