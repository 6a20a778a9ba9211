/-
**The content store: pins, use stamps and the sweep that removes trees.**

A tree lives at `trees/<tree_id>` in its tenant's scope, and its last use is stamped beside it. A
pin is a count in a table that all clones of the store share. Callers (`open`, `commit`, `pin`) and
sweeps (`reclaim`) run at once; every file-system call and every section under the table's lock is
one step, and a call may fail.

* `Caller`, `Sweep` — how far one call has come.
* `step` — the next step of any of them, and what holders of a pin do with it.
* `uses` — the uses stamped so far, as the stamps were written.

Times are nanoseconds; a stamp holds milliseconds. Blobs, and the trees' contents but for being
empty, play no part here.
-/

import HullCi.Base.Run
import HullCi.Base.Table

namespace HullCi.Fetch

open HullCi.Base

/-- `(tenant_scope, tree_id)`: the key the file system uses. -/
abbrev PinKey := String × String

/-- `millis_at`. -/
def millisAt (t : ℕ) : ℕ :=
  t / 1000000

/-- The instant a stamp stands for. -/
def stampTime (millis : ℕ) : ℕ :=
  millis * 1000000

/-- When a tree stops being worth keeping. -/
structure ReclaimPolicy where
  treeRetention : ℕ := 7 * 24 * 60 * 60 * 1000000000
  now : ℕ
  deriving DecidableEq, Repr

/-- What a caller asked for; a commit brings a staged tree, which may have no entry at all. -/
inductive Request
  | open'
  | commit (blank : Bool)
  | pin
  deriving DecidableEq, Repr

/-- What a caller does next. -/
inductive CallerPc
  | pin
  | isDir
  | link (blank : Bool)
  | rename (blank : Bool)
  | lostRace
  | useClock
  | useOpen (millis : ℕ)
  | useWrite (millis : ℕ)
  | holding (found : Bool)
  | dropGuard
  deriving DecidableEq, Repr

/-- A call of `open`, `commit` or `pin`, and the guard it holds or gave out. -/
structure Caller where
  request : Request
  key : PinKey
  pc : CallerPc := .pin
  clones : ℕ := 0
  deriving DecidableEq, Repr

/-- What a sweep does next. -/
inductive SweepPc
  | trees
  | lastUsed (treeId : String)
  | useClock (treeId : String)
  | useOpen (treeId : String) (millis : ℕ)
  | useWrite (treeId : String) (millis : ℕ)
  | evict (treeId : String) (used : ℕ) (seen : ℕ)
  | stamps
  | stampTree (treeId : String)
  | removeStamp (treeId : String)
  deriving DecidableEq, Repr

/-- A call of `reclaim`. -/
structure Sweep where
  scope : String
  policy : ReclaimPolicy
  pc : SweepPc := .trees
  deriving DecidableEq, Repr

/-- The store, as all its clones share it. -/
structure ContentStore where
  held : Table PinKey ℕ := ∅
  /-- The trees at their addresses, and whether each is an empty directory. -/
  trees : Table PinKey Bool := ∅
  /-- The stamps; `none` for one that holds no number. -/
  used : Table PinKey (Option ℕ) := ∅
  callers : Table ℕ Caller := ∅
  sweeps : Table ℕ Sweep := ∅
  clock : ℕ := 0
  uses : List (PinKey × ℕ) := []

namespace ContentStore

/-! ### The steps of one call -/

/-- `PinTable::lock`, then one more. -/
def addPin (held : Table PinKey ℕ) (key : PinKey) : Table PinKey ℕ :=
  held.insert key ((held.lookup key).getD 0 + 1)

/-- `PinGuard::drop`: an entry is removed rather than left at zero. -/
def dropPin (held : Table PinKey ℕ) (key : PinKey) : Table PinKey ℕ :=
  match held.lookup key with
  | none => held
  | some n => if n - 1 = 0 then held.erase key else held.insert key (n - 1)

/-- `is_dir` on a tree's address; a failing `stat` reads as absent. -/
def isDir (s : ContentStore) (key : PinKey) (ok : Bool) : Bool :=
  ok && (s.trees.lookup key).isSome

def goto (s : ContentStore) (t : ℕ) (c : Caller) (pc : CallerPc) : ContentStore :=
  { s with callers := s.callers.insert t { c with pc := pc } }

/-- The call returns its pin: on a tree it found, or on a mere address. -/
def giveOut (s : ContentStore) (t : ℕ) (c : Caller) (found : Bool) : ContentStore :=
  { s with callers := s.callers.insert t { c with pc := .holding found, clones := 1 } }

/-- A caller's next step; `ok` says whether its call of the file system succeeds. -/
def callerStep (s : ContentStore) (t : ℕ) (c : Caller) (ok : Bool) : ContentStore :=
  match c.pc with
  | .pin =>
    let s := { s with held := addPin s.held c.key }
    match c.request with
    | .pin => s.giveOut t c false
    | .open' | .commit _ => s.goto t c .isDir
  | .isDir =>
    if s.isDir c.key ok then s.goto t c .useClock
    else
      match c.request with
      | .commit blank => s.goto t c (.link blank)
      | .open' | .pin => s.goto t c .dropGuard
  | .link blank => s.goto t c (if ok then .rename blank else .dropGuard)
  | .rename blank =>
    -- A directory is renamed over nothing, or over an empty directory.
    if ok && (s.trees.lookup c.key).all id then
      goto { s with trees := s.trees.insert c.key blank } t c .useClock
    else s.goto t c .lostRace
  | .lostRace => s.goto t c (if s.isDir c.key ok then .useClock else .dropGuard)
  | .useClock => s.goto t c (.useOpen (millisAt s.clock))
  | .useOpen millis =>
    if ok then goto { s with used := s.used.insert c.key none } t c (.useWrite millis)
    else s.giveOut t c true
  | .useWrite millis =>
    if ok then
      giveOut { s with
        used := s.used.insert c.key (some millis)
        uses := s.uses ++ [(c.key, millis)] } t c true
    else s.giveOut t c true
  | .holding _ => s
  | .dropGuard => { s with held := dropPin s.held c.key, callers := s.callers.erase t }

/-- `TreePin::clone`. -/
def clonePin (s : ContentStore) (t : ℕ) (c : Caller) : ContentStore :=
  match c.pc with
  | .holding _ => { s with callers := s.callers.insert t { c with clones := c.clones + 1 } }
  | _ => s

/-- A clone is dropped; with the last one the guard goes. -/
def dropClone (s : ContentStore) (t : ℕ) (c : Caller) : ContentStore :=
  match c.pc with
  | .holding _ =>
    if c.clones ≤ 1 then s.goto t { c with clones := 0 } .dropGuard
    else { s with callers := s.callers.insert t { c with clones := c.clones - 1 } }
  | _ => s

/-! ### The steps of one sweep -/

def turn (s : ContentStore) (r : ℕ) (w : Sweep) (pc : SweepPc) : ContentStore :=
  { s with sweeps := s.sweeps.insert r { w with pc := pc } }

/-- `policy.now.duration_since(used)` is at least the retention. -/
def expired (policy : ReclaimPolicy) (used : ℕ) : Bool :=
  stampTime used ≤ policy.now && policy.treeRetention ≤ policy.now - stampTime used

/-- A sweep's next step. -/
def sweepStep (s : ContentStore) (r : ℕ) (w : Sweep) (ok : Bool) : ContentStore :=
  match w.pc with
  | .trees | .stamps => s
  | .lastUsed treeId =>
    match if ok then (s.used.lookup (w.scope, treeId)).join else none with
    | none => s.turn r w (.useClock treeId)
    | some used =>
      if expired w.policy used then s.turn r w (.evict treeId used s.uses.length)
      else s.turn r w .trees
  | .useClock treeId => s.turn r w (.useOpen treeId (millisAt s.clock))
  | .useOpen treeId millis =>
    if ok then
      turn { s with used := s.used.insert (w.scope, treeId) none } r w (.useWrite treeId millis)
    else s.turn r w .trees
  | .useWrite treeId millis =>
    if ok then turn { s with used := s.used.insert (w.scope, treeId) (some millis) } r w .trees
    else s.turn r w .trees
  | .evict treeId _ _ =>
    -- The pin check and the rename, under one lock.
    if (s.held.lookup (w.scope, treeId)).isSome then s.turn r w .trees
    else if ok then turn { s with trees := s.trees.erase (w.scope, treeId) } r w .trees
    else s.turn r w .trees
  | .stampTree treeId =>
    s.turn r w (if s.isDir (w.scope, treeId) ok then .stamps else .removeStamp treeId)
  | .removeStamp treeId =>
    if ok then turn { s with used := s.used.erase (w.scope, treeId) } r w .stamps
    else s.turn r w .stamps

/-- The loop of a sweep takes up an entry of its listing, which may be older than the moment. -/
def visit (s : ContentStore) (r : ℕ) (w : Sweep) (treeId : String) : ContentStore :=
  match w.pc with
  | .trees => s.turn r w (.lastUsed treeId)
  | .stamps => s.turn r w (.stampTree treeId)
  | _ => s

/-- The loop ends: the stamps follow the trees, and after them the sweep is over. -/
def finishLoop (s : ContentStore) (r : ℕ) (w : Sweep) : ContentStore :=
  match w.pc with
  | .trees => s.turn r w .stamps
  | .stamps => { s with sweeps := s.sweeps.erase r }
  | _ => s

/-! ### The steps of the store -/

/-- What happens next in the process. -/
inductive Act
  | call (t : ℕ) (request : Request) (key : PinKey)
  | caller (t : ℕ) (ok : Bool)
  | clone (t : ℕ)
  | drop (t : ℕ)
  | reclaim (r : ℕ) (scope : String) (policy : ReclaimPolicy)
  | visit (r : ℕ) (treeId : String)
  | sweep (r : ℕ) (ok : Bool)
  | finishLoop (r : ℕ)
  | tick (elapsed : ℕ)
  deriving DecidableEq, Repr

def onCaller (s : ContentStore) (t : ℕ) (f : Caller → ContentStore) : ContentStore :=
  match s.callers.lookup t with
  | none => s
  | some c => f c

def onSweep (s : ContentStore) (r : ℕ) (f : Sweep → ContentStore) : ContentStore :=
  match s.sweeps.lookup r with
  | none => s
  | some w => f w

/-- One atomic step; a call gets a name that is not in use. -/
def step (s : ContentStore) : Act → ContentStore
  | .call t request key =>
    if (s.callers.lookup t).isSome then s
    else { s with callers := s.callers.insert t { request := request, key := key } }
  | .caller t ok => s.onCaller t fun c => s.callerStep t c ok
  | .clone t => s.onCaller t fun c => s.clonePin t c
  | .drop t => s.onCaller t fun c => s.dropClone t c
  | .reclaim r scope policy =>
    if (s.sweeps.lookup r).isSome then s
    else { s with sweeps := s.sweeps.insert r { scope := scope, policy := policy } }
  | .visit r treeId => s.onSweep r fun w => s.visit r w treeId
  | .sweep r ok => s.onSweep r fun w => s.sweepStep r w ok
  | .finishLoop r => s.onSweep r fun w => s.finishLoop r w
  | .tick elapsed => { s with clock := s.clock + elapsed }

end ContentStore

/-! ### Pins -/

/-- The caller has a guard in the pin table. -/
def Caller.guards (c : Caller) : Bool :=
  c.pc != .pin

/-- The caller has found or published the tree, and its pin is not given up. -/
def Caller.shelters (c : Caller) : Bool :=
  match c.pc with
  | .useClock | .useOpen _ | .useWrite _ | .holding true => true
  | _ => false

end HullCi.Fetch
