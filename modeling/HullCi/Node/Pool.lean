/-
**The warm pool: sandboxes made before the job that uses them.**

A claim takes an idle member of an equal key, a refill makes one more, and every exchange with the
daemon lies between two sections under the lock. Here each section and each answer of the daemon is
one step of one task, and the tasks take turns in any order. A member is a value that is moved, so it
is known by the creation it came from.

* `Pooling.act` — what a task does next, phase by phase.
* `act_effect` — what one step can do to the members: make, file, take, drain, hand out.
* `within_caps_iff` — the pool keeps its caps, hands each member out once and for an equal key, and
  never has one idle again, exactly along the runs in which every member that is filed finds room.
-/

import HullCi.Base.Bag
import HullCi.Base.Run
import Mathlib.Data.List.MinMax

namespace HullCi.Node

open HullCi.Base

universe u

/-! ### The pool -/

/-- Members kept for each key, and across all keys. -/
structure PoolConfig where
  depth : ℕ := 0
  total : ℕ := 8
  deriving DecidableEq, Repr

def PoolConfig.enabled (config : PoolConfig) : Bool :=
  0 < config.depth && 0 < config.total

/-- A sandbox made before its job: the key is the recipe it was made from. -/
structure PoolMember (K : Type u) where
  key : K
  born : ℕ
  deriving DecidableEq, Repr

/-- An idle member, the key it is filed under, and its place in the order of eviction. -/
structure Idle (K : Type u) where
  key : K
  member : PoolMember K
  seq : ℕ
  deriving DecidableEq, Repr

structure PoolStats where
  warmed : ℕ := 0
  hits : ℕ := 0
  misses : ℕ := 0
  retired : ℕ := 0
  warmFailures : ℕ := 0
  claimFailures : ℕ := 0
  keyMismatches : ℕ := 0
  deriving DecidableEq, Repr

structure SandboxPool (K : Type u) where
  config : PoolConfig
  idle : List (Idle K)
  stats : PoolStats
  seq : ℕ
  deriving DecidableEq, Repr

variable {K : Type u} [DecidableEq K]

namespace SandboxPool

def new (config : PoolConfig) : SandboxPool K :=
  ⟨config, [], {}, 0⟩

/-- Remove the first idle member filed under an equal key. -/
def takeMatching (pool : SandboxPool K) (key : K) : Option (Idle K × SandboxPool K) :=
  (pool.idle.find? fun i => i.key = key).map fun found =>
    (found, { pool with idle := pool.idle.eraseP fun i => i.key = key })

def idleFor (pool : SandboxPool K) (key : K) : ℕ :=
  pool.idle.countP fun i => i.key = key

/-- The oldest idle member of some other key. -/
def victim (pool : SandboxPool K) (key : K) : Option (Idle K) :=
  (pool.idle.filter fun i => i.key ≠ key).argmin Idle.seq

def count (pool : SandboxPool K) (f : PoolStats → PoolStats) : SandboxPool K :=
  { pool with stats := f pool.stats }

end SandboxPool

/-! ### Calls under way -/

/-- What follows when a member has been destroyed. -/
inductive Rest (K : Type u)
  | claim (key : K)
  | create (key : K)
  | failed
  | drain (left : List (Idle K))
  | done
  deriving DecidableEq, Repr

/-- A call on the pool, at its next section or at the daemon. -/
inductive Task (K : Type u)
  /-- Before `take_matching`. -/
  | claiming (key : K)
  /-- Asking whether the member that was taken is still running. -/
  | checking (key : K) (member : PoolMember K)
  /-- Before `idle_for`. -/
  | refilling (key : K)
  /-- Before `make_room`. -/
  | makingRoom (key : K)
  /-- Making the directory and the container. -/
  | creating (key : K)
  | starting (key : K) (member : PoolMember K)
  | watching (key : K) (member : PoolMember K)
  /-- Before the sequence number is drawn. -/
  | numbering (key : K) (member : PoolMember K)
  /-- Before the member is pushed. -/
  | filing (key : K) (member : PoolMember K) (seq : ℕ)
  /-- Before the idle members are taken away. -/
  | draining
  /-- Removing a container and its directory. -/
  | discarding (member : PoolMember K) (rest : Rest K)
  deriving DecidableEq, Repr

/-- What the daemon says: it did (or it runs), it did not, or it could not be asked. -/
inductive Answer
  | good
  | bad
  | error
  deriving DecidableEq, Repr

/-- A node's pool, the calls on it, and what has become of the members. -/
structure Pooling (K : Type u) where
  pool : SandboxPool K
  tasks : List (Task K)
  /-- Members handed out that their job still has. -/
  held : List (PoolMember K)
  /-- How many members were made. -/
  born : ℕ
  /-- Every member handed out, with the key it was asked for. -/
  handed : List (K × PoolMember K)
  /-- Every member that left the idle ones: claimed, evicted or drained. -/
  gone : List (PoolMember K)
  deriving DecidableEq, Repr

namespace Pooling

def start (config : PoolConfig) : Pooling K :=
  ⟨.new config, [], [], 0, [], []⟩

def counting (s : Pooling K) (f : PoolStats → PoolStats) : Pooling K :=
  { s with pool := s.pool.count f }

/-- A warm that could not be made: counted, and nothing else. -/
def warmFailed (s : Pooling K) : Pooling K :=
  s.counting fun stats => { stats with warmFailures := stats.warmFailures + 1 }

/-- What a task goes on with when the member it destroyed is gone. -/
def resume (s : Pooling K) : Rest K → Pooling K × List (Task K)
  | .claim key => (s, [.claiming key])
  | .create key => (s, [.creating key])
  | .failed => (s.warmFailed, [])
  | .drain [] => (s, [])
  | .drain (next :: left) => (s, [.discarding next.member (.drain left)])
  | .done => (s, [])

/-- The next step of a task, with the daemon's answer to it where it asks. -/
def act (s : Pooling K) (answer : Answer) : Task K → Pooling K × List (Task K)
  | .claiming key =>
    if !s.pool.config.enabled then (s, [])
    else
      match s.pool.takeMatching key with
      | none => (s.counting fun stats => { stats with misses := stats.misses + 1 }, [])
      | some (found, pool) =>
        let taken : Pooling K := { s with pool := pool, gone := s.gone ++ [found.member] }
        if found.member.key ≠ key then
          (taken.counting fun stats => { stats with keyMismatches := stats.keyMismatches + 1 },
            [.discarding found.member (.claim key)])
        else (taken, [.checking key found.member])
  | .checking key member =>
    if answer = .good then
      let given : Pooling K :=
        { s with held := s.held ++ [member], handed := s.handed ++ [(key, member)] }
      (given.counting fun stats => { stats with hits := stats.hits + 1 }, [])
    else
      (s.counting fun stats => { stats with claimFailures := stats.claimFailures + 1 },
        [.discarding member (.claim key)])
  | .refilling key =>
    if !s.pool.config.enabled then (s, [])
    else if s.pool.config.depth ≤ s.pool.idleFor key then (s, [])
    else (s, [.makingRoom key])
  | .makingRoom key =>
    if s.pool.idle.length < s.pool.config.total then (s, [.creating key])
    else
      match s.pool.victim key with
      | none => (s.warmFailed, [])
      | some evicted =>
        ({ s with
            pool := { s.pool with idle := s.pool.idle.erase evicted }
            gone := s.gone ++ [evicted.member] },
          [.discarding evicted.member (.create key)])
  | .creating key =>
    if answer = .good then
      ({ s with born := s.born + 1 }, [.starting key ⟨key, s.born⟩])
    else (s.warmFailed, [])
  | .starting key member =>
    match answer with
    | .good => (s, [.watching key member])
    | .bad => (s, [.discarding member .failed])
    | .error => (s.warmFailed, [])
  | .watching key member =>
    if answer = .good then (s, [.numbering key member])
    else (s, [.discarding member .failed])
  | .numbering key member =>
    ({ s with pool := { s.pool with seq := s.pool.seq + 1 } }, [.filing key member s.pool.seq])
  | .filing key member seq =>
    let filed : Pooling K :=
      { s with pool := { s.pool with idle := s.pool.idle ++ [⟨key, member, seq⟩] } }
    (filed.counting fun stats => { stats with warmed := stats.warmed + 1 }, [])
  | .draining =>
    let taken : Pooling K :=
      { s with
        pool := { s.pool with idle := [] }
        gone := s.gone ++ s.pool.idle.map Idle.member }
    taken.resume (.drain s.pool.idle)
  | .discarding _ rest =>
    (s.counting fun stats => { stats with retired := stats.retired + 1 }).resume rest

end Pooling

/-- A call begins, or a task has its turn. -/
inductive Label (K : Type u)
  | claim (key : K)
  | refill (key : K)
  | drain
  /-- `discard_claimed`, on one of the members held. -/
  | discardClaimed (held : ℕ)
  | turn (task : ℕ) (answer : Answer)
  deriving DecidableEq, Repr

namespace Pooling

def called (s : Pooling K) (task : Task K) : Pooling K :=
  { s with tasks := s.tasks ++ [task] }

def step (s : Pooling K) : Label K → Pooling K
  | .claim key => s.called (.claiming key)
  | .refill key => s.called (.refilling key)
  | .drain => s.called .draining
  | .discardClaimed i =>
    match s.held[i]? with
    | none => s
    | some member =>
      let given : Pooling K := { s with held := s.held.eraseIdx i }
      (given.counting fun stats => { stats with claimFailures := stats.claimFailures + 1 }).called
        (.discarding member .done)
  | .turn i answer =>
    match s.tasks[i]? with
    | none => s
    | some task =>
      let after := s.act answer task
      { after.1 with tasks := s.tasks.take i ++ after.2 ++ s.tasks.drop (i + 1) }

end Pooling

/-! ### What must hold -/

/-- The caps of the configuration: for each key, and over all keys. -/
structure WithinCaps (s : Pooling K) : Prop where
  depth : ∀ key, s.pool.idleFor key ≤ s.pool.config.depth
  total : s.pool.idle.length ≤ s.pool.config.total

/-- Each member is handed out at most once, for an equal key, and one that was handed out, evicted
or drained is not idle. -/
structure SingleUse (s : Pooling K) : Prop where
  once : (s.handed.map fun h => h.2.born).Nodup
  equal : ∀ h ∈ s.handed, h.2.key = h.1
  left : ∀ h ∈ s.handed, h.2 ∈ s.gone
  never : ∀ m ∈ s.gone, ∀ i ∈ s.pool.idle, i.member.born ≠ m.born

/-- Where a member is filed, its key has fewer than its depth, and the pool fewer than its total. -/
def FindsRoom (s : Pooling K) : Label K → Prop
  | .turn i _ =>
    match s.tasks[i]? with
    | some (.filing key _ _) =>
      s.pool.idleFor key < s.pool.config.depth ∧ s.pool.idle.length < s.pool.config.total
    | _ => True
  | _ => True

/-! ### One step -/

namespace Task

/-- The member a task is about to file. -/
def brings : Task K → Option (PoolMember K)
  | .starting _ member => some member
  | .watching _ member => some member
  | .numbering _ member => some member
  | .filing _ member _ => some member
  | _ => none

/-- The member a task is about to hand out. -/
def hands : Task K → Option (PoolMember K)
  | .checking _ member => some member
  | _ => none

/-- The member a task is about to hand out is of the key it was asked for. -/
def Fair : Task K → Prop
  | .checking key member => member.key = key
  | _ => True

/-- A task that has no member to file or to hand out. -/
def Idles (t : Task K) : Prop :=
  t.brings = none ∧ t.hands = none ∧ t.Fair

/-- Whether the task is about to file the member of that creation. -/
def bringsBorn (b : ℕ) (t : Task K) : Bool :=
  t.brings.any (·.born == b)

/-- Whether the task is about to hand out the member of that creation. -/
def handsBorn (b : ℕ) (t : Task K) : Bool :=
  t.hands.any (·.born == b)

end Task

/-- What a step of a task does to the members. -/
inductive Effect (s : Pooling K) (task : Task K) : Pooling K → List (Task K) → Prop
  /-- The members stay where they are; what the task had it still has, or nobody has. -/
  | still {s' : Pooling K} {next : List (Task K)} (idle : s'.pool.idle = s.pool.idle)
    (born : s'.born = s.born) (handed : s'.handed = s.handed) (gone : s'.gone = s.gone)
    (few : next.length ≤ 1)
    (kept : ∀ t ∈ next, t.Idles ∨ (t.brings = task.brings ∧ t.hands = none ∧ (task.Fair → t.Fair))) :
    Effect s task s' next
  /-- An idle member is taken, and checked before it is handed out, or destroyed. -/
  | takes {s' : Pooling K} {next : List (Task K)} (found : Idle K)
    (idle : s.pool.idle.Perm (found :: s'.pool.idle)) (born : s'.born = s.born)
    (handed : s'.handed = s.handed) (gone : s'.gone = s.gone ++ [found.member])
    (few : next.length ≤ 1)
    (given : ∀ t ∈ next, t.Idles ∨ (t.brings = none ∧ t.hands = some found.member ∧ t.Fair)) :
    Effect s task s' next
  /-- All idle members are taken, to be destroyed. -/
  | drains {s' : Pooling K} {next : List (Task K)} (idle : s'.pool.idle = [])
    (born : s'.born = s.born) (handed : s'.handed = s.handed)
    (gone : s'.gone = s.gone ++ s.pool.idle.map Idle.member) (given : ∀ t ∈ next, t.Idles) :
    Effect s task s' next
  /-- A member is made. -/
  | makes {s' : Pooling K} (key : K) (idle : s'.pool.idle = s.pool.idle)
    (born : s'.born = s.born + 1) (handed : s'.handed = s.handed) (gone : s'.gone = s.gone) :
    Effect s task s' [.starting key ⟨key, s.born⟩]
  /-- The member of the task is filed. -/
  | files {s' : Pooling K} {key : K} {member : PoolMember K} {seq : ℕ}
    (filing : task = .filing key member seq)
    (idle : s'.pool.idle = s.pool.idle ++ [⟨key, member, seq⟩]) (born : s'.born = s.born)
    (handed : s'.handed = s.handed) (gone : s'.gone = s.gone) : Effect s task s' []
  /-- The member of the task is handed out. -/
  | gives {s' : Pooling K} {key : K} {member : PoolMember K} (checking : task = .checking key member)
    (idle : s'.pool.idle = s.pool.idle) (born : s'.born = s.born)
    (handed : s'.handed = s.handed ++ [(key, member)]) (gone : s'.gone = s.gone) :
    Effect s task s' []

omit [DecidableEq K] in
theorem Effect.withTasks {s s' : Pooling K} {task : Task K} {next : List (Task K)}
    (effect : Effect s task s' next) (tasks : List (Task K)) :
    Effect s task { s' with tasks := tasks } next := by
  cases effect with
  | still idle born handed gone few kept => exact .still idle born handed gone few kept
  | takes found idle born handed gone few given =>
    exact .takes found idle born handed gone few given
  | drains idle born handed gone given => exact .drains idle born handed gone given
  | makes key idle born handed gone => exact .makes key idle born handed gone
  | files filing idle born handed gone => exact .files filing idle born handed gone
  | gives checking idle born handed gone => exact .gives checking idle born handed gone

theorem takeMatching_perm {pool pool' : SandboxPool K} {key : K} {found : Idle K}
    (taken : pool.takeMatching key = some (found, pool')) :
    pool.idle.Perm (found :: pool'.idle) ∧ pool'.config = pool.config := by
  obtain ⟨i, first, same⟩ := Option.map_eq_some_iff.mp taken
  cases same
  refine ⟨?_, rfl⟩
  obtain ⟨holds, front, back, whole, before⟩ := List.find?_eq_some_iff_append.mp first
  have removed : pool.idle.eraseP (fun i => i.key = key) = front ++ back := by
    rw [whole, List.eraseP_append_right _ (by simpa using before), List.eraseP_cons_of_pos (by exact holds)]
  rw [removed, whole]
  exact List.perm_middle

theorem victim_mem {pool : SandboxPool K} {key : K} {evicted : Idle K}
    (oldest : pool.victim key = some evicted) : evicted ∈ pool.idle :=
  (List.mem_filter.mp (List.argmin_mem oldest)).1

omit [DecidableEq K] in
/-- What follows a destroyed member has no member to file or to hand out. -/
theorem resume_idles (s : Pooling K) (rest : Rest K) :
    (s.resume rest).2.length ≤ 1 ∧ ∀ t ∈ (s.resume rest).2, t.Idles := by
  have single : ∀ {t : Task K}, t.Idles → [t].length ≤ 1 ∧ ∀ t' ∈ [t], t'.Idles := by
    intro t idles
    refine ⟨le_rfl, fun t' member => ?_⟩
    rwa [List.mem_singleton.mp member]
  have none : ([] : List (Task K)).length ≤ 1 ∧ ∀ t' ∈ ([] : List (Task K)), t'.Idles :=
    ⟨Nat.zero_le 1, fun t' member => nomatch member⟩
  rcases rest with key | key | - | (- | ⟨next, left⟩) | -
  · exact single ⟨rfl, rfl, trivial⟩
  · exact single ⟨rfl, rfl, trivial⟩
  · exact none
  · exact none
  · exact single ⟨rfl, rfl, trivial⟩
  · exact none

omit [DecidableEq K] in
theorem resume_same (s : Pooling K) (rest : Rest K) :
    (s.resume rest).1.pool.idle = s.pool.idle ∧ (s.resume rest).1.born = s.born ∧
      (s.resume rest).1.handed = s.handed ∧ (s.resume rest).1.gone = s.gone ∧
        (s.resume rest).1.pool.config = s.pool.config := by
  rcases rest with key | key | - | (- | ⟨next, left⟩) | - <;> exact ⟨rfl, rfl, rfl, rfl, rfl⟩

theorem act_config (s : Pooling K) (answer : Answer) (task : Task K) :
    (s.act answer task).1.pool.config = s.pool.config := by
  cases task with
  | claiming key =>
    unfold Pooling.act
    simp only
    split
    · rfl
    · split
      · rfl
      · rename_i found pool taken
        split <;> exact (takeMatching_perm taken).2
  | checking key member =>
    unfold Pooling.act
    simp only
    split <;> rfl
  | refilling key =>
    unfold Pooling.act
    simp only
    split_ifs <;> rfl
  | makingRoom key =>
    unfold Pooling.act
    simp only
    split
    · rfl
    · split <;> rfl
  | creating key =>
    unfold Pooling.act
    simp only
    split <;> rfl
  | starting key member => cases answer <;> rfl
  | watching key member =>
    unfold Pooling.act
    simp only
    split <;> rfl
  | numbering key member => rfl
  | filing key member seq => rfl
  | draining => exact (resume_same _ _).2.2.2.2
  | discarding member rest => exact (resume_same _ _).2.2.2.2

theorem act_effect (s : Pooling K) (answer : Answer) (task : Task K) :
    Effect s task (s.act answer task).1 (s.act answer task).2 := by
  have ended : ∀ {s' : Pooling K}, s'.pool.idle = s.pool.idle → s'.born = s.born →
      s'.handed = s.handed → s'.gone = s.gone → Effect s task s' [] :=
    fun idle born handed gone =>
      .still idle born handed gone (Nat.zero_le 1) fun t member => nomatch member
  have onward : ∀ {s' : Pooling K} {t : Task K}, s'.pool.idle = s.pool.idle → s'.born = s.born →
      s'.handed = s.handed → s'.gone = s.gone →
      t.Idles ∨ (t.brings = task.brings ∧ t.hands = none ∧ (task.Fair → t.Fair)) →
      Effect s task s' [t] := by
    intro s' t idle born handed gone kept
    refine .still idle born handed gone le_rfl fun t' member => ?_
    rwa [List.mem_singleton.mp member]
  cases task with
  | claiming key =>
    unfold Pooling.act
    simp only
    split
    · exact ended rfl rfl rfl rfl
    · split
      · exact ended rfl rfl rfl rfl
      · rename_i found pool taken
        have perm := (takeMatching_perm taken).1
        split
        · refine .takes found perm rfl rfl rfl le_rfl fun t member => .inl ?_
          rw [List.mem_singleton.mp member]
          exact ⟨rfl, rfl, trivial⟩
        · rename_i same
          refine .takes found perm rfl rfl rfl le_rfl fun t member => .inr ?_
          rw [List.mem_singleton.mp member]
          exact ⟨rfl, rfl, not_not.mp same⟩
  | checking key member =>
    unfold Pooling.act
    simp only
    split
    · exact .gives rfl rfl rfl rfl rfl
    · exact onward rfl rfl rfl rfl (.inl ⟨rfl, rfl, trivial⟩)
  | refilling key =>
    unfold Pooling.act
    simp only
    split_ifs
    · exact ended rfl rfl rfl rfl
    · exact ended rfl rfl rfl rfl
    · exact onward rfl rfl rfl rfl (.inl ⟨rfl, rfl, trivial⟩)
  | makingRoom key =>
    unfold Pooling.act
    simp only
    split
    · exact onward rfl rfl rfl rfl (.inl ⟨rfl, rfl, trivial⟩)
    · split
      · exact ended rfl rfl rfl rfl
      · rename_i evicted oldest
        refine .takes evicted (List.perm_cons_erase (victim_mem oldest)) rfl rfl rfl le_rfl
          fun t member => .inl ?_
        rw [List.mem_singleton.mp member]
        exact ⟨rfl, rfl, trivial⟩
  | creating key =>
    unfold Pooling.act
    simp only
    split
    · exact .makes key rfl rfl rfl rfl
    · exact ended rfl rfl rfl rfl
  | starting key member =>
    cases answer with
    | good => exact onward rfl rfl rfl rfl (.inr ⟨rfl, rfl, id⟩)
    | bad => exact onward rfl rfl rfl rfl (.inl ⟨rfl, rfl, trivial⟩)
    | error => exact ended rfl rfl rfl rfl
  | watching key member =>
    unfold Pooling.act
    simp only
    split
    · exact onward rfl rfl rfl rfl (.inr ⟨rfl, rfl, id⟩)
    · exact onward rfl rfl rfl rfl (.inl ⟨rfl, rfl, trivial⟩)
  | numbering key member => exact onward rfl rfl rfl rfl (.inr ⟨rfl, rfl, id⟩)
  | filing key member seq => exact .files rfl rfl rfl rfl rfl
  | draining =>
    obtain ⟨idle, born, handed, gone, -⟩ := resume_same
      { s with
        pool := { s.pool with idle := [] }
        gone := s.gone ++ s.pool.idle.map Idle.member } (.drain s.pool.idle)
    exact .drains idle born handed gone (resume_idles _ _).2
  | discarding member rest =>
    obtain ⟨idle, born, handed, gone, -⟩ := resume_same
      (s.counting fun stats => { stats with retired := stats.retired + 1 }) rest
    exact .still idle born handed gone (resume_idles _ _).1 fun t member =>
      .inl ((resume_idles _ _).2 t member)

/-! ### Every member in one place -/

/-- What holds of the members in every state: each is on its way to the pool, idle in it, or gone
from it, and one that is handed out is gone. -/
structure Kept (s : Pooling K) : Prop where
  fair : ∀ t ∈ s.tasks, t.Fair
  had : ∀ t ∈ s.tasks, ∀ m ∈ t.hands, m ∈ s.gone
  equal : ∀ h ∈ s.handed, h.2.key = h.1
  left : ∀ h ∈ s.handed, h.2 ∈ s.gone
  place : ∀ b, s.tasks.countP (Task.bringsBorn b) + s.pool.idle.countP (·.member.born == b) +
    s.gone.countP (·.born == b) ≤ if b < s.born then 1 else 0
  given : ∀ b, s.tasks.countP (Task.handsBorn b) + s.handed.countP (·.2.born == b) ≤
    s.gone.countP (·.born == b)

omit [DecidableEq K] in
theorem Kept.singleUse {s : Pooling K} (kept : Kept s) : SingleUse s where
  equal := kept.equal
  left := kept.left
  once := by
    rw [List.nodup_iff_count]
    intro b
    have count : (s.handed.map fun h => h.2.born).count b = s.handed.countP (·.2.born == b) := by
      rw [List.count, List.countP_map]
      rfl
    have place := kept.place b
    have given := kept.given b
    rw [count]
    split at place <;> omega
  never := by
    intro m member i idle same
    have one : 0 < s.gone.countP (·.born == m.born) :=
      List.countP_pos_iff.mpr ⟨m, member, by simp⟩
    have two : 0 < s.pool.idle.countP (·.member.born == m.born) :=
      List.countP_pos_iff.mpr ⟨i, idle, by simp [same]⟩
    have place := kept.place m.born
    split at place <;> omega

omit [DecidableEq K] in
/-- At most one task, that has nothing, or what the task before had. -/
theorem countP_next {p : Task K → Bool} {task : Task K} {next : List (Task K)}
    (few : next.length ≤ 1) (kept : ∀ t ∈ next, p t = true → p task = true) :
    next.countP p ≤ [task].countP p := by
  rcases next with - | ⟨t, - | ⟨t', more⟩⟩
  · simp
  · rw [List.countP_singleton, List.countP_singleton]
    split
    · rename_i holds
      rw [if_pos (kept t List.mem_cons_self holds)]
    · exact Nat.zero_le _
  · simp at few

omit [DecidableEq K] in
theorem countP_next_none {p : Task K → Bool} {next : List (Task K)}
    (none : ∀ t ∈ next, p t = false) : next.countP p = 0 :=
  List.countP_eq_zero.mpr fun t member => by simp [none t member]

omit [DecidableEq K] in
theorem Task.Idles.bringsBorn {t : Task K} (idles : t.Idles) (b : ℕ) : t.bringsBorn b = false := by
  rw [Task.bringsBorn, idles.1]
  rfl

omit [DecidableEq K] in
theorem Task.Idles.handsBorn {t : Task K} (idles : t.Idles) (b : ℕ) : t.handsBorn b = false := by
  rw [Task.handsBorn, idles.2.1]
  rfl

omit [DecidableEq K] in
/-- **A step of a task keeps each member in one place.** -/
theorem Kept.turn {s s' : Pooling K} {task : Task K} {next others : List (Task K)}
    (kept : Kept s) (effect : Effect s task s' next)
    (r : Replaces task next others s.tasks s'.tasks) : Kept s' := by
  have mine : task ∈ s.tasks := r.mem_before
  have fairAfter (new : ∀ t ∈ next, t.Fair) : ∀ t ∈ s'.tasks, t.Fair := fun t member =>
    (r.mem_after member).elim (new t) (kept.fair t)
  have hadAfter (more : s.gone ⊆ s'.gone) (new : ∀ t ∈ next, ∀ m ∈ t.hands, m ∈ s'.gone) :
      ∀ t ∈ s'.tasks, ∀ m ∈ t.hands, m ∈ s'.gone := fun t member m has =>
    (r.mem_after member).elim (fun fresh => new t fresh m has) fun before =>
      more (kept.had t before m has)
  have place := kept.place
  have given := kept.given
  have bringing := fun b => r.count (Task.bringsBorn b)
  have handing := fun b => r.count (Task.handsBorn b)
  cases effect with
  | still idle born handed gone few same =>
    refine ⟨fairAfter fun t new => ?_, hadAfter (gone ▸ List.Subset.refl _) fun t new m has => ?_,
      handed ▸ kept.equal, handed ▸ gone ▸ kept.left, fun b => ?_, fun b => ?_⟩
    · rcases same t new with idles | ⟨-, -, fair⟩
      · exact idles.2.2
      · exact fair (kept.fair task mine)
    · rcases same t new with idles | ⟨-, none, -⟩
      · rw [idles.2.1] at has
        cases has
      · rw [none] at has
        cases has
    · have fewer : next.countP (Task.bringsBorn b) ≤ [task].countP (Task.bringsBorn b) := by
        refine countP_next few fun t member holds => ?_
        rcases same t member with idles | ⟨brings, -, -⟩
        · rw [idles.bringsBorn] at holds
          cases holds
        · rwa [Task.bringsBorn, ← brings]
      have := bringing b
      have := place b
      rw [idle, born, gone]
      omega
    · have none : next.countP (Task.handsBorn b) = 0 := by
        refine countP_next_none fun t member => ?_
        rcases same t member with idles | ⟨-, none, -⟩
        · exact idles.handsBorn b
        · rw [Task.handsBorn, none]
          rfl
      have := handing b
      have := given b
      rw [handed, gone]
      omega
  | takes found idle born handed gone few same =>
    refine ⟨fairAfter fun t new => ?_, hadAfter (gone ▸ List.subset_append_left _ _)
      fun t new m has => ?_, handed ▸ kept.equal, fun h member => ?_, fun b => ?_, fun b => ?_⟩
    · exact (same t new).elim (·.2.2) (·.2.2)
    · rcases same t new with idles | ⟨-, some, -⟩
      · rw [idles.2.1] at has
        cases has
      · rw [some] at has
        cases has
        rw [gone]
        exact List.mem_append_right _ (List.mem_singleton_self _)
    · rw [handed] at member
      rw [gone]
      exact List.mem_append_left _ (kept.left h member)
    · have none : next.countP (Task.bringsBorn b) = 0 := by
        refine countP_next_none fun t member => ?_
        rcases same t member with idles | ⟨none, -, -⟩
        · exact idles.bringsBorn b
        · rw [Task.bringsBorn, none]
          rfl
      have := bringing b
      have := place b
      have moved := idle.countP_eq (·.member.born == b)
      rw [List.countP_cons] at moved
      rw [born, gone, List.countP_append, List.countP_singleton]
      omega
    · have one : next.countP (Task.handsBorn b) ≤ [found.member].countP (·.born == b) := by
        rw [List.countP_singleton]
        split
        · exact List.countP_le_length.trans few
        · rename_i other
          refine (countP_next_none fun t member => ?_).le
          rcases same t member with idles | ⟨-, some, -⟩
          · exact idles.handsBorn b
          · rw [Task.handsBorn, some]
            simpa using other
      have := handing b
      have := given b
      rw [handed, gone, List.countP_append]
      omega
  | drains idle born handed gone same =>
    refine ⟨fairAfter fun t new => (same t new).2.2, hadAfter (gone ▸ List.subset_append_left _ _)
      fun t new m has => ?_, handed ▸ kept.equal, fun h member => ?_, fun b => ?_, fun b => ?_⟩
    · rw [(same t new).2.1] at has
      cases has
    · rw [handed] at member
      rw [gone]
      exact List.mem_append_left _ (kept.left h member)
    · have none := countP_next_none fun t member => (same t member).bringsBorn b
      have := bringing b
      have := place b
      have moved : (s.pool.idle.map Idle.member).countP (·.born == b)
          = s.pool.idle.countP (·.member.born == b) := List.countP_map
      rw [idle, born, gone, List.countP_append, List.countP_nil]
      omega
    · have none := countP_next_none fun t member => (same t member).handsBorn b
      have := handing b
      have := given b
      rw [handed, gone, List.countP_append]
      omega
  | makes key idle born handed gone =>
    refine ⟨fairAfter ?_, hadAfter (gone ▸ List.Subset.refl _) ?_, handed ▸ kept.equal,
      handed ▸ gone ▸ kept.left, fun b => ?_, fun b => ?_⟩
    · intro t new
      rw [List.mem_singleton.mp new]
      trivial
    · intro t new m has
      rw [List.mem_singleton.mp new] at has
      cases has
    · have one : [Task.starting key ⟨key, s.born⟩].countP (Task.bringsBorn b)
          = if s.born = b then 1 else 0 := by
        simp [Task.bringsBorn, Task.brings, List.countP_singleton]
      have brought := bringing b
      have before := place b
      rw [one] at brought
      rw [idle, born, gone]
      split at before <;> split at brought <;> split <;> omega
    · have none : [Task.starting key ⟨key, s.born⟩].countP (Task.handsBorn b) = 0 := rfl
      have := handing b
      have := given b
      rw [handed, gone]
      omega
  | @files key member seq filing idle born handed gone =>
    refine ⟨fairAfter (by simp), hadAfter (gone ▸ List.Subset.refl _) (by simp),
      handed ▸ kept.equal, handed ▸ gone ▸ kept.left, fun b => ?_, fun b => ?_⟩
    · have one : [task].countP (Task.bringsBorn b)
          = [(⟨key, member, seq⟩ : Idle K)].countP (·.member.born == b) := by
        rw [filing]
        simp [Task.bringsBorn, Task.brings, List.countP_singleton]
      have := bringing b
      have := place b
      rw [idle, born, gone, List.countP_append]
      rw [List.countP_nil] at *
      omega
    · have := handing b
      have := given b
      rw [handed, gone]
      rw [List.countP_nil] at *
      omega
  | @gives key member checking idle born handed gone =>
    have fair : member.key = key := by
      have := kept.fair task mine
      rwa [checking] at this
    have taken : member ∈ s.gone := kept.had task mine member (by rw [checking]; rfl)
    refine ⟨fairAfter (by simp), hadAfter (gone ▸ List.Subset.refl _) (by simp),
      fun h new => ?_, fun h new => ?_, fun b => ?_, fun b => ?_⟩
    · rw [handed] at new
      rcases List.mem_append.mp new with before | now
      · exact kept.equal h before
      · rw [List.mem_singleton.mp now]
        exact fair
    · rw [handed] at new
      rw [gone]
      rcases List.mem_append.mp new with before | now
      · exact kept.left h before
      · rw [List.mem_singleton.mp now]
        exact taken
    · have := bringing b
      have := place b
      rw [idle, born, gone]
      rw [List.countP_nil] at *
      omega
    · have one : [task].countP (Task.handsBorn b)
          = [(key, member)].countP (·.2.born == b) := by
        rw [checking]
        simp [Task.handsBorn, Task.hands, List.countP_singleton]
      have := handing b
      have := given b
      rw [handed, gone, List.countP_append]
      rw [List.countP_nil] at *
      omega

omit [DecidableEq K] in
/-- A call that begins has no member to file or to hand out. -/
theorem Kept.called {s : Pooling K} {task : Task K} (kept : Kept s) (idles : task.Idles) :
    Kept (s.called task) where
  fair := by
    intro t member
    rcases List.mem_append.mp member with before | now
    · exact kept.fair t before
    · rw [List.mem_singleton.mp now]
      exact idles.2.2
  had := by
    intro t member m has
    rcases List.mem_append.mp member with before | now
    · exact kept.had t before m has
    · rw [List.mem_singleton.mp now, idles.2.1] at has
      cases has
  equal := kept.equal
  left := kept.left
  place := by
    intro b
    have := kept.place b
    rw [Pooling.called, List.countP_append, List.countP_singleton, idles.bringsBorn]
    exact this
  given := by
    intro b
    have := kept.given b
    rw [Pooling.called, List.countP_append, List.countP_singleton, idles.handsBorn]
    exact this

omit [DecidableEq K] in
/-- The turn of a task puts what it goes on with in its place. -/
theorem replaces_turn {tasks next : List (Task K)} {i : ℕ} {task : Task K}
    (at' : tasks[i]? = some task) :
    Replaces task next (tasks.take i ++ tasks.drop (i + 1)) tasks
      (tasks.take i ++ next ++ tasks.drop (i + 1)) where
  before := by
    obtain ⟨inside, rfl⟩ := List.getElem?_eq_some_iff.mp at'
    calc tasks = tasks.take i ++ tasks[i] :: tasks.drop (i + 1) := by simp
      _ |>.Perm (tasks[i] :: (tasks.take i ++ tasks.drop (i + 1))) := List.perm_middle
  after := by
    rw [List.append_assoc]
    exact List.perm_append_comm_assoc _ _ _

theorem kept_step (s : Pooling K) (l : Label K) (kept : Kept s) : Kept (s.step l) := by
  cases l with
  | claim key => exact kept.called ⟨rfl, rfl, trivial⟩
  | refill key => exact kept.called ⟨rfl, rfl, trivial⟩
  | drain => exact kept.called ⟨rfl, rfl, trivial⟩
  | discardClaimed i =>
    unfold Pooling.step
    simp only
    split
    · exact kept
    · refine Kept.called ?_ ⟨rfl, rfl, trivial⟩
      exact ⟨kept.fair, kept.had, kept.equal, kept.left, kept.place, kept.given⟩
  | turn i answer =>
    unfold Pooling.step
    simp only
    split
    · exact kept
    · rename_i task at'
      exact kept.turn ((act_effect s answer task).withTasks _) (replaces_turn at')

omit [DecidableEq K] in
theorem kept_start (config : PoolConfig) : Kept (Pooling.start config : Pooling K) where
  fair := by simp [Pooling.start]
  had := by simp [Pooling.start]
  equal := by simp [Pooling.start]
  left := by simp [Pooling.start]
  place := by simp [Pooling.start, SandboxPool.new]
  given := by simp [Pooling.start]

/-! ### The caps -/

theorem WithinCaps.fewer {s s' : Pooling K} (within : WithinCaps s)
    (config : s'.pool.config = s.pool.config)
    (count : ∀ key, s'.pool.idleFor key ≤ s.pool.idleFor key)
    (length : s'.pool.idle.length ≤ s.pool.idle.length) : WithinCaps s' where
  depth key := config ▸ (count key).trans (within.depth key)
  total := config ▸ length.trans within.total

/-- The step of a task that files nothing stays within the caps. -/
theorem WithinCaps.turn {s s' : Pooling K} {task : Task K} {next : List (Task K)}
    (within : WithinCaps s) (config : s'.pool.config = s.pool.config)
    (effect : Effect s task s' next) (other : ∀ key member seq, task ≠ .filing key member seq) :
    WithinCaps s' := by
  cases effect with
  | still idle | makes _ idle | gives _ idle =>
    exact within.fewer config (fun key => by rw [SandboxPool.idleFor, idle]; rfl) (by rw [idle])
  | takes found idle =>
    refine within.fewer config (fun key => ?_) ?_
    · rw [SandboxPool.idleFor, SandboxPool.idleFor, idle.countP_eq, List.countP_cons]
      omega
    · rw [idle.length_eq, List.length_cons]
      omega
  | drains idle =>
    refine within.fewer config (fun key => ?_) ?_
    · rw [SandboxPool.idleFor, idle]
      exact Nat.zero_le _
    · rw [idle]
      exact Nat.zero_le _
  | files filing => exact absurd filing (other _ _ _)

/-- A member that is filed keeps the caps exactly where it finds room. -/
theorem within_filed {s : Pooling K} (within : WithinCaps s) (key : K) (member : PoolMember K)
    (seq : ℕ) (answer : Answer) (tasks : List (Task K)) :
    WithinCaps { (s.act answer (.filing key member seq)).1 with tasks := tasks } ↔
      s.pool.idleFor key < s.pool.config.depth ∧ s.pool.idle.length < s.pool.config.total := by
  have counts : ∀ key', (s.pool.idle ++ [(⟨key, member, seq⟩ : Idle K)]).countP (fun i => i.key = key')
      = s.pool.idleFor key' + if key = key' then 1 else 0 := by
    intro key'
    rw [List.countP_append, List.countP_singleton, SandboxPool.idleFor]
    simp
  constructor
  · intro after
    have depth := after.depth key
    have total := after.total
    change (s.pool.idle ++ [(⟨key, member, seq⟩ : Idle K)]).countP _ ≤ s.pool.config.depth at depth
    change (s.pool.idle ++ [(⟨key, member, seq⟩ : Idle K)]).length ≤ s.pool.config.total at total
    rw [counts, if_pos rfl] at depth
    rw [List.length_append, List.length_singleton] at total
    exact ⟨depth, total⟩
  · rintro ⟨depth, total⟩
    constructor
    · intro key'
      change (s.pool.idle ++ [(⟨key, member, seq⟩ : Idle K)]).countP _ ≤ s.pool.config.depth
      rw [counts]
      split
      · rename_i same
        rw [← same]
        exact depth
      · exact within.depth key'
    · change (s.pool.idle ++ [(⟨key, member, seq⟩ : Idle K)]).length ≤ s.pool.config.total
      rw [List.length_append, List.length_singleton]
      exact total

/-- One step keeps the caps exactly where a member that is filed finds room. -/
theorem within_step {s : Pooling K} (within : WithinCaps s) (l : Label K) :
    WithinCaps (s.step l) ↔ FindsRoom s l := by
  have same : ∀ {s' : Pooling K}, s'.pool.idle = s.pool.idle → s'.pool.config = s.pool.config →
      (WithinCaps s' ↔ True) := fun idle config =>
    iff_true_intro (within.fewer config (fun key => by rw [SandboxPool.idleFor, idle]; rfl)
      (by rw [idle]))
  cases l with
  | claim key => exact same rfl rfl
  | refill key => exact same rfl rfl
  | drain => exact same rfl rfl
  | discardClaimed i =>
    unfold Pooling.step
    simp only
    split <;> exact same rfl rfl
  | turn i answer =>
    cases at' : s.tasks[i]? with
    | none =>
      simp only [Pooling.step, FindsRoom, at']
      exact same rfl rfl
    | some task =>
      simp only [Pooling.step, FindsRoom, at']
      by_cases filing : ∃ key member seq, task = .filing key member seq
      · obtain ⟨key, member, seq, rfl⟩ := filing
        exact within_filed within key member seq answer _
      · have other : ∀ key member seq, task ≠ .filing key member seq :=
          fun key member seq here => filing ⟨key, member, seq, here⟩
        have after (tasks : List (Task K)) :
            WithinCaps { (s.act answer task).1 with tasks := tasks } :=
          within.turn (act_config s answer task) ((act_effect s answer task).withTasks tasks) other
        split
        · exact absurd (Option.some.inj ‹_›) (other _ _ _)
        · exact iff_true_intro (after _)

/-- **In every state of a run the pool is within its caps and every member is used once, exactly
when every member that is filed finds room for it.** -/
theorem within_caps_iff (config : PoolConfig) (labels : List (Label K)) :
    (∀ n, WithinCaps (run Pooling.step (Pooling.start config) (labels.take n)) ∧
        SingleUse (run Pooling.step (Pooling.start config) (labels.take n))) ↔
      Along Pooling.step FindsRoom (Pooling.start config) labels := by
  have empty : WithinCaps (Pooling.start config : Pooling K) :=
    ⟨fun key => Nat.zero_le _, Nat.zero_le _⟩
  have free : Along Pooling.step (fun _ _ => True) (Pooling.start config : Pooling K) labels :=
    along_of_forall (P := fun _ => True) (fun _ _ => trivial) _
  rw [← always_iff_along (I := Kept) (J := WithinCaps) (P := FindsRoom)
    (fun s l kept _ => kept_step s l kept) (fun s l _ within _ => within_step within l)
    (kept_start config) empty free]
  constructor
  · intro all n
    exact (all n).1
  · intro all n
    exact ⟨all n, (run_invariant kept_step (kept_start config) _).singleUse⟩

/-- Two jobs of one key that end together: both refills count before either files. -/
def twoRefills : List (Label ℕ) :=
  let turns := fun i => (List.replicate 6 (Label.turn i Answer.good) : List (Label ℕ))
  [.refill 0, .refill 0] ++ turns 0 ++ turns 1 ++ [.turn 0 .good, .turn 0 .good]

/-- **Two refills at once leave the pool one over its depth.** -/
theorem refills_overfill : ¬ WithinCaps (run Pooling.step (Pooling.start ⟨1, 8⟩) twoRefills) := by
  intro within
  have depth := within.depth 0
  revert depth
  decide

end HullCi.Node
