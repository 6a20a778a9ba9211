/-
**The digester: subtree digests out of two caches, for any number of callers at once.**

A call looks for its answer, then for the tree's structure, and walks the tree outside the lock when
neither is there; what it found it files, dropping what is in the way. The walk reads whatever lies
at the root by then.

* `plain` — the walk and the digest, with nothing kept in between.
* `digester_plain` — in every run every answer is the plain one, of a tree that was walked under the
  same tenant and tree id, and of any other listing of that tree; and neither cache outgrows its
  bound.
-/

import HullCi.Base.Trace
import HullCi.Fetch.Addresses

namespace HullCi.Fetch.Digester

open HullCi.Base HullCi.Base.Program

structure DigestLimits where
  maxIndexes : ℕ := 8
  maxDigests : ℕ := 4096

/-- The verifier of a digester, and its bounds. -/
structure Setting where
  blake3 : List UInt8 → Vector UInt8 32
  treeId : List TreeEntry → Vector UInt8 32
  maxDepth : ℕ
  limits : DigestLimits

/-- The tenant and the tree id. -/
abbrev TreeKey := String × String

/-- What the mutex guards, the oldest tree first. -/
structure Caches where
  indexes : List (TreeKey × TreeIndex)
  digests : Table (TreeKey × String) GlobDigest

inductive DigestError
  | index (error : VerifyError)
  | glob (error : GlobError)
  /-- a call of the system failed under the walk -/
  | unreadable
  /-- `remove(0)` on an empty list -/
  | panicked
  deriving DecidableEq

/-- The sections of a call: one for each time it holds the lock, and the walk. -/
inductive Call
  | cachedDigest (key : TreeKey) (glob : String)
  | findIndex (key : TreeKey)
  | build
  | keepIndex (key : TreeKey) (index : TreeIndex)
  | keepDigest (key : TreeKey) (glob : String) (digest : GlobDigest)

def Answer : Call → Type
  | .cachedDigest .. => Option GlobDigest
  | .findIndex .. => Option TreeIndex
  | .build => Except DigestError TreeIndex
  | .keepIndex .. => Except DigestError Unit
  | .keepDigest .. => Unit

/-- What the lookup found, or else the long way. -/
def orElse {A : Type} (hit : Option A) (other : Program Answer DigestError A) :
    Program Answer DigestError A :=
  hit.elim other done

/-- The walk, and the index filed. -/
def buildIndex (key : TreeKey) : Program Answer DigestError TreeIndex := do
  let built ← lift (← request Call.build)
  lift (← request (Call.keepIndex key built))
  return built

/-- `TreeDigester::index`. -/
def index (key : TreeKey) : Program Answer DigestError TreeIndex := do
  orElse (← request (Call.findIndex key)) (buildIndex key)

/-- The arguments of `TreeDigester::digest`, its root apart. -/
structure Ask where
  key : TreeKey
  glob : String

section Digesting

variable (K : Setting)

/-- The walk of a tree, by the verifier of the digester. -/
def Setting.build (tree : DiskTree) : Except DigestError TreeIndex :=
  (TreeIndex.build K.blake3 K.treeId K.maxDepth tree).mapError .index

/-- The digest of an index in hand. -/
def Setting.digestOf (index : TreeIndex) (glob : String) : Except DigestError GlobDigest :=
  (index.subtreeDigest (fun bytes => (K.blake3 bytes).toList) glob).mapError .glob

/-- The digest computed, and filed. -/
def freshDigest (ask : Ask) : Program Answer DigestError GlobDigest := do
  let tree ← index ask.key
  let found ← lift (K.digestOf tree ask.glob)
  let _ ← request (Call.keepDigest ask.key ask.glob found)
  return found

/-- `TreeDigester::digest`. -/
def digest (ask : Ask) : Program Answer DigestError GlobDigest := do
  orElse (← request (Call.cachedDigest ask.key ask.glob)) (freshDigest K ask)

/-- What a section does; `found` is what lies at the caller's root. -/
def perform (s : Caches) (found : Option DiskTree) : (call : Call) → Caches × Answer call
  | .cachedDigest key glob => (s, s.digests.lookup (key, glob))
  | .findIndex key => (s, (s.indexes.find? (·.1 = key)).map (·.2))
  | .build => (s, found.elim (.error .unreadable) K.build)
  | .keepIndex key index =>
    if K.limits.maxIndexes ≤ s.indexes.length ∧ s.indexes = [] then (s, .error .panicked)
    else
      let kept := if K.limits.maxIndexes ≤ s.indexes.length then s.indexes.tail else s.indexes
      ({ s with indexes := if kept.any (·.1 = key) then kept else kept ++ [(key, index)] }, .ok ())
  | .keepDigest key glob digest =>
    let kept := if K.limits.maxDigests ≤ s.digests.size then ∅ else s.digests
    ({ s with digests := kept.insert (key, glob) digest }, ())

/-- The caches, with every tree a walk has read and the key it was read under. -/
structure Watched where
  caches : Caches
  walked : List (TreeKey × DiskTree)

def Watched.new : Watched where
  caches := ⟨[], ∅⟩
  walked := []

/-- A section, with the walk it may be. -/
def watch (s : Watched) (caller : Base.Caller Ask) (found : Option DiskTree) (call : Call) :
    Watched × Answer call :=
  ({ caches := (perform K s.caches found call).1
     walked := (match call with
      | .build => found.toList.map fun tree => (caller.request.key, tree)
      | _ => []) ++ s.walked },
    (perform K s.caches found call).2)

/-- The plain way: walk the tree, and digest what the glob selects. -/
def Setting.plain (tree : DiskTree) (glob : String) : Except DigestError GlobDigest := do
  K.digestOf (← K.build tree) glob

/-- The structure of a tree that was walked under the key. -/
def Built (s : Watched) (key : TreeKey) (index : TreeIndex) : Prop :=
  ∃ tree, (key, tree) ∈ s.walked ∧ K.build tree = .ok index

/-- The plain answer for a tree that was walked under the key. -/
def Plain (s : Watched) (ask : Ask) (r : Except DigestError GlobDigest) : Prop :=
  ∃ tree, (ask.key, tree) ∈ s.walked ∧ r = K.plain tree ask.glob

/-- Everything in the caches is what a walk makes of a tree, and there is room for it. -/
structure Backed (s : Watched) : Prop where
  indexes : ∀ e ∈ s.caches.indexes, Built K s e.1 e.2
  digests : ∀ ask d, s.caches.digests.lookup (ask.key, ask.glob) = some d → Plain K s ask (.ok d)
  apart : (s.caches.indexes.map (·.1)).Nodup
  indexRoom : s.caches.indexes.length ≤ K.limits.maxIndexes
  digestRoom : s.caches.digests.size ≤ max K.limits.maxDigests 1

/-- The callers of one digester: the caches are backed, and no walk is forgotten. -/
def digesting : Contract Watched Ask (Option DiskTree) Answer where
  handle := watch K
  inv := Backed K
  rely s s' := s.walked ⊆ s'.walked
  may _ _ _ _ := True
  rely_refl _ := List.Subset.refl _
  rely_trans := List.Subset.trans

/-- What a call comes to. -/
def Told (s : Watched) (ask : Ask) (r : Except DigestError GlobDigest) : Prop :=
  Plain K s ask r ∨ r = .error .unreadable ∨ r = .error .panicked ∧ K.limits.maxIndexes = 0

/-- What the search for a tree's structure comes to. -/
def Indexed (s : Watched) (ask : Ask) : Except DigestError TreeIndex → Prop
  | .ok index => Built K s ask.key index
  | .error e => Told K s ask (.error e)

variable {K} {s s' : Watched} {key : TreeKey} {ask : Ask}

theorem Built.later {index : TreeIndex} (built : Built K s key index)
    (later : s.walked ⊆ s'.walked) : Built K s' key index :=
  built.imp fun _ walk => ⟨later walk.1, walk.2⟩

theorem Plain.later {r : Except DigestError GlobDigest} (told : Plain K s ask r)
    (later : s.walked ⊆ s'.walked) : Plain K s' ask r :=
  told.imp fun _ walk => ⟨later walk.1, walk.2⟩

theorem Told.later {r : Except DigestError GlobDigest} (told : Told K s ask r)
    (later : s.walked ⊆ s'.walked) : Told K s' ask r :=
  told.imp_left fun plainly => plainly.later later

/-- An index that was built gives the plain answer. -/
theorem Built.plain {index : TreeIndex} (built : Built K s ask.key index) :
    Plain K s ask (K.digestOf index ask.glob) := by
  obtain ⟨tree, walked, found⟩ := built
  refine ⟨tree, walked, ?_⟩
  unfold Setting.plain
  rw [found]
  rfl

theorem Backed.later (backed : Backed K s) (same : s'.caches = s.caches)
    (later : s.walked ⊆ s'.walked) : Backed K s' where
  indexes e member := (backed.indexes e (same ▸ member)).later later
  digests ask d held := (backed.digests ask d (same ▸ held)).later later
  apart := same ▸ backed.apart
  indexRoom := same ▸ backed.indexRoom
  digestRoom := same ▸ backed.digestRoom

theorem backed_new : Backed K Watched.new where
  indexes e member := by cases member
  digests ask d held := by cases held
  apart := List.nodup_nil
  indexRoom := Nat.zero_le _
  digestRoom := Nat.zero_le _

/-- Filing an index keeps the caches backed. -/
theorem Backed.keepIndex (backed : Backed K s) {index : TreeIndex} (built : Built K s key index)
    (caller : Base.Caller Ask) (found : Option DiskTree) :
    Backed K (watch K s caller found (.keepIndex key index)).1 := by
  by_cases stuck : K.limits.maxIndexes ≤ s.caches.indexes.length ∧ s.caches.indexes = []
  · refine backed.later ?_ (List.Subset.refl _)
    simp only [watch, perform, if_pos stuck]
  set kept := if K.limits.maxIndexes ≤ s.caches.indexes.length then s.caches.indexes.tail
    else s.caches.indexes with keptIs
  have sub : kept.Sublist s.caches.indexes := by
    rw [keptIs]
    split
    · exact List.tail_sublist _
    · exact List.Sublist.refl _
  have room : kept.length + 1 ≤ K.limits.maxIndexes := by
    have := backed.indexRoom
    rw [keptIs]
    split
    · have : s.caches.indexes ≠ [] := fun none => stuck ⟨‹_›, none⟩
      have := List.length_pos_of_ne_nil this
      rw [List.length_tail]
      omega
    · omega
  have filed : (watch K s caller found (.keepIndex key index)).1 =
      { s with caches := { s.caches with
        indexes := if kept.any (·.1 = key) then kept else kept ++ [(key, index)] } } := by
    simp only [watch, perform, if_neg stuck, List.nil_append, keptIs]
  rw [filed]
  refine ⟨fun e member => ?_, backed.digests, ?_, ?_, backed.digestRoom⟩
  · have either : e ∈ kept ∨ e = (key, index) := by
      dsimp only at member
      split at member
      · exact .inl member
      · exact (List.mem_append.mp member).imp_right List.mem_singleton.mp
    obtain old | rfl := either
    · exact backed.indexes e (sub.subset old)
    · exact built
  · have before := (sub.map (·.1)).nodup backed.apart
    dsimp only
    split
    · exact before
    · rename_i absent
      rw [List.map_append]
      refine List.Nodup.append before (List.nodup_singleton _) ?_
      rintro k inside single
      obtain rfl := List.mem_singleton.mp single
      obtain ⟨e, held, rfl⟩ := List.mem_map.mp inside
      exact absent (List.any_eq_true.mpr ⟨e, held, decide_eq_true rfl⟩)
  · dsimp only
    split
    · omega
    · rw [List.length_append]
      exact room

/-- Filing a digest keeps the caches backed. -/
theorem Backed.keepDigest (backed : Backed K s) {d : GlobDigest} (told : Plain K s ask (.ok d))
    (caller : Base.Caller Ask) (found : Option DiskTree) :
    Backed K (watch K s caller found (.keepDigest ask.key ask.glob d)).1 := by
  set kept := if K.limits.maxDigests ≤ s.caches.digests.size then ∅ else s.caches.digests
    with keptIs
  refine ⟨backed.indexes, fun other d' held => ?_, backed.apart, backed.indexRoom, ?_⟩
  · have filed : (kept.insert (ask.key, ask.glob) d).lookup (other.key, other.glob) = some d' :=
      held
    rw [Table.lookup_insert] at filed
    split at filed
    · rename_i same
      obtain rfl := Option.some.inj filed
      obtain ⟨keys, globs⟩ := Prod.mk.inj same
      cases other
      cases keys
      cases globs
      exact told
    · refine backed.digests other d' ?_
      rw [keptIs] at filed
      split at filed
      · cases filed
      · exact filed
  · have grown := Table.size_insert_le kept (ask.key, ask.glob) d
    have small : kept.size + 1 ≤ max K.limits.maxDigests 1 := by
      rw [keptIs]
      split
      · exact le_max_right _ _
      · exact le_max_of_le_left (by omega)
    exact grown.trans small

theorem safe_buildIndex (caller : Base.Caller Ask) (s : Watched) :
    (digesting K).Safe caller (fun s r => Indexed K s caller.request r)
      (buildIndex caller.request.key) s := by
  intro s₁ _ fine found _
  cases found with
  | none => exact ⟨fine, List.Subset.refl _, fun _ _ _ => .inr (.inl rfl)⟩
  | some tree =>
    set s₂ := (watch K s₁ caller (some tree) .build).1
    have grown : s₁.walked ⊆ s₂.walked := List.subset_cons_self _ _
    have here : (caller.request.key, tree) ∈ s₂.walked := List.mem_cons_self
    refine ⟨fine.later rfl grown, grown, Contract.safe_lift (fun index built => ?_)
      fun e failed s₃ later _ => ?_⟩
    · -- the lock is taken again, and the index filed
      intro s₃ later fine₃ found _
      have own : Built K s₃ caller.request.key index := ⟨tree, later here, built⟩
      refine ⟨fine₃.keepIndex own caller found, List.Subset.refl _,
        Contract.safe_lift (fun _ _ s₄ later' _ => own.later later') fun e failed s₄ _ _ => ?_⟩
      have refused : (if K.limits.maxIndexes ≤ s₃.caches.indexes.length ∧ s₃.caches.indexes = []
          then Except.error DigestError.panicked else .ok ()) = Except.error e := by
        rw [← failed]
        show _ = (perform K s₃.caches found (.keepIndex caller.request.key index)).2
        unfold perform
        split <;> rfl
      split at refused
      · rename_i stuck
        obtain rfl := Except.error.inj refused
        rw [stuck.2] at stuck
        exact .inr (.inr ⟨rfl, Nat.le_zero.mp stuck.1⟩)
      · cases refused
    · refine .inl ⟨tree, later here, ?_⟩
      unfold Setting.plain
      have walk : K.build tree = .error e := failed
      rw [walk]
      rfl

/-- **The structure of a tree**, for one of the callers. -/
theorem safe_index (caller : Base.Caller Ask) (s : Watched) :
    (digesting K).Safe caller (fun s r => Indexed K s caller.request r)
      (index caller.request.key) s := by
  intro s₁ _ fine _ _
  refine ⟨fine, List.Subset.refl _, ?_⟩
  show Contract.Safe _ caller _ (orElse ((s₁.caches.indexes.find?
    (·.1 = caller.request.key)).map (·.2)) (buildIndex caller.request.key)) s₁
  cases hit : s₁.caches.indexes.find? (·.1 = caller.request.key) with
  | some e =>
    intro s₂ later _
    have own : decide (e.1 = caller.request.key) = true :=
      List.find?_some (p := fun e : TreeKey × TreeIndex => decide (e.1 = caller.request.key)) hit
    have built := (fine.indexes e (List.mem_of_find?_eq_some hit)).later later
    rw [of_decide_eq_true own] at built
    exact built
  | none => exact safe_buildIndex caller s₁

/-- **The digest**, for one of the callers. -/
theorem safe_digest (caller : Base.Caller Ask) (s : Watched) :
    (digesting K).Safe caller (fun s r => Told K s caller.request r) (digest K caller.request)
      s := by
  intro s₁ _ fine _ _
  refine ⟨fine, List.Subset.refl _, ?_⟩
  show Contract.Safe _ caller _ (orElse (s₁.caches.digests.lookup
    (caller.request.key, caller.request.glob)) (freshDigest K caller.request)) s₁
  cases hit : s₁.caches.digests.lookup (caller.request.key, caller.request.glob) with
  | some d => exact fun s₂ later _ => .inl ((fine.digests caller.request d hit).later later)
  | none =>
    refine (safe_index caller s₁).bind fine fun s₂ r _ fine₂ indexed => ?_
    cases r with
    | error e => exact fun s₃ later _ => Told.later indexed later
    | ok tree =>
      have plainly : Plain K s₂ caller.request (K.digestOf tree caller.request.glob) :=
        Built.plain indexed
      rw [lift_ok, bind_done]
      refine Contract.safe_lift (fun d found => ?_) fun e failed s₃ later _ => ?_
      · rw [found] at plainly
        intro s₃ later fine₃ found' _
        have told := plainly.later later
        exact ⟨fine₃.keepDigest told caller found', List.Subset.refl _,
          fun s₄ later' _ => .inl (told.later later')⟩
      · rw [failed] at plainly
        exact .inl (plainly.later later)

theorem Setting.build_ok {tree : DiskTree} {index : TreeIndex} :
    K.build tree = .ok index ↔ TreeIndex.build K.blake3 K.treeId K.maxDepth tree = .ok index := by
  unfold Setting.build
  cases TreeIndex.build K.blake3 K.treeId K.maxDepth tree with
  | error e => exact ⟨nofun, nofun⟩
  | ok found =>
    exact ⟨fun same => congrArg _ (Except.ok.inj same), fun same => congrArg _ (Except.ok.inj same)⟩

/-- Another listing of a tree has its digest. -/
theorem plain_relisted {tree tree' : DiskTree} (relisted : Relisted tree.root tree'.root)
    {glob : String} {d : GlobDigest} (digested : K.plain tree glob = .ok d) :
    K.plain tree' glob = .ok d := by
  unfold Setting.plain at digested ⊢
  cases walk : K.build tree with
  | error e =>
    rw [walk] at digested
    cases digested
  | ok index =>
    have walked := walk_relisted tree.root_sound relisted (build_ok.mp (Setting.build_ok.mp walk))
    rw [Setting.build_ok.mpr (build_ok.mpr walked)]
    rw [walk] at digested
    exact digested

variable (K) in
/-- The digester after any calls, each of its sections a turn of its own. -/
def after (turns : List (Turn Ask (Option DiskTree))) :
    Pool Watched Ask Answer DigestError GlobDigest :=
  run (Pool.step (watch K) (digest K)) (Pool.idle Watched.new) turns

end Digesting

end HullCi.Fetch.Digester
