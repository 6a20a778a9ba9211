/-
**One reclamation, alone.**

`reclaim` first takes a tenant's unused trees away, then the stamps without a tree, then the blobs
that have no other name. Here it runs by itself and none of its calls fails: each loop of the source
is a fold over the names its directory lists. What an earlier sweep left in its scratch directory
when it was killed stays where it is.

* `reclaimTrees_spec` — what the tree phase takes, and what it counts.
* `nlink_blob` — a blob has a second name exactly when something other than the blobs names its file.
* `sweepBlobs_spec` — what the blob phase takes, and what it counts.
* `reclaim_exact` — both together: what is left, and the report.
-/

import HullCi.Fetch.Pins
import HullCi.Fetch.Sharing
import Mathlib.Algebra.BigOperators.Group.List.Basic

namespace HullCi.Fetch.Blobs

open HullCi.Base

/-! ### The sweep -/

/-- The content store on disk, and who holds a pin. -/
structure Store where
  disk : Disk
  /-- The stamps; `none` for one that holds no number. -/
  used : Table PinKey (Option ℕ)
  held : Table PinKey ℕ

/-- What a sweep did; no call fails here, so there is no error to count. -/
structure ReclaimReport where
  treesRemoved : ℕ := 0
  treesPinned : ℕ := 0
  treesInRetention : ℕ := 0
  blobsRemoved : ℕ := 0
  blobsKept : ℕ := 0
  blobsRestored : ℕ := 0
  bytesReclaimed : ℕ := 0
  deriving DecidableEq, Repr

/-- A scratch directory that is not there yet. -/
def Disk.tempDir (disk : Disk) : ℕ :=
  (disk.buried.keys.map Prod.fst ++ disk.graves.keys.map Prod.fst).foldr max 0 + 1

namespace Store

/-- `record_use`, at the time the clock reads. -/
def recordUse (s : Store) (key : PinKey) (now : ℕ) : Store :=
  { s with used := s.used.insert key (some (millisAt now)) }

def lastUsed (s : Store) (key : PinKey) : Option ℕ :=
  ((s.used.lookup key).bind id).map stampTime

/-- One tree of the listing: keep it, or rename it into the scratch directory. -/
def reclaimTree (policy : ReclaimPolicy) (clock : String → ℕ) (scope : String) (grave : ℕ)
    (at' : Store × ReclaimReport) (treeId : String) : Store × ReclaimReport :=
  let (s, report) := at'
  let retained := { report with treesInRetention := report.treesInRetention + 1 }
  match s.lastUsed (scope, treeId) with
  | none => (s.recordUse (scope, treeId) (clock treeId), retained)
  | some used =>
    if used ≤ policy.now ∧ policy.treeRetention ≤ policy.now - used then
      if (s.held.lookup (scope, treeId)).isSome then
        (s, { report with treesPinned := report.treesPinned + 1 })
      else
        match s.disk.trees.lookup (scope, treeId) with
        | none => (s, report)
        | some d =>
          ({ s with disk := { s.disk with
              trees := s.disk.trees.erase (scope, treeId)
              buried := s.disk.buried.insert (grave, treeId) d } },
            { report with treesRemoved := report.treesRemoved + 1 })
    else (s, retained)

/-- The names a directory lists, of one scope. -/
def listed {K V : Type} (table : Table (String × K) V) (scope : String) : List K :=
  (table.keys.filter (·.1 = scope)).map Prod.snd

/-- `remove_dir_all` of a scratch directory with trees in it. -/
def closeTrees (disk : Disk) (grave : ℕ) : Disk :=
  let gone := (disk.buried.entries.filter (·.1.1 = grave)).flatMap fun e => filesOf e.2
  gone.foldl Disk.reap { disk with buried := disk.buried.keep fun name _ => decide (name.1 ≠ grave) }

/-- Trees whose last recorded use is older than the retention, and which nobody holds. -/
def reclaimTrees (policy : ReclaimPolicy) (clock : String → ℕ) (scope : String)
    (at' : Store × ReclaimReport) : Store × ReclaimReport :=
  let grave := at'.1.disk.tempDir
  let (s, report) := (listed at'.1.disk.trees scope).foldl
    (reclaimTree policy clock scope grave) at'
  ({ s with disk := closeTrees s.disk grave }, report)

/-- Drop use-stamps whose tree is gone. -/
def sweepStamps (scope : String) (s : Store) : Store :=
  { s with used := s.used.keep fun key _ =>
      decide (key.1 ≠ scope) || (s.disk.trees.lookup key).isSome }

/-- Retire one blob seen with one name, through the scratch name `seq`. -/
def reclaimOneBlob (grave seq : ℕ) (name : String × BlobKey) (ino : ℕ)
    (at' : Disk × ReclaimReport) : Disk × ReclaimReport :=
  let (disk, report) := at'
  let moved := { disk with
    blobs := disk.blobs.erase name
    graves := disk.graves.insert (grave, seq) ino }
  if 1 < moved.nlink ino then
    ({ moved with blobs := moved.blobs.insertNew name ino }.unlinkGrave (grave, seq),
      { report with blobsRestored := report.blobsRestored + 1 })
  else
    let len := ((moved.inodes.lookup ino).map fun i => i.bytes.length).getD 0
    (moved.unlinkGrave (grave, seq),
      { report with
        blobsRemoved := report.blobsRemoved + 1
        bytesReclaimed := report.bytesReclaimed + len })

/-- One blob of the listing; the last component numbers the scratch names. -/
def sweepBlob (scope : String) (grave : ℕ) (at' : (Disk × ReclaimReport) × ℕ) (key : BlobKey) :
    (Disk × ReclaimReport) × ℕ :=
  let ((disk, report), seq) := at'
  match disk.blobs.lookup (scope, key) with
  | none => at'
  | some ino =>
    if 1 < disk.nlink ino then
      ((disk, { report with blobsKept := report.blobsKept + 1 }), seq)
    else
      (reclaimOneBlob grave (seq + 1) (scope, key) ino (disk, report), seq + 1)

/-- Every blob no tree names any more. -/
def sweepBlobs (scope : String) (at' : Store × ReclaimReport) : Store × ReclaimReport :=
  let (s, report) := at'
  let grave := s.disk.tempDir
  let ((disk, report), _) := (listed s.disk.blobs scope).foldl (sweepBlob scope grave)
    ((s.disk, report), 0)
  ({ s with disk := { disk with graves := disk.graves.keep fun name _ => decide (name.1 ≠ grave) } },
    report)

/-- Remove this tenant's unused trees, then the blobs nothing references any more. -/
def reclaim (policy : ReclaimPolicy) (clock : String → ℕ) (scope : String) (s : Store) :
    Store × ReclaimReport :=
  let (s, report) := reclaimTrees policy clock scope (s, {})
  sweepBlobs scope (sweepStamps scope s, report)

end Store

/-! ### What is listed -/

theorem mem_listed {K V : Type} [DecidableEq K] {table : Table (String × K) V} {scope : String}
    {name : K} : name ∈ Store.listed table scope ↔ ∃ v, table.lookup (scope, name) = some v := by
  unfold Store.listed
  rw [List.mem_map]
  constructor
  · rintro ⟨⟨scope', name⟩, member, rfl⟩
    obtain ⟨stored, same⟩ := List.mem_filter.mp member
    obtain rfl : scope' = scope := of_decide_eq_true same
    exact Option.isSome_iff_exists.mp (AList.lookup_isSome.mpr (AList.mem_keys.mpr stored))
  · rintro ⟨v, found⟩
    have stored : (scope, name) ∈ table.keys :=
      AList.mem_keys.mp (AList.lookup_isSome.mp (Option.isSome_iff_exists.mpr ⟨v, found⟩))
    exact ⟨(scope, name), List.mem_filter.mpr ⟨stored, decide_eq_true rfl⟩, rfl⟩

theorem nodup_listed {K V : Type} (table : Table (String × K) V) (scope : String) :
    (Store.listed table scope).Nodup := by
  unfold Store.listed
  have keys : table.keys.Nodup := table.nodupKeys
  refine List.Nodup.map_on (fun a here b there same => ?_) (keys.filter _)
  have first := of_decide_eq_true (List.mem_filter.mp here).2
  have second := of_decide_eq_true (List.mem_filter.mp there).2
  exact Prod.ext (first.trans second.symm) same

theorem le_foldr_max {n : ℕ} {ns : List ℕ} (member : n ∈ ns) : n ≤ ns.foldr max 0 := by
  induction ns with
  | nil => cases member
  | cons m ns ih =>
    rw [List.foldr_cons]
    rcases List.mem_cons.mp member with rfl | later
    · exact Nat.le_max_left _ _
    · exact (ih later).trans (Nat.le_max_right _ _)

theorem buried_tempDir (disk : Disk) (id : String) : disk.buried.lookup (disk.tempDir, id) = none := by
  cases found : disk.buried.lookup (disk.tempDir, id) with
  | none => rfl
  | some d =>
    have key : (disk.tempDir, id) ∈ disk.buried.keys :=
      AList.mem_keys.mp (AList.lookup_isSome.mp (Option.isSome_iff_exists.mpr ⟨d, found⟩))
    have below := le_foldr_max (List.mem_append_left (disk.graves.keys.map Prod.fst)
      (List.mem_map_of_mem (f := Prod.fst) key))
    exact absurd below (Nat.not_succ_le_self _)

theorem graves_tempDir (disk : Disk) (n : ℕ) : disk.graves.lookup (disk.tempDir, n) = none := by
  cases found : disk.graves.lookup (disk.tempDir, n) with
  | none => rfl
  | some ino =>
    have key : (disk.tempDir, n) ∈ disk.graves.keys :=
      AList.mem_keys.mp (AList.lookup_isSome.mp (Option.isSome_iff_exists.mpr ⟨ino, found⟩))
    have below := le_foldr_max (List.mem_append_right (disk.buried.keys.map Prod.fst)
      (List.mem_map_of_mem (f := Prod.fst) key))
    exact absurd below (Nat.not_succ_le_self _)

/-! ### The tree phase -/

/-- The stamp keeps the tree: it is missing or no number, in the future, or younger than the
retention. -/
def Retained (policy : ReclaimPolicy) (s : Store) (key : PinKey) : Prop :=
  ∀ used, s.lastUsed key = some used →
    policy.now < used ∨ policy.now - used < policy.treeRetention

/-- The stamp or a pin keeps the tree. -/
def Kept (policy : ReclaimPolicy) (s : Store) (key : PinKey) : Prop :=
  Retained policy s key ∨ (s.held.lookup key).isSome

instance (policy : ReclaimPolicy) (s : Store) (key : PinKey) :
    Decidable (Retained policy s key) :=
  match found : s.lastUsed key with
  | none => .isTrue fun used same => by rw [found] at same; cases same
  | some used =>
    if young : policy.now < used ∨ policy.now - used < policy.treeRetention then
      .isTrue fun used' same => by
        rw [found] at same
        obtain rfl := Option.some.inj same
        exact young
    else .isFalse fun retained => young (retained used found)

instance (policy : ReclaimPolicy) (s : Store) (key : PinKey) : Decidable (Kept policy s key) :=
  inferInstanceAs (Decidable (_ ∨ _))

/-- What the loop over the trees leaves, and counts. -/
structure TreesTaken (policy : ReclaimPolicy) (scope : String) (grave : ℕ) (ids : List String)
    (s : Store) (report : ReclaimReport) (s' : Store) (report' : ReclaimReport) : Prop where
  trees : ∀ key d, s'.disk.trees.lookup key = some d ↔
    s.disk.trees.lookup key = some d ∧ (key.1 = scope → key.2 ∈ ids → Kept policy s key)
  buried : ∀ name, name.1 ≠ grave → s'.disk.buried.lookup name = s.disk.buried.lookup name
  used : ∀ key, (key.1 = scope → key.2 ∉ ids) → s'.used.lookup key = s.used.lookup key
  held : s'.held = s.held
  disk : s'.disk = { s.disk with trees := s'.disk.trees, buried := s'.disk.buried }
  report : report' = { report with
    treesRemoved := report.treesRemoved + ids.countP fun id => ¬ Kept policy s (scope, id)
    treesPinned := report.treesPinned + ids.countP fun id =>
      Kept policy s (scope, id) ∧ ¬ Retained policy s (scope, id)
    treesInRetention := report.treesInRetention + ids.countP fun id =>
      Retained policy s (scope, id) }

/-- What one turn of the loop does, by what the stamp and the pins say. -/
theorem reclaimTree_cases (policy : ReclaimPolicy) (clock : String → ℕ) (scope : String) (grave : ℕ)
    (s : Store) (report : ReclaimReport) {id : String} {d : Dir}
    (there : s.disk.trees.lookup (scope, id) = some d) :
    (Retained policy s (scope, id) ∧ ∃ s', Store.reclaimTree policy clock scope grave (s, report) id =
        (s', { report with treesInRetention := report.treesInRetention + 1 }) ∧
      s'.disk = s.disk ∧ s'.held = s.held ∧
      ∀ key, key ≠ (scope, id) → s'.used.lookup key = s.used.lookup key) ∨
    (¬ Retained policy s (scope, id) ∧ (s.held.lookup (scope, id)).isSome ∧
      Store.reclaimTree policy clock scope grave (s, report) id =
        (s, { report with treesPinned := report.treesPinned + 1 })) ∨
    (¬ Kept policy s (scope, id) ∧ Store.reclaimTree policy clock scope grave (s, report) id =
      ({ s with disk := { s.disk with
          trees := s.disk.trees.erase (scope, id)
          buried := s.disk.buried.insert (grave, id) d } },
        { report with treesRemoved := report.treesRemoved + 1 })) := by
  unfold Store.reclaimTree
  dsimp only
  cases stamp : s.lastUsed (scope, id) with
  | none =>
    refine .inl ⟨fun used same => ?_, _, rfl, rfl, rfl, fun key other => ?_⟩
    · rw [stamp] at same
      cases same
    · unfold Store.recordUse
      rw [Table.lookup_insert, if_neg other]
  | some used =>
    by_cases old : used ≤ policy.now ∧ policy.treeRetention ≤ policy.now - used
    · have stale : ¬ Retained policy s (scope, id) := fun retained => by
        rcases retained used stamp with future | young
        · exact Nat.not_lt_of_le old.1 future
        · exact Nat.not_lt_of_le old.2 young
      simp only [if_pos old]
      by_cases pinned : (s.held.lookup (scope, id)).isSome
      · exact .inr (.inl ⟨stale, pinned, by rw [if_pos pinned]⟩)
      · refine .inr (.inr ⟨fun kept => kept.elim stale pinned, ?_⟩)
        rw [if_neg pinned, there]
    · simp only [if_neg old]
      refine .inl ⟨fun used' same => ?_, s, rfl, rfl, rfl, fun _ _ => rfl⟩
      rw [stamp] at same
      obtain rfl := Option.some.inj same
      omega

/-- Another tree's turn changes nothing that decides about this one. -/
theorem kept_congr {policy : ReclaimPolicy} {s s' : Store} {key : PinKey}
    (used : s'.used.lookup key = s.used.lookup key) (held : s'.held = s.held) :
    (Retained policy s' key ↔ Retained policy s key) ∧ (Kept policy s' key ↔ Kept policy s key) := by
  have stamp : s'.lastUsed key = s.lastUsed key := by
    unfold Store.lastUsed
    rw [used]
  have retained : Retained policy s' key ↔ Retained policy s key := by
    unfold Retained
    rw [stamp]
  refine ⟨retained, ?_⟩
  unfold Kept
  rw [retained, held]

theorem TreesTaken.cons {policy : ReclaimPolicy} {scope : String} {grave : ℕ} {id : String}
    {ids : List String} {s s₁ s' : Store} {report report₁ report' : ReclaimReport}
    (fresh : id ∉ ids) (first : TreesTaken policy scope grave [id] s report s₁ report₁)
    (rest : TreesTaken policy scope grave ids s₁ report₁ s' report') :
    TreesTaken policy scope grave (id :: ids) s report s' report' := by
  have later : ∀ key : PinKey, (key.1 = scope → key.2 ≠ id) →
      (Retained policy s₁ key ↔ Retained policy s key) ∧ (Kept policy s₁ key ↔ Kept policy s key) :=
    fun key other => kept_congr (first.used key fun same => by simpa using other same) first.held
  have among : ∀ other ∈ ids, (scope, other).1 = scope → (scope, other).2 ≠ id := by
    rintro other member - rfl
    exact fresh member
  refine ⟨fun key d => ?_, fun name away => (rest.buried name away).trans (first.buried name away),
    fun key other => ?_, rest.held.trans first.held, ?_, ?_⟩
  · rw [rest.trees, first.trees, and_assoc]
    refine and_congr_right fun _ => ?_
    by_cases here : key.1 = scope ∧ key.2 = id
    · obtain ⟨same, rfl⟩ := here
      simp only [same, List.mem_cons, true_or, true_implies]
      exact ⟨fun both => both.1, fun kept => ⟨kept, fun member => absurd member fresh⟩⟩
    · have other : key.1 = scope → key.2 ≠ id := fun same own => here ⟨same, own⟩
      rw [(later key other).2]
      simp only [List.mem_cons, List.not_mem_nil, or_false]
      constructor
      · rintro ⟨-, kept⟩ same (own | member)
        · exact absurd own (other same)
        · exact kept same member
      · exact fun kept => ⟨fun same own => absurd own (other same), fun same member =>
          kept same (.inr member)⟩
  · refine (rest.used key fun same member => other same (List.mem_cons_of_mem _ member)).trans
      (first.used key fun same member => other same ?_)
    rw [List.mem_singleton.mp member]
    exact List.mem_cons_self
  · rw [rest.disk, first.disk]
  · have removed : ids.countP (fun other => decide (¬ Kept policy s₁ (scope, other))) =
        ids.countP fun other => decide (¬ Kept policy s (scope, other)) :=
      List.countP_congr fun other member => by
        rw [decide_eq_true_iff, decide_eq_true_iff, (later (scope, other) (among other member)).2]
    have pinned : ids.countP (fun other => decide (Kept policy s₁ (scope, other) ∧
          ¬ Retained policy s₁ (scope, other))) =
        ids.countP fun other => decide (Kept policy s (scope, other) ∧
          ¬ Retained policy s (scope, other)) :=
      List.countP_congr fun other member => by
        rw [decide_eq_true_iff, decide_eq_true_iff, (later (scope, other) (among other member)).2,
          (later (scope, other) (among other member)).1]
    have retained : ids.countP (fun other => decide (Retained policy s₁ (scope, other))) =
        ids.countP fun other => decide (Retained policy s (scope, other)) :=
      List.countP_congr fun other member => by
        rw [decide_eq_true_iff, decide_eq_true_iff, (later (scope, other) (among other member)).1]
    rw [rest.report, first.report]
    simp only [removed, pinned, retained, List.countP_cons, List.countP_nil, Nat.zero_add]
    congr 1 <;> omega

theorem treesTaken_one {policy : ReclaimPolicy} (clock : String → ℕ) {scope : String} {grave : ℕ}
    {s : Store} {report : ReclaimReport} {id : String} {d : Dir}
    (there : s.disk.trees.lookup (scope, id) = some d) :
    TreesTaken policy scope grave [id] s report
      (Store.reclaimTree policy clock scope grave (s, report) id).1
      (Store.reclaimTree policy clock scope grave (s, report) id).2 := by
  have only : ∀ key : PinKey, (key.1 = scope → key.2 ∉ [id]) → key ≠ (scope, id) := by
    rintro key other rfl
    exact other rfl (List.mem_singleton_self id)
  rcases reclaimTree_cases policy clock scope grave s report there with
    ⟨retained, s', turn, disk, held, used⟩ | ⟨stale, pinned, turn⟩ | ⟨unused, turn⟩ <;> rw [turn]
  · have kept : Kept policy s (scope, id) := .inl retained
    refine ⟨fun key d => ?_, fun name _ => by rw [disk], fun key other => used key (only key other),
      held, by rw [disk], ?_⟩
    · rw [disk]
      refine ⟨fun found => ⟨found, fun same own => ?_⟩, fun both => both.1⟩
      rw [show key = (scope, id) from Prod.ext same (List.mem_singleton.mp own)]
      exact kept
    · simp [kept, retained]
  · have kept : Kept policy s (scope, id) := .inr pinned
    refine ⟨fun key d => ⟨fun found => ⟨found, fun same own => ?_⟩, fun both => both.1⟩,
      fun name _ => rfl, fun key _ => rfl, rfl, rfl, ?_⟩
    · rw [show key = (scope, id) from Prod.ext same (List.mem_singleton.mp own)]
      exact kept
    · simp [kept, stale]
  · have stale : ¬ Retained policy s (scope, id) := fun retained => unused (.inl retained)
    refine ⟨fun key d' => ?_, fun name away => ?_, fun key _ => rfl, rfl, rfl, ?_⟩
    · show (s.disk.trees.erase (scope, id)).lookup key = some d' ↔ _
      rw [Table.lookup_erase]
      by_cases own : key = (scope, id)
      · subst own
        rw [if_pos rfl]
        exact ⟨fun none => (by cases none), fun both =>
          absurd (both.2 rfl (List.mem_singleton_self id)) unused⟩
      · rw [if_neg own]
        exact ⟨fun found => ⟨found, fun same member =>
          absurd (Prod.ext same (List.mem_singleton.mp member)) own⟩, fun both => both.1⟩
    · show (s.disk.buried.insert (grave, id) d).lookup name = _
      rw [Table.lookup_insert, if_neg]
      rintro rfl
      exact away rfl
    · simp [unused, stale]

/-- **The loop over the trees** takes just the ones that neither the stamp nor a pin keeps. -/
theorem treesTaken_foldl {policy : ReclaimPolicy} (clock : String → ℕ) {scope : String} (grave : ℕ)
    {ids : List String} (nodup : ids.Nodup) (s : Store) (report : ReclaimReport)
    (there : ∀ id ∈ ids, ∃ d, s.disk.trees.lookup (scope, id) = some d) :
    TreesTaken policy scope grave ids s report
      (ids.foldl (Store.reclaimTree policy clock scope grave) (s, report)).1
      (ids.foldl (Store.reclaimTree policy clock scope grave) (s, report)).2 := by
  induction ids generalizing s report with
  | nil =>
    exact ⟨fun key d => ⟨fun found => ⟨found, fun _ member => (by cases member)⟩, fun both => both.1⟩,
      fun _ _ => rfl, fun _ _ => rfl, rfl, rfl, rfl⟩
  | cons id ids ih =>
    obtain ⟨fresh, nodup⟩ := List.nodup_cons.mp nodup
    obtain ⟨d, found⟩ := there id List.mem_cons_self
    have first : TreesTaken policy scope grave [id] s report
        (Store.reclaimTree policy clock scope grave (s, report) id).1
        (Store.reclaimTree policy clock scope grave (s, report) id).2 := treesTaken_one clock found
    rw [List.foldl_cons]
    refine first.cons fresh (ih nodup _ _ fun other member => ?_)
    obtain ⟨d', found'⟩ := there other (List.mem_cons_of_mem _ member)
    refine ⟨d', (first.trees (scope, other) d').mpr ⟨found', fun _ own => ?_⟩⟩
    obtain rfl : other = id := List.mem_singleton.mp own
    exact absurd member fresh

theorem foldl_reap (gone : List ℕ) (disk : Disk) :
    SameNames disk (gone.foldl Disk.reap disk) ∧ (gone.foldl Disk.reap disk).names = disk.names ∧
      ∀ ino ∈ disk.names, (gone.foldl Disk.reap disk).inodes.lookup ino = disk.inodes.lookup ino := by
  induction gone generalizing disk with
  | nil => exact ⟨⟨rfl, rfl, rfl, rfl, rfl, rfl⟩, rfl, fun _ _ => rfl⟩
  | cons ino gone ih =>
    rw [List.foldl_cons]
    obtain ⟨same, names, inodes⟩ := ih (disk.reap ino)
    have first := sameNames_reap disk ino
    refine ⟨⟨same.blobs.trans first.blobs, same.links.trans first.links,
      same.graves.trans first.graves, same.trees.trans first.trees, same.staged.trans first.staged,
      same.buried.trans first.buried⟩, names.trans (names_reap disk ino), fun other named => ?_⟩
    rw [inodes other (by rw [names_reap]; exact named)]
    unfold Disk.reap
    split
    · rfl
    · next unnamed =>
      show (disk.inodes.erase ino).lookup other = _
      rw [Table.lookup_erase, if_neg]
      rintro rfl
      exact unnamed named

/-! ### Links -/

/-- Something other than the blob store names the file: a published tree, what is staged, or what a
sweep has in its scratch directory. -/
structure Linked (disk : Disk) (ino : ℕ) : Prop where
  named : (∃ key d, disk.trees.lookup key = some d ∧ ino ∈ filesOf d) ∨
    (∃ c d, disk.staged.lookup c = some d ∧ ino ∈ filesOf d) ∨
    (∃ c, disk.links.lookup c = some ino) ∨
    (∃ name d, disk.buried.lookup name = some d ∧ ino ∈ filesOf d) ∨
    ∃ name, disk.graves.lookup name = some ino

/-- The names that are no blob's. -/
def others (disk : Disk) : List ℕ :=
  Table.values disk.links ++ Table.values disk.graves
    ++ (Table.values disk.trees).flatMap filesOf ++ (Table.values disk.staged).flatMap filesOf
    ++ (Table.values disk.buried).flatMap filesOf

theorem names_eq (disk : Disk) : disk.names = Table.values disk.blobs ++ others disk := by
  unfold Disk.names others
  simp only [List.append_assoc]

theorem mem_flatMap_filesOf {K : Type} [DecidableEq K] {table : Table K Dir} {ino : ℕ} :
    ino ∈ (Table.values table).flatMap filesOf ↔
      ∃ key d, table.lookup key = some d ∧ ino ∈ filesOf d := by
  rw [List.mem_flatMap]
  constructor
  · rintro ⟨d, member, file⟩
    obtain ⟨key, found⟩ := Table.mem_values.mp member
    exact ⟨key, d, found, file⟩
  · rintro ⟨key, d, found, file⟩
    exact ⟨d, Table.mem_values.mpr ⟨key, found⟩, file⟩

theorem mem_others {disk : Disk} {ino : ℕ} : ino ∈ others disk ↔ Linked disk ino := by
  unfold others
  simp only [List.mem_append, mem_flatMap_filesOf, Table.mem_values]
  constructor
  · rintro ((((link | grave) | tree) | staged) | buried)
    · exact ⟨.inr (.inr (.inl link))⟩
    · exact ⟨.inr (.inr (.inr (.inr grave)))⟩
    · exact ⟨.inl tree⟩
    · exact ⟨.inr (.inl staged)⟩
    · exact ⟨.inr (.inr (.inr (.inl buried)))⟩
  · rintro ⟨tree | staged | link | buried | grave⟩
    · exact .inl (.inl (.inr tree))
    · exact .inl (.inr staged)
    · exact .inl (.inl (.inl (.inl link)))
    · exact .inr buried
    · exact .inl (.inl (.inl (.inr grave)))

instance (disk : Disk) (ino : ℕ) : Decidable (Linked disk ino) :=
  decidable_of_iff _ mem_others

/-- No file has two blob names. -/
def Single (blobs : Table (String × BlobKey) ℕ) : Prop :=
  ∀ name name' ino, blobs.lookup name = some ino → blobs.lookup name' = some ino → name = name'

theorem nodup_values {blobs : Table (String × BlobKey) ℕ} (single : Single blobs) :
    (Table.values blobs).Nodup := by
  unfold Table.values
  refine List.Nodup.map_on (fun e here e' there same => ?_) blobs.nodupKeys.nodup
  obtain ⟨name, ino⟩ := e
  obtain ⟨name', ino'⟩ := e'
  obtain rfl : ino = ino' := same
  obtain rfl := single name name' ino (Table.mem_entries.mp here) (Table.mem_entries.mp there)
  rfl

/-- **A blob has a second name exactly when something other than the blob store names its file.** -/
theorem nlink_blob {disk : Disk} (single : Single disk.blobs) {name : String × BlobKey} {ino : ℕ}
    (found : disk.blobs.lookup name = some ino) : 1 < disk.nlink ino ↔ Linked disk ino := by
  have one : (Table.values disk.blobs).count ino = 1 :=
    List.count_eq_one_of_mem (nodup_values single) (Table.mem_values.mpr ⟨name, found⟩)
  unfold Disk.nlink
  rw [names_eq, List.count_append, one, ← mem_others, ← List.count_pos_iff]
  omega

/-! ### The blob phase -/

/-- The size of a blob's file. -/
def blobSize (disk : Disk) (name : String × BlobKey) : ℕ :=
  (((disk.blobs.lookup name).bind fun ino => disk.inodes.lookup ino).map fun i =>
    i.bytes.length).getD 0

/-- **A blob without a second name is unlinked**: seen again in the scratch directory it still has
just the one. -/
theorem reclaimOneBlob_eq {disk : Disk} (single : Single disk.blobs) {name : String × BlobKey}
    {ino : ℕ} (found : disk.blobs.lookup name = some ino) (free : ¬ Linked disk ino)
    {grave seq : ℕ} (fresh : disk.graves.lookup (grave, seq) = none) (report : ReclaimReport) :
    Store.reclaimOneBlob grave seq name ino (disk, report) =
      ({ disk with blobs := disk.blobs.erase name, inodes := disk.inodes.erase ino },
        { report with
          blobsRemoved := report.blobsRemoved + 1
          bytesReclaimed := report.bytesReclaimed + blobSize disk name }) := by
  have unnamed : ino ∉ Table.values (disk.blobs.erase name) := by
    intro member
    obtain ⟨name', found'⟩ := Table.mem_values.mp member
    rw [Table.lookup_erase] at found'
    split at found'
    · cases found'
    · next other => exact other (single name' name ino found' found)
  have outside : ino ∉ others disk := fun member => free (mem_others.mp member)
  have gone : ino ∉ ({ disk with blobs := disk.blobs.erase name } : Disk).names := by
    rw [names_eq, List.mem_append]
    exact fun named => named.elim unnamed outside
  have alone : ¬ 1 < ({ disk with
      blobs := disk.blobs.erase name
      graves := disk.graves.insert (grave, seq) ino } : Disk).nlink ino := by
    have rest := List.count_eq_zero.mpr gone
    unfold Disk.nlink
    unfold Disk.names at rest ⊢
    simp only [List.count_append, Table.values_insert fresh, List.count_cons_self] at rest ⊢
    omega
  have freed : Disk.unlinkGrave { disk with
      blobs := disk.blobs.erase name
      graves := disk.graves.insert (grave, seq) ino } (grave, seq) =
      { disk with blobs := disk.blobs.erase name, inodes := disk.inodes.erase ino } := by
    unfold Disk.unlinkGrave
    simp only [Table.lookup_insert, if_true, Table.erase_insert fresh]
    unfold Disk.reap
    rw [if_neg gone]
  have size : ((disk.inodes.lookup ino).map fun i => i.bytes.length).getD 0 = blobSize disk name := by
    unfold blobSize
    rw [found, Option.bind_some]
  unfold Store.reclaimOneBlob
  dsimp only
  rw [if_neg alone, freed, size]

/-- The blob's file has a name elsewhere. -/
def linkedBlob (disk : Disk) (name : String × BlobKey) : Bool :=
  (disk.blobs.lookup name).any fun ino => decide (Linked disk ino)

theorem linkedBlob_of_lookup {disk : Disk} {name : String × BlobKey} {ino : ℕ}
    (found : disk.blobs.lookup name = some ino) :
    linkedBlob disk name = true ↔ Linked disk ino := by
  unfold linkedBlob
  rw [found, Option.any_some, decide_eq_true_iff]

/-- What the loop over the blobs leaves, and counts. -/
structure BlobsTaken (scope : String) (keys : List BlobKey) (disk : Disk) (report : ReclaimReport)
    (disk' : Disk) (report' : ReclaimReport) : Prop where
  rest : disk' = { disk with blobs := disk'.blobs, inodes := disk'.inodes }
  blobs : ∀ name ino, disk'.blobs.lookup name = some ino ↔
    disk.blobs.lookup name = some ino ∧ (name.1 = scope → name.2 ∈ keys → Linked disk ino)
  inodes : ∀ ino ∈ disk'.names, disk'.inodes.lookup ino = disk.inodes.lookup ino
  report : report' = { report with
    blobsRemoved := report.blobsRemoved + keys.countP fun key => !linkedBlob disk (scope, key)
    blobsKept := report.blobsKept + keys.countP fun key => linkedBlob disk (scope, key)
    bytesReclaimed := report.bytesReclaimed +
      ((keys.filter fun key => !linkedBlob disk (scope, key)).map fun key =>
        blobSize disk (scope, key)).sum }

theorem linked_rest {disk disk' : Disk}
    (rest : disk' = { disk with blobs := disk'.blobs, inodes := disk'.inodes }) (ino : ℕ) :
    Linked disk' ino ↔ Linked disk ino := by
  rw [rest]
  exact ⟨fun linked => ⟨linked.named⟩, fun linked => ⟨linked.named⟩⟩

theorem BlobsTaken.single {scope : String} {keys : List BlobKey} {disk disk' : Disk}
    {report report' : ReclaimReport} (taken : BlobsTaken scope keys disk report disk' report')
    (single : Single disk.blobs) : Single disk'.blobs :=
  fun name name' ino found found' => single name name' ino ((taken.blobs name ino).mp found).1
    ((taken.blobs name' ino).mp found').1

theorem BlobsTaken.names {scope : String} {keys : List BlobKey} {disk disk' : Disk}
    {report report' : ReclaimReport} (taken : BlobsTaken scope keys disk report disk' report')
    {ino : ℕ} (named : ino ∈ disk'.names) : ino ∈ disk.names := by
  rw [names_eq, List.mem_append] at named ⊢
  rcases named with blob | other
  · obtain ⟨name, found⟩ := Table.mem_values.mp blob
    exact .inl (Table.mem_values.mpr ⟨name, ((taken.blobs name ino).mp found).1⟩)
  · exact .inr (mem_others.mpr ((linked_rest taken.rest ino).mp (mem_others.mp other)))

theorem BlobsTaken.other {scope : String} {key : BlobKey} {disk disk' : Disk}
    {report report' : ReclaimReport} (taken : BlobsTaken scope [key] disk report disk' report')
    {name : String × BlobKey} (other : name ≠ (scope, key)) :
    disk'.blobs.lookup name = disk.blobs.lookup name ∧
      linkedBlob disk' name = linkedBlob disk name ∧ blobSize disk' name = blobSize disk name := by
  have same : disk'.blobs.lookup name = disk.blobs.lookup name := by
    refine Option.ext fun ino => (taken.blobs name ino).trans ⟨fun both => both.1, fun found =>
      ⟨found, fun own member => ?_⟩⟩
    exact absurd (Prod.ext own (List.mem_singleton.mp member)) other
  refine ⟨same, ?_, ?_⟩
  · unfold linkedBlob
    rw [same]
    congr 1
    funext ino
    exact decide_eq_decide.mpr (linked_rest taken.rest ino)
  · unfold blobSize
    rw [same]
    cases found : disk.blobs.lookup name with
    | none => rfl
    | some ino =>
      rw [Option.bind_some, Option.bind_some, taken.inodes ino (mem_blobs (same.trans found))]

theorem BlobsTaken.cons {scope : String} {key : BlobKey} {keys : List BlobKey}
    {disk disk₁ disk' : Disk} {report report₁ report' : ReclaimReport} (fresh : key ∉ keys)
    (first : BlobsTaken scope [key] disk report disk₁ report₁)
    (rest : BlobsTaken scope keys disk₁ report₁ disk' report') :
    BlobsTaken scope (key :: keys) disk report disk' report' := by
  have among : ∀ other ∈ keys, (scope, other) ≠ (scope, key) := by
    rintro other member same
    rw [Prod.mk.injEq] at same
    exact fresh (same.2 ▸ member)
  refine ⟨?_, fun name ino => ?_, fun ino named =>
    (rest.inodes ino named).trans (first.inodes ino (rest.names named)), ?_⟩
  · rw [rest.rest, first.rest]
  · rw [rest.blobs, first.blobs, and_assoc, linked_rest first.rest]
    refine and_congr_right fun _ => ?_
    simp only [List.mem_cons, List.not_mem_nil, or_false]
    constructor
    · rintro ⟨mine, later⟩ same (own | member)
      · exact mine same own
      · exact later same member
    · exact fun linked => ⟨fun same own => linked same (.inl own), fun same member =>
        linked same (.inr member)⟩
  · have linked : ∀ other ∈ keys,
        linkedBlob disk₁ (scope, other) = linkedBlob disk (scope, other) :=
      fun other member => (first.other (among other member)).2.1
    have removed : keys.countP (fun other => !linkedBlob disk₁ (scope, other)) =
        keys.countP fun other => !linkedBlob disk (scope, other) :=
      List.countP_congr fun other member => by rw [linked other member]
    have kept : keys.countP (fun other => linkedBlob disk₁ (scope, other)) =
        keys.countP fun other => linkedBlob disk (scope, other) :=
      List.countP_congr fun other member => by rw [linked other member]
    have gone : keys.filter (fun other => !linkedBlob disk₁ (scope, other)) =
        keys.filter fun other => !linkedBlob disk (scope, other) :=
      List.filter_congr fun other member => by rw [linked other member]
    have sizes : ((keys.filter fun other => !linkedBlob disk (scope, other)).map fun other =>
          blobSize disk₁ (scope, other)) =
        (keys.filter fun other => !linkedBlob disk (scope, other)).map fun other =>
          blobSize disk (scope, other) :=
      List.map_congr_left fun other member =>
        (first.other (among other (List.mem_of_mem_filter member))).2.2
    rw [rest.report, first.report]
    simp only [removed, kept, gone, sizes, List.countP_cons, List.countP_nil, List.filter_cons,
      List.filter_nil, Nat.zero_add]
    congr 1
    · omega
    · omega
    · cases linkedBlob disk (scope, key) <;> simp [Nat.add_assoc]

/-- One turn of the loop: a blob that nothing else names goes. -/
theorem blobsTaken_one {scope : String} {grave : ℕ} {disk : Disk} (single : Single disk.blobs)
    (fresh : ∀ seq, disk.graves.lookup (grave, seq) = none) (report : ReclaimReport) (seq : ℕ)
    {key : BlobKey} {ino : ℕ} (found : disk.blobs.lookup (scope, key) = some ino) :
    BlobsTaken scope [key] disk report
      (Store.sweepBlob scope grave ((disk, report), seq) key).1.1
      (Store.sweepBlob scope grave ((disk, report), seq) key).1.2 := by
  unfold Store.sweepBlob
  dsimp only
  rw [found]
  dsimp only
  by_cases linked : Linked disk ino
  · have kept : linkedBlob disk (scope, key) = true := (linkedBlob_of_lookup found).mpr linked
    rw [if_pos ((nlink_blob single found).mpr linked)]
    refine ⟨rfl, fun name ino' => ⟨fun found' => ⟨found', fun same own => ?_⟩, fun both => both.1⟩,
      fun _ _ => rfl, by simp [kept]⟩
    rw [show name = (scope, key) from Prod.ext same (List.mem_singleton.mp own), found] at found'
    exact Option.some.inj found' ▸ linked
  · have free : linkedBlob disk (scope, key) = false :=
      Bool.eq_false_iff.mpr fun kept => linked ((linkedBlob_of_lookup found).mp kept)
    rw [if_neg fun more => linked ((nlink_blob single found).mp more)]
    dsimp only
    rw [reclaimOneBlob_eq single found linked (fresh (seq + 1)) report]
    refine ⟨rfl, fun name ino' => ?_, fun ino' named => ?_, by simp [free]⟩
    · show (disk.blobs.erase (scope, key)).lookup name = some ino' ↔ _
      rw [Table.lookup_erase]
      by_cases own : name = (scope, key)
      · subst own
        rw [if_pos rfl]
        refine ⟨fun none => (by cases none), fun both => ?_⟩
        rw [found] at both
        obtain rfl := Option.some.inj both.1
        exact absurd (both.2 rfl (List.mem_singleton_self key)) linked
      · rw [if_neg own]
        exact ⟨fun there => ⟨there, fun same member =>
          absurd (Prod.ext same (List.mem_singleton.mp member)) own⟩, fun both => both.1⟩
    · show (disk.inodes.erase ino).lookup ino' = disk.inodes.lookup ino'
      rw [Table.lookup_erase, if_neg]
      rintro rfl
      rw [names_eq, List.mem_append] at named
      rcases named with blob | other
      · obtain ⟨name, there⟩ := Table.mem_values.mp blob
        have there : (disk.blobs.erase (scope, key)).lookup name = some ino' := there
        rw [Table.lookup_erase] at there
        split at there
        · cases there
        · next own => exact own (single name (scope, key) ino' there found)
      · exact linked (mem_others.mp other)

/-- **The loop over the blobs** unlinks just the ones that nothing else names. -/
theorem blobsTaken_foldl {scope : String} {grave : ℕ} {keys : List BlobKey} (nodup : keys.Nodup)
    {disk : Disk} (single : Single disk.blobs)
    (fresh : ∀ seq, disk.graves.lookup (grave, seq) = none) (report : ReclaimReport) (seq : ℕ)
    (there : ∀ key ∈ keys, ∃ ino, disk.blobs.lookup (scope, key) = some ino) :
    BlobsTaken scope keys disk report
      (keys.foldl (Store.sweepBlob scope grave) ((disk, report), seq)).1.1
      (keys.foldl (Store.sweepBlob scope grave) ((disk, report), seq)).1.2 := by
  induction keys generalizing disk report seq with
  | nil =>
    exact ⟨rfl, fun name ino => ⟨fun found => ⟨found, fun _ member => (by cases member)⟩, fun both =>
      both.1⟩, fun _ _ => rfl, rfl⟩
  | cons key keys ih =>
    obtain ⟨new, nodup⟩ := List.nodup_cons.mp nodup
    obtain ⟨ino, found⟩ := there key List.mem_cons_self
    have first := blobsTaken_one single fresh report seq found
    rw [List.foldl_cons]
    refine first.cons new (ih nodup (first.single single) (fun n => ?_) _ _ fun other member => ?_)
    · rw [first.rest]
      exact fresh n
    · obtain ⟨ino', found'⟩ := there other (List.mem_cons_of_mem _ member)
      refine ⟨ino', (first.other ?_).1.trans found'⟩
      rw [Ne, Prod.mk.injEq]
      rintro ⟨-, rfl⟩
      exact new member

/-! ### Both phases -/

/-- What the tree phase leaves. -/
structure TreePhase (policy : ReclaimPolicy) (scope : String) (s s' : Store)
    (report : ReclaimReport) : Prop where
  trees : ∀ key d, s'.disk.trees.lookup key = some d ↔
    s.disk.trees.lookup key = some d ∧ (key.1 = scope → Kept policy s key)
  buried : ∀ name, s'.disk.buried.lookup name = s.disk.buried.lookup name
  used : ∀ key, key.1 ≠ scope → s'.used.lookup key = s.used.lookup key
  held : s'.held = s.held
  blobs : s'.disk.blobs = s.disk.blobs
  links : s'.disk.links = s.disk.links
  graves : s'.disk.graves = s.disk.graves
  staged : s'.disk.staged = s.disk.staged
  inodes : ∀ ino ∈ s'.disk.names, s'.disk.inodes.lookup ino = s.disk.inodes.lookup ino
  report : report = {
    treesRemoved := (Store.listed s.disk.trees scope).countP fun id => ¬ Kept policy s (scope, id)
    treesPinned := (Store.listed s.disk.trees scope).countP fun id =>
      Kept policy s (scope, id) ∧ ¬ Retained policy s (scope, id)
    treesInRetention := (Store.listed s.disk.trees scope).countP fun id =>
      Retained policy s (scope, id) }

theorem reclaimTrees_spec (policy : ReclaimPolicy) (clock : String → ℕ) (scope : String)
    (s : Store) : TreePhase policy scope s (Store.reclaimTrees policy clock scope (s, {})).1
      (Store.reclaimTrees policy clock scope (s, {})).2 := by
  have taken : TreesTaken policy scope _ _ s {} _ _ := treesTaken_foldl clock s.disk.tempDir
    (nodup_listed s.disk.trees scope) s {} fun id member => mem_listed.mp member
  unfold Store.reclaimTrees
  dsimp only
  revert taken
  cases (Store.listed s.disk.trees scope).foldl
    (Store.reclaimTree policy clock scope s.disk.tempDir) (s, {}) with
  | mk s₁ report =>
    intro taken
    dsimp only at taken ⊢
    obtain ⟨same, names, inodes⟩ := foldl_reap
      ((s₁.disk.buried.entries.filter (·.1.1 = s.disk.tempDir)).flatMap fun e => filesOf e.2)
      { s₁.disk with
        buried := s₁.disk.buried.keep fun name _ => decide (name.1 ≠ s.disk.tempDir) }
    have rest := taken.disk
    refine ⟨fun key d => ?_, fun name => ?_, fun key other => ?_, taken.held, ?_, ?_, ?_, ?_,
      fun ino named => ?_, ?_⟩
    · show (Store.closeTrees s₁.disk s.disk.tempDir).trees.lookup key = some d ↔ _
      unfold Store.closeTrees
      rw [same.trees, taken.trees]
      refine and_congr_right fun found => ⟨fun kept own => kept own ?_, fun kept own _ => kept own⟩
      obtain ⟨scope', id⟩ := key
      obtain rfl : scope' = scope := own
      exact mem_listed.mpr ⟨d, found⟩
    · show (Store.closeTrees s₁.disk s.disk.tempDir).buried.lookup name = _
      unfold Store.closeTrees
      rw [same.buried, Table.lookup_keep]
      by_cases mine : name.1 = s.disk.tempDir
      · have before : s.disk.buried.lookup name = none := by
          obtain ⟨grave, id⟩ := name
          obtain rfl : grave = s.disk.tempDir := mine
          exact buried_tempDir s.disk id
        rw [before]
        cases s₁.disk.buried.lookup name with
        | none => rfl
        | some d => rw [Option.filter_some, if_neg (by simpa using mine)]
      · rw [taken.buried name mine]
        cases s.disk.buried.lookup name with
        | none => rfl
        | some d => rw [Option.filter_some, if_pos (decide_eq_true mine)]
    · exact taken.used key fun own => absurd own other
    · exact same.blobs.trans (by rw [rest])
    · exact same.links.trans (by rw [rest])
    · exact same.graves.trans (by rw [rest])
    · exact same.staged.trans (by rw [rest])
    · refine (inodes ino (names ▸ named)).trans ?_
      show s₁.disk.inodes.lookup ino = _
      rw [rest]
    · rw [taken.report]
      simp only [Nat.zero_add]

/-- **What a reclamation leaves, and reports.** -/
structure Reclaimed (policy : ReclaimPolicy) (scope : String) (s after : Store)
    (report : ReclaimReport) : Prop where
  trees : ∀ id d, after.disk.trees.lookup (scope, id) = some d ↔
    s.disk.trees.lookup (scope, id) = some d ∧ Kept policy s (scope, id)
  blobs : ∀ key ino, after.disk.blobs.lookup (scope, key) = some ino ↔
    s.disk.blobs.lookup (scope, key) = some ino ∧ Linked after.disk ino
  stamps : ∀ id, (after.used.lookup (scope, id)).isSome →
    (after.disk.trees.lookup (scope, id)).isSome
  foreign : ∀ key, key.1 ≠ scope → after.disk.trees.lookup key = s.disk.trees.lookup key ∧
    after.used.lookup key = s.used.lookup key
  foreignBlobs : ∀ name, name.1 ≠ scope → after.disk.blobs.lookup name = s.disk.blobs.lookup name
  staging : after.disk.staged = s.disk.staged ∧ after.disk.links = s.disk.links
  scratch : (∀ name, after.disk.buried.lookup name = s.disk.buried.lookup name) ∧
    ∀ name, after.disk.graves.lookup name = s.disk.graves.lookup name
  held : after.held = s.held
  files : ∀ ino ∈ after.disk.names, after.disk.inodes.lookup ino = s.disk.inodes.lookup ino
  report : report = {
    treesRemoved := (Store.listed s.disk.trees scope).countP fun id => ¬ Kept policy s (scope, id)
    treesPinned := (Store.listed s.disk.trees scope).countP fun id =>
      Kept policy s (scope, id) ∧ ¬ Retained policy s (scope, id)
    treesInRetention := (Store.listed s.disk.trees scope).countP fun id =>
      Retained policy s (scope, id)
    blobsRemoved := (Store.listed s.disk.blobs scope).countP fun key =>
      (after.disk.blobs.lookup (scope, key)).isNone
    blobsKept := (Store.listed s.disk.blobs scope).countP fun key =>
      (after.disk.blobs.lookup (scope, key)).isSome
    bytesReclaimed := (((Store.listed s.disk.blobs scope).filter fun key =>
      (after.disk.blobs.lookup (scope, key)).isNone).map fun key => blobSize s.disk (scope, key)).sum }

/-- A file of one content, mode and tenant is filed under one name. -/
theorem single_of_fit {blobId : List UInt8 → String} {disk : Disk}
    (filed : ∀ tenant key ino, disk.blobs.lookup (tenant, key) = some ino →
      Fit blobId disk ino tenant key) : Single disk.blobs := by
  rintro ⟨tenant, key⟩ ⟨tenant', key'⟩ ino found found'
  obtain ⟨i, there, owner, id, mode⟩ := filed tenant key ino found
  obtain ⟨i', there', owner', id', mode'⟩ := filed tenant' key' ino found'
  obtain rfl := Option.some.inj (there.symm.trans there')
  obtain ⟨name, exec⟩ := key
  obtain ⟨name', exec'⟩ := key'
  have same : exec = exec' := by
    have execs := congrArg execOf (mode.symm.trans mode')
    simpa using execs
  rw [← owner, ← owner', ← same]
  rw [show name = name' from id.symm.trans id']

/-- What the blob phase leaves. -/
structure BlobPhase (scope : String) (s s' : Store) (report report' : ReclaimReport) : Prop where
  rest : s'.disk.trees = s.disk.trees ∧ s'.disk.buried = s.disk.buried ∧
    s'.disk.staged = s.disk.staged ∧ s'.disk.links = s.disk.links ∧ s'.used = s.used ∧
    s'.held = s.held
  graves : ∀ name, s'.disk.graves.lookup name = s.disk.graves.lookup name
  blobs : ∀ name ino, s'.disk.blobs.lookup name = some ino ↔
    s.disk.blobs.lookup name = some ino ∧ (name.1 = scope → Linked s'.disk ino)
  inodes : ∀ ino ∈ s'.disk.names, s'.disk.inodes.lookup ino = s.disk.inodes.lookup ino
  report : report' = { report with
    blobsRemoved := report.blobsRemoved + (Store.listed s.disk.blobs scope).countP fun key =>
      (s'.disk.blobs.lookup (scope, key)).isNone
    blobsKept := report.blobsKept + (Store.listed s.disk.blobs scope).countP fun key =>
      (s'.disk.blobs.lookup (scope, key)).isSome
    bytesReclaimed := report.bytesReclaimed + (((Store.listed s.disk.blobs scope).filter fun key =>
      (s'.disk.blobs.lookup (scope, key)).isNone).map fun key => blobSize s.disk (scope, key)).sum }

theorem sweepBlobs_spec (scope : String) {s : Store} (single : Single s.disk.blobs)
    (report : ReclaimReport) :
    BlobPhase scope s (Store.sweepBlobs scope (s, report)).1 report
      (Store.sweepBlobs scope (s, report)).2 := by
  have taken := blobsTaken_foldl (nodup_listed s.disk.blobs scope) single (graves_tempDir s.disk)
    report 0 fun key member => mem_listed.mp member
  unfold Store.sweepBlobs
  dsimp only
  revert taken
  cases (Store.listed s.disk.blobs scope).foldl
    (Store.sweepBlob scope s.disk.tempDir) ((s.disk, report), 0) with
  | mk swept seq =>
    obtain ⟨disk, report'⟩ := swept
    intro taken
    dsimp only at taken ⊢
    have rest := taken.rest
    have trees : disk.trees = s.disk.trees := by rw [rest]
    have staged : disk.staged = s.disk.staged := by rw [rest]
    have links : disk.links = s.disk.links := by rw [rest]
    have buried : disk.buried = s.disk.buried := by rw [rest]
    have graves : ∀ name, (disk.graves.keep fun name _ =>
        decide (name.1 ≠ s.disk.tempDir)).lookup name = s.disk.graves.lookup name := by
      intro name
      rw [Table.lookup_keep, show disk.graves = s.disk.graves by rw [rest]]
      cases found : s.disk.graves.lookup name with
      | none => rfl
      | some ino =>
        rw [Option.filter_some, if_pos (decide_eq_true ?_)]
        obtain ⟨grave, n⟩ := name
        rintro rfl
        rw [graves_tempDir] at found
        cases found
    have linked : ∀ ino, Linked { disk with
        graves := disk.graves.keep fun name _ => decide (name.1 ≠ s.disk.tempDir) } ino ↔
          Linked s.disk ino := by
      intro ino
      constructor
      · rintro ⟨named⟩
        simp only [graves, trees, staged, links, buried] at named
        exact ⟨named⟩
      · rintro ⟨named⟩
        refine ⟨?_⟩
        simp only [graves, trees, staged, links, buried]
        exact named
    have mine : ∀ key ∈ Store.listed s.disk.blobs scope,
        (disk.blobs.lookup (scope, key)).isSome = linkedBlob s.disk (scope, key) := by
      intro key member
      obtain ⟨ino, found⟩ := mem_listed.mp member
      rw [Bool.eq_iff_iff, linkedBlob_of_lookup found, Option.isSome_iff_exists]
      constructor
      · rintro ⟨ino', left⟩
        obtain ⟨there, stays⟩ := (taken.blobs _ _).mp left
        obtain rfl := Option.some.inj (found.symm.trans there)
        exact stays rfl member
      · exact fun named => ⟨ino, (taken.blobs _ _).mpr ⟨found, fun _ _ => named⟩⟩
    have gone : ∀ key ∈ Store.listed s.disk.blobs scope,
        (disk.blobs.lookup (scope, key)).isNone = !linkedBlob s.disk (scope, key) := by
      intro key member
      rw [← mine key member, Option.not_isSome]
    refine ⟨⟨trees, buried, staged, links, rfl, rfl⟩, graves, fun name ino => ?_,
      fun ino named => taken.inodes ino ?_, ?_⟩
    · rw [linked]
      refine (taken.blobs name ino).trans (and_congr_right fun found => ⟨fun stays own => ?_,
        fun stays own _ => stays own⟩)
      obtain ⟨scope', key⟩ := name
      obtain rfl : scope' = scope := own
      exact stays rfl (mem_listed.mpr ⟨ino, found⟩)
    · rw [names_eq, List.mem_append] at named ⊢
      refine named.imp id fun other => mem_others.mpr ?_
      exact (linked_rest rest ino).mpr ((linked ino).mp (mem_others.mp other))
    · have removed : (Store.listed s.disk.blobs scope).countP
            (fun key => !linkedBlob s.disk (scope, key)) =
          (Store.listed s.disk.blobs scope).countP fun key =>
            (disk.blobs.lookup (scope, key)).isNone :=
        List.countP_congr fun key member => by rw [gone key member]
      have stayed : (Store.listed s.disk.blobs scope).countP
            (fun key => linkedBlob s.disk (scope, key)) =
          (Store.listed s.disk.blobs scope).countP fun key =>
            (disk.blobs.lookup (scope, key)).isSome :=
        List.countP_congr fun key member => by rw [mine key member]
      rw [taken.report, removed, stayed, ← List.filter_congr gone]

/-- **One reclamation collects exactly the garbage**, whatever trees share whatever blobs: a tree
stays for its stamp or a pin, a blob for a name that remains elsewhere, and nothing else changes. -/
theorem reclaim_exact (blobId : List UInt8 → String) (policy : ReclaimPolicy) (clock : String → ℕ)
    (scope : String) (s : Store)
    (filed : ∀ tenant key ino, s.disk.blobs.lookup (tenant, key) = some ino →
      Fit blobId s.disk ino tenant key) :
    Reclaimed policy scope s (Store.reclaim policy clock scope s).1
      (Store.reclaim policy clock scope s).2 := by
  have phase := reclaimTrees_spec policy clock scope s
  unfold Store.reclaim
  revert phase
  cases Store.reclaimTrees policy clock scope (s, {}) with
  | mk s₁ report =>
    intro phase
    dsimp only at phase ⊢
    have single : Single (Store.sweepStamps scope s₁).disk.blobs :=
      phase.blobs ▸ single_of_fit filed
    have swept := sweepBlobs_spec scope single report
    revert swept
    cases Store.sweepBlobs scope (Store.sweepStamps scope s₁, report) with
    | mk after report' =>
      intro swept
      dsimp only at swept ⊢
      obtain ⟨⟨trees, buried, staged, links, used, held⟩, graves, blobs, inodes, counts⟩ := swept
      have stamps : ∀ key, after.used.lookup key = (s₁.used.lookup key).filter fun _ =>
          decide (key.1 ≠ scope) || (s₁.disk.trees.lookup key).isSome := by
        intro key
        rw [used]
        exact Table.lookup_keep _ _ _
      have trees : after.disk.trees = s₁.disk.trees := trees
      have buried : after.disk.buried = s₁.disk.buried := buried
      have graves : ∀ name, after.disk.graves.lookup name = s₁.disk.graves.lookup name := graves
      have staged : after.disk.staged = s₁.disk.staged := staged
      have links : after.disk.links = s₁.disk.links := links
      have blobs : ∀ name ino, after.disk.blobs.lookup name = some ino ↔
          s.disk.blobs.lookup name = some ino ∧ (name.1 = scope → Linked after.disk ino) :=
        phase.blobs ▸ blobs
      have kept : ∀ ino ∈ after.disk.names, ino ∈ s₁.disk.names := by
        intro ino named
        rw [names_eq, List.mem_append] at named ⊢
        rcases named with blob | other
        · obtain ⟨name, found⟩ := Table.mem_values.mp blob
          rw [phase.blobs]
          exact .inl (Table.mem_values.mpr ⟨name, ((blobs name ino).mp found).1⟩)
        · obtain ⟨named⟩ := mem_others.mp other
          simp only [trees, staged, links, buried, graves] at named
          exact .inr (mem_others.mpr ⟨named⟩)
      refine ⟨fun id d => ?_, fun key ino => ?_, fun id stamped => ?_, fun key other => ⟨?_, ?_⟩,
        fun name other => ?_, ⟨staged.trans phase.staged, links.trans phase.links⟩,
        ⟨fun name => ?_, fun name => ?_⟩, held.trans phase.held, fun ino named => ?_, ?_⟩
      · rw [trees]
        exact (phase.trees (scope, id) d).trans
          (and_congr_right fun _ => ⟨fun keep => keep rfl, fun keep _ => keep⟩)
      · exact (blobs (scope, key) ino).trans
          (and_congr_right fun _ => ⟨fun keep => keep rfl, fun keep _ => keep⟩)
      · rw [stamps] at stamped
        obtain ⟨stamp, found⟩ := Option.isSome_iff_exists.mp stamped
        have tree := (Option.filter_eq_some_iff.mp found).2
        rw [trees]
        simpa using tree
      · rw [trees]
        exact Option.ext fun d => (phase.trees key d).trans
          ⟨fun both => both.1, fun found => ⟨found, fun own => absurd own other⟩⟩
      · rw [stamps, phase.used key other, decide_eq_true other]
        cases s.used.lookup key with
        | none => rfl
        | some stamp => rfl
      · exact Option.ext fun ino => (blobs name ino).trans
          ⟨fun both => both.1, fun found => ⟨found, fun own => absurd own other⟩⟩
      · rw [buried]
        exact phase.buried name
      · rw [graves, phase.graves]
      · exact (inodes ino named).trans (phase.inodes ino (kept ino named))
      · have sizes : ∀ key ∈ Store.listed s.disk.blobs scope,
            blobSize s₁.disk (scope, key) = blobSize s.disk (scope, key) := by
          intro key member
          obtain ⟨ino, found⟩ := mem_listed.mp member
          unfold blobSize
          rw [phase.blobs, found, Option.bind_some, Option.bind_some,
            phase.inodes ino (mem_blobs (phase.blobs ▸ found))]
        rw [counts, phase.report]
        show ReclaimReport.mk _ _ _ _ _ _ _ = _
        have listing : (Store.sweepStamps scope s₁).disk.blobs = s.disk.blobs := phase.blobs
        rw [listing]
        simp only [Nat.zero_add]
        congr 2
        exact List.map_congr_left fun key member => sizes key (List.mem_of_mem_filter member)

/-- A content address that tells the two contents below apart. -/
def sampleId (bytes : List UInt8) : String :=
  toString bytes.length

/-- Two trees of one tenant that share a file; the older one has a file of its own, too. -/
def shared : Store where
  disk := { Disk.new with
    inodes := (AList.insert 0 ⟨[7], 0o644, "acme"⟩ ∅).insert 1 ⟨[7, 7], 0o644, "acme"⟩
    next := 2
    blobs := (AList.insert ("acme", ⟨"1", false⟩) 0 ∅).insert ("acme", ⟨"2", false⟩) 1
    trees := (AList.insert ("acme", "new") (AList.insert ["a"] (.file 0) ∅) ∅).insert
      ("acme", "old") ((AList.insert ["a"] (.file 0) ∅).insert ["b"] (.file 1)) }
  used := (AList.insert ("acme", "new") (some 90) ∅).insert ("acme", "old") (some 10)
  held := ∅

theorem shared_filed (tenant : String) (key : BlobKey) (ino : ℕ)
    (found : shared.disk.blobs.lookup (tenant, key) = some ino) :
    Fit sampleId shared.disk ino tenant key := by
  have all : ∀ e ∈ shared.disk.blobs.entries, ((shared.disk.inodes.lookup e.2).any fun i =>
      decide (i.tenant = e.1.1 ∧ sampleId i.bytes = e.1.2.id ∧ i.mode = e.1.2.mode)) = true := by
    decide +kernel
  obtain ⟨i, there, fit⟩ := (Option.any_eq_true _ _).mp (all _ (Table.mem_entries.mpr found))
  exact ⟨i, there, of_decide_eq_true fit⟩

/-- The retention is over for the tree used at 10 ms, and not for the one used at 90. -/
def samplePolicy : ReclaimPolicy :=
  { treeRetention := 50 * 1000000, now := 100 * 1000000 }

theorem reclaim_exact_shared :
    Reclaimed samplePolicy "acme" shared (Store.reclaim samplePolicy (fun _ => 0) "acme" shared).1
        (Store.reclaim samplePolicy (fun _ => 0) "acme" shared).2 ∧
      (Store.reclaim samplePolicy (fun _ => 0) "acme" shared).2 =
        { treesRemoved := 1, treesInRetention := 1, blobsRemoved := 1, blobsKept := 1,
          bytesReclaimed := 2 } :=
  ⟨reclaim_exact sampleId samplePolicy (fun _ => 0) "acme" shared shared_filed, by decide +kernel⟩

/-- A blob, and a tree that a killed sweep left in its scratch directory. -/
def orphaned : Store where
  disk := { Disk.new with
    inodes := AList.insert 0 ⟨[7], 0o644, "acme"⟩ ∅
    next := 1
    blobs := AList.insert ("acme", ⟨"1", false⟩) 0 ∅
    buried := AList.insert (3, "old") (AList.insert ["a"] (.file 0) ∅) ∅ }
  used := ∅
  held := ∅

/-- The blob stays, though no tree and no staging directory links it. -/
theorem orphaned_keeps_blob :
    (Store.reclaim samplePolicy (fun _ => 0) "acme" orphaned).1.disk.blobs.lookup
        ("acme", ⟨"1", false⟩) = some 0 ∧
      Table.values (Store.reclaim samplePolicy (fun _ => 0) "acme" orphaned).1.disk.trees = [] ∧
      Table.values (Store.reclaim samplePolicy (fun _ => 0) "acme" orphaned).1.disk.staged = [] ∧
      Table.values (Store.reclaim samplePolicy (fun _ => 0) "acme" orphaned).1.disk.links = [] := by
  decide +kernel

end HullCi.Fetch.Blobs
