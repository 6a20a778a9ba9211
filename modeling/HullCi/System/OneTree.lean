/-
**Which dispatches share a job.**

A dispatch is claimed under its canonical repository and its tree id. The repository is rewritten at
ingest; the tree id is not, although the fetch broker and the comparison of what it answers read it
without its surrounding whitespace and its letter case.

* `Indexed` — the index from trees to jobs and the claims name each other, in every run.
* `keyed_fires` — the claim of a job keeps the tree it was made for.
* `one_tree_iff` — two dispatches of one tree, the second while the claim of the first is kept, are
  one job exactly when their tree ids are the same string.
* `two_spellings_two_jobs` — an id in capitals makes a second job.
-/

import HullCi.Control.LogKeys
import HullCi.System.Owners
import HullCi.System.StepClaims

namespace HullCi.Proto

/-- The fields without which there is no job. -/
def Dispatch.requiredFields (d : Dispatch) : Except String Unit :=
  [("repo", d.repo), ("change", d.change), ("tree_id", d.treeId), ("source_url", d.sourceUrl),
    ("callback_url", d.callbackUrl)].forM fun (name, value) =>
      if trim value = "" then .error name else .ok ()

/-- What ingest makes of a dispatch: its repository in the canonical spelling. -/
def Dispatch.canonicalize (d : Dispatch) : Except String Dispatch := do
  d.requiredFields
  let repo ← Control.canonicalRepo d.repo
  return { d with repo := repo }

/-- The tree id as the fetch broker reads it: 64 hexadecimal digits. -/
def normalizeTreeId (id : String) : Except String String :=
  let lower := (trim id).toList.map Char.toLower
  if lower.length = 64 ∧ lower.all (fun c => c.isDigit || ('a' ≤ c && c ≤ 'f')) then
    .ok (String.ofList lower)
  else .error id

end HullCi.Proto

namespace HullCi.System

open HullCi.Proto HullCi.Base HullCi.Control

/-! ### The index and the claims -/

/-- The tree the claim of a job was made for. -/
def keyOf (c : LocalClaims) (j : JobId) : Option TreeKey :=
  (c.claims.lookup j).map (·.key)

/-- The index points where the claims say, both ways. -/
def Indexed (c : LocalClaims) : Prop :=
  ∀ key j, c.byKey.lookup key = some j ↔ keyOf c j = some key

theorem indexed_new : Indexed LocalClaims.new := fun _ _ => iff_of_false nofun nofun

theorem Indexed.congr {c c' : LocalClaims} (indexed : Indexed c) (byKey : c'.byKey = c.byKey)
    (keys : ∀ j, keyOf c' j = keyOf c j) : Indexed c' := by
  intro key j
  rw [byKey, keys]
  exact indexed key j

theorem keyOf_modify {c c' : LocalClaims} {i : JobId} {f : LocalClaim → LocalClaim}
    (claims : c'.claims = c.claims.modify i f) (keeps : ∀ claim, (f claim).key = claim.key)
    (j : JobId) : keyOf c' j = keyOf c j := by
  unfold keyOf
  rw [claims, Table.lookup_modify]
  split_ifs with same
  · rw [same, Option.map_map]
    exact Option.map_congr fun claim _ => keeps claim
  · rfl

theorem keyOf_insert {c c' : LocalClaims} {i : JobId} {old new : LocalClaim}
    (claims : c'.claims = c.claims.insert i new) (found : c.claims.lookup i = some old)
    (keeps : new.key = old.key) (j : JobId) : keyOf c' j = keyOf c j := by
  unfold keyOf
  rw [claims, Table.lookup_insert]
  split_ifs with same
  · rw [same, found, Option.map_some, Option.map_some, keeps]
  · rfl

theorem keyOf_erase (c : LocalClaims) (byKey : Table TreeKey JobId) (i j : JobId) :
    keyOf ⟨byKey, c.claims.erase i⟩ j = if j = i then none else keyOf c j := by
  unfold keyOf
  dsimp only
  rw [Table.lookup_erase]
  split_ifs <;> rfl

theorem Indexed.drop {c : LocalClaims} (indexed : Indexed c) {key : TreeKey} {i : JobId}
    (named : c.byKey.lookup key = some i) : Indexed ⟨c.byKey.erase key, c.claims.erase i⟩ := by
  intro k j
  rw [keyOf_erase, Table.lookup_erase]
  split_ifs with here gone gone
  · exact iff_of_false nofun nofun
  · refine iff_of_false nofun fun keyed => gone ?_
    have there := (indexed k j).mpr keyed
    rw [here, named] at there
    exact (Option.some.inj there).symm
  · refine iff_of_false (fun there => here ?_) nofun
    rw [gone] at there
    exact Option.some.inj (((indexed k i).mp there).symm.trans ((indexed key i).mp named))
  · exact indexed k j

theorem Indexed.forget {c : LocalClaims} (indexed : Indexed c) (i : JobId) :
    Indexed (c.forget i) := by
  unfold LocalClaims.forget
  cases found : c.claims.lookup i with
  | none => exact indexed
  | some claim =>
    have named : c.byKey.lookup claim.key = some i :=
      (indexed claim.key i).mpr (by unfold keyOf; rw [found]; rfl)
    dsimp only
    rw [if_pos named]
    exact indexed.drop named

theorem Indexed.dropStale {c : LocalClaims} (indexed : Indexed c) (key : TreeKey)
    (nowMs retentionMs : ℤ) : Indexed (c.dropStale key nowMs retentionMs) := by
  unfold LocalClaims.dropStale
  split_ifs with stale
  · cases named : c.byKey.lookup key with
    | none => exact indexed
    | some i => exact indexed.drop named
  · exact indexed

theorem keyOf_create (c : LocalClaims) (key : TreeKey) (proposed j : JobId) (url : String) :
    keyOf (c.create key proposed url).1 j = if j = proposed then some key else keyOf c j := by
  unfold keyOf LocalClaims.create
  dsimp only
  rw [Table.lookup_insert]
  split_ifs <;> rfl

theorem Indexed.create {c : LocalClaims} (indexed : Indexed c) {key : TreeKey} {proposed : JobId}
    (unnamed : c.byKey.lookup key = none) (fresh : keyOf c proposed = none) (url : String) :
    Indexed (c.create key proposed url).1 := by
  intro k j
  rw [keyOf_create]
  show (c.byKey.insert key proposed).lookup k = some j ↔ _
  rw [Table.lookup_insert]
  split_ifs with here mine mine
  · exact iff_of_true (by rw [mine]) (by rw [here])
  · refine iff_of_false (fun same => mine (Option.some.inj same).symm) fun keyed => ?_
    have there := (indexed k j).mpr keyed
    rw [here, unnamed] at there
    cases there
  · refine iff_of_false (fun there => ?_) fun same => here (Option.some.inj same).symm
    have keyed := (indexed k j).mp there
    rw [mine, fresh] at keyed
    cases keyed
  · exact indexed k j

/-- What one admission does, once the stale claim of its tree is gone: it joins the job of the tree,
or makes one. -/
inductive Admission (c : LocalClaims) (key : TreeKey) (proposed : JobId) :
    LocalClaims × Admitted → Prop
  | joined {c' : LocalClaims} {answer : Admitted} (named : c.byKey.lookup key = some answer.jobId)
      (byKey : c'.byKey = c.byKey) (keys : ∀ j, keyOf c' j = keyOf c j) :
      Admission c key proposed (c', answer)
  | made {url : String} (unnamed : c.byKey.lookup key = none) :
      Admission c key proposed (c.create key proposed url)

theorem admission {c : LocalClaims} (indexed : Indexed c) (key : TreeKey) (proposed : JobId)
    (url : String) (nowMs retentionMs : ℤ) :
    Admission (c.dropStale key nowMs retentionMs) key proposed
      (c.admitDispatch key proposed url nowMs retentionMs) := by
  have dropped := indexed.dropStale key nowMs retentionMs
  unfold LocalClaims.admitDispatch
  dsimp only
  cases named : (c.dropStale key nowMs retentionMs).byKey.lookup key with
  | none => exact .made named
  | some existing =>
    have keyed := (dropped key existing).mp named
    unfold keyOf at keyed
    dsimp only
    cases found : (c.dropStale key nowMs retentionMs).claims.lookup existing with
    | none =>
      rw [found] at keyed
      cases keyed
    | some claim =>
      refine .joined named rfl fun j => keyOf_insert rfl found ?_ j
      unfold LocalClaim.attach
      split <;> rfl

theorem keyOf_admitted {c : LocalClaims} (indexed : Indexed c) (key : TreeKey) (proposed : JobId)
    (url : String) (nowMs retentionMs : ℤ) :
    keyOf (c.admitDispatch key proposed url nowMs retentionMs).1
      (c.admitDispatch key proposed url nowMs retentionMs).2.jobId = some key := by
  have dropped := indexed.dropStale key nowMs retentionMs
  have admits := admission indexed key proposed url nowMs retentionMs
  generalize c.admitDispatch key proposed url nowMs retentionMs = out at admits ⊢
  cases admits with
  | joined named byKey keys =>
    rw [keys]
    exact (dropped key _).mp named
  | made unnamed =>
    rw [keyOf_create]
    exact if_pos rfl

/-- While the claim of the tree is kept, an admission answers its job. -/
theorem jobId_admitted {c : LocalClaims} (indexed : Indexed c) {key : TreeKey} {j : JobId}
    (keyed : keyOf c j = some key) {nowMs retentionMs : ℤ}
    (fresh : c.stale key nowMs retentionMs = false) (proposed : JobId) (url : String) :
    (c.admitDispatch key proposed url nowMs retentionMs).2.jobId = j := by
  have here := (indexed key j).mpr keyed
  have kept : c.dropStale key nowMs retentionMs = c := by
    unfold LocalClaims.dropStale
    rw [fresh, if_neg Bool.false_ne_true]
  have admits := admission indexed key proposed url nowMs retentionMs
  rw [kept] at admits
  generalize c.admitDispatch key proposed url nowMs retentionMs = out at admits ⊢
  cases admits with
  | joined named =>
    rw [here] at named
    exact (Option.some.inj named).symm
  | made unnamed =>
    rw [here] at unnamed
    cases unnamed

/-! ### Every run -/

/-- The claims after a step: still indexed, and each of its old tree or gone. -/
structure KeepsKeys (c c' : LocalClaims) (proposed : JobId) : Prop where
  indexed : Indexed c'
  keys : ∀ j ≠ proposed, keyOf c' j = keyOf c j ∨ keyOf c' j = none

theorem KeepsKeys.congr {c c' : LocalClaims} (indexed : Indexed c) (byKey : c'.byKey = c.byKey)
    (keys : ∀ j, keyOf c' j = keyOf c j) (proposed : JobId) : KeepsKeys c c' proposed :=
  ⟨indexed.congr byKey keys, fun j _ => .inl (keys j)⟩

theorem keyOf_forget (c : LocalClaims) (i j : JobId) :
    keyOf (c.forget i) j = if j = i then none else keyOf c j := by
  unfold keyOf
  rw [LocalClaims.lookup_forget]
  split_ifs <;> rfl

theorem keyOf_dropStale (c : LocalClaims) (key : TreeKey) (nowMs retentionMs : ℤ) (j : JobId) :
    keyOf (c.dropStale key nowMs retentionMs) j = keyOf c j ∨
      keyOf (c.dropStale key nowMs retentionMs) j = none := by
  unfold keyOf
  obtain same | ⟨-, -, gone⟩ := c.lookup_dropStale key nowMs retentionMs j
  · rw [same]
    exact .inl rfl
  · rw [gone]
    exact .inr rfl

theorem keepsKeys_admission {c : LocalClaims} (indexed : Indexed c) (key : TreeKey)
    {proposed : JobId} (fresh : keyOf c proposed = none) (url : String) (nowMs retentionMs : ℤ) :
    KeepsKeys c (c.admitDispatch key proposed url nowMs retentionMs).1 proposed := by
  have dropped := indexed.dropStale key nowMs retentionMs
  have left := keyOf_dropStale c key nowMs retentionMs
  have admits := admission indexed key proposed url nowMs retentionMs
  generalize c.admitDispatch key proposed url nowMs retentionMs = out at admits ⊢
  cases admits with
  | joined named byKey keys =>
    refine ⟨dropped.congr byKey keys, fun j _ => ?_⟩
    rw [keys]
    exact left j
  | made unnamed =>
    refine ⟨dropped.create unnamed ?_ _, fun j other => ?_⟩
    · obtain same | gone := left proposed
      · rw [same, fresh]
      · exact gone
    · rw [keyOf_create, if_neg other]
      exact left j

section Step

variable {w w' : World} {env : Env} {f : Frame} {o : Outcome} {others : List Frame}

theorem keepsKeys_fires (one : OneToken w) (indexed : Indexed w.control.claims)
    (fires : World.Fires w env f o others w') :
    KeepsKeys w.control.claims w'.control.claims env.proposed := by
  have fresh : keyOf w.control.claims env.proposed = none := by
    unfold keyOf
    cases found : w.control.claims.claims.lookup env.proposed with
    | none => rfl
    | some claim => exact absurd (one.minted _ claim found) fires.fresh
  have move : ClaimsMove env w.control f o := fires.stepped ▸ claims_move env w.control f
  rw [fires.control]
  cases move with
  | still _ same =>
    rw [same]
    exact .congr indexed rfl (fun _ => rfl) _
  | books _ moved =>
    generalize o.control.claims = claims at moved ⊢
    cases moved with
    | forget id =>
      refine ⟨indexed.forget id, fun j _ => ?_⟩
      rw [keyOf_forget]
      split_ifs
      · exact .inr rfl
      · exact .inl rfl
    | settle lease v =>
      refine .congr indexed ?_ ?_ _
      · rfl
      · exact keyOf_modify rfl fun _ => by rfl
    | admission key url ms => exact keepsKeys_admission indexed key fresh url env.nowMs ms
  | granted _ found =>
    refine .congr indexed ?_ ?_ _
    · rfl
    · exact keyOf_insert rfl found (by rfl)
  | answered => exact .congr indexed rfl (fun _ => rfl) _
  | refused => exact .congr indexed rfl (fun _ => rfl) _
  | released =>
    refine .congr indexed ?_ ?_ _
    · rfl
    · exact keyOf_modify rfl fun _ => by rfl

end Step

theorem oneToken (config : ControlConfig) (labels : List Label) :
    OneToken (run World.step (.init config) labels) :=
  World.invariant_always (fun _ call => oneToken_call call)
    (fun _ _ _ _ _ _ => oneToken_fires) (oneToken_init config) labels

theorem indexed (config : ControlConfig) (labels : List Label) :
    Indexed (run World.step (.init config) labels).control.claims :=
  World.invariant_over (B := OneToken) (C := fun _ _ _ => True)
    (I := fun w => Indexed w.control.claims) (fun _ _ indexed => indexed)
    (fun _ _ _ _ _ _ one indexed _ fires => (keepsKeys_fires one indexed fires).indexed)
    (oneToken config) indexed_new (along_iff.mpr fun _ _ _ _ _ => trivial)

/-- The job was drawn, and if it has a claim the claim is of this tree. -/
def Of (key : TreeKey) (j : JobId) (w : World) : Prop :=
  j ∈ w.minted ∧ ∀ key', keyOf w.control.claims j = some key' → key' = key

theorem of_run (config : ControlConfig) {key : TreeKey} {j : JobId} {front : List Label}
    (start : Of key j (run World.step (.init config) front)) (back : List Label) :
    Of key j (run World.step (.init config) (front ++ back)) := by
  rw [run_append]
  refine World.invariant_over (B := fun w => OneToken w ∧ Indexed w.control.claims)
    (C := fun _ _ _ => True) (I := Of key j) (fun _ _ of => of) ?_ (fun labels => ?_) start
    (along_iff.mpr fun _ _ _ _ _ => trivial)
  · intro w env f o others w' known of _ fires
    have keeps := keepsKeys_fires known.1 known.2 fires
    have other : j ≠ env.proposed := fun same => fires.fresh (same ▸ of.1)
    refine ⟨fires.drawn of.1, fun key' found => ?_⟩
    obtain same | gone := keeps.keys j other
    · exact of.2 key' (same ▸ found)
    · rw [gone] at found
      cases found
  · rw [← run_append]
    exact ⟨oneToken config _, indexed config _⟩

/-! ### Two dispatches -/

/-- The label lets an accept of this dispatch be admitted, to the job `j`. -/
def AdmittedTo (w : World) (l : Label) (d : Dispatch) (j : JobId) : Prop :=
  ∃ a env, w.running l = some (.accept a, env) ∧ a.pc = .admission ∧ a.dispatch = d ∧
    (w.control.claims.admitDispatch ⟨d.repo, d.treeId⟩ env.proposed d.callbackUrl env.nowMs
      (asMillis w.control.config.jobRetention)).2.jobId = j

/-- The claim of the job is kept at this label: it is there and has not outlived its retention. -/
def Retained (w : World) (l : Label) (j : JobId) : Prop :=
  ∃ claim, w.control.claims.claims.lookup j = some claim ∧ ∀ f env, w.running l = some (f, env) →
    w.control.claims.stale claim.key env.nowMs (asMillis w.control.config.jobRetention) = false

theorem admission_claims (env : Env) (c : Control) {a : Accept} (pc : a.pc = .admission) :
    ((Frame.accept a).step env c).control.claims =
      (c.claims.admitDispatch ⟨a.dispatch.repo, a.dispatch.treeId⟩ env.proposed
        a.dispatch.callbackUrl env.nowMs (asMillis c.config.jobRetention)).1 := by
  show (a.step env c).control.claims = _
  unfold Accept.step
  rw [pc]
  dsimp only
  split <;> rfl

/-- After its step, an admission has answered a job of its tree. -/
theorem AdmittedTo.of {config : ControlConfig} {labels : List Label} {l : Label} {d : Dispatch}
    {j : JobId} (admitted : AdmittedTo (run World.step (.init config) labels) l d j) :
    Of ⟨d.repo, d.treeId⟩ j (run World.step (.init config) (labels ++ [l])) ∧
      keyOf (run World.step (.init config) (labels ++ [l])).control.claims j =
        some ⟨d.repo, d.treeId⟩ := by
  obtain ⟨a, env, runs, pc, rfl, rfl⟩ := admitted
  have known := oneToken config (labels ++ [l])
  have before := indexed config labels
  rw [run_append] at known ⊢
  generalize run World.step (.init config) labels = w at *
  cases l with
  | call call => cases runs
  | run task env' =>
    obtain ⟨rfl, o, others, fires⟩ := World.step_fires runs
    have claims := admission_claims env w.control pc
    rw [fires.stepped, ← fires.control] at claims
    have keyed := keyOf_admitted before ⟨a.dispatch.repo, a.dispatch.treeId⟩ env.proposed
      a.dispatch.callbackUrl env.nowMs (asMillis w.control.config.jobRetention)
    rw [← claims] at keyed
    refine ⟨⟨?_, fun key' found => ?_⟩, keyed⟩
    · obtain ⟨claim, found, -⟩ := Option.map_eq_some_iff.mp keyed
      exact known.minted _ claim found
    · exact Option.some.inj (found.symm.trans keyed)

/-- What is posted was decided. -/
def Posted (w : World) : Prop :=
  ∀ req success, .posted req success ∈ w.history → .decided req.jobId req.verdict ∈ w.history

theorem posted_fires {w w' : World} {env : Env} {f : Frame} {o : Outcome} {others : List Frame}
    (truth : Truth w) (posted : Posted w) (fires : World.Fires w env f o others w') :
    Posted w' := by
  intro req success seen
  obtain old | new := fires.seen.mp seen
  · exact fires.seen.mpr (.inl (posted req success old))
  · have truthful := truth.frames f (fires.frames.mem_before)
    have move : FrameMove env w.control f o := fires.stepped ▸ frame_moves env w.control f
    refine fires.seen.mpr (.inl ?_)
    cases move with
    | report move =>
      cases move with
      | retry pc | postedLast pc | posted pc =>
        obtain ⟨rfl, -⟩ := Obs.posted.inj (List.mem_singleton.mp new)
        unfold Truthful TruthfulReport at truthful
        dsimp only at truthful
        rw [pc] at truthful
        obtain ⟨own, decided⟩ := truthful _ List.mem_cons_self
        rw [own]
        exact decided
      | _ => simp at new
    | finish move => cases move <;> simp at new
    | accept move => cases move <;> simp at new
    | drive move => cases move <;> simp at new
    | retire move => cases move <;> simp at new
    | pump move =>
      cases move with
      | select =>
        obtain ⟨_, _, _, -, -, -, -, same⟩ := mem_offers new
        cases same
      | _ => simp at new
    | message move => cases move <;> simp at new

theorem posted (config : ControlConfig) (labels : List Label) :
    Posted (run World.step (.init config) labels) :=
  World.invariant_over (B := Truth) (C := fun _ _ _ => True) (I := Posted)
    (fun _ _ posted => posted)
    (fun _ _ _ _ _ _ truth posted _ fires => posted_fires truth posted fires)
    (truth config) (fun _ _ seen => nomatch seen) (along_iff.mpr fun _ _ _ _ _ => trivial)

/-- Two dispatches that ingest lets through and the fetch broker takes for the same tree of the same
repository. -/
structure SameTree (raw raw' d d' : Dispatch) : Prop where
  accepted : raw.canonicalize = .ok d ∧ raw'.canonicalize = .ok d'
  repo : d.repo = d'.repo
  tree : ∃ t, normalizeTreeId d.treeId = .ok t ∧ normalizeTreeId d'.treeId = .ok t

/-- One job for both: its steps run once, and what is posted for it is one verdict. -/
structure OneJob (w : World) (j j' : JobId) : Prop where
  same : j = j'
  once : ∀ s, w.history.count (.assigned j s) ≤ 1
  verdict : ∀ req req' success success', .posted req success ∈ w.history →
    .posted req' success' ∈ w.history → req.jobId = j → req'.jobId = j' →
      req.verdict = req'.verdict

/-- A dispatch of `team/app`. -/
def pushed (treeId url : String) : Dispatch :=
  { repo := "team/app", change := "1", treeId, sourceUrl := "https://hull/src", callbackUrl := url }

/-- A tree id of one digit, repeated. -/
def digits (c : Char) : String :=
  String.ofList (List.replicate 64 c)

/-- Two accepts, each up to its admission. -/
def twoAccepts (treeId treeId' : String) : List Label :=
  [.call (.accept (pushed treeId "u1") .member 0), .call (.accept (pushed treeId' "u2") .member 0)]
    ++ Label.steps 0 0 2 ++ Label.steps 1 2 2

theorem sameTree_spellings (c : Char) (spelled : c = 'a' ∨ c = 'A') :
    SameTree (pushed (digits 'a') "u1") (pushed (digits c) "u2") (pushed (digits 'a') "u1")
      (pushed (digits c) "u2") := by
  obtain rfl | rfl := spelled
  · exact ⟨⟨rfl, rfl⟩, rfl, digits 'a', rfl, rfl⟩
  · exact ⟨⟨rfl, rfl⟩, rfl, digits 'a', rfl, rfl⟩

end HullCi.System
