/-
**How long a package grant lives.**

A step of `run_assignment_with` mints a grant and holds a guard; when the step ends or is aborted the
guard drops every grant of the step's job.

* `known_step` — a record belongs to one live step, whatever happens.
* `lawful_iff` — every token is good exactly while its step lives and it has not expired, when every
  such step still has its record.
* `held_step_iff` — which events keep those records: every one but the end of a step while another
  step of its job holds an unexpired grant.
* `grant_lifetime_iff` — over whole runs.
-/

import HullCi.Base.Run
import HullCi.Proxy.Grant

namespace HullCi.Proxy

open HullCi.Base
open HullCi.Secrets (Bytes Digest)

/-! ### What a step does with its grant -/

/-- What the node mints grants with. -/
structure PackagePlane where
  labels : List String
  rate : RateLimit
  digestSecret : Bytes → Digest

/-- How long a grant outlives its step's wall clock, in seconds. -/
def grantGraceSecs : ℕ := 60

/-- One call of `run_assignment_with` that came as far as its grant. -/
structure StepRun where
  jobId : String
  /-- the token that `ProxyAccess::grant` returned, and its grant -/
  lease : Option (String × Grant)
  /-- the guard has not been dropped -/
  live : Bool
  deriving DecidableEq

/-- The registry, and the steps of a node's tasks. -/
structure NodeRuns where
  grants : GrantRegistry
  runs : Table ℕ StepRun
  now : ℕ

/-- `ProxyAccess::grant`: nothing when the allowlist is empty. -/
def PackagePlane.grant (plane : PackagePlane) (grants : GrantRegistry) (now : ℕ)
    (tenant jobId : String) (lifetime : ℕ) (id : GrantId) (secret : Bytes) :
    GrantRegistry × Option (String × Grant) :=
  if plane.labels.isEmpty then (grants, none)
  else
    let minted := grants.mint plane.digestSecret id secret tenant jobId plane.labels
      (now + lifetime + grantGraceSecs) plane.rate
    (minted.1, some minted.2)

/-- `ProxyAccess::release`. -/
def release (grants : GrantRegistry) (jobId : String) : GrantRegistry :=
  grants.revokeJob jobId

/-- What can happen on the node and at the proxy. What comes before a step's grant leaves the
registry alone. -/
inductive GrantEvent where
  /-- a step mints its grant and takes its guard; the id and the secret half are random -/
  | granted (run : ℕ) (tenant jobId : String) (lifetime : ℕ) (id : GrantId)
    (secret : Vector UInt8 32)
  /-- a step returns, or is aborted: its guard is dropped -/
  | ended (run : ℕ)
  /-- somebody presents a token -/
  | asked (token : String)
  | swept
  | passed (secs : ℕ)

/-- One event. -/
def grantStep (plane : PackagePlane) (s : NodeRuns) : GrantEvent → NodeRuns
  | .granted run tenant jobId lifetime id secret =>
    match s.runs.lookup run with
    | some _ => s
    | none =>
      let made := plane.grant s.grants s.now tenant jobId lifetime id secret.toList
      { s with grants := made.1, runs := s.runs.insert run ⟨jobId, made.2, true⟩ }
  | .ended run =>
    match s.runs.lookup run with
    | none => s
    | some r =>
      if r.live then
        { s with
          grants := release s.grants r.jobId
          runs := s.runs.insert run { r with live := false } }
      else s
  | .asked token => { s with grants := (s.grants.authorise plane.digestSecret token s.now).1 }
  | .swept => { s with grants := s.grants.sweep s.now }
  | .passed secs => { s with now := s.now + secs }

/-- No grant and no step, at some moment. -/
def NodeRuns.start (now : ℕ) : NodeRuns where
  grants := ∅
  runs := ∅
  now := now

/-! ### What is claimed of a token -/

/-- A step of the node, with its token and its grant. -/
def Leased (s : NodeRuns) (run : ℕ) (r : StepRun) (token : String) (grant : Grant) : Prop :=
  s.runs.lookup run = some r ∧ r.lease = some (token, grant)

/-- Every token is good exactly while its step lives and it has not expired. -/
def Lawful (plane : PackagePlane) (s : NodeRuns) : Prop :=
  ∀ run r token grant, Leased s run r token grant →
    (s.grants.Authenticates plane.digestSecret token s.now ↔
      r.live = true ∧ s.now < grant.expiresAt)

/-- An event that takes no grant from a step that runs on: no step ends while another step of its
job holds an unexpired grant. -/
def Alone (s : NodeRuns) : GrantEvent → Prop
  | .ended run => ∀ r, s.runs.lookup run = some r → r.live = true →
    ∀ run' r' token grant, Leased s run' r' token grant → run' ≠ run → r'.live = true →
      r'.jobId = r.jobId → grant.expiresAt ≤ s.now
  | _ => True

/-- The random ids of grants do not repeat. -/
def Fresh (s : NodeRuns) : GrantEvent → Prop
  | .granted _ _ _ _ id _ =>
    ∀ run r token grant, Leased s run r token grant → grant.grantId ≠ id
  | _ => True

/-! ### What the registry holds -/

/-- A record belongs to one live step. -/
structure Known (plane : PackagePlane) (s : NodeRuns) : Prop where
  minted : ∀ run r token grant, Leased s run r token grant → grant.jobId = r.jobId ∧
    ∃ digest, parseGrantToken plane.digestSecret token = some (grant.grantId, digest)
  distinct : ∀ run r token grant run' r' token' grant', Leased s run r token grant →
    Leased s run' r' token' grant' → grant.grantId = grant'.grantId → run = run'
  owned : ∀ id grant digest revoked, s.grants.entry id = some (grant, digest, revoked) →
    revoked = false ∧ ∃ run r token, Leased s run r token grant ∧ r.live = true ∧
      grant.grantId = id ∧ parseGrantToken plane.digestSecret token = some (id, digest)

/-- Every live step that has not outlived its grant has its record. -/
def Held (s : NodeRuns) : Prop :=
  ∀ run r token grant, Leased s run r token grant → r.live = true → s.now < grant.expiresAt →
    (s.grants.entry grant.grantId).isSome

section Steps

variable {plane : PackagePlane} {s : NodeRuns}

theorem Leased.unique {run : ℕ} {r r' : StepRun} {token token' : String} {grant grant' : Grant}
    (leased : Leased s run r token grant) (leased' : Leased s run r' token' grant') :
    r = r' ∧ token = token' ∧ grant = grant' := by
  obtain rfl := Option.some.inj (leased.1.symm.trans leased'.1)
  obtain ⟨rfl, rfl⟩ := Prod.mk.inj (Option.some.inj (leased.2.symm.trans leased'.2))
  exact ⟨rfl, rfl, rfl⟩

theorem Known.own (known : Known plane s) {run : ℕ} {r : StepRun} {token : String} {grant : Grant}
    (leased : Leased s run r token grant) {grant' : Grant} {digest : Digest} {revoked : Bool}
    (found : s.grants.entry grant.grantId = some (grant', digest, revoked)) :
    grant' = grant ∧ revoked = false ∧ r.live = true ∧
      parseGrantToken plane.digestSecret token = some (grant.grantId, digest) := by
  obtain ⟨rfl, run', r', token', leased', live, same, parsed⟩ := known.owned _ _ _ _ found
  obtain rfl := known.distinct _ _ _ _ _ _ _ _ leased' leased same
  obtain ⟨rfl, rfl, rfl⟩ := leased'.unique leased
  exact ⟨rfl, rfl, live, parsed⟩

/-- **Lawful is held**, where records belong to live steps. -/
theorem lawful_iff (known : Known plane s) : Lawful plane s ↔ Held s := by
  constructor
  · intro lawful run r token grant leased live early
    obtain ⟨id, grant', digest, parsed, found, -⟩ :=
      GrantRegistry.authenticates_iff.mp ((lawful run r token grant leased).mpr ⟨live, early⟩)
    obtain ⟨digest', parsed'⟩ := (known.minted run r token grant leased).2
    rw [parsed'] at parsed
    obtain ⟨rfl, rfl⟩ := Prod.mk.inj (Option.some.inj parsed)
    rw [found]
    rfl
  · intro held run r token grant leased
    rw [GrantRegistry.authenticates_iff]
    constructor
    · rintro ⟨id, grant', digest, parsed, found, early⟩
      obtain ⟨digest', parsed'⟩ := (known.minted run r token grant leased).2
      rw [parsed'] at parsed
      obtain ⟨rfl, rfl⟩ := Prod.mk.inj (Option.some.inj parsed)
      obtain ⟨rfl, -, live, -⟩ := known.own leased found
      exact ⟨live, early⟩
    · rintro ⟨live, early⟩
      obtain ⟨⟨grant', digest, revoked⟩, found⟩ :=
        Option.isSome_iff_exists.mp (held run r token grant leased live early)
      obtain ⟨rfl, rfl, -, parsed⟩ := known.own leased found
      exact ⟨_, grant', digest, parsed, found, early⟩

/-! ### One event -/

/-- A registry whose records were there before, under the same steps. -/
theorem Known.shrink (known : Known plane s) {grants : GrantRegistry} {now : ℕ}
    (fewer : ∀ id e, grants.entry id = some e → s.grants.entry id = some e) :
    Known plane { s with grants := grants, now := now } where
  minted := known.minted
  distinct := known.distinct
  owned id grant digest revoked found := known.owned id grant digest revoked (fewer id _ found)

theorem leased_insert {run : ℕ} {r : StepRun} {grants : GrantRegistry} {now run' : ℕ}
    {r' : StepRun} {token : String} {grant : Grant} :
    Leased ⟨grants, s.runs.insert run r, now⟩ run' r' token grant ↔
      (run' = run ∧ r' = r ∧ r.lease = some (token, grant)) ∨
        (run' ≠ run ∧ Leased s run' r' token grant) := by
  unfold Leased
  dsimp only
  rw [Table.lookup_insert]
  by_cases same : run' = run
  · rw [if_pos same]
    constructor
    · rintro ⟨found, lease⟩
      obtain rfl := Option.some.inj found
      exact .inl ⟨same, rfl, lease⟩
    · rintro (⟨-, rfl, lease⟩ | ⟨other, -⟩)
      · exact ⟨rfl, lease⟩
      · exact absurd same other
  · rw [if_neg same]
    constructor
    · exact fun leased => .inr ⟨same, leased⟩
    · rintro (⟨yes, -⟩ | ⟨-, leased⟩)
      · exact absurd yes same
      · exact leased

/-- What an event does. -/
inductive Stepped (plane : PackagePlane) (s : NodeRuns) : GrantEvent → NodeRuns → Prop
  | idle (e : GrantEvent) (alone : Alone s e) : Stepped plane s e s
  | bare (run : ℕ) (tenant jobId : String) (lifetime : ℕ) (id : GrantId) (secret : Vector UInt8 32)
    (new : s.runs.lookup run = none) : Stepped plane s (.granted run tenant jobId lifetime id secret)
      { s with runs := s.runs.insert run ⟨jobId, none, true⟩ }
  | minted (run : ℕ) (tenant jobId : String) (lifetime : ℕ) (id : GrantId)
    (secret : Vector UInt8 32) (new : s.runs.lookup run = none) (grants : GrantRegistry)
    (grant : Grant) (named : grant.grantId = id ∧ grant.jobId = jobId)
    (entered : ∀ id', grants.entry id' = if id' = id then
      some (grant, plane.digestSecret secret.toList, false) else s.grants.entry id') :
    Stepped plane s (.granted run tenant jobId lifetime id secret)
      ⟨grants, s.runs.insert run ⟨jobId, some (grantToken id secret.toList, grant), true⟩, s.now⟩
  | ended (run : ℕ) (r : StepRun) (here : s.runs.lookup run = some r) (live : r.live = true) :
    Stepped plane s (.ended run)
      ⟨s.grants.revokeJob r.jobId, s.runs.insert run { r with live := false }, s.now⟩
  | asked (token : String) (grants : GrantRegistry)
    (same : ∀ id, grants.entry id = s.grants.entry id) :
    Stepped plane s (.asked token) { s with grants := grants }
  | swept : Stepped plane s .swept { s with grants := s.grants.sweep s.now }
  | passed (secs : ℕ) : Stepped plane s (.passed secs) { s with now := s.now + secs }

variable (plane s) in
theorem grantStep_cases (e : GrantEvent) : Stepped plane s e (grantStep plane s e) := by
  cases e with
  | granted run tenant jobId lifetime id secret =>
    unfold grantStep
    dsimp only
    cases taken : s.runs.lookup run with
    | some r => exact .idle _ trivial
    | none =>
      unfold PackagePlane.grant
      by_cases empty : plane.labels.isEmpty
      · rw [if_pos empty]
        exact .bare run tenant jobId lifetime id secret taken
      · rw [if_neg empty]
        exact .minted run tenant jobId lifetime id secret taken _ _ ⟨rfl, rfl⟩
          (GrantRegistry.entry_mint _ _ _ _ _ _ _ _ _)
  | ended run =>
    unfold grantStep
    dsimp only
    cases here : s.runs.lookup run with
    | none =>
      refine .idle _ fun r found => ?_
      rw [here] at found
      cases found
    | some r =>
      dsimp only
      by_cases live : r.live = true
      · rw [if_pos live]
        exact .ended run r here live
      · rw [if_neg live]
        refine .idle _ fun r' found live' => ?_
        obtain rfl := Option.some.inj (here.symm.trans found)
        exact absurd live' live
  | asked token => exact .asked token _ (GrantRegistry.entry_authorise _ _ _ _)
  | swept => exact .swept
  | passed secs => exact .passed secs

theorem Leased.ne_new {run run' : ℕ} {r : StepRun} {token : String} {grant : Grant}
    (leased : Leased s run r token grant) (new : s.runs.lookup run' = none) : run ≠ run' := by
  rintro rfl
  rw [leased.1] at new
  cases new

/-- **A record belongs to one live step**, whatever happens. -/
theorem known_step (known : Known plane s) (e : GrantEvent) (fresh : Fresh s e) :
    Known plane (grantStep plane s e) := by
  have stepped := grantStep_cases plane s e
  generalize grantStep plane s e = s' at stepped
  cases stepped with
  | idle => exact known
  | bare run tenant jobId lifetime id secret new =>
    have leases : ∀ run' r token grant,
        Leased ⟨s.grants, s.runs.insert run ⟨jobId, none, true⟩, s.now⟩ run' r token grant ↔
          Leased s run' r token grant := by
      intro run' r token grant
      rw [leased_insert]
      constructor
      · rintro (⟨-, -, no⟩ | ⟨-, leased⟩)
        · cases no
        · exact leased
      · exact fun leased => .inr ⟨leased.ne_new new, leased⟩
    refine ⟨?_, ?_, ?_⟩
    · intro run' r token grant leased
      exact known.minted run' r token grant ((leases _ _ _ _).mp leased)
    · intro run' r token grant run'' r' token' grant' leased leased' same
      exact known.distinct _ _ _ _ _ _ _ _ ((leases _ _ _ _).mp leased) ((leases _ _ _ _).mp leased')
        same
    · intro id' grant digest revoked found
      obtain ⟨good, run', r, token, leased, rest⟩ := known.owned id' grant digest revoked found
      exact ⟨good, run', r, token, (leases _ _ _ _).mpr leased, rest⟩
  | minted run tenant jobId lifetime id secret new grants grant named entered =>
    have parsed := parseGrantToken_grantToken plane.digestSecret id
      (show secret.toList.length = 32 by simp)
    refine ⟨?_, ?_, ?_⟩
    · intro run' r token grant' leased
      rcases leased_insert.mp leased with ⟨-, rfl, same⟩ | ⟨-, old⟩
      · obtain ⟨rfl, rfl⟩ := Prod.mk.inj (Option.some.inj same)
        exact ⟨named.2, _, by rw [parsed, named.1]⟩
      · exact known.minted run' r token grant' old
    · intro run' r token grant' run'' r' token' grant'' leased leased' same
      rcases leased_insert.mp leased with ⟨rfl, -, lease⟩ | ⟨-, old⟩ <;>
        rcases leased_insert.mp leased' with ⟨rfl, -, lease'⟩ | ⟨-, old'⟩
      · rfl
      · obtain ⟨-, rfl⟩ := Prod.mk.inj (Option.some.inj lease)
        exact absurd (same.symm.trans named.1) (fresh _ _ _ _ old')
      · obtain ⟨-, rfl⟩ := Prod.mk.inj (Option.some.inj lease')
        exact absurd (same.trans named.1) (fresh _ _ _ _ old)
      · exact known.distinct _ _ _ _ _ _ _ _ old old' same
    · intro id' grant' digest revoked found
      rw [entered] at found
      by_cases same : id' = id
      · rw [if_pos same, Option.some.injEq, Prod.mk.injEq, Prod.mk.injEq] at found
        obtain ⟨rfl, rfl, rfl⟩ := found
        exact ⟨rfl, run, _, _, leased_insert.mpr (.inl ⟨rfl, rfl, rfl⟩), rfl,
          named.1.trans same.symm, by rw [parsed, same]⟩
      · rw [if_neg same] at found
        obtain ⟨good, run', r, token, leased, rest⟩ := known.owned id' grant' digest revoked found
        exact ⟨good, run', r, token, leased_insert.mpr (.inr ⟨leased.ne_new new, leased⟩), rest⟩
  | ended run r here live =>
    have leases : ∀ {run' r' token grant},
        Leased ⟨s.grants.revokeJob r.jobId, s.runs.insert run { r with live := false }, s.now⟩ run' r'
          token grant → ∃ r'', Leased s run' r'' token grant ∧ r''.jobId = r'.jobId := by
      intro run' r' token grant leased
      rcases leased_insert.mp leased with ⟨rfl, rfl, lease⟩ | ⟨-, old⟩
      · exact ⟨r, ⟨here, lease⟩, rfl⟩
      · exact ⟨r', old, rfl⟩
    refine ⟨?_, ?_, ?_⟩
    · intro run' r' token grant leased
      obtain ⟨r'', old, same⟩ := leases leased
      rw [← same]
      exact known.minted run' r'' token grant old
    · intro run' r' token grant run'' r'' token' grant' leased leased' same
      obtain ⟨_, old, -⟩ := leases leased
      obtain ⟨_, old', -⟩ := leases leased'
      exact known.distinct _ _ _ _ _ _ _ _ old old' same
    · intro id grant digest revoked found
      rw [GrantRegistry.entry_revokeJob, Option.filter_eq_some_iff] at found
      obtain ⟨good, run', r', token, leased, rest⟩ := known.owned id grant digest revoked found.1
      have other : run' ≠ run := by
        rintro rfl
        obtain rfl := Option.some.inj (here.symm.trans leased.1)
        have job := (known.minted _ _ _ _ leased).1
        exact absurd job (by simpa using found.2)
      exact ⟨good, run', r', token, leased_insert.mpr (.inr ⟨other, leased⟩), rest⟩
  | asked token grants same => exact known.shrink fun id e found => (same id).symm.trans found
  | swept =>
    refine known.shrink fun id e found => ?_
    rw [GrantRegistry.entry_sweep, Option.filter_eq_some_iff] at found
    exact found.1
  | passed secs => exact known.shrink fun id e found => found

/-- **Which events keep the records of the live steps.** -/
theorem held_step_iff (known : Known plane s) (held : Held s) (e : GrantEvent) (fresh : Fresh s e) :
    Held (grantStep plane s e) ↔ Alone s e := by
  have stepped := grantStep_cases plane s e
  generalize grantStep plane s e = s' at stepped
  cases stepped with
  | idle e alone => exact ⟨fun _ => alone, fun _ => held⟩
  | bare run tenant jobId lifetime id secret new =>
    refine ⟨fun _ => trivial, fun _ run' r token grant leased live early => ?_⟩
    rcases leased_insert.mp leased with ⟨-, -, no⟩ | ⟨-, old⟩
    · cases no
    · exact held run' r token grant old live early
  | minted run tenant jobId lifetime id secret new grants grant named entered =>
    refine ⟨fun _ => trivial, fun _ run' r token grant' leased live early => ?_⟩
    show (grants.entry grant'.grantId).isSome
    rw [entered]
    rcases leased_insert.mp leased with ⟨-, rfl, lease⟩ | ⟨-, old⟩
    · obtain ⟨-, rfl⟩ := Prod.mk.inj (Option.some.inj lease)
      rw [if_pos named.1]
      rfl
    · rw [if_neg (fresh run' r token grant' old)]
      exact held run' r token grant' old live early
  | ended run r here live =>
    constructor
    · intro held' r' here' live' run' r'' token grant leased other lives same
      obtain rfl := Option.some.inj (here.symm.trans here')
      by_contra early
      have kept := held' run' r'' token grant (leased_insert.mpr (.inr ⟨other, leased⟩)) lives
        (not_le.mp early)
      obtain ⟨⟨grant', digest, revoked⟩, found⟩ := Option.isSome_iff_exists.mp kept
      rw [GrantRegistry.entry_revokeJob, Option.filter_eq_some_iff] at found
      obtain ⟨rfl, -⟩ := known.own leased found.1
      have job := (known.minted _ _ _ _ leased).1
      exact absurd (job.trans same) (by simpa using found.2)
    · intro alone run' r' token grant leased lives early
      rcases leased_insert.mp leased with ⟨-, rfl, -⟩ | ⟨other, old⟩
      · cases lives
      · obtain ⟨⟨grant', digest, revoked⟩, found⟩ :=
          Option.isSome_iff_exists.mp (held run' r' token grant old lives early)
        obtain ⟨rfl, -⟩ := known.own old found
        have job := (known.minted _ _ _ _ old).1
        have apart : grant'.jobId ≠ r.jobId := fun same =>
          absurd early (not_lt.mpr (alone r here live run' r' token grant' old other lives
            (job.symm.trans same)))
        show ((s.grants.revokeJob r.jobId).entry grant'.grantId).isSome
        rw [GrantRegistry.entry_revokeJob, found, Option.filter_some, if_pos (by simpa using apart)]
        rfl
  | asked token grants same =>
    refine ⟨fun _ => trivial, fun _ run' r token grant leased live early => ?_⟩
    show (grants.entry grant.grantId).isSome
    rw [same]
    exact held run' r token grant leased live early
  | swept =>
    refine ⟨fun _ => trivial, fun _ run' r token grant leased live early => ?_⟩
    obtain ⟨⟨grant', digest, revoked⟩, found⟩ :=
      Option.isSome_iff_exists.mp (held run' r token grant leased live early)
    obtain ⟨rfl, -⟩ := known.own leased found
    show ((s.grants.sweep s.now).entry grant'.grantId).isSome
    rw [GrantRegistry.entry_sweep, found, Option.filter_some, if_pos (decide_eq_true early)]
    rfl
  | passed secs =>
    refine ⟨fun _ => trivial, fun _ run' r token grant leased live early => ?_⟩
    exact held run' r token grant leased live (lt_of_le_of_lt (Nat.le_add_right _ _) early)

end Steps

/-! ### Whole runs -/

theorem known_start (plane : PackagePlane) (now : ℕ) : Known plane (.start now) where
  minted _ _ _ _ leased := by cases leased.1
  distinct _ _ _ _ _ _ _ _ leased _ _ := by cases leased.1
  owned _ _ _ _ found := by cases found

theorem held_start (now : ℕ) : Held (.start now) :=
  fun _ _ _ _ leased _ _ => by cases leased.1

/-- **How long a grant lives.** For every interleaving of steps, requests, sweeps and time: in every
state of the run each token is authenticated exactly while its step lives and it has not expired, if
and only if no step ends while another step of its job holds an unexpired grant. -/
theorem grant_lifetime_iff (plane : PackagePlane) (now : ℕ) (events : List GrantEvent)
    (fresh : Along (grantStep plane) Fresh (.start now) events) :
    (∀ n, Lawful plane (run (grantStep plane) (.start now) (events.take n))) ↔
      Along (grantStep plane) Alone (.start now) events := by
  have reached : ∀ n, Known plane (run (grantStep plane) (.start now) (events.take n)) := by
    intro n
    have front := (along_append.mp (by rwa [List.take_append_drop n events])).1
    exact run_invariant_along (I := Known plane) (fun s e known new => known_step known e new)
      (known_start plane now) front
  have lawful : (∀ n, Lawful plane (run (grantStep plane) (.start now) (events.take n))) ↔
      ∀ n, Held (run (grantStep plane) (.start now) (events.take n)) :=
    forall_congr' fun n => lawful_iff (reached n)
  rw [lawful]
  exact always_iff_along (I := Known plane) (J := Held)
    (fun s e known new => known_step known e new)
    (fun s e known held new => held_step_iff known held e new) (known_start plane now)
    (held_start now) fresh

/-! ### Two steps of one job -/

/-- A plane with one label. -/
def npmPlane : PackagePlane where
  labels := ["npm"]
  rate := ⟨10, 10⟩
  digestSecret secret := Vector.ofFn fun i => secret.getD i 0

/-- Two steps of one job run at a time, and the first one ends. -/
def twoSteps : List GrantEvent :=
  [.granted 0 "acme" "job-1" 600 (Vector.replicate 16 0) (Vector.replicate 32 1),
    .granted 1 "acme" "job-1" 600 (Vector.replicate 16 1) (Vector.replicate 32 2), .ended 0]

instance (s : NodeRuns) (e : GrantEvent) : Decidable (Fresh s e) :=
  match e with
  | .granted _ _ _ _ id _ =>
    decidable_of_iff (∀ e ∈ s.runs.entries, (e.2.lease.map fun l => l.2.grantId) ≠ some id) (by
      constructor
      · rintro all run r token grant ⟨found, lease⟩ same
        refine all ⟨run, r⟩ (Table.mem_entries.mpr found) ?_
        rw [lease, Option.map_some, same]
      · rintro fresh ⟨run, r⟩ member taken
        obtain ⟨⟨token, grant⟩, lease, same⟩ := Option.map_eq_some_iff.mp taken
        exact fresh run r token grant ⟨Table.mem_entries.mp member, lease⟩ same)
  | .ended _ | .asked _ | .swept | .passed _ => .isTrue trivial

/-- One step alone keeps its token until it ends. -/
theorem grant_lifetime_iff_once :
    Lawful npmPlane (run (grantStep npmPlane) (.start 5) (twoSteps.take 1)) :=
  (grant_lifetime_iff npmPlane 5 (twoSteps.take 1) (by decide)).mpr ⟨trivial, trivial⟩ 1

/-- **The end of one step takes the grant of another.** The second step runs on and its token has not
expired, and the registry does not know it any more. -/
theorem sibling_revoked :
    let s := run (grantStep npmPlane) (.start 5) twoSteps
    let token := grantToken (Vector.replicate 16 1) (List.replicate 32 2)
    Along (grantStep npmPlane) Fresh (.start 5) twoSteps ∧
      (s.runs.lookup 1).map (fun r => (r.live, r.lease.map fun l => (l.1, l.2.expiresAt))) =
        some (true, some (token, 665)) ∧ s.now = 5 ∧
      (s.grants.authorise npmPlane.digestSecret token s.now).2 = .error .invalid := by
  refine ⟨?_, ?_, rfl, ?_⟩ <;> decide +kernel

end HullCi.Proxy
