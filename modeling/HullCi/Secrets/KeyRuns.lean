/-
**Operations of one key client, side by side.**

Threads of operations share a client: its token, its key ids and the clock of its process. A turn is
one call of one thread, and what the far end answers to it is the turn's.

* `Kept.step`, `kept_run` — a token from the cache is one that a login answered with, within its
  time.
* `closed_iff_datesFit` — the operations of a run all fail closed just when the clock can hold every
  date that they make of an `expiresIn`.
-/

import HullCi.Secrets.KeyClient

namespace HullCi.Secrets.KeyClient

open HullCi.Base HullCi.Base.Program

/-! ### One client -/

/-- One client: its two caches, and the clock of its process. -/
structure Client where
  token : Option (String × ℕ)
  keyIds : Table String String
  clock : ℕ

def Client.new : Client where
  token := none
  keyIds := ∅
  clock := 0

/-- What a call draws from outside: how long it took to come, and what the far end answers. -/
structure Input where
  elapsed : ℕ
  response : Response

/-- One call, made. -/
def perform (s : Client) (input : Input) : (call : Call) → Client × Answer call
  | .liveToken =>
    ({ s with clock := s.clock + input.elapsed },
      s.token.bind fun cached =>
        if s.clock + input.elapsed < cached.2 then some (cached.1, s.clock + input.elapsed)
        else none)
  | .now _ => ({ s with clock := s.clock + input.elapsed }, s.clock + input.elapsed)
  | .putToken token expires =>
    ({ s with clock := s.clock + input.elapsed, token := some (token, expires) }, ())
  | .cachedId tenant =>
    ({ s with clock := s.clock + input.elapsed }, s.keyIds.lookup tenant)
  | .cacheId tenant id =>
    ({ s with clock := s.clock + input.elapsed, keyIds := s.keyIds.insert tenant id }, ())
  | .evictId tenant =>
    ({ s with clock := s.clock + input.elapsed, keyIds := s.keyIds.erase tenant }, ())
  | .send .. => ({ s with clock := s.clock + input.elapsed }, input.response)

/-- Threads of operations on one client, with a record of their calls. -/
abbrev Threads :=
  Pool (Traced Client Operation Answer) Operation Answer Panic (Except ClientError Reply)

/-- The threads after a list of turns, from a client that has just been built. -/
def threadsAfter (platform : Platform) (cfg : ClientConfig) (turns : List (Turn Operation Input)) :
    Threads :=
  run (Pool.step (traced perform) (Operation.body platform cfg)) (Pool.idle ⟨Client.new, []⟩) turns

/-- The calls of a thread. -/
def Threads.path (p : Threads) (thread : ℕ) : Path := pathOf thread p.shared.log

/-- Some thread's login has answered with the token, and then the clock was read: at `t`. -/
def Threads.Issued (cfg : ClientConfig) (p : Threads) (token : String) (ttl : UInt64) (t : ℕ) :
    Prop :=
  ∃ thread path, Dated cfg token ttl t path ∧ path <:+ p.path thread

/-- The token is good at a moment: issued before, and within its time. -/
def Threads.Good (cfg : ClientConfig) (p : Threads) (token : String) (now : ℕ) : Prop :=
  ∃ ttl t, p.Issued cfg token ttl t ∧ t ≤ now ∧ now < t + validFor ttl

/-- What holds of the cached token and of those that were taken from the cache. -/
structure Kept (platform : Platform) (cfg : ClientConfig) (p : Threads) : Prop where
  paths : Paths (Operation.body platform cfg) p
  read : ∀ thread ttl t, (⟨.now ttl, t⟩ : Event Answer) ∈ p.path thread → t ≤ p.shared.state.clock
  cached : ∀ token expires, p.shared.state.token = some (token, expires) →
    ∃ ttl t, p.Issued cfg token ttl t ∧ t ≤ p.shared.state.clock ∧ expires = t + validFor ttl
  taken : ∀ thread token now,
    (⟨.liveToken, some (token, now)⟩ : Event Answer) ∈ p.path thread → p.Good cfg token now

section Turned

variable {platform : Platform} {cfg : ClientConfig}

theorem clock_perform (s : Client) (input : Input) (call : Call) :
    (perform s input call).1.clock = s.clock + input.elapsed := by
  cases call <;> rfl

theorem token_perform {s : Client} {input : Input} {call : Call} {token : String} {expires : ℕ}
    (after : (perform s input call).1.token = some (token, expires)) :
    s.token = some (token, expires) ∨ call = .putToken token expires := by
  cases call with
  | putToken token' expires' =>
    cases after
    exact .inr rfl
  | liveToken => exact .inl after
  | now ttl => exact .inl after
  | cachedId tenant => exact .inl after
  | cacheId tenant id => exact .inl after
  | evictId tenant => exact .inl after
  | send method url bearer body => exact .inl after

/-- A token that is found good is the one that is kept, before its date. -/
theorem liveToken_perform {s : Client} {input : Input} {token : String} {now : ℕ}
    (found : (perform s input .liveToken).2 = some (token, now)) :
    ∃ expires, s.token = some (token, expires) ∧ now = s.clock + input.elapsed ∧ now < expires := by
  obtain ⟨⟨token', expires⟩, cached, good⟩ := Option.bind_eq_some_iff.mp found
  dsimp only at good
  split at good
  · next live =>
    cases good
    exact ⟨expires, cached, rfl, live⟩
  · cases good

theorem Threads.Issued.mono {p p' : Threads} {token : String} {ttl : UInt64} {t : ℕ}
    (issued : p.Issued cfg token ttl t) (grown : ∀ thread, p.path thread <:+ p'.path thread) :
    p'.Issued cfg token ttl t := by
  obtain ⟨thread, path, dated, within⟩ := issued
  exact ⟨thread, path, dated, within.trans (grown thread)⟩

theorem Threads.Good.mono {p p' : Threads} {token : String} {now : ℕ} (good : p.Good cfg token now)
    (grown : ∀ thread, p.path thread <:+ p'.path thread) : p'.Good cfg token now := by
  obtain ⟨ttl, t, issued, before, within⟩ := good
  exact ⟨ttl, t, issued.mono grown, before, within⟩

/-- A call that is in a path after a turn was there, or is the one that was made. -/
theorem mem_path_turned {p : Threads} {caller : Caller Operation} {input : Input} {op : Call}
    {thread : ℕ} {e : Event Answer}
    (member : e ∈ pathOf thread (traced perform p.shared caller input op).1.log) :
    e ∈ p.path thread ∨ e = ⟨op, (perform p.shared.state input op).2⟩ := by
  have made : (traced perform p.shared caller input op).1.log =
      ⟨caller, op, (perform p.shared.state input op).2⟩ :: p.shared.log := rfl
  rw [made] at member
  by_cases mine : caller.thread = thread
  · subst mine
    rw [pathOf_cons_self (e := ⟨caller, op, _⟩)] at member
    exact (List.mem_cons.mp member).symm
  · rw [pathOf_cons_ne (e := ⟨caller, op, _⟩) mine] at member
    exact .inl member

/-- A token that is about to be kept has the date of its login, which was read from the clock. -/
theorem Kept.dated {p : Threads} (kept : Kept platform cfg p) {thread : ℕ} {op : Operation}
    {token : String} {expires : ℕ}
    {next : Unit → ClientProg (Except ClientError Reply)}
    (here : p.threads[thread]? = some (op, .call (.putToken token expires) next)) :
    ∃ ttl t, p.Issued cfg token ttl t ∧ t ≤ p.shared.state.clock ∧ expires = t + validFor ttl := by
  have left := (body_ensures platform cfg op).left (kept.paths.leads thread op _ here)
  obtain ⟨⟨-, ttl, t, dated, date, -⟩, -⟩ := left
  have read : (⟨.now ttl, t⟩ : Event Answer) ∈ p.path thread := by
    obtain ⟨body, response, json, older, path, -⟩ := dated
    unfold Threads.path
    rw [path]
    exact List.mem_cons_self
  exact ⟨ttl, t, ⟨thread, _, dated, List.suffix_rfl⟩, kept.read thread ttl t read, date⟩

/-- **A turn keeps what holds of the cached token**: it is kept with the date of its login. -/
theorem Kept.step {p : Threads} (kept : Kept platform cfg p) (t : Turn Operation Input) :
    Kept platform cfg (p.step (traced perform) (Operation.body platform cfg) t) := by
  have paths : Paths (Operation.body platform cfg)
      (p.step (traced perform) (Operation.body platform cfg) t) := kept.paths.step t
  obtain ⟨r, rfl, started⟩ | ⟨thread, input, r, op, next, rfl, here, turned⟩ | same :=
    p.step_cases (traced perform) (Operation.body platform cfg) t
  · rw [started] at paths ⊢
    exact ⟨paths, kept.read, kept.cached, kept.taken⟩
  · rw [turned] at paths ⊢
    generalize made : Pool.mk _ _ = p' at paths ⊢
    have shared : p'.shared = (traced perform p.shared ⟨thread, r⟩ input op).1 := by rw [← made]
    have grown : ∀ j, p.path j <:+ Threads.path p' j := by
      intro j
      unfold Threads.path
      rw [shared]
      exact suffix_pathOf_cons j _ _
    have state : p'.shared.state = (perform p.shared.state input op).1 := by
      rw [shared]
      rfl
    have clock : p'.shared.state.clock = p.shared.state.clock + input.elapsed := by
      rw [state, clock_perform]
    have mem : ∀ {j : ℕ} {e : Event Answer}, e ∈ Threads.path p' j →
        e ∈ p.path j ∨ e = ⟨op, (perform p.shared.state input op).2⟩ := by
      intro j e member
      unfold Threads.path at member
      rw [shared] at member
      exact mem_path_turned member
    refine ⟨paths, fun j ttl now member => ?_, fun token expires cached => ?_,
      fun j token now member => ?_⟩
    · rw [clock]
      rcases mem member with older | new
      · exact (kept.read j ttl now older).trans (Nat.le_add_right _ _)
      · cases new
        exact le_rfl
    · rw [state] at cached
      rcases token_perform cached with before | rfl
      · obtain ⟨ttl, now, issued, read, date⟩ := kept.cached token expires before
        rw [clock]
        exact ⟨ttl, now, issued.mono grown, read.trans (Nat.le_add_right _ _), date⟩
      · obtain ⟨ttl, now, issued, read, date⟩ := kept.dated here
        rw [clock]
        exact ⟨ttl, now, issued.mono grown, read.trans (Nat.le_add_right _ _), date⟩
    · rcases mem member with older | new
      · exact (kept.taken j token now older).mono grown
      · cases op with
        | liveToken =>
          have found : (perform p.shared.state input .liveToken).2 = some (token, now) :=
            (eq_of_heq (Sigma.mk.inj new).2).symm
          obtain ⟨expires, cached, rfl, live⟩ := liveToken_perform found
          obtain ⟨ttl, read, issued, before, date⟩ := kept.cached token expires cached
          exact ⟨ttl, read, issued.mono grown, before.trans (Nat.le_add_right _ _), date ▸ live⟩
        | now ttl => cases new
        | putToken token expires => cases new
        | cachedId tenant => cases new
        | cacheId tenant id => cases new
        | evictId tenant => cases new
        | send method url bearer body => cases new
  · rw [same]
    exact kept

variable (platform cfg) in
/-- **A token from the cache is one that a login answered with, and within its time.** -/
theorem kept_run (turns : List (Turn Operation Input)) :
    Kept platform cfg (threadsAfter platform cfg turns) := by
  refine run_invariant (I := Kept platform cfg) (fun _ t kept => kept.step t)
    ⟨Paths.idle _, ?_, ?_, ?_⟩ turns
  · intro thread ttl t none
    cases none
  · intro token expires none
    cases none
  · intro thread token now none
    cases none

end Turned

/-! ### Failing closed -/

/-- Where a login answer is dated, the clock can hold the date. -/
def DatesFit (platform : Platform) (cfg : ClientConfig) (path : Path) : Prop :=
  ∀ newer body response json t older,
    path = newer ++ ⟨.now (expiresIn json), t⟩ ::
      ⟨.send .post (loginUrl cfg) none body, response⟩ :: older →
    response.read = .ok json → t + validFor (expiresIn json) ≤ platform.last

/-- What the operations of a run may be relied on for. -/
structure FailsClosed (platform : Platform) (cfg : ClientConfig) (p : Threads) : Prop where
  /-- no operation ends in a panic -/
  ends : ∀ thread op panic, p.outcome thread ≠ some (op, .error panic)
  /-- a key is the one in the envelope that was decrypted for these arguments; a version is the
  service's -/
  backed : ∀ thread op reply, p.outcome thread = some (op, .ok (.ok reply)) →
    Backed platform cfg op (p.path thread) reply
  /-- a request carries the configured token, one of a login just before, or one that is in its
  time -/
  inTime : ∀ thread newer method url token body response older,
    p.path thread = newer ++ ⟨.send method url (some token) body, response⟩ :: older →
      cfg.auth = .token token ∨
      (∃ expires rest ttl t, older = ⟨.putToken token expires, ()⟩ :: rest ∧
        Dated cfg token ttl t rest) ∨
      ∃ now rest, older = ⟨.liveToken, some (token, now)⟩ :: rest ∧ p.Good cfg token now

section Closing

variable {platform : Platform} {cfg : ClientConfig}

theorem Kept.serves {p : Threads} (kept : Kept platform cfg p) {thread : ℕ} {e : Event Answer}
    (member : e ∈ p.path thread) :
    ∃ op program, p.threads[thread]? = some (op, program) := by
  obtain ⟨entry, logged, here⟩ := List.mem_filterMap.mp member
  split at here
  · next mine =>
    have bound : thread < p.threads.length := mine ▸ kept.paths.known entry logged
    exact ⟨_, _, List.getElem?_eq_getElem bound⟩
  · cases here

theorem Kept.made {p : Threads} (kept : Kept platform cfg p) {thread : ℕ}
    {newer older : Path} {e : Event Answer} (split : p.path thread = newer ++ e :: older) :
    Made platform cfg older e.1 := by
  have member : e ∈ p.path thread := by
    rw [split]
    exact List.mem_append_right _ List.mem_cons_self
  obtain ⟨op, program, here⟩ := kept.serves member
  exact (body_ensures platform cfg op).made (kept.paths.leads thread op program here) split

theorem Kept.datesFit_iff {p : Threads} (kept : Kept platform cfg p) {thread : ℕ} :
    DatesFit platform cfg (p.path thread) ↔ Timely platform (p.path thread) := by
  constructor
  · intro fit ttl t member
    obtain ⟨newer, older, split⟩ := List.append_of_mem member
    obtain ⟨body, response, json, older', rfl, read, rfl⟩ := (kept.made split).2
    exact fit newer body response json t older' split read
  · intro timely newer body response json t older split _
    refine timely (expiresIn json) t ?_
    rw [split]
    exact List.mem_append_right _ List.mem_cons_self

theorem Kept.ends {p : Threads} (kept : Kept platform cfg p) {thread : ℕ} {op : Operation}
    {r : Except Panic (Except ClientError Reply)} (here : p.outcome thread = some (op, r)) :
    Ends platform (Closed platform cfg op) (p.path thread) r := by
  cases r with
  | error panic =>
    have failed := Pool.outcome_error.mp here
    exact (body_ensures platform cfg op).left (kept.paths.leads thread op _ failed)
  | ok result =>
    have done := Pool.outcome_ok.mp here
    exact (body_ensures platform cfg op).left (kept.paths.leads thread op _ done)

/-- Where no operation has panicked, the clock could hold every date. -/
theorem Kept.timely {p : Threads} (kept : Kept platform cfg p)
    (ends : ∀ thread op panic, p.outcome thread ≠ some (op, .error panic)) (thread : ℕ) :
    Timely platform (p.path thread) := by
  intro ttl t member
  obtain ⟨op, program, here⟩ := kept.serves member
  have left := (body_ensures platform cfg op).left (kept.paths.leads thread op program here)
  cases program with
  | done result => exact left.1 ttl t member
  | fail panic => exact absurd (Pool.outcome_error.mpr here) (ends thread op panic)
  | call call next => exact left.1.1 ttl t member

theorem Kept.inTime {p : Threads} (kept : Kept platform cfg p) {thread : ℕ} {newer older : Path}
    {method : Method} {url token : String} {body : Option Value} {response : Response}
    (split : p.path thread = newer ++ ⟨.send method url (some token) body, response⟩ :: older) :
    cfg.auth = .token token ∨
      (∃ expires rest ttl t, older = ⟨.putToken token expires, ()⟩ :: rest ∧
        Dated cfg token ttl t rest) ∨
      ∃ now rest, older = ⟨.liveToken, some (token, now)⟩ :: rest ∧ p.Good cfg token now := by
  have held : Held cfg token older := (kept.made split).2
  cases held with
  | configured auth => exact .inl auth
  | fresh expires rest =>
    have earlier : p.path thread =
        (newer ++ [⟨.send method url (some token) body, response⟩]) ++
          ⟨.putToken token expires, ()⟩ :: rest := by
      rw [split, List.append_assoc]
      rfl
    obtain ⟨-, ttl, t, dated, -⟩ := kept.made earlier
    exact .inr (.inl ⟨expires, rest, ttl, t, rfl, dated⟩)
  | live now rest =>
    refine .inr (.inr ⟨now, rest, rfl, kept.taken thread token now ?_⟩)
    rw [split]
    exact List.mem_append_right _ (List.mem_cons_of_mem _ List.mem_cons_self)

end Closing

/-- **The client fails closed just when the clock can hold the dates of its logins**: for every
list of turns, and whatever the far end answers. -/
theorem closed_iff_datesFit (platform : Platform) (cfg : ClientConfig)
    (turns : List (Turn Operation Input)) :
    FailsClosed platform cfg (threadsAfter platform cfg turns) ↔
      ∀ thread, DatesFit platform cfg ((threadsAfter platform cfg turns).path thread) := by
  have kept := kept_run platform cfg turns
  constructor
  · exact fun closed thread => kept.datesFit_iff.mpr (kept.timely closed.ends thread)
  · intro fit
    have timely := fun thread => kept.datesFit_iff.mp (fit thread)
    refine ⟨fun thread op panic here => ?_, fun thread op reply here => ?_,
      fun thread newer method url token body response older split => kept.inTime split⟩
    · exact kept.ends here (timely thread)
    · exact (kept.ends here).2 reply rfl

/-! ### A login answer past the clock -/

/-- The platform of a 64-bit Unix, decoding nothing. -/
def unix : Platform where
  encode _ := ""
  decode _ := none
  last := 2 ^ 63 * 10 ^ 9 - 1

def machine : ClientConfig where
  names := ⟨"hull-ci", fun _ => "0123456789abcdef"⟩
  baseUrl := "https://kms.test"
  projectId := "project"
  auth := .machineIdentity "id" "secret"
  valid := rfl

/-- A token that is good for the largest number of seconds. -/
def endless : Response :=
  .answered 200 (.json (.object
    [("accessToken", .string "at"), ("expiresIn", .number (.posInt 18446744073709551615))]))

/-- **A login answer can end an operation in a panic.** -/
theorem endless_panics : ¬ ∀ (platform : Platform) (cfg : ClientConfig)
    (turns : List (Turn Operation Input)),
    FailsClosed platform cfg (threadsAfter platform cfg turns) := by
  intro all
  have closed := all unix machine [.start (.currentVersion "acme"), .turn 0 ⟨0, endless⟩,
    .turn 0 ⟨0, endless⟩, .turn 0 ⟨0, endless⟩]
  exact closed.ends 0 (.currentVersion "acme") .overflow rfl

end HullCi.Secrets.KeyClient
