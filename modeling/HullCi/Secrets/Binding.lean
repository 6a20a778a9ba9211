/-
**What a sealed record can still do.**

The requests are the key manager's and the vault's: tenants are provisioned, rotated and shredded,
values sealed, records rewrapped, by any number of threads whose calls interleave. A record handed
to a rewrap may be put together from parts of the records returned before, under any labels.

* `Binds` — what opens was sealed for that context, under the same DEK, and its wrap is under a
  version that still exists.
* `Forgets` — nothing wrapped before a shred opens after it.
* `Survives` — a sealed value opens through any number of rotations and rewraps, its ciphertext
  unchanged.
* `context_binding` — all three, of every run.
-/

import HullCi.Secrets.Custody

namespace HullCi.Secrets

open HullCi.Base HullCi.Base.Program

/-! ### The requests -/

/-- A request to the key manager or to the vault. -/
inductive Custodial where
  | provisionTenant (tenant : String)
  | rotate (tenant : String)
  | shred (tenant : String)
  | sealAs (tenant name : String) (plaintext : Bytes)
  | rewrap (sealed : SealedSecret)

/-- What such a request returns. -/
inductive Reply where
  | version (version : UInt32)
  | unit
  | sealed (record : SealedSecret)
  | rewrapped (record : Option SealedSecret)

/-- The program of a request. -/
def Custodial.body (cipher : Cipher) : Custodial → Prog Reply
  | .provisionTenant tenant => do
    let version ← lift (← request (.provisionTenant tenant))
    return .version version
  | .rotate tenant => do
    let version ← lift (← request (.rotate tenant))
    return .version version
  | .shred tenant => do
    lift (← request (.shred tenant))
    return .unit
  | .sealAs tenant name plaintext => do
    let record ← Vault.sealAs cipher tenant name plaintext
    return .sealed record
  | .rewrap sealed => do
    let record ← Vault.rewrap sealed
    return .rewrapped record

/-- The threads of the requests, and the vaults they share. -/
abbrev Custodians := Pool Watched Custodial Answer SecretError Reply

/-- One turn of the custodians. -/
abbrev Custodians.step (cipher : Cipher) (p : Custodians) (t : Turn Custodial Input) : Custodians :=
  Pool.step (custody Custodial cipher).handle (Custodial.body cipher) p t

/-- The record that a program has returned. -/
def recordOf : Prog Reply → Option SealedSecret
  | .done (.sealed record) => some record
  | .done (.rewrapped record) => record
  | _ => none

/-- A record that a thread has returned. -/
def Custodians.Made (p : Custodians) (record : SealedSecret) : Prop :=
  ∃ thread ∈ p.threads, recordOf thread.2 = some record

/-- A record put together from parts of the records returned so far. -/
structure Custodians.Assembled (p : Custodians) (sealed : SealedSecret) : Prop where
  ciphertext : ∃ record, p.Made record ∧ record.ciphertext = sealed.ciphertext
  wrapped : ∃ record, p.Made record ∧ record.wrappedDek = sealed.wrappedDek

theorem Custodians.made_iff {p : Custodians} {record : SealedSecret} :
    p.Made record ↔ ∃ (i : ℕ) (q : Custodial), p.threads[i]? = some (q, .done (.sealed record)) ∨
      p.threads[i]? = some (q, .done (.rewrapped (some record))) := by
  constructor
  · rintro ⟨⟨q, program⟩, member, same⟩
    obtain ⟨i, here⟩ := List.getElem?_of_mem member
    refine ⟨i, q, ?_⟩
    unfold recordOf at same
    split at same
    · rename_i record' was
      cases same
      obtain rfl : program = _ := was
      exact .inl here
    · rename_i record' was
      cases same
      obtain rfl : program = _ := was
      exact .inr here
    · cases same
  · rintro ⟨i, q, here | here⟩
    · exact ⟨_, List.mem_of_getElem? here, rfl⟩
    · exact ⟨_, List.mem_of_getElem? here, rfl⟩

theorem Custodians.exists_made {p : Custodians} {part : SealedSecret → Bytes} {bytes : Bytes} :
    (∃ thread ∈ p.threads, (recordOf thread.2).map part = some bytes) ↔
      ∃ record, p.Made record ∧ part record = bytes := by
  constructor
  · rintro ⟨thread, member, same⟩
    obtain ⟨record, was, same⟩ := Option.map_eq_some_iff.mp same
    exact ⟨record, ⟨thread, member, was⟩, same⟩
  · rintro ⟨record, ⟨thread, member, was⟩, same⟩
    exact ⟨thread, member, by rw [was, Option.map_some, same]⟩

instance (p : Custodians) (sealed : SealedSecret) : Decidable (p.Assembled sealed) :=
  decidable_of_iff
    ((∃ thread ∈ p.threads, (recordOf thread.2).map SealedSecret.ciphertext =
        some sealed.ciphertext) ∧
      ∃ thread ∈ p.threads, (recordOf thread.2).map SealedSecret.wrappedDek =
        some sealed.wrappedDek) (by
    rw [Custodians.exists_made, Custodians.exists_made]
    exact ⟨fun ⟨texts, wraps⟩ => ⟨texts, wraps⟩, fun ⟨texts, wraps⟩ => ⟨texts, wraps⟩⟩)

/-- The requests that may arrive: their labels are short, and what is rewrapped is put together
from what was returned. -/
def Custodians.opens (p : Custodians) : Custodial → Prop
  | .sealAs tenant name _ => Short tenant ∧ Short name
  | .rewrap sealed => (Short sealed.tenant ∧ Short sealed.name) ∧ p.Assembled sealed
  | _ => True

instance (p : Custodians) : ∀ request, Decidable (p.opens request)
  | .sealAs .. => inferInstanceAs (Decidable (_ ∧ _))
  | .rewrap _ => inferInstanceAs (Decidable (_ ∧ _))
  | .provisionTenant _ => .isTrue trivial
  | .rotate _ => .isTrue trivial
  | .shred _ => .isTrue trivial

/-! ### What the returned records are made of -/

section Posts

variable (cipher : Cipher) (s₀ : Watched) (first : ℕ)

/-- The record's wrapped DEK wraps the DEK for the record's context, under a KEK of its tenant and
version. Where no shred came after `s₀`, that KEK is still there. -/
def Wraps (caller : Caller Custodial) (s : Watched) (record : SealedSecret) (dek : Dek) : Prop :=
  ∃ kek, (record.tenant, record.kekVersion, kek) ∈ s.drawn ∧
    SealedUnder cipher kek dek.toList (wrapAad record.tenant record.name record.kekVersion)
      record.wrappedDek ∧
    (first ≤ caller.thread → s.shreds.count record.tenant = s₀.shreds.count record.tenant →
      s.vaults.keys.withKek record.tenant record.kekVersion = .ok kek)

/-- What is known of a record that was sealed. -/
def SealPost (caller : Caller Custodial) (tenant name : String) (plaintext : Bytes) (s : Watched)
    (record : SealedSecret) : Prop :=
  (record.tenant = tenant ∧ record.name = name) ∧ ∃ dek,
    SealedUnder cipher dek plaintext (valueAad record.tenant record.name) record.ciphertext ∧
    Wraps cipher s₀ first caller s record dek

/-- What is known of a record that was rewrapped. -/
def RewrapPost (caller : Caller Custodial) (sealed : SealedSecret) (s : Watched)
    (record : SealedSecret) : Prop :=
  record = { sealed with kekVersion := record.kekVersion, wrappedDek := record.wrappedDek } ∧
    ∃ dek, (∃ kek, aeadOpen cipher kek sealed.wrappedDek
      (wrapAad sealed.tenant sealed.name sealed.kekVersion) = .ok dek.toList) ∧
    Wraps cipher s₀ first caller s record dek

/-- What a thread returns, by its request. -/
def Posts (caller : Caller Custodial) (s : Watched) : Except SecretError Reply → Prop
  | .ok (.sealed record) => ∃ tenant name plaintext,
      (caller.request = .sealAs tenant name plaintext ∧ Short tenant ∧ Short name) ∧
      SealPost cipher s₀ first caller tenant name plaintext s record
  | .ok (.rewrapped (some record)) => ∃ sealed,
      (caller.request = .rewrap sealed ∧ Short sealed.tenant ∧ Short sealed.name) ∧
      RewrapPost cipher s₀ first caller sealed s record
  | _ => True

variable {cipher s₀ first}

theorem Wraps.later {caller : Caller Custodial} {s s' : Watched} {record : SealedSecret} {dek : Dek}
    (wraps : Wraps cipher s₀ first caller s record dek) (since : Later s₀ s) (later : Later s s') :
    Wraps cipher s₀ first caller s' record dek := by
  obtain ⟨kek, drawn, wrap, kept⟩ := wraps
  refine ⟨kek, later.drawn _ drawn, wrap, fun mine same => ?_⟩
  have below := since.shreds record.tenant
  have above := later.shreds record.tenant
  exact later.kept (by omega) (kept mine (by omega))

theorem wraps_made {caller : Caller Custodial} {s : Watched} {record : SealedSecret} {dek : Dek}
    {nonce : Nonce} (inv : (custody Custodial cipher).inv s)
    (made : s.vaults.keys.wrapDek cipher nonce record.tenant record.kekVersion dek
      (wrapAad record.tenant record.name record.kekVersion) = .ok record.wrappedDek) :
    Wraps cipher s₀ first caller s record dek := by
  obtain ⟨kek, found, wrap⟩ := DevKeyManager.wrapDek_ok.mp made
  exact ⟨kek, inv _ _ _ found, ⟨nonce, wrap⟩, fun _ _ => found⟩

/-- The contract since `s₀`. -/
abbrev sinceThen (cipher : Cipher) (s₀ : Watched) : Contract Watched Custodial Input Answer :=
  (custody Custodial cipher).since s₀

theorem sinceThen_keeps : (sinceThen cipher s₀).Keeps :=
  (custody_keeps Custodial cipher).since s₀

theorem sinceThen_serves : Serves (sinceThen cipher s₀) cipher Watched.vaults id where
  keeps _ inv may := sinceThen_keeps _ _ _ _ inv may
  answers _ _ _ _ := rfl

theorem sealPost {caller : Caller Custodial} {tenant name : String} {plaintext : Bytes}
    {s : Watched} {record : SealedSecret}
    (spec : SealSpec (sinceThen cipher s₀) cipher Watched.vaults tenant name plaintext s record) :
    SealPost cipher s₀ first caller tenant name plaintext s record := by
  obtain ⟨labels, dek, s₁, nonce, ⟨inv, later⟩, text, wrap⟩ := spec
  exact ⟨labels, dek, text, (wraps_made inv.1 wrap).later inv.2 later⟩

theorem rewrapPost {caller : Caller Custodial} {sealed : SealedSecret} {s : Watched}
    {record : SealedSecret}
    (spec : RewrapSpec (sinceThen cipher s₀) cipher Watched.vaults sealed s record) :
    RewrapPost cipher s₀ first caller sealed s record := by
  obtain ⟨parts, dek, s₁, nonce, ⟨inv, later⟩, opened, wrap⟩ := spec
  exact ⟨parts, dek, opened, (wraps_made inv.1 wrap).later inv.2 later⟩

/-- **Every request's program is safe.** -/
theorem safe_body (caller : Caller Custodial) {p : Custodians} (opens : p.opens caller.request)
    {s : Watched} (inv : (sinceThen cipher s₀).inv s) :
    (sinceThen cipher s₀).Safe caller (Posts cipher s₀ first caller)
      (caller.request.body cipher) s := by
  obtain ⟨thread, request⟩ := caller
  cases request with
  | provisionTenant tenant =>
    refine sinceThen_keeps.safe_call fun s₁ _ _ _ _ _ _ => Contract.safe_lift ?_ ?_
    · exact fun version _ _ _ _ => trivial
    · exact fun _ _ _ _ _ => trivial
  | rotate tenant =>
    refine sinceThen_keeps.safe_call fun s₁ _ _ _ _ _ _ => Contract.safe_lift ?_ ?_
    · exact fun version _ _ _ _ => trivial
    · exact fun _ _ _ _ _ => trivial
  | shred tenant =>
    refine sinceThen_keeps.safe_call fun s₁ _ _ _ _ _ _ => Contract.safe_lift ?_ ?_
    · exact fun version _ _ _ _ => trivial
    · exact fun _ _ _ _ _ => trivial
  | sealAs tenant name plaintext =>
    refine (sinceThen_serves.sealAs tenant name plaintext s).bind inv fun s r _ inv spec => ?_
    refine Contract.safe_lift (fun record ok s' later inv' => ?_) (fun _ _ _ _ _ => trivial)
    obtain ⟨labels, dek, sealed, wraps⟩ := sealPost (spec record ok)
    exact ⟨tenant, name, plaintext, ⟨rfl, opens⟩, labels, dek, sealed, wraps.later inv.2 later⟩
  | rewrap sealed =>
    refine (sinceThen_serves.rewrap sealed s).bind inv fun s r _ inv spec => ?_
    refine Contract.safe_lift (fun record ok s' later inv' => ?_) (fun _ _ _ _ _ => trivial)
    cases record with
    | none => trivial
    | some record =>
      obtain ⟨parts, dek, opened, wraps⟩ := rewrapPost (spec record ok)
      exact ⟨sealed, ⟨rfl, opens.1⟩, parts, dek, opened, wraps.later inv.2 later⟩

theorem Posts.rebase {caller : Caller Custodial} {s₁ s : Watched} {first' : ℕ}
    (old : caller.thread < first') {r : Except SecretError Reply}
    (posts : Posts cipher s₀ first caller s r) : Posts cipher s₁ first' caller s r := by
  have weaker : ∀ {record dek}, Wraps cipher s₀ first caller s record dek →
      Wraps cipher s₁ first' caller s record dek := by
    rintro record dek ⟨kek, drawn, wrap, _⟩
    exact ⟨kek, drawn, wrap, fun mine => by omega⟩
  unfold Posts at posts ⊢
  split at posts
  · obtain ⟨tenant, name, plaintext, asked, labels, dek, sealed, wraps⟩ := posts
    exact ⟨tenant, name, plaintext, asked, labels, dek, sealed, weaker wraps⟩
  · obtain ⟨sealed, asked, parts, dek, opened, wraps⟩ := posts
    exact ⟨sealed, asked, parts, dek, opened, weaker wraps⟩
  · trivial

end Posts

/-! ### Runs -/

section Runs

variable {cipher : Cipher}

/-- What is assumed of a turn: no key comes back under its version, labels are short, and what is
rewrapped is put together from what was returned. -/
abbrev Custodians.Admits (cipher : Cipher) : Custodians → Turn Custodial Input → Prop :=
  (custody Custodial cipher).Admits Custodians.opens

/-- No tenant, no record, no thread. -/
def Custodians.start : Custodians :=
  Pool.idle Watched.new

/-- The state after a list of turns. -/
abbrev Custodians.after (cipher : Cipher) (turns : List (Turn Custodial Input)) : Custodians :=
  run (Custodians.step cipher) Custodians.start turns

/-- The threads' contract and posts, since the start. -/
abbrev Custodians.Good (cipher : Cipher) (p : Custodians) : Prop :=
  (sinceThen cipher Watched.new).Good (Posts cipher Watched.new 0) p

theorem good_start : Custodians.start.Good cipher := by
  refine Contract.good_idle ⟨fun _ _ _ found => ?_, Later.refl _⟩
  cases found

theorem good_step {p : Custodians} (good : p.Good cipher) {t : Turn Custodial Input}
    (admits : Custodians.Admits cipher p t) : (p.step cipher t).Good cipher :=
  Contract.good_step (fun _ i request good opens => safe_body ⟨i, request⟩ opens good.inv) good admits

theorem good_after {turns : List (Turn Custodial Input)}
    (along : Along (Custodians.step cipher) (Custodians.Admits cipher) .start turns) :
    (Custodians.after cipher turns).Good cipher :=
  run_invariant_along (I := Custodians.Good cipher) (fun _ _ good admits => good_step good admits)
    good_start along

/-- **What is known of a record that was returned.** -/
theorem made_wraps {p : Custodians} (good : p.Good cipher) {record : SealedSecret}
    (made : p.Made record) : (Short record.tenant ∧ Short record.name) ∧
      ∃ caller dek, Wraps cipher Watched.new 0 caller p.shared record dek := by
  obtain ⟨i, q, sealed | rewrapped⟩ := Custodians.made_iff.mp made
  · obtain ⟨tenant, name, _, ⟨_, short⟩, ⟨rfl, rfl⟩, dek, _, wraps⟩ := good.returned sealed
    exact ⟨short, _, dek, wraps⟩
  · obtain ⟨sealed, ⟨_, short⟩, parts, dek, _, wraps⟩ := good.returned rewrapped
    refine ⟨?_, _, dek, wraps⟩
    rw [parts]
    exact short

/-! ### Every ciphertext was sealed -/

/-- A ciphertext that a thread has sealed. -/
def Custodians.Sealed (p : Custodians) (ciphertext : Bytes) : Prop :=
  ∃ (i : ℕ) (q : Custodial) (record : SealedSecret),
    p.threads[i]? = some (q, .done (.sealed record)) ∧ record.ciphertext = ciphertext

/-- What is being rewrapped was sealed. -/
def Custodians.Traced (p : Custodians) : Prop :=
  ∀ (i : ℕ) sealed program, p.threads[i]? = some (.rewrap sealed, program) → p.Sealed sealed.ciphertext

theorem Custodians.Sealed.step {p : Custodians} {ciphertext : Bytes} (sealed : p.Sealed ciphertext)
    (t : Turn Custodial Input) : (p.step cipher t).Sealed ciphertext := by
  obtain ⟨i, q, record, here, same⟩ := sealed
  exact ⟨i, q, record, Pool.ended_step t here (fun _ _ h => by cases h), same⟩

theorem made_sealed {p : Custodians} (good : p.Good cipher) (traced : p.Traced)
    {record : SealedSecret} (made : p.Made record) : p.Sealed record.ciphertext := by
  obtain ⟨i, q, sealed | rewrapped⟩ := Custodians.made_iff.mp made
  · exact ⟨i, q, record, sealed, rfl⟩
  · obtain ⟨sealed, ⟨asked, _⟩, parts, _⟩ := good.returned rewrapped
    obtain rfl : q = .rewrap sealed := asked
    rw [parts]
    exact traced i sealed _ rewrapped

theorem traced_step {p : Custodians} (good : p.Good cipher) (traced : p.Traced)
    {t : Turn Custodial Input} (admits : Custodians.Admits cipher p t) :
    (p.step cipher t).Traced := by
  intro i sealed program here
  obtain ⟨program', before⟩ | ⟨rfl, _, _⟩ := Pool.request_before here
  · exact (traced i sealed program' before).step t
  · obtain ⟨record, made, same⟩ := admits.2.ciphertext
    exact same ▸ (made_sealed good traced made).step _

theorem traced_after {turns : List (Turn Custodial Input)}
    (along : Along (Custodians.step cipher) (Custodians.Admits cipher) .start turns) :
    (Custodians.after cipher turns).Traced := by
  have both : (Custodians.after cipher turns).Good cipher ∧
      (Custodians.after cipher turns).Traced :=
    run_invariant_along (I := fun p => Custodians.Good cipher p ∧ p.Traced)
      (fun p t ⟨good, traced⟩ admits =>
        ⟨good_step good admits, traced_step good traced admits⟩)
      ⟨good_start, fun i _ _ here => by cases here⟩ along
  exact both.2

/-! ### The three parts -/

/-- What opens was sealed for its context, by a thread, under the DEK that the wrap holds; and the
wrap was made for that context, under the version it names, which still exists. -/
def Binds (cipher : Cipher) (p : Custodians) : Prop :=
  ∀ tenant name sealed plaintext, Short tenant → Short name → p.Assembled sealed →
    p.shared.vaults.opened cipher tenant name sealed = .ok plaintext →
    (∃ (i : ℕ) (record : SealedSecret),
      p.threads[i]? = some (.sealAs tenant name plaintext, .done (.sealed record)) ∧
      record.ciphertext = sealed.ciphertext) ∧
    ∃ dek kek, p.shared.vaults.keys.withKek tenant sealed.kekVersion = .ok kek ∧
      SealedUnder cipher dek plaintext (valueAad tenant name) sealed.ciphertext ∧
      SealedUnder cipher kek dek.toList (wrapAad tenant name sealed.kekVersion)
        sealed.wrappedDek ∧
      ∃ record, p.Made record ∧ (record.tenant = tenant ∧ record.name = name) ∧
        record.kekVersion = sealed.kekVersion ∧ record.wrappedDek = sealed.wrappedDek

/-- The turn makes the tenant's key manager destroy its keys. -/
def Custodians.Shreds (p : Custodians) (tenant : String) (t : Turn Custodial Input) : Prop :=
  ∃ thread input request next, t = .turn thread input ∧
    p.threads[thread]? = some (request, .call (.shred tenant) next)

/-- No record whose wrapped DEK was returned before a shred opens after it. -/
def Forgets (cipher : Cipher) (turns : List (Turn Custodial Input)) : Prop :=
  ∀ front t back tenant, turns = front ++ t :: back →
    (Custodians.after cipher front).Shreds tenant t → ∀ name sealed plaintext,
    Short tenant → Short name →
    (∃ record, (Custodians.after cipher front).Made record ∧
      record.wrappedDek = sealed.wrappedDek) →
    (Custodians.after cipher turns).shared.vaults.opened cipher tenant name sealed ≠ .ok plaintext

/-- A record, or what later threads have made of it, rewrap by rewrap. -/
inductive Custodians.Rewrapped (p : Custodians) (since : ℕ) (record : SealedSecret) :
    SealedSecret → Prop
  | self : p.Rewrapped since record record
  | again {old new : SealedSecret} {thread : ℕ} (older : p.Rewrapped since record old)
      (later : since < thread)
      (rewrapped : p.threads[thread]? = some (.rewrap old, .done (.rewrapped (some new)))) :
      p.Rewrapped since record new

/-- A sealed value opens, through any number of rotations and rewraps, to what was sealed, from
the ciphertext it was sealed into. -/
def Survives (cipher : Cipher) (turns : List (Turn Custodial Input)) : Prop :=
  ∀ front back tenant name plaintext,
    turns = front ++ .start (.sealAs tenant name plaintext) :: back →
    Along (Custodians.step cipher) (fun p t => ¬ p.Shreds tenant t)
      (Custodians.after cipher (front ++ [.start (.sealAs tenant name plaintext)])) back →
    ∀ record sealed, (Custodians.after cipher turns).threads[
        (Custodians.after cipher front).threads.length]? =
        some (.sealAs tenant name plaintext, .done (.sealed record)) →
      (Custodians.after cipher turns).Rewrapped (Custodians.after cipher front).threads.length
        record sealed →
      (Custodians.after cipher turns).shared.vaults.opened cipher tenant name sealed =
        .ok plaintext ∧ sealed.ciphertext = record.ciphertext

theorem binds_after (ideal : cipher.Ideal) {turns : List (Turn Custodial Input)}
    (along : Along (Custodians.step cipher) (Custodians.Admits cipher) .start turns) :
    Binds cipher (Custodians.after cipher turns) := by
  intro tenant name sealed plaintext tenants names assembled opened
  obtain ⟨labels, dek, kek, found, wrap, text⟩ := opened_ok.mp opened
  rw [aeadOpen_iff ideal] at wrap text
  have good := good_after along
  -- the wrap is one that a thread has made, for this very context
  obtain ⟨record, made, same⟩ := assembled.wrapped
  obtain ⟨⟨tenants', names'⟩, _, dek', kek', _, ⟨_, wrap'⟩, _⟩ := made_wraps good made
  rw [same] at wrap'
  obtain ⟨_, _, aads⟩ := aeadSeal_inj ideal wrap.choose_spec wrap'
  obtain ⟨rfl, rfl, versions⟩ := wrapAad_inj tenants names tenants' names' aads
  -- the ciphertext is one that a thread has sealed, and holds what was asked of it
  obtain ⟨origin, made', same'⟩ := assembled.ciphertext
  obtain ⟨i, q, first, here, same''⟩ := made_sealed good (traced_after along) made'
  obtain ⟨_, _, _, ⟨asked, tenants'', names''⟩, ⟨rfl, rfl⟩, dek'', ⟨_, text'⟩, _⟩ :=
    good.returned here
  rw [same'', same'] at text'
  obtain ⟨_, rfl, aads'⟩ := aeadSeal_inj ideal text.choose_spec text'
  obtain ⟨tenant_eq, name_eq⟩ := valueAad_inj tenants names tenants'' names'' aads'
  obtain rfl : q = _ := asked
  rw [← tenant_eq, ← name_eq] at here
  exact ⟨⟨i, first, here, same''.trans same'⟩, dek, kek, found, text, wrap, record, made,
    ⟨rfl, rfl⟩, versions.symm, same⟩

theorem rely_after {front back : List (Turn Custodial Input)}
    (along : Along (Custodians.step cipher) (Custodians.Admits cipher) .start (front ++ back)) :
    Later (Custodians.after cipher front).shared (Custodians.after cipher (front ++ back)).shared := by
  obtain ⟨before, rest⟩ := along_append.mp along
  unfold Custodians.after
  rw [run_append]
  exact Contract.rely_run (K := sinceThen cipher Watched.new)
    (fun _ i request good opens => safe_body ⟨i, request⟩ opens good.inv) (good_after before) rest

theorem forgets_after (ideal : cipher.Ideal) {turns : List (Turn Custodial Input)}
    (along : Along (Custodians.step cipher) (Custodians.Admits cipher) .start turns) :
    Forgets cipher turns := by
  rintro front t back tenant rfl ⟨thread, input, request, next, rfl, here⟩
  rintro name sealed plaintext tenants names ⟨record, made, same⟩ opened
  obtain ⟨_, dek, kek, found, wrap, _⟩ := opened_ok.mp opened
  rw [aeadOpen_iff ideal] at wrap
  -- the KEK that wrapped it was in the history when the shred came, under this version
  obtain ⟨⟨tenants', names'⟩, _, dek', kek', drawn, ⟨_, wrap'⟩, _⟩ :=
    made_wraps (good_after (along_append.mp along).1) made
  rw [same] at wrap'
  obtain ⟨rfl, _, aads⟩ := aeadSeal_inj ideal wrap.choose_spec wrap'
  obtain ⟨tenant_eq, _, version_eq⟩ := wrapAad_inj tenants names tenants' names' aads
  rw [← tenant_eq, ← version_eq] at drawn
  -- so it is not among the keys that came later, and the shred left none
  have split : front ++ .turn thread input :: back = (front ++ [.turn thread input]) ++ back := by
    simp
  rw [split] at along found
  have later := rely_after along
  have shredded : (Custodians.after cipher (front ++ [.turn thread input])).shared =
      (watch cipher (Custodians.after cipher front).shared (⟨thread, request⟩ : Caller Custodial)
        input (.shred tenant)).1 := by
    unfold Custodians.after
    rw [run_append, run_cons, run_nil]
    unfold Custodians.step
    rw [Pool.step_call here]
    rfl
  rw [shredded] at later
  obtain now | never := later.fresh found
  · exact (DevKeyManager.withKek_shred.mp now).1 rfl
  · exact never (List.mem_append_right _ drawn)

theorem shreds_count {p : Custodians} {tenant : String} {t : Turn Custodial Input}
    (none : ¬ p.Shreds tenant t) :
    (p.step cipher t).shared.shreds.count tenant = p.shared.shreds.count tenant := by
  obtain ⟨r, rfl, started⟩ | ⟨thread, input, r, op, next, rfl, here, turned⟩ | same :=
    p.step_cases (custody Custodial cipher).handle (Custodial.body cipher) t
  · unfold Custodians.step
    rw [started]
  · unfold Custodians.step
    rw [turned]
    show (op.shreds.toList ++ p.shared.shreds).count tenant = _
    rw [List.count_append, Nat.add_eq_right]
    cases op with
    | shred tenant' =>
      have other : tenant' ≠ tenant := by
        rintro rfl
        exact none ⟨thread, input, r, next, rfl, here⟩
      simp [Call.shreds, other]
    | _ => rfl
  · unfold Custodians.step
    rw [same]

theorem shreds_count_along {p : Custodians} {tenant : String} {turns : List (Turn Custodial Input)}
    (along : Along (Custodians.step cipher) (fun p t => ¬ p.Shreds tenant t) p turns) :
    (run (Custodians.step cipher) p turns).shared.shreds.count tenant =
      p.shared.shreds.count tenant :=
  run_invariant_along
    (I := fun p' : Custodians => p'.shared.shreds.count tenant = p.shared.shreds.count tenant)
    (fun _ _ same none => (shreds_count none).trans same) rfl along

/-- The contract and the posts since a state of the run: what the older threads return is as it
was, and what younger ones return outlasts every turn that shreds nothing. -/
theorem good_since {p : Custodians} (good : p.Good cipher) :
    (sinceThen cipher p.shared).Good (Posts cipher p.shared p.threads.length) p where
  inv := ⟨good.inv.1, Later.refl _⟩
  safe i request program here := by
    have older : i < p.threads.length := by
      by_contra beyond
      rw [List.getElem?_eq_none (by omega)] at here
      cases here
    exact ((good.safe i request program here).rebase good.inv.2).weaken
      fun _ _ _ posts => posts.rebase older

theorem survives_after (ideal : cipher.Ideal) {turns : List (Turn Custodial Input)}
    (along : Along (Custodians.step cipher) (Custodians.Admits cipher) .start turns) :
    Survives cipher turns := by
  rintro front back tenant name plaintext rfl unshredded record sealed here rewrapped
  obtain ⟨before, rest⟩ := along_append.mp along
  have good := Contract.good_run
    (fun _ i request (_ : (sinceThen cipher (Custodians.after cipher front).shared).Good
        (Posts cipher (Custodians.after cipher front).shared
          (Custodians.after cipher front).threads.length) _) opens =>
      safe_body ⟨i, request⟩ opens ‹Contract.Good _ _ _›.inv)
    (good_since (good_after before)) rest
  have ends : run (Custodians.step cipher) (Custodians.after cipher front)
      (.start (.sealAs tenant name plaintext) :: back) =
      Custodians.after cipher (front ++ .start (.sealAs tenant name plaintext) :: back) :=
    (run_append _ _ _ _).symm
  -- no key was destroyed since the sealing began
  have count : (Custodians.after cipher
        (front ++ .start (.sealAs tenant name plaintext) :: back)).shared.shreds.count tenant =
      (Custodians.after cipher front).shared.shreds.count tenant := by
    rw [← ends, run_cons]
    have start : Custodians.step cipher (Custodians.after cipher front)
        (.start (.sealAs tenant name plaintext)) =
        Custodians.after cipher (front ++ [.start (.sealAs tenant name plaintext)]) := by
      unfold Custodians.after
      rw [run_append, run_cons, run_nil]
    rw [start, shreds_count_along unshredded, ← start]
    rfl
  change Contract.Good _ _ (run (Custodians.step cipher) _ _) at good
  rw [ends] at good
  suffices holds : Bears cipher (Custodians.after cipher
        (front ++ .start (.sealAs tenant name plaintext) :: back)).shared.vaults.keys plaintext
          sealed ∧
      (sealed.tenant = tenant ∧ sealed.name = name) ∧ sealed.ciphertext = record.ciphertext by
    obtain ⟨bears, ⟨rfl, rfl⟩, same⟩ := holds
    exact ⟨bears.opened ideal, same⟩
  induction rewrapped with
  | self =>
    obtain ⟨_, _, _, ⟨asked, _⟩, ⟨rfl, rfl⟩, dek, text, kek, _, wrap, kept⟩ := good.returned here
    cases asked
    exact ⟨⟨dek, kek, text, wrap, kept le_rfl count⟩, ⟨rfl, rfl⟩, rfl⟩
  | @again old new thread older later turned ih =>
    obtain ⟨⟨dek, kek, text, wrap, found⟩, ⟨rfl, rfl⟩, same⟩ := ih
    obtain ⟨_, ⟨asked, _⟩, parts, dek', ⟨kek', opened⟩, kek'', _, wrap', kept⟩ :=
      good.returned turned
    cases asked
    -- the DEK the rewrap unwrapped is the one the record held
    obtain ⟨_, opened⟩ := (aeadOpen_iff ideal).mp opened
    obtain ⟨_, deks, _⟩ := aeadSeal_inj ideal opened wrap.choose_spec
    obtain rfl : dek' = dek := Vector.toList_inj.mp deks
    have labels : new.tenant = old.tenant ∧ new.name = old.name ∧
        new.ciphertext = old.ciphertext := by
      rw [parts]
      exact ⟨rfl, rfl, rfl⟩
    obtain ⟨tenants, names, texts⟩ := labels
    refine ⟨⟨dek', kek'', ?_, wrap', kept later.le (by rw [tenants]; exact count)⟩,
      ⟨tenants, names⟩, texts.trans same⟩
    rw [tenants, names, texts]
    exact text

/-- **Sealed records are bound to their context.** In every run: what opens was sealed for that
tenant and that name, and its DEK is wrapped for them under a version that still exists; what was
wrapped before a shred never opens again; and a sealed value opens through every rotation. -/
theorem context_binding (cipher : Cipher) (ideal : cipher.Ideal)
    (turns : List (Turn Custodial Input))
    (along : Along (Custodians.step cipher) (Custodians.Admits cipher) .start turns) :
    Binds cipher (Custodians.after cipher turns) ∧ Forgets cipher turns ∧ Survives cipher turns :=
  ⟨binds_after ideal along, forgets_after ideal along, survives_after ideal along⟩

/-- A tenant, a value, a rotation, and the value's rewrap. -/
def aRotation : List (Turn Custodial Input) :=
  let input (n : UInt8) : Input := { key := Vector.replicate 32 n, nonce := Vector.replicate 24 n }
  let sealing := [.start (.provisionTenant "acme"), .turn 0 (input 1),
    .start (.sealAs "acme" "NPM_TOKEN" [7]), .turn 1 (input 2), .turn 1 (input 3),
    .turn 1 (input 4), .turn 1 (input 5)]
  sealing ++ [.start (.rotate "acme"), .turn 2 (input 6)] ++
    ((Custodians.after clearCipher sealing).threads.filterMap fun thread =>
      (recordOf thread.2).map fun record => .start (.rewrap record)) ++
    [.turn 3 (input 7), .turn 3 (input 8), .turn 3 (input 9)]

theorem context_binding_rotation :
    Binds clearCipher (Custodians.after clearCipher aRotation) ∧ Forgets clearCipher aRotation ∧
      Survives clearCipher aRotation :=
  context_binding clearCipher clearCipher_ideal aRotation (by decide +kernel)

end Runs

end HullCi.Secrets
