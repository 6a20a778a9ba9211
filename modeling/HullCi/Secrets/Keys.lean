/-
**Key custody: per-tenant KEKs, versioned, and the AEAD that wraps under them.**

The cipher is not this crate's: `Cipher` is the pair of its two calls. `Cipher.Ideal` is what the
results ask of it — it opens exactly what it sealed, and no two keys or contexts share a sealed
text.

* `aeadOpen_iff` — a blob opens to a plaintext exactly when sealing that plaintext, under the blob's
  own nonce, gives the blob.
* `aeadSeal_inj` — a blob names its key, its plaintext and its context.
* `DevKeyManager` — the key map: versions are appended, a shred clears them and keeps the counter.
-/

import HullCi.Base.Table
import HullCi.Secrets.Context

namespace HullCi.Secrets

open HullCi.Base

/-- A 256-bit key: a data encryption key, or a tenant's KEK. -/
abbrev Dek := Vector UInt8 32

/-- The extended nonce of the cipher. -/
abbrev Nonce := Vector UInt8 24

def nonceLen : ℕ := 24

/-- Reconstruct a key from raw bytes, if they are as many as a key has. -/
def Dek.fromBytes (bytes : Bytes) : Except SecretError Dek :=
  if length : bytes.toArray.size = 32 then .ok ⟨bytes.toArray, length⟩ else .error .decrypt

@[simp] theorem Dek.fromBytes_toList (dek : Dek) : Dek.fromBytes dek.toList = .ok dek := by
  unfold Dek.fromBytes
  rw [dif_pos (by simp)]
  congr 1

theorem Dek.fromBytes_ok {bytes : Bytes} {dek : Dek} (ok : Dek.fromBytes bytes = .ok dek) :
    bytes = dek.toList := by
  unfold Dek.fromBytes at ok
  split at ok
  · cases ok
    simp
  · cases ok

/-! ### The AEAD -/

/-- The AEAD cipher: its encryption and its decryption, with a key, a nonce, a message and the
associated data. -/
structure Cipher where
  encrypt : Dek → Nonce → Bytes → Bytes → Option Bytes
  decrypt : Dek → Nonce → Bytes → Bytes → Option Bytes

/-- An ideal cipher. -/
structure Cipher.Ideal (cipher : Cipher) : Prop where
  /-- it opens exactly what it sealed -/
  opens : ∀ {key nonce message text aad}, cipher.decrypt key nonce text aad = some message ↔
    cipher.encrypt key nonce message aad = some text
  /-- under one nonce, no two keys and no two contexts share a sealed text -/
  binds : ∀ {key key' nonce message message' text aad aad'},
    cipher.encrypt key nonce message aad = some text →
    cipher.encrypt key' nonce message' aad' = some text → key = key' ∧ aad = aad'

/-- Seal a plaintext: `nonce || ciphertext || tag`. -/
def aeadSeal (cipher : Cipher) (key : Dek) (nonce : Nonce) (plaintext aad : Bytes) :
    Except SecretError Bytes :=
  match cipher.encrypt key nonce plaintext aad with
  | none => .error .decrypt
  | some text => .ok (nonce.toList ++ text)

/-- The nonce a blob starts with. -/
def nonceOf (blob : Bytes) (long : nonceLen ≤ blob.length) : Nonce :=
  ⟨(blob.take nonceLen).toArray, by
    simp only [List.size_toArray, List.length_take]
    exact min_eq_left long⟩

/-- Open a blob: any failure is one indistinguishable error. -/
def aeadOpen (cipher : Cipher) (key : Dek) (blob aad : Bytes) : Except SecretError Bytes :=
  if long : nonceLen ≤ blob.length then
    match cipher.decrypt key (nonceOf blob long) (blob.drop nonceLen) aad with
    | none => .error .decrypt
    | some plaintext => .ok plaintext
  else .error .decrypt

theorem aeadSeal_ok {cipher : Cipher} {key : Dek} {nonce : Nonce} {plaintext aad blob : Bytes} :
    aeadSeal cipher key nonce plaintext aad = .ok blob ↔
      ∃ text, cipher.encrypt key nonce plaintext aad = some text ∧ blob = nonce.toList ++ text := by
  unfold aeadSeal
  split
  · rename_i none
    simp [none]
  · rename_i text some
    simp [some, eq_comm]

theorem nonceOf_append (nonce : Nonce) (text : Bytes)
    (long : nonceLen ≤ (nonce.toList ++ text).length) :
    nonceOf (nonce.toList ++ text) long = nonce := by
  apply Vector.toArray_inj.mp
  have length : nonce.toList.length = nonceLen := by simp [nonceLen]
  unfold nonceOf
  simp only [← length, List.take_left]
  exact Array.toArray_toList

/-- **A blob opens to what was sealed into it, and to nothing else.** -/
theorem aeadOpen_iff {cipher : Cipher} (ideal : cipher.Ideal) {key : Dek}
    {plaintext aad blob : Bytes} :
    aeadOpen cipher key blob aad = .ok plaintext ↔
      ∃ nonce, aeadSeal cipher key nonce plaintext aad = .ok blob := by
  constructor
  · intro ok
    unfold aeadOpen at ok
    split at ok
    · rename_i long
      split at ok
      · cases ok
      · rename_i plain found
        cases ok
        refine ⟨nonceOf blob long, aeadSeal_ok.mpr ⟨_, ideal.opens.mp found, ?_⟩⟩
        simp [nonceOf]
    · cases ok
  · rintro ⟨nonce, sealed⟩
    obtain ⟨text, made, rfl⟩ := aeadSeal_ok.mp sealed
    have length : nonce.toList.length = nonceLen := by simp [nonceLen]
    have long : nonceLen ≤ (nonce.toList ++ text).length := by
      rw [List.length_append, length]
      omega
    unfold aeadOpen
    rw [dif_pos long, nonceOf_append, ← length, List.drop_left, ideal.opens.mpr made]

/-- **A blob names its key, its plaintext and its context.** -/
theorem aeadSeal_inj {cipher : Cipher} (ideal : cipher.Ideal) {key key' : Dek}
    {nonce nonce' : Nonce} {plaintext plaintext' aad aad' blob : Bytes}
    (first : aeadSeal cipher key nonce plaintext aad = .ok blob)
    (second : aeadSeal cipher key' nonce' plaintext' aad' = .ok blob) :
    key = key' ∧ plaintext = plaintext' ∧ aad = aad' := by
  obtain ⟨text, made, rfl⟩ := aeadSeal_ok.mp first
  obtain ⟨text', made', same⟩ := aeadSeal_ok.mp second
  obtain ⟨nonces, rfl⟩ := List.append_inj same (by simp)
  obtain rfl : nonce = nonce' := Vector.toList_inj.mp nonces
  obtain ⟨rfl, rfl⟩ := ideal.binds made made'
  have opened := ideal.opens.mpr made
  rw [ideal.opens.mpr made'] at opened
  exact ⟨rfl, (Option.some.inj opened).symm, rfl⟩

/-- A text behind a mark at each byte, and one at its end. -/
def marked : Bytes → Bytes
  | [] => [0]
  | b :: text => 1 :: b :: marked text

theorem marked_append_inj {xs ys rest rest' : Bytes}
    (same : marked xs ++ rest = marked ys ++ rest') : xs = ys ∧ rest = rest' := by
  induction xs generalizing ys with
  | nil =>
    cases ys with
    | nil => exact ⟨rfl, (List.cons.inj same).2⟩
    | cons y ys => exact absurd (List.cons.inj same).1 (by decide)
  | cons x xs ih =>
    cases ys with
    | nil => exact absurd (List.cons.inj same).1 (by decide)
    | cons y ys =>
      simp only [marked, List.cons_append, List.cons.injEq, true_and] at same
      obtain ⟨rfl, tail⟩ := same
      obtain ⟨rfl, rests⟩ := ih tail
      exact ⟨rfl, rests⟩

/-- A cipher that hides nothing and forges nothing: a sealed text shows its key, its context and
its message. -/
def clearCipher : Cipher where
  encrypt key _ message aad := some (key.toList ++ (marked aad ++ message))
  decrypt key _ text aad :=
    if (key.toList ++ marked aad).isPrefixOf text then
      some (text.drop (key.toList ++ marked aad).length)
    else none

theorem clearCipher_ideal : clearCipher.Ideal where
  opens {key nonce message text aad} := by
    simp only [clearCipher, Option.some.injEq, ← List.append_assoc]
    constructor
    · intro found
      split at found
      · rename_i front
        obtain ⟨rest, rfl⟩ := List.isPrefixOf_iff_prefix.mp front
        rw [List.drop_left] at found
        cases found
        rfl
      · cases found
    · rintro rfl
      rw [if_pos (List.isPrefixOf_iff_prefix.mpr (List.prefix_append _ _)), List.drop_left]
  binds {key key' _ _ _ _ _ _} first second := by
    have same := Option.some.inj (first.trans second.symm)
    obtain ⟨keys, rest⟩ := List.append_inj same (by simp)
    exact ⟨Vector.toList_inj.mp keys, (marked_append_inj rest).1⟩

/-! ### Key material -/

/-- Per-tenant key material. -/
structure TenantKeys where
  /-- version number and KEK, oldest first -/
  versions : List (UInt32 × Dek)
  /-- the next version to hand out; a shred leaves it -/
  nextVersion : UInt32
  deriving DecidableEq

/-- Append a KEK under the next version. -/
def TenantKeys.push (entry : TenantKeys) (kek : Dek) : TenantKeys where
  versions := entry.versions ++ [(entry.nextVersion, kek)]
  -- the counter is a `u32`, and wraps
  nextVersion := entry.nextVersion + 1

/-- The development key manager: every tenant's key material. -/
abbrev DevKeyManager := Table String TenantKeys

namespace DevKeyManager

/-- The KEK of a tenant at a version. -/
def withKek (keys : DevKeyManager) (tenant : String) (version : UInt32) : Except SecretError Dek :=
  match keys.lookup tenant with
  | none => .error (.noTenantKey tenant)
  | some entry =>
    match entry.versions.find? fun v => v.1 == version with
    | none => .error (.noKekVersion tenant version)
    | some (_, kek) => .ok kek

def currentVersion (keys : DevKeyManager) (tenant : String) : Except SecretError UInt32 :=
  match keys.lookup tenant with
  | none => .error (.noTenantKey tenant)
  | some entry =>
    match entry.versions.getLast? with
    | none => .error (.noTenantKey tenant)
    | some (version, _) => .ok version

def wrapDek (keys : DevKeyManager) (cipher : Cipher) (nonce : Nonce) (tenant : String)
    (version : UInt32) (dek : Dek) (aad : Bytes) : Except SecretError Bytes := do
  let kek ← keys.withKek tenant version
  aeadSeal cipher kek nonce dek.toList aad

def unwrapDek (keys : DevKeyManager) (cipher : Cipher) (tenant : String) (version : UInt32)
    (wrapped aad : Bytes) : Except SecretError Dek := do
  let kek ← keys.withKek tenant version
  let plain ← aeadOpen cipher kek wrapped aad
  Dek.fromBytes plain

/-- Create the tenant's first KEK, from a fresh key; a tenant that has one keeps it. -/
def provisionTenant (keys : DevKeyManager) (kek : Dek) (tenant : String) :
    DevKeyManager × Except SecretError UInt32 :=
  let entry := (keys.lookup tenant).getD { versions := [], nextVersion := 1 }
  match entry.versions.getLast? with
  | some (version, _) => (keys, .ok version)
  | none => (keys.insert tenant (entry.push kek), .ok entry.nextVersion)

/-- Add a new KEK version. -/
def rotate (keys : DevKeyManager) (kek : Dek) (tenant : String) :
    DevKeyManager × Except SecretError UInt32 :=
  match keys.lookup tenant with
  | none => (keys, .error (.noTenantKey tenant))
  | some entry => (keys.insert tenant (entry.push kek), .ok entry.nextVersion)

/-- Destroy every version of the tenant's KEK. The counter stays where it is. -/
def shred (keys : DevKeyManager) (tenant : String) : DevKeyManager × Except SecretError Unit :=
  match keys.lookup tenant with
  | none => (keys, .error (.noTenantKey tenant))
  | some entry => (keys.insert tenant { entry with versions := [] }, .ok ())

/-! ### What a call answers -/

theorem wrapDek_ok {keys : DevKeyManager} {cipher : Cipher} {nonce : Nonce} {tenant : String}
    {version : UInt32} {dek : Dek} {aad wrapped : Bytes} :
    keys.wrapDek cipher nonce tenant version dek aad = .ok wrapped ↔
      ∃ kek, keys.withKek tenant version = .ok kek ∧
        aeadSeal cipher kek nonce dek.toList aad = .ok wrapped := by
  unfold wrapDek
  cases found : keys.withKek tenant version with
  | error e =>
    constructor
    · intro h
      cases h
    · rintro ⟨_, h, _⟩
      cases h
  | ok kek =>
    constructor
    · intro h
      exact ⟨kek, rfl, h⟩
    · rintro ⟨_, h, sealed⟩
      cases h
      exact sealed

theorem unwrapDek_ok {keys : DevKeyManager} {cipher : Cipher} {tenant : String}
    {version : UInt32} {dek : Dek} {wrapped aad : Bytes} :
    keys.unwrapDek cipher tenant version wrapped aad = .ok dek ↔
      ∃ kek, keys.withKek tenant version = .ok kek ∧
        aeadOpen cipher kek wrapped aad = .ok dek.toList := by
  unfold unwrapDek
  cases found : keys.withKek tenant version with
  | error e =>
    constructor
    · intro h
      cases h
    · rintro ⟨_, h, _⟩
      cases h
  | ok kek =>
    constructor
    · intro h
      cases opened : aeadOpen cipher kek wrapped aad with
      | error e =>
        simp only [bind, Except.bind, opened] at h
        cases h
      | ok plain =>
        simp only [bind, Except.bind, opened] at h
        exact ⟨kek, rfl, by rw [opened, Dek.fromBytes_ok h]⟩
    · rintro ⟨kek', h, opened⟩
      cases h
      simp only [bind, Except.bind, opened, Dek.fromBytes_toList]

/-! ### What a call leaves -/

theorem withKek_ok {keys : DevKeyManager} {tenant : String} {version : UInt32} {kek : Dek} :
    keys.withKek tenant version = .ok kek ↔ ∃ entry, keys.lookup tenant = some entry ∧
      ∃ v, entry.versions.find? (fun v => v.1 == version) = some (v, kek) := by
  unfold withKek
  cases keys.lookup tenant with
  | none => simp
  | some entry =>
    cases found : entry.versions.find? fun v => v.1 == version with
    | none => simp [found]
    | some pair => simp [found, Prod.ext_iff]

theorem withKek_insert_ne {tenant tenant' : String} (other : tenant' ≠ tenant)
    (keys : DevKeyManager) (entry : TenantKeys) (version : UInt32) :
    withKek (keys.insert tenant entry) tenant' version = keys.withKek tenant' version := by
  unfold withKek
  rw [Table.lookup_insert, if_neg other]

/-- The version that the tenant's next key is handed out under. -/
def nextVersion (keys : DevKeyManager) (tenant : String) : UInt32 :=
  (keys.lookup tenant).elim 1 TenantKeys.nextVersion

/-- A key map with at most one key more: the tenant's, under its next version. -/
def Grows (keys keys' : DevKeyManager) (tenant : String) (new : Dek) : Prop :=
  ∀ t version kek,
    (keys.withKek t version = .ok kek → keys'.withKek t version = .ok kek) ∧
    (keys'.withKek t version = .ok kek → keys.withKek t version = .ok kek ∨
      t = tenant ∧ version = keys.nextVersion tenant ∧ kek = new)

theorem grows_refl (keys : DevKeyManager) (tenant : String) (new : Dek) :
    keys.Grows keys tenant new :=
  fun _ _ _ => ⟨id, .inl⟩

theorem grows_push {keys : DevKeyManager} {tenant : String} {entry : TenantKeys} {new : Dek}
    (next : keys.nextVersion tenant = entry.nextVersion)
    (own : keys.lookup tenant = some entry ∨ keys.lookup tenant = none ∧ entry.versions = []) :
    keys.Grows (keys.insert tenant (entry.push new)) tenant new := by
  intro tenant' version kek
  by_cases same : tenant' = tenant
  · subst same
    simp only [withKek_ok, Table.lookup_insert, if_pos, Option.some.injEq, exists_eq_left',
      TenantKeys.push, List.find?_append]
    constructor
    · rintro ⟨entry', found, v, found'⟩
      obtain own | ⟨none, _⟩ := own
      · rw [own] at found
        cases found
        exact ⟨v, by rw [found', Option.some_or]⟩
      · rw [none] at found
        cases found
    · rintro ⟨v, found⟩
      cases older : entry.versions.find? fun v => v.1 == version with
      | some pair =>
        rw [older, Option.some_or] at found
        cases found
        obtain own | ⟨_, empty⟩ := own
        · exact .inl ⟨entry, own, v, older⟩
        · rw [empty] at older
          cases older
      | none =>
        rw [older, Option.none_or, List.find?_singleton] at found
        split at found
        · rename_i named
          cases found
          exact .inr ⟨trivial, by rw [next]; exact (LawfulBEq.eq_of_beq named).symm, rfl⟩
        · cases found
  · rw [withKek_insert_ne same]
    exact ⟨id, .inl⟩

theorem grows_provisionTenant (keys : DevKeyManager) (new : Dek) (tenant : String) :
    keys.Grows (keys.provisionTenant new tenant).1 tenant new := by
  unfold provisionTenant
  simp only
  split
  · exact keys.grows_refl tenant new
  · rename_i bare
    apply grows_push
    · unfold nextVersion
      cases keys.lookup tenant with
      | none => rfl
      | some entry => rfl
    · cases found : keys.lookup tenant with
      | none => exact .inr ⟨rfl, rfl⟩
      | some entry => exact .inl rfl

theorem grows_rotate (keys : DevKeyManager) (new : Dek) (tenant : String) :
    keys.Grows (keys.rotate new tenant).1 tenant new := by
  unfold rotate
  split
  · exact keys.grows_refl tenant new
  · rename_i entry found
    exact grows_push (by rw [nextVersion, found]; rfl) (.inl found)

theorem withKek_shred {keys : DevKeyManager} {tenant tenant' : String} {version : UInt32}
    {kek : Dek} : (keys.shred tenant).1.withKek tenant' version = .ok kek ↔
      tenant' ≠ tenant ∧ keys.withKek tenant' version = .ok kek := by
  unfold shred
  split
  · rename_i none
    refine ⟨fun found => ⟨?_, found⟩, And.right⟩
    rintro rfl
    obtain ⟨entry, found, _⟩ := withKek_ok.mp found
    rw [none] at found
    cases found
  · by_cases same : tenant' = tenant
    · subst same
      simp [withKek_ok]
    · rw [withKek_insert_ne same]
      exact ⟨fun found => ⟨same, found⟩, And.right⟩

end DevKeyManager

end HullCi.Secrets
