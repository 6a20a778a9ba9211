/-
**The atomic calls of the secret service.**

Every lock-protected section is one call: of the key manager, of the sealed store, of the system's
random source. `perform` is what each does to the `Vaults` and answers; what comes from outside —
fresh key material, a fresh nonce — is in the `Input` of the call.
-/

import HullCi.Base.Program
import HullCi.Secrets.Keys
import Mathlib.Data.Prod.Lex
import Mathlib.Data.String.Basic

namespace HullCi.Secrets

open HullCi.Base

/-- A secret at rest. `tenant` and `name` are labels, not authenticators. -/
structure SealedSecret where
  tenant : String
  name : String
  /-- which KEK version wrapped `wrappedDek` -/
  kekVersion : UInt32
  wrappedDek : Bytes
  /-- `nonce || ciphertext || tag` of the value -/
  ciphertext : Bytes
  deriving DecidableEq

/-- The sealed records, keyed by tenant and name. -/
abbrev SealedStore := Table (String ×ₗ String) SealedSecret

namespace SealedStore

def put (rows : SealedStore) (sealed : SealedSecret) : SealedStore :=
  rows.insert (toLex (sealed.tenant, sealed.name)) sealed

def get (rows : SealedStore) (tenant name : String) : Option SealedSecret :=
  rows.lookup (toLex (tenant, name))

def delete (rows : SealedStore) (tenant name : String) : SealedStore :=
  rows.erase (toLex (tenant, name))

/-- Every sealed record of a tenant, in the order of their names. -/
def list (rows : SealedStore) (tenant : String) : List SealedSecret :=
  (rows.sorted.filter fun row => (ofLex row.1).1 = tenant).map Sigma.snd

theorem get_put (rows : SealedStore) (sealed : SealedSecret) (tenant name : String) :
    (rows.put sealed).get tenant name =
      if tenant = sealed.tenant ∧ name = sealed.name then some sealed
      else rows.get tenant name := by
  unfold put get
  rw [Table.lookup_insert]
  simp only [EmbeddingLike.apply_eq_iff_eq, Prod.mk.injEq]

theorem get_delete (rows : SealedStore) (tenant name tenant' name' : String) :
    (rows.delete tenant name).get tenant' name' =
      if tenant' = tenant ∧ name' = name then none else rows.get tenant' name' := by
  unfold delete get
  rw [Table.lookup_erase]
  simp only [EmbeddingLike.apply_eq_iff_eq, Prod.mk.injEq]

theorem mem_list {rows : SealedStore} {tenant : String} {sealed : SealedSecret} :
    sealed ∈ rows.list tenant ↔ ∃ name, rows.get tenant name = some sealed := by
  unfold list
  rw [List.mem_map]
  constructor
  · rintro ⟨⟨key, row⟩, member, rfl⟩
    obtain ⟨listed, own⟩ := List.mem_filter.mp member
    obtain rfl : (ofLex key).1 = tenant := of_decide_eq_true own
    exact ⟨(ofLex key).2, Table.mem_sorted.mp listed⟩
  · rintro ⟨name, found⟩
    exact ⟨⟨toLex (tenant, name), sealed⟩,
      List.mem_filter.mpr ⟨Table.mem_sorted.mpr found, decide_eq_true rfl⟩, rfl⟩

end SealedStore

/-- What the broker keeps: the key manager's key material, and the sealed store. -/
structure Vaults where
  keys : DevKeyManager
  rows : SealedStore

def Vaults.new : Vaults where
  keys := ∅
  rows := ∅

/-- One atomic call. -/
inductive Call where
  | currentVersion (tenant : String)
  | wrapDek (tenant : String) (version : UInt32) (dek : Dek) (aad : Bytes)
  | unwrapDek (tenant : String) (version : UInt32) (wrapped aad : Bytes)
  | provisionTenant (tenant : String)
  | rotate (tenant : String)
  | shred (tenant : String)
  | generate
  | generateNonce
  | put (sealed : SealedSecret)
  | get (tenant name : String)
  | delete (tenant name : String)
  | list (tenant : String)

/-- What a call answers. -/
@[reducible] def Answer : Call → Type
  | .currentVersion _ => Except SecretError UInt32
  | .wrapDek .. => Except SecretError Bytes
  | .unwrapDek .. => Except SecretError Dek
  | .provisionTenant _ => Except SecretError UInt32
  | .rotate _ => Except SecretError UInt32
  | .shred _ => Except SecretError Unit
  | .generate => Dek
  | .generateNonce => Nonce
  | .put _ => Unit
  | .get .. => Option SealedSecret
  | .delete .. => Bool
  | .list _ => List SealedSecret

/-- What a call draws from outside. -/
structure Input where
  key : Dek
  nonce : Nonce

/-- One call, made. -/
def perform (cipher : Cipher) (s : Vaults) (input : Input) : (call : Call) → Vaults × Answer call
  | .currentVersion tenant => (s, s.keys.currentVersion tenant)
  | .wrapDek tenant version dek aad =>
    (s, s.keys.wrapDek cipher input.nonce tenant version dek aad)
  | .unwrapDek tenant version wrapped aad =>
    (s, s.keys.unwrapDek cipher tenant version wrapped aad)
  | .provisionTenant tenant =>
    ({ s with keys := (s.keys.provisionTenant input.key tenant).1 },
      (s.keys.provisionTenant input.key tenant).2)
  | .rotate tenant =>
    ({ s with keys := (s.keys.rotate input.key tenant).1 }, (s.keys.rotate input.key tenant).2)
  | .shred tenant => ({ s with keys := (s.keys.shred tenant).1 }, (s.keys.shred tenant).2)
  | .generate => (s, input.key)
  | .generateNonce => (s, input.nonce)
  | .put sealed => ({ s with rows := s.rows.put sealed }, ())
  | .get tenant name => (s, s.rows.get tenant name)
  | .delete tenant name =>
    ({ s with rows := s.rows.delete tenant name }, (s.rows.get tenant name).isSome)
  | .list tenant => (s, s.rows.list tenant)

/-- A program of the secret service. -/
abbrev Prog (A : Type) := Program Answer SecretError A

end HullCi.Secrets
