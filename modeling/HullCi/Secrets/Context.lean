/-
**Names, refusals, and the context a ciphertext is bound to.**

`associatedData` writes the domain and the fields one after another, each behind its length in four
big-endian bytes. The length is cut to 32 bits; for fields below 2^32 bytes the encoding is
injective (`associatedData_inj`), whatever the number of fields, so no two contexts share their
bytes and no two domains do.
-/

import Mathlib.Algebra.Group.Nat.Defs
import Mathlib.Data.List.Basic

namespace HullCi.Secrets

/-- Raw bytes, as the wire and the store hold them. -/
abbrev Bytes := List UInt8

/-- The UTF-8 bytes of a text. -/
def asBytes (text : String) : Bytes :=
  text.toByteArray.data.toList

theorem asBytes_inj {s t : String} (same : asBytes s = asBytes t) : s = t := by
  apply String.toByteArray_inj.mp
  apply ByteArray.ext
  exact Array.toList_inj.mp same

theorem fromUTF8_some {bytes : Bytes} {value : String} :
    String.fromUTF8? bytes.toByteArray = some value ↔ asBytes value = bytes := by
  have listed : bytes.toByteArray.data.toList = bytes := List.toList_data_toByteArray
  unfold String.fromUTF8? asBytes
  constructor
  · intro read
    split_ifs at read with valid
    obtain rfl := Option.some.inj read
    exact listed
  · intro same
    have whole : bytes.toByteArray = value.toByteArray := by
      apply ByteArray.ext
      apply Array.toList_inj.mp
      rw [listed, same]
    rw [whole, dif_pos value.isValidUTF8]
    exact congrArg some (String.toByteArray_inj.mp rfl)

/-- Everything that can go wrong here. -/
inductive SecretError where
  | invalidName (name : String)
  | reservedName (name : String)
  | emptyValue
  | noTenantKey (tenant : String)
  | noKekVersion (tenant : String) (version : UInt32)
  | decrypt
  | contextMismatch (expected found : String)
  | unknownSecret (tenant name : String)
  | outsiderRefused
  | badCapability
  | capabilityExpired
  | capabilityConsumed
  | capabilityRevoked
  | wrongNode
  | wrongProxy
  | wrongJob (bound presented : String)
  | wrongTenant (bound presented : String)
  | badNodeSignature
  | unenrolledNode (key : Bytes)
  | unenrolledProxy (key : Bytes)
  | staleRedemption (skewSecs : ℕ)
  | keyAlreadyEnrolled (enrolledTo requested : String)
  | undeclared (name : String)
  deriving DecidableEq, Repr

/-! ### Names -/

/-- Names the job environment owns, plus the dynamic loader's. -/
def reservedNames : List String :=
  ["PATH", "HOME", "LANG", "CI", "TMPDIR", "IFS", "LD_PRELOAD", "LD_AUDIT", "LD_LIBRARY_PATH",
    "DYLD_INSERT_LIBRARIES", "DYLD_LIBRARY_PATH"]

def nameShaped : List Char → Bool
  | c :: rest =>
    (c.isUpper || c == '_') && rest.all fun c => c.isUpper || c.isDigit || c == '_'
  | [] => false

/-- A secret's name at the door, both when storing and when declaring. -/
def validateName (name : String) : Except SecretError Unit :=
  if nameShaped name.toList = false then .error (.invalidName name)
  else if name ∈ reservedNames then .error (.reservedName name)
  else .ok ()

/-! ### Associated data -/

/-- A length as four big-endian bytes: what does not fit in 32 bits is cut. -/
def beBytes (n : ℕ) : Bytes :=
  [UInt8.ofNat (n / 2 ^ 24), UInt8.ofNat (n / 2 ^ 16), UInt8.ofNat (n / 2 ^ 8), UInt8.ofNat n]

/-- Fields one after another, each behind its length. -/
def framed : List Bytes → Bytes
  | [] => []
  | field :: fields => beBytes field.length ++ (field ++ framed fields)

/-- Associated data: domain-separated and length-prefixed. -/
def associatedData (domain : String) (fields : List String) : Bytes :=
  framed ((domain :: fields).map asBytes)

/-- A text the 32-bit length prefix counts in full. -/
def Short (text : String) : Prop :=
  (asBytes text).length < 2 ^ 32

instance (text : String) : Decidable (Short text) :=
  inferInstanceAs (Decidable (_ < _))

@[simp] theorem beBytes_length (n : ℕ) : (beBytes n).length = 4 := rfl

theorem beBytes_inj {m n : ℕ} (short : m < 2 ^ 32) (short' : n < 2 ^ 32)
    (same : beBytes m = beBytes n) : m = n := by
  simp only [beBytes, List.cons.injEq, and_true, ← UInt8.toNat_inj, UInt8.toNat_ofNat'] at same
  omega

theorem framed_inj {xs ys : List Bytes} (short : ∀ x ∈ xs, x.length < 2 ^ 32)
    (short' : ∀ y ∈ ys, y.length < 2 ^ 32) (same : framed xs = framed ys) : xs = ys := by
  induction xs generalizing ys with
  | nil =>
    cases ys with
    | nil => rfl
    | cons y ys => cases same
  | cons x xs ih =>
    cases ys with
    | nil => cases same
    | cons y ys =>
      obtain ⟨lengths, rest⟩ := List.append_inj same rfl
      have length : x.length = y.length :=
        beBytes_inj (short x (by simp)) (short' y (by simp)) lengths
      obtain ⟨rfl, tail⟩ := List.append_inj rest length
      rw [ih (fun z member => short z (by simp [member]))
        (fun z member => short' z (by simp [member])) tail]

/-- **Distinct contexts have distinct bytes.** -/
theorem associatedData_inj {domain domain' : String} {fields fields' : List String}
    (short : ∀ f ∈ domain :: fields, Short f) (short' : ∀ f ∈ domain' :: fields', Short f)
    (same : associatedData domain fields = associatedData domain' fields') :
    domain = domain' ∧ fields = fields' := by
  have equal : (domain :: fields).map asBytes = (domain' :: fields').map asBytes := by
    apply framed_inj _ _ same
    · intro x encoded
      obtain ⟨f, member, rfl⟩ := List.mem_map.mp encoded
      exact short f member
    · intro x encoded
      obtain ⟨f, member, rfl⟩ := List.mem_map.mp encoded
      exact short' f member
  have injective : Function.Injective asBytes := fun _ _ same => asBytes_inj same
  exact List.cons.inj (injective.list_map equal)

theorem toString_inj {m n : ℕ} (same : toString m = toString n) : m = n := by
  have digits : Nat.toDigits 10 m = Nat.toDigits 10 n := by
    rw [← Nat.toList_repr, ← Nat.toList_repr]
    exact congrArg String.toList same
  rw [← Nat.ofDigitChars_toDigits (by decide : 1 < 10) (by decide) (n := m), digits,
    Nat.ofDigitChars_toDigits (by decide) (by decide)]

theorem utf8Encode_length (chars : List Char) :
    chars.utf8Encode.data.toList.length ≤ 4 * chars.length := by
  induction chars with
  | nil => simp [List.utf8Encode_nil]
  | cons c chars ih =>
    have one : (String.utf8EncodeChar c).length ≤ 4 := by
      rw [String.length_utf8EncodeChar]
      exact c.utf8Size_le_four
    rw [List.utf8Encode_cons, List.utf8Encode_singleton, ByteArray.toList_data_append,
      List.toList_data_toByteArray, List.length_append, List.length_cons]
    omega

theorem short_toString (version : UInt32) : Short (toString version.toNat) := by
  have digits : (Nat.toDigits 10 version.toNat).length ≤ 10 :=
    (Nat.length_toDigits_le_iff (by decide) (by decide)).mpr
      (Nat.lt_trans version.toNat_lt (by decide))
  have bytes : asBytes (toString version.toNat) =
      (Nat.toDigits 10 version.toNat).utf8Encode.data.toList := by
    unfold asBytes
    rw [Nat.toString_eq_repr, Nat.repr_eq_ofList_toDigits, String.toByteArray_ofList]
  have size := utf8Encode_length (Nat.toDigits 10 version.toNat)
  unfold Short
  rw [bytes]
  omega

end HullCi.Secrets
