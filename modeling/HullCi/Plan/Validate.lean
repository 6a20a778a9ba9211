/-
**What a pipeline may say: the rules of the builtin table and the errors they give.**

Every rule rejects and none repairs, so each is a check that answers with the error it would show.
Lengths are counted in characters.

* `checkStepName_ok` — a step name passes exactly when it is short and of the documented characters.
-/

import HullCi.Proto.Text

namespace HullCi.Plan

open HullCi.Proto

/-! ### Errors -/

/-- A rule of the builtin table that the pipeline broke. -/
inductive Invalid
  | nameLength (got limit : ℕ)
  | nameCharset (name : String)
  | duplicateName (name : String)
  | danglingNeeds (name missing : String)
  | tier (got : String)
  | shard (got : String) (max : ℕ)
  | cacheScope (limit : ℕ)
  | imageRef (limit : ℕ)
  | unknownAction (got : String)
  | nothingToRun (name : String)
  | timeoutSyntax (got : String)
  | timeoutTooLong (got : String) (limitHours : ℕ)
  | listTooLong (field name : String) (limit : ℕ)
  | stringTooLong (field name : String) (limit : ℕ)
  | controlCharacters (field name : String)
  | redeclared (builtin : String)
  deriving DecidableEq, Repr

/-- An evaluation bound that tripped. -/
inductive Bound
  | steps (limit : ℕ)
  | depth (limit : ℕ)
  | sourceBytes (limit : ℕ)
  | nesting (limit : ℕ)
  | statementSize (limit : ℕ)
  | indent (limit : ℕ)
  | blockChain (limit : ℕ)
  deriving DecidableEq, Repr

/-- Why there is no pipeline. -/
inductive PlanErrorKind
  | language (message : String)
  | invalid (rule : Invalid)
  | exhausted (bound : Bound)
  | internal
  deriving DecidableEq, Repr

/-- What the author of the pipeline is shown. -/
def Invalid.text : Invalid → String
  | .nameLength got limit =>
    "step name must be 1..=" ++ toString limit ++ " characters, not " ++ toString got
  | .nameCharset name =>
    "step name `" ++ name ++ "` may only contain letters, digits, `_`, `-` and `/`"
  | .duplicateName name => "duplicate step name `" ++ name ++ "`"
  | .danglingNeeds name missing =>
    "step `" ++ name ++ "` needs `" ++ missing ++ "`, which is not a step declared before it"
  | .tier got => "trust must be \"trusted\" or \"untrusted\", not `" ++ got ++ "`"
  | .shard got max =>
    "shard must be \"auto\" or an integer 1..=" ++ toString max ++ ", not `" ++ got ++ "`"
  | .cacheScope limit =>
    "cache scope must be 1..=" ++ toString limit ++ " characters of letters, digits, `_` and `-`"
  | .imageRef limit => "image ref must be 1..=" ++ toString limit ++ " characters"
  | .unknownAction got => "`uses = \"" ++ got ++ "\"` names no built-in action"
  | .nothingToRun name =>
    "step `" ++ name ++ "` has neither `run` nor `uses`, so there is nothing to run"
  | .timeoutSyntax got => "timeout `" ++ got ++ "` must look like `90s`, `20m` or `2h`"
  | .timeoutTooLong got limitHours =>
    "timeout `" ++ got ++ "` is longer than the " ++ toString limitHours ++ "h ceiling"
  | .listTooLong field name limit =>
    "`" ++ field ++ "` of step `" ++ name ++ "` may hold at most " ++ toString limit ++ " entries"
  | .stringTooLong field name limit =>
    "`" ++ field ++ "` of step `" ++ name ++ "` may be at most " ++ toString limit
      ++ " characters"
  | .controlCharacters field name =>
    "`" ++ field ++ "` of step `" ++ name ++ "` may not contain control characters"
  | .redeclared builtin => "`" ++ builtin ++ "` may be called at most once"

/-- What the author of the pipeline is shown. -/
def Bound.text : Bound → String
  | .steps limit => "pipeline emits more than " ++ toString limit ++ " steps"
  | .depth limit => "dependency chain is deeper than " ++ toString limit ++ " steps"
  | .sourceBytes limit => "pipeline file is larger than " ++ toString limit ++ " bytes"
  | .nesting limit => "brackets nested more than " ++ toString limit ++ " deep"
  | .statementSize limit => "a single statement is more than " ++ toString limit ++ " tokens long"
  | .indent limit => "indented more than " ++ toString limit ++ " columns"
  | .blockChain limit =>
    "a conditional chain is longer than the " ++ toString limit ++ "-branch limit"

/-- What the author of the pipeline is shown. -/
def PlanErrorKind.text : PlanErrorKind → String
  | .language message => message
  | .invalid rule => rule.text
  | .exhausted bound => bound.text
  | .internal => "the pipeline evaluator failed unexpectedly"

/-! ### Bounds of the table -/

def maxNameLen : ℕ := 64
def maxCacheScopeLen : ℕ := 64
def maxImageRefLen : ℕ := 512
def maxShard : ℕ := 256
def maxRunLen : ℕ := 8 * 1024
def maxListItemLen : ℕ := 1024
def maxListLen : ℕ := 1024
def maxTimeoutHours : ℕ := 24

/-- The built-in actions a node has. -/
def builtinActions : List String := ["hull/secret-scan"]

/-! ### Checks -/

/-- `char::is_ascii_alphanumeric`. -/
def isAsciiAlphanumeric (c : Char) : Bool :=
  isAsciiAlphabetic c || (0x30 ≤ c.val && c.val ≤ 0x39)

def checkStepName (name : String) : Except Invalid Unit :=
  if name.length = 0 ∨ maxNameLen < name.length then
    .error (.nameLength name.length maxNameLen)
  else if !name.toList.all (fun c => isAsciiAlphanumeric c || c == '_' || c == '-' || c == '/') then
    .error (.nameCharset name)
  else .ok ()

/-- No `/`, unlike a step name: a scope is resolved within the tenant. -/
def checkCacheScope (name : String) : Except Invalid Unit :=
  if name.length = 0 ∨ maxCacheScopeLen < name.length then
    .error (.cacheScope maxCacheScopeLen)
  else if !name.toList.all (fun c => isAsciiAlphanumeric c || c == '_' || c == '-') then
    .error (.cacheScope maxCacheScopeLen)
  else .ok ()

/-- The reference itself is not parsed here. -/
def checkImageRef (reference : String) : Except Invalid Unit :=
  if reference.length = 0 ∨ maxImageRefLen < reference.length ∨ reference.toList.any isControl then
    .error (.imageRef maxImageRefLen)
  else .ok ()

def checkAction (uses : String) (registry : List String) : Except Invalid Unit :=
  if registry.contains uses then .ok () else .error (.unknownAction uses)

def checkListItem (field step item : String) : Except Invalid Unit :=
  if maxListItemLen < item.length then .error (.stringTooLong field step maxListItemLen)
  else if item.toList.any isControl then .error (.controlCharacters field step)
  else .ok ()

/-- Tab and newline are ordinary in a shell command. -/
def checkRun (step run : String) : Except Invalid Unit :=
  if maxRunLen < run.length then .error (.stringTooLong "run" step maxRunLen)
  else if run.toList.any (fun c => isControl c && !(c == '\n' || c == '\t')) then
    .error (.controlCharacters "run" step)
  else .ok ()

/-- The digits of `u64::from_str`, read onto what is already there. -/
def readDigits : ℕ → List Char → Option ℕ
  | n, [] => some n
  | n, c :: rest =>
    if 0x30 ≤ c.val ∧ c.val ≤ 0x39 then
      if n * 10 + (c.toNat - 0x30) < 2 ^ 64 then readDigits (n * 10 + (c.toNat - 0x30)) rest
      else none
    else none

/-- `u64::from_str`: an optional `+`, then at least one digit. -/
def parseU64 (raw : List Char) : Option ℕ :=
  match raw with
  | [] => none
  | '+' :: rest => if rest.isEmpty then none else readDigits 0 rest
  | c :: rest => readDigits 0 (c :: rest)

/-- `n.checked_mul(k)` on a `u64`. -/
def checkedMul (n k : ℕ) : Option ℕ :=
  if n * k < 2 ^ 64 then some (n * k) else none

/-- How many seconds the unit makes of the number, if there is such a unit. -/
def inSeconds (n : ℕ) (unit : Char) : Option ℕ :=
  if unit = 's' then some n
  else if unit = 'm' then checkedMul n 60
  else if unit = 'h' then checkedMul n 3600
  else none

/-- `"90s"`, `"20m"` or `"2h"`, in seconds. The unit is the last character, not the last byte. -/
def parseTimeout (raw : String) : Except Invalid ℕ :=
  match raw.toList.getLast? with
  | none => .error (.timeoutSyntax raw)
  | some unit =>
    match parseU64 raw.toList.dropLast with
    | none => .error (.timeoutSyntax raw)
    | some n =>
      if n = 0 then .error (.timeoutSyntax raw)
      else
        match inSeconds n unit with
        | none => .error (.timeoutSyntax raw)
        | some secs =>
          if maxTimeoutHours * 3600 < secs then .error (.timeoutTooLong raw maxTimeoutHours)
          else .ok secs

/-! ### What a check that passes says -/

/-- The documented characters of a step name: letters, digits, `_`, `/` and `-`. -/
def NameChar (c : Char) : Prop :=
  ('A' ≤ c ∧ c ≤ 'Z') ∨ ('a' ≤ c ∧ c ≤ 'z') ∨ ('0' ≤ c ∧ c ≤ '9') ∨ c = '_' ∨ c = '/' ∨ c = '-'

/-- A name a step may have. -/
structure LegalName (name : String) : Prop where
  some : 1 ≤ name.length
  short : name.length ≤ 64
  charset : ∀ c ∈ name.toList, NameChar c

theorem nameChar_iff (c : Char) :
    (isAsciiAlphanumeric c || c == '_' || c == '-' || c == '/') = true ↔ NameChar c := by
  simp only [isAsciiAlphanumeric, isAsciiAlphabetic, NameChar, Bool.or_eq_true, Bool.and_eq_true,
    decide_eq_true_eq, beq_iff_eq, Char.le_def]
  constructor
  · rintro (((((h | h) | h) | h) | h) | h)
    all_goals simp_all
  · rintro (h | h | h | h | h | h)
    all_goals simp_all

theorem checkStepName_ok {name : String} : checkStepName name = .ok () ↔ LegalName name := by
  unfold checkStepName maxNameLen
  constructor
  · intro passed
    split at passed
    · cases passed
    · rename_i length
      split at passed
      · cases passed
      · rename_i chars
        refine ⟨by omega, by omega, fun c member => (nameChar_iff c).mp ?_⟩
        simp only [Bool.not_eq_true, Bool.not_eq_false', List.all_eq_true] at chars
        exact chars c member
  · intro legal
    have length : ¬ (name.length = 0 ∨ 64 < name.length) := by
      have := legal.some
      have := legal.short
      omega
    have chars : name.toList.all
        (fun c => isAsciiAlphanumeric c || c == '_' || c == '-' || c == '/') = true :=
      List.all_eq_true.mpr fun c member => (nameChar_iff c).mpr (legal.charset c member)
    rw [if_neg length, chars]
    rfl

end HullCi.Plan
