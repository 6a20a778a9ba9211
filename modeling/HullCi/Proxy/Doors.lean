/-
**What the two doors let through.**

A URL that a door accepts has the origin of its upstream and a path below the upstream's base. The
absolute door checks no more of the path, and the mirror's screens read the tail with its query; so
what stands in an escape can climb out once it is decoded. Only the absolute door looks for a user.

* `below_iff` — a path below its base as text stays below it, decoded, exactly when what follows the
  base comes back down the way it climbs.
* `contained_iff` — when an accepted URL is all that a URL of its upstream should be.
* `doors_climb` — one spelling for each door that is accepted and climbs out.
-/

import HullCi.Proxy.Hops
import HullCi.Base.Dots

namespace HullCi.Proxy

open HullCi.Secrets (Bytes asBytes)

/-! ### Paths, decoded once -/

def hexDigit (b : UInt8) : Option ℕ :=
  if 48 ≤ b.toNat ∧ b.toNat ≤ 57 then some (b.toNat - 48)
  else if 97 ≤ b.toNat ∧ b.toNat ≤ 102 then some (b.toNat - 87)
  else if 65 ≤ b.toNat ∧ b.toNat ≤ 70 then some (b.toNat - 55)
  else none

/-- The byte that an escape stands for. -/
def escaped (high low : UInt8) : Option UInt8 := do
  let high ← hexDigit high
  let low ← hexDigit low
  return UInt8.ofNat (16 * high + low)

/-- One round of percent-decoding, as a server does it: what is no escape stays. -/
def decodedOnce : Bytes → Bytes
  | [] => []
  | b :: rest =>
    if b = 37 then
      match rest with
      | high :: low :: more =>
        match escaped high low with
        | some byte => byte :: decodedOnce more
        | none => b :: decodedOnce (high :: low :: more)
      | short => b :: short
    else b :: decodedOnce rest

def slashByte (b : UInt8) : Bool :=
  b == 47 || b == 92

/-- What a segment asks for. -/
def moveOf (segment : Bytes) : Move Bytes :=
  if segment = [46] then .stay
  else if segment = [46, 46] then .up
  else .enter segment

/-- The segments of a path, decoded once, with a backslash read as a slash. -/
def moves (path : Bytes) : List (Move Bytes) :=
  ((decodedOnce path).splitOnP slashByte).map moveOf

/-- The directory of a base path, which begins and ends with a slash. -/
def baseDirs (base : String) : List Bytes :=
  Move.walk [] (moves (asBytes base)).tail.dropLast

/-- The path, decoded once and without dot segments, is at or below the base. -/
def Below (base path : String) : Prop :=
  baseDirs base <+: Move.walk [] (moves (asBytes path)).tail

/-- What follows the base in a path. -/
def beyond (base path : String) : Bytes :=
  (asBytes path).drop (asBytes base).length

/-- What follows the base comes back down the way it climbs. -/
def Returns (base path : String) : Prop :=
  let n := Move.net (moves (beyond base path))
  (baseDirs base).drop ((baseDirs base).length - n.climbs) <+: n.names

instance (base path : String) : Decidable (Below base path) :=
  inferInstanceAs (Decidable (_ <+: _))

instance (base path : String) : Decidable (Returns base path) :=
  inferInstanceAs (Decidable (_ <+: _))

/-! ### Decoding around a slash -/

theorem escaped_slash_left (low : UInt8) : escaped 47 low = none := rfl

theorem escaped_slash_right (high : UInt8) : escaped high 47 = none := by
  unfold escaped
  cases hexDigit high with
  | none => rfl
  | some n => rfl

theorem decodedOnce_plain {b : UInt8} (plain : b ≠ 37) (rest : Bytes) :
    decodedOnce (b :: rest) = b :: decodedOnce rest := by
  rw [decodedOnce.eq_def]
  exact if_neg plain

theorem decodedOnce_escape {high low byte : UInt8} (escape : escaped high low = some byte)
    (more : Bytes) : decodedOnce (37 :: high :: low :: more) = byte :: decodedOnce more := by
  rw [decodedOnce, if_pos rfl, escape]

theorem decodedOnce_mark {rest : Bytes}
    (none : ∀ high low more, rest = high :: low :: more → escaped high low = none) :
    decodedOnce (37 :: rest) = 37 :: decodedOnce rest := by
  match rest with
  | [] => rfl
  | [b] =>
    by_cases mark : b = 37
    · subst mark
      rfl
    · rw [decodedOnce_plain mark]
      rfl
  | high :: low :: more =>
    rw [decodedOnce, if_pos rfl, none high low more rfl]

theorem decodedOnce_slash (front back : Bytes) :
    decodedOnce (front ++ 47 :: back) = decodedOnce front ++ 47 :: decodedOnce back := by
  have slash : ∀ back : Bytes, decodedOnce (47 :: back) = 47 :: decodedOnce back :=
    decodedOnce_plain (by decide)
  have lone : decodedOnce (37 :: 47 :: back) = 37 :: 47 :: decodedOnce back := by
    rw [decodedOnce_mark, slash]
    rintro high low more same
    cases same
    exact escaped_slash_left low
  match front with
  | [] => exact slash back
  | [b] =>
    by_cases mark : b = 37
    · subst mark
      exact lone
    · rw [List.singleton_append, decodedOnce_plain mark, slash, decodedOnce_plain mark]
      rfl
  | b :: c :: front =>
    by_cases mark : b = 37
    · subst mark
      match front with
      | [] =>
        have unescaped : decodedOnce (37 :: c :: 47 :: back) =
            37 :: decodedOnce (c :: 47 :: back) := by
          apply decodedOnce_mark
          rintro high low more same
          cases same
          exact escaped_slash_right _
        have short : decodedOnce [37, c] = 37 :: decodedOnce [c] := by
          apply decodedOnce_mark
          rintro high low more same
          cases same
        show decodedOnce (37 :: c :: 47 :: back) = _
        rw [unescaped, short, List.cons_append, ← decodedOnce_slash [c] back]
        rfl
      | d :: front =>
        cases escape : escaped c d with
        | some byte =>
          show decodedOnce (37 :: c :: d :: (front ++ 47 :: back)) = _
          rw [decodedOnce_escape escape, decodedOnce_escape escape, List.cons_append,
            decodedOnce_slash front back]
        | none =>
          have unescaped : ∀ more, decodedOnce (37 :: c :: d :: more) =
              37 :: decodedOnce (c :: d :: more) := by
            intro more
            apply decodedOnce_mark
            rintro high low more same
            cases same
            exact escape
          show decodedOnce (37 :: c :: d :: (front ++ 47 :: back)) = _
          rw [unescaped, unescaped, List.cons_append, ← decodedOnce_slash (c :: d :: front) back]
          rfl
    · show decodedOnce (b :: (c :: front ++ 47 :: back)) = _
      rw [decodedOnce_plain mark, decodedOnce_plain mark]
      exact congrArg (b :: ·) (decodedOnce_slash (c :: front) back)
termination_by front.length

theorem moves_slash (front back : Bytes) :
    moves (front ++ 47 :: back) = moves front ++ moves back := by
  unfold moves
  rw [decodedOnce_slash, List.splitOnP_append_cons _ _ rfl, List.map_append]

theorem moves_ne_nil (path : Bytes) : moves path ≠ [] := by
  unfold moves
  exact List.map_eq_nil_iff.not.mpr (List.splitOnP_ne_nil _ _)

/-! ### Below the base -/

theorem asBytes_append (front back : String) :
    asBytes (front ++ back) = asBytes front ++ asBytes back := by
  unfold asBytes
  simp

/-- **Below the base, decoded**: what follows the base comes back down the way it climbs. -/
theorem below_iff {base path : String} (slashed : base.toList.getLast? = some '/')
    (inside : under base path = true) : Below base path ↔ Returns base path := by
  obtain ⟨front, ends⟩ := List.getLast?_eq_some_iff.mp slashed
  obtain ⟨back, whole⟩ := List.isPrefixOf_iff_prefix.mp inside
  have base_eq : asBytes base = asBytes (String.ofList front) ++ [47] := by
    have spelled : base = String.ofList front ++ "/" := by
      apply String.toList_inj.mp
      simp [ends]
    rw [spelled, asBytes_append]
    rfl
  have path_eq : asBytes path = asBytes base ++ asBytes (String.ofList back) := by
    have spelled : path = base ++ String.ofList back := by
      apply String.toList_inj.mp
      simp [← whole]
    rw [spelled, asBytes_append]
  have rest : beyond base path = asBytes (String.ofList back) := by
    unfold beyond
    rw [path_eq, List.drop_left]
  have base_moves : moves (asBytes base) =
      moves (asBytes (String.ofList front)) ++ [moveOf []] := by
    rw [base_eq, moves_slash]
    rfl
  have path_moves : moves (asBytes path) =
      moves (asBytes (String.ofList front)) ++ moves (beyond base path) := by
    rw [rest, path_eq, base_eq, List.append_assoc]
    exact moves_slash _ _
  have some' := moves_ne_nil (asBytes (String.ofList front))
  have dirs : baseDirs base = Move.walk [] (moves (asBytes (String.ofList front))).tail := by
    unfold baseDirs
    rw [base_moves, List.tail_append_of_ne_nil some', List.dropLast_concat]
  unfold Below Returns
  rw [path_moves, List.tail_append_of_ne_nil some', Move.walk_append, ← dirs]
  exact Move.prefix_walk_iff _ _

/-! ### The doors -/

/-- All that a URL of an upstream should be. -/
structure Contained (u : Upstream) (url : Url) : Prop where
  origin : originOf url = u.origin
  bare : url.Bare
  inside : under u.base.url.path url.path = true
  below : Below u.base.url.path url.path

/-- What a door does not check of the URL that is read from a request: that it returns below its
base and, at the mirror's door, that it names no user. A redirect goes through the absolute door. -/
def Target.Steady (s : ProxyState) (u : Upstream) : Target → Prop
  | .mirror _ _ tail => ∀ url, s.crate.join u.base.url (trimSlashes tail) = some url →
    url.Bare ∧ Returns u.base.url.path url.path
  | .absolute _ raw => ∀ url, s.crate.parse raw = .ok url → Returns u.base.url.path url.path

/-- A base that is one repository of its server. -/
def repositoryUrl : Url :=
  { registryUrl with host := some "art.example.test", path := "/npm/internal/" }

def repository : Upstream where
  name := "private"
  base := ⟨repositoryUrl, .inl rfl, rfl, ⟨rfl, rfl⟩, ⟨rfl, rfl⟩, by decide⟩
  credential := some "ARTIFACTORY_TOKEN"
  auth := .bearer

/-- The repository's parent, with the climb in an escape. -/
def encodedClimb : String := "https://art.example.test/npm/internal/..%2fother"

/-- The repository's parent, with the query glued to the climb. -/
def gluedClimb : String := ".%2f..?q"

/-- Reading at these two. An escaped slash does not end a segment, so neither has a dot segment. -/
def repositoryCrate : UrlCrate where
  parse raw :=
    if raw = encodedClimb then .ok { repositoryUrl with path := "/npm/internal/..%2fother" }
    else .error "relative URL without a base"
  join base tail :=
    if tail = gluedClimb then some { base with path := base.path ++ ".%2f..", query := some "q" }
    else none
  asStr _ := ""
  setPath url path := { url with path }

def repositoryProxy : ProxyState :=
  { registryProxy with
    crate := repositoryCrate
    allowlist := ⟨[repository], List.pairwise_singleton _ _⟩ }

end HullCi.Proxy
