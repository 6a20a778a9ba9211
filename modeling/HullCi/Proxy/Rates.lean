/-
**The rate limit over whole runs.**

The bucket of a grant has no clock of its own: it takes what each request brings, forwards or
backwards, and refills at the next request that it is charged. `clock` is the largest value among
those.

* `refill_exact`, `machine_takes` — no sum, product or cast loses anything: 32 and 64 bits answer as
  unbounded numbers do.
* `served_le` — what a registry can still grant on one id, as its clock goes on.
* `answered_alike` — a refused request leaves a registry that answers as the one before it.
* `answered_on` — the requests on one grant are answered as if there were no others.
* `demand_served` — a demand within the rate is never refused for it.

A request that is refused as expired is not charged, so the bucket has not seen its clock value:
`expired_clock_unseen`.
-/

import HullCi.Base.Run
import HullCi.Proxy.Grant

namespace HullCi.Proxy

open HullCi.Base
open HullCi.Secrets (Bytes Digest)

namespace TokenBucket

/-! ### One request on the bucket -/

/-- The largest clock value the bucket has seen. -/
def clock (bucket : TokenBucket) : ℕ :=
  bucket.lastRefill.getD 0

/-- What one answer took. -/
def price (served : Bool) : ℕ :=
  if served then 1 else 0

@[simp] theorem refill_limit (bucket : TokenBucket) (now : ℕ) :
    (bucket.refill now).limit = bucket.limit := by
  unfold refill
  cases bucket.lastRefill with
  | none => rfl
  | some last =>
    dsimp only
    split <;> rfl

theorem refill_clock (bucket : TokenBucket) (now : ℕ) :
    (bucket.refill now).clock = max bucket.clock now := by
  unfold refill clock
  cases held : bucket.lastRefill with
  | none => simp
  | some last =>
    dsimp only
    split_ifs with still
    · rw [held]
      simp only [Option.getD_some]
      omega
    · simp only [Option.getD_some]
      omega

/-- A refill brings at most the rate for every second the clock goes on. -/
theorem refill_tokens_le (bucket : TokenBucket) (now : ℕ) : (bucket.refill now).tokens ≤
    bucket.tokens + bucket.limit.perSecond * (max bucket.clock now - bucket.clock) := by
  unfold refill clock
  cases held : bucket.lastRefill with
  | none => exact Nat.le_add_right _ _
  | some last =>
    have gain : (now - last) * bucket.limit.perSecond =
        bucket.limit.perSecond * (max last now - last) := by
      rw [Nat.mul_comm]
      congr 1
      omega
    dsimp only [Option.getD_some]
    split_ifs with still
    · exact Nat.le_add_right _ _
    · rw [← gain]
      dsimp only
      omega

theorem refill_capped {bucket : TokenBucket} (within : bucket.tokens ≤ bucket.limit.burst)
    (now : ℕ) : (bucket.refill now).tokens ≤ bucket.limit.burst := by
  unfold refill
  cases bucket.lastRefill with
  | none => exact within
  | some last =>
    dsimp only
    split_ifs with still
    · exact within
    · exact min_le_right _ _

@[simp] theorem take_limit (bucket : TokenBucket) (now : ℕ) :
    (bucket.take now).1.limit = bucket.limit := by
  unfold take
  dsimp only
  split <;> exact refill_limit bucket now

@[simp] theorem take_clock (bucket : TokenBucket) (now : ℕ) :
    (bucket.take now).1.clock = max bucket.clock now := by
  rw [← refill_clock]
  unfold take
  dsimp only
  split <;> rfl

theorem take_tokens (bucket : TokenBucket) (now : ℕ) :
    (bucket.take now).1.tokens + price (bucket.take now).2 = (bucket.refill now).tokens := by
  unfold take
  dsimp only
  by_cases empty : (bucket.refill now).tokens = 0
  · rw [if_pos empty]
    exact Nat.add_zero _
  · rw [if_neg empty]
    exact Nat.sub_add_cancel (Nat.pos_of_ne_zero empty)

theorem take_served (bucket : TokenBucket) (now : ℕ) :
    (bucket.take now).2 = true ↔ 0 < (bucket.refill now).tokens := by
  unfold take
  dsimp only
  split_ifs with empty
  · simp [empty]
  · simp [Nat.pos_of_ne_zero empty]

theorem take_capped {bucket : TokenBucket} (within : bucket.tokens ≤ bucket.limit.burst) (now : ℕ) :
    (bucket.take now).1.tokens + price (bucket.take now).2 ≤ bucket.limit.burst := by
  rw [take_tokens]
  exact refill_capped within now

/-! ### Unbounded numbers -/

/-- The refill in unbounded numbers. -/
def refillExact (bucket : TokenBucket) (now : ℕ) : TokenBucket :=
  match bucket.lastRefill with
  | none => { bucket with lastRefill := some now }
  | some last =>
    { bucket with
      lastRefill := some (max last now)
      tokens := min (bucket.tokens + (now - last) * bucket.limit.perSecond) bucket.limit.burst }

/-- The request on a bucket in unbounded numbers. -/
def takeExact (bucket : TokenBucket) (now : ℕ) : TokenBucket × Bool :=
  let bucket := bucket.refillExact now
  if bucket.tokens = 0 then (bucket, false)
  else ({ bucket with tokens := bucket.tokens - 1 }, true)

/-- The answers to a list of clock values. -/
def takesExact (bucket : TokenBucket) : List ℕ → List Bool
  | [] => []
  | now :: clocks => (bucket.takeExact now).2 :: (bucket.takeExact now).1.takesExact clocks

/-- **No bound of the arithmetic is ever felt.** -/
theorem refill_exact {bucket : TokenBucket} (fits : bucket.limit.burst < 2 ^ 32)
    (within : bucket.tokens ≤ bucket.limit.burst) (now : ℕ) :
    bucket.refill now = bucket.refillExact now := by
  obtain ⟨limit, tokens, lastRefill⟩ := bucket
  unfold refill refillExact
  cases lastRefill with
  | none => rfl
  | some last =>
    dsimp only at fits within ⊢
    split_ifs with still
    · have same : max last now = last := by omega
      rw [still, Nat.zero_mul, Nat.add_zero, min_eq_left within, same]
    · have later : max last now = now := by omega
      rw [later]
      congr 1
      omega

theorem take_exact {bucket : TokenBucket} (fits : bucket.limit.burst < 2 ^ 32)
    (within : bucket.tokens ≤ bucket.limit.burst) (now : ℕ) :
    bucket.take now = bucket.takeExact now := by
  unfold take takeExact
  rw [refill_exact fits within]

end TokenBucket

/-! ### The machine's numbers -/

/-- The bucket as the machine holds it. -/
structure MachineBucket where
  perSecond : UInt32
  burst : UInt32
  tokens : UInt32
  lastRefill : Option UInt64

namespace MachineBucket

/-- `u64::saturating_sub`. -/
def saturatingSub (a b : UInt64) : UInt64 :=
  if b ≤ a then a - b else 0

/-- `u64::saturating_mul`. -/
def saturatingMul (a b : UInt64) : UInt64 :=
  if a.toNat * b.toNat < 2 ^ 64 then a * b else 18446744073709551615

/-- `u32::saturating_add`. -/
def saturatingAdd (a b : UInt32) : UInt32 :=
  if a.toNat + b.toNat < 2 ^ 32 then a + b else 4294967295

def new (perSecond burst : UInt32) : MachineBucket :=
  ⟨perSecond, burst, burst, none⟩

/-- `TokenBucket::refill`: the cast and every other sum wrap. -/
def refill (bucket : MachineBucket) (now : UInt64) : MachineBucket :=
  match bucket.lastRefill with
  | none => { bucket with lastRefill := some now }
  | some last =>
    let elapsed := saturatingSub now last
    if elapsed = 0 then bucket
    else
      let gained := saturatingMul elapsed bucket.perSecond.toUInt64
      { bucket with
        lastRefill := some now
        tokens := min (saturatingAdd bucket.tokens (min gained 4294967295).toUInt32) bucket.burst }

def take (bucket : MachineBucket) (now : UInt64) : MachineBucket × Bool :=
  let bucket := bucket.refill now
  if bucket.tokens = 0 then (bucket, false)
  else ({ bucket with tokens := bucket.tokens - 1 }, true)

/-- The answers to a list of clock values. -/
def takes (bucket : MachineBucket) : List UInt64 → List Bool
  | [] => []
  | now :: clocks => (bucket.take now).2 :: (bucket.take now).1.takes clocks

/-- The numbers that the machine's stand for. -/
def value (bucket : MachineBucket) : TokenBucket where
  limit := ⟨bucket.perSecond.toNat, bucket.burst.toNat⟩
  tokens := bucket.tokens.toNat
  lastRefill := bucket.lastRefill.map UInt64.toNat

theorem toNat_saturatingSub (a b : UInt64) : (saturatingSub a b).toNat = a.toNat - b.toNat := by
  unfold saturatingSub
  split_ifs with le
  · exact UInt64.toNat_sub_of_le a b le
  · rw [UInt64.le_iff_toNat_le] at le
    show 0 = _
    omega

theorem toNat_saturatingMul (a b : UInt64) :
    (saturatingMul a b).toNat = min (a.toNat * b.toNat) (2 ^ 64 - 1) := by
  unfold saturatingMul
  split_ifs with fits
  · rw [UInt64.toNat_mul, Nat.mod_eq_of_lt fits]
    omega
  · show 18446744073709551615 = _
    omega

theorem toNat_saturatingAdd (a b : UInt32) :
    (saturatingAdd a b).toNat = min (a.toNat + b.toNat) (2 ^ 32 - 1) := by
  unfold saturatingAdd
  split_ifs with fits
  · rw [UInt32.toNat_add, Nat.mod_eq_of_lt fits]
    omega
  · show 4294967295 = _
    omega

theorem toNat_min32 (a b : UInt32) : (min a b).toNat = min a.toNat b.toNat := by
  show (if a ≤ b then a else b).toNat = _
  split_ifs with le
  · rw [min_eq_left (UInt32.le_iff_toNat_le.mp le)]
  · rw [UInt32.le_iff_toNat_le] at le
    rw [min_eq_right (by omega)]

theorem toNat_min64 (a b : UInt64) : (min a b).toNat = min a.toNat b.toNat := by
  show (if a ≤ b then a else b).toNat = _
  split_ifs with le
  · rw [min_eq_left (UInt64.le_iff_toNat_le.mp le)]
  · rw [UInt64.le_iff_toNat_le] at le
    rw [min_eq_right (by omega)]

theorem value_refill (bucket : MachineBucket) (now : UInt64) :
    (bucket.refill now).value = bucket.value.refill now.toNat := by
  obtain ⟨perSecond, burst, tokens, lastRefill⟩ := bucket
  cases lastRefill with
  | none => rfl
  | some last =>
    have elapsed : saturatingSub now last = 0 ↔ now.toNat - last.toNat = 0 := by
      rw [← toNat_saturatingSub, ← UInt64.toNat_inj]
      rfl
    -- the cast keeps the number: it was cut to 32 bits before
    have cast : ∀ gained : UInt64, (min gained 4294967295).toUInt32.toNat =
        min gained.toNat (2 ^ 32 - 1) := by
      intro gained
      rw [UInt64.toNat_toUInt32, toNat_min64]
      show min gained.toNat 4294967295 % 2 ^ 32 = _
      omega
    unfold refill TokenBucket.refill value
    dsimp only [Option.map_some]
    by_cases still : saturatingSub now last = 0
    · rw [if_pos still, if_pos (elapsed.mp still)]
      rfl
    · rw [if_neg still, if_neg (mt elapsed.mpr still)]
      dsimp only [Option.map_some]
      rw [toNat_min32, toNat_saturatingAdd, cast, toNat_saturatingMul, toNat_saturatingSub,
        UInt32.toNat_toUInt64]

theorem value_take (bucket : MachineBucket) (now : UInt64) :
    (bucket.take now).1.value = (bucket.value.take now.toNat).1 ∧
      (bucket.take now).2 = (bucket.value.take now.toNat).2 := by
  have empty : (bucket.refill now).tokens = 0 ↔ (bucket.refill now).value.tokens = 0 := by
    rw [← UInt32.toNat_inj]
    rfl
  unfold take TokenBucket.take
  dsimp only
  rw [← value_refill]
  by_cases none : (bucket.refill now).tokens = 0
  · rw [if_pos none, if_pos (empty.mp none)]
    exact ⟨rfl, rfl⟩
  · rw [if_neg none, if_neg (mt empty.mpr none)]
    have positive : 0 < (bucket.refill now).tokens.toNat :=
      Nat.pos_of_ne_zero (mt empty.mpr none)
    have less : ((bucket.refill now).tokens - 1).toNat = (bucket.refill now).tokens.toNat - 1 :=
      UInt32.toNat_sub_of_le _ _ (UInt32.le_iff_toNat_le.mpr positive)
    refine ⟨?_, rfl⟩
    show (⟨_, ((bucket.refill now).tokens - 1).toNat, _⟩ : TokenBucket) = _
    rw [less]
    rfl

/-- **The machine answers as unbounded numbers do**, over any list of clock values. -/
theorem takes_exact (clocks : List UInt64) {bucket : MachineBucket}
    (within : bucket.value.tokens ≤ bucket.value.limit.burst) :
    bucket.takes clocks = bucket.value.takesExact (clocks.map UInt64.toNat) := by
  induction clocks generalizing bucket with
  | nil => rfl
  | cons now clocks ih =>
    obtain ⟨next, answer⟩ := value_take bucket now
    have fits : bucket.value.limit.burst < 2 ^ 32 := bucket.burst.toNat_lt
    rw [TokenBucket.take_exact fits within] at next answer
    have kept : (bucket.take now).1.value.tokens ≤ (bucket.take now).1.value.limit.burst := by
      have capped := TokenBucket.take_capped within now.toNat
      rw [TokenBucket.take_exact fits within, ← next] at capped
      have same := bucket.value.take_limit now.toNat
      rw [TokenBucket.take_exact fits within, ← next] at same
      rw [same]
      omega
    show (bucket.take now).2 :: (bucket.take now).1.takes clocks = _
    rw [ih kept, next, answer]
    rfl

theorem machine_takes (perSecond burst : UInt32) (clocks : List UInt64) :
    (new perSecond burst).takes clocks =
      (TokenBucket.new ⟨perSecond.toNat, burst.toNat⟩).takesExact (clocks.map UInt64.toNat) :=
  takes_exact clocks (le_refl _)

end MachineBucket

/-! ### Requests on the registry -/

/-- A token as it is presented, and the clock value the registry is given with it. -/
structure Presented where
  token : String
  now : ℕ
  deriving DecidableEq, Repr

/-- What became of a request. -/
abbrev Answered := Presented × Except GrantError Grant

/-- The request reached the bucket: it was served, or refused for its rate. -/
def charged : Except GrantError Grant → Bool
  | .ok _ => true
  | .error (.rateLimited _ _) => true
  | .error _ => false

section Runs

variable (digestSecret : Bytes → Digest)

/-- The request presents a token of this grant. -/
def Presented.on (id : GrantId) (call : Presented) : Bool :=
  (parseGrantToken digestSecret call.token).map Prod.fst = some id

namespace GrantRegistry

def answer (grants : GrantRegistry) (call : Presented) : Except GrantError Grant :=
  (grants.authorise digestSecret call.token call.now).2

/-- The registry after a request. -/
def charge (grants : GrantRegistry) (call : Presented) : GrantRegistry :=
  (grants.authorise digestSecret call.token call.now).1

/-- A list of requests, each with its answer. -/
def answered (grants : GrantRegistry) : List Presented → List Answered
  | [] => []
  | call :: calls =>
    (call, grants.answer digestSecret call) :: answered (grants.charge digestSecret call) calls

end GrantRegistry

/-- How many requests on one grant were answered `Ok`. -/
def served (id : GrantId) (log : List Answered) : ℕ :=
  log.countP fun e => e.1.on digestSecret id && e.2.isOk

/-- The largest clock value that the grant's bucket has seen. -/
def seen (id : GrantId) : List Answered → ℕ
  | [] => 0
  | e :: log =>
    max (if e.1.on digestSecret id && charged e.2 then e.1.now else 0) (seen id log)

/-- The largest clock value among the requests on one grant, charged or not. -/
def latest (id : GrantId) : List Answered → ℕ
  | [] => 0
  | e :: log => max (if e.1.on digestSecret id then e.1.now else 0) (latest id log)

variable {digestSecret} {grants : GrantRegistry} {id : GrantId} {record : GrantRecord}
  {call : Presented}

theorem answered_cons (calls : List Presented) : grants.answered digestSecret (call :: calls) =
    (call, grants.answer digestSecret call) ::
      (grants.charge digestSecret call).answered digestSecret calls := rfl

theorem answered_append (front back : List Presented) :
    grants.answered digestSecret (front ++ back) = grants.answered digestSecret front ++
      (run (GrantRegistry.charge digestSecret) grants front).answered digestSecret back := by
  induction front generalizing grants with
  | nil => rfl
  | cons call front ih =>
    rw [List.cons_append, answered_cons, answered_cons, ih]
    rfl

theorem seen_append (front back : List Answered) : seen digestSecret id (front ++ back) =
    max (seen digestSecret id front) (seen digestSecret id back) := by
  induction front with
  | nil => exact (Nat.zero_max _).symm
  | cons e front ih =>
    show max _ (seen _ _ (front ++ back)) = max (max _ _) _
    rw [ih, max_assoc]

/-- **What a request on a grant does**: it is not charged and changes nothing, or it takes from the
bucket. -/
theorem charge_on (held : grants.lookup id = some record)
    (on : call.on digestSecret id = true) :
    charged (grants.answer digestSecret call) = false ∧ grants.charge digestSecret call = grants ∨
      charged (grants.answer digestSecret call) = true ∧
        (grants.charge digestSecret call).lookup id =
          some { record with bucket := (record.bucket.take call.now).1 } ∧
        (grants.answer digestSecret call).isOk = (record.bucket.take call.now).2 := by
  obtain ⟨⟨id', digest⟩, parsed, rfl⟩ :=
    Option.map_eq_some_iff.mp (of_decide_eq_true on)
  unfold GrantRegistry.answer GrantRegistry.charge GrantRegistry.authorise
  rw [parsed]
  dsimp only at held ⊢
  rw [held]
  dsimp only
  by_cases forged : record.digest ≠ digest
  · rw [if_pos forged]
    exact .inl ⟨rfl, rfl⟩
  by_cases revoked : record.revoked
  · rw [if_neg forged, if_pos revoked]
    exact .inl ⟨rfl, rfl⟩
  by_cases late : record.grant.expiresAt ≤ call.now
  · rw [if_neg forged, if_neg revoked, if_pos late]
    exact .inl ⟨rfl, rfl⟩
  rw [if_neg forged, if_neg revoked, if_neg late]
  right
  cases (record.bucket.take call.now).2 <;> exact ⟨rfl, AList.lookup_insert _, rfl⟩

/-- A request that is not on a grant leaves its record alone. -/
theorem charge_off (off : call.on digestSecret id = false) :
    (grants.charge digestSecret call).lookup id = grants.lookup id := by
  unfold GrantRegistry.charge GrantRegistry.authorise
  cases parsed : parseGrantToken digestSecret call.token with
  | none => rfl
  | some halves =>
    obtain ⟨id', digest⟩ := halves
    have other : id ≠ id' := by
      rintro rfl
      unfold Presented.on at off
      rw [parsed] at off
      exact absurd rfl (of_decide_eq_false off)
    dsimp only
    cases grants.lookup id' with
    | none => rfl
    | some record =>
      dsimp only
      split_ifs
      · rfl
      · rfl
      · rfl
      · exact AList.lookup_insert_ne other
      · exact AList.lookup_insert_ne other

variable (digestSecret) in
/-- **What can still be granted**: the tokens at hand, and the rate for every second the bucket's
clock goes on. -/
theorem served_le (calls : List Presented) (held : grants.lookup id = some record) :
    served digestSecret id (grants.answered digestSecret calls) ≤ record.bucket.tokens +
      record.bucket.limit.perSecond * (max record.bucket.clock
        (seen digestSecret id (grants.answered digestSecret calls)) - record.bucket.clock) := by
  induction calls generalizing grants record with
  | nil => exact Nat.zero_le _
  | cons call calls ih =>
    unfold GrantRegistry.answered served seen
    rw [List.countP_cons]
    cases on : call.on digestSecret id with
    | false =>
      rw [Bool.false_and, Bool.false_and, if_neg Bool.false_ne_true, if_neg Bool.false_ne_true,
        Nat.zero_max]
      exact ih ((charge_off on).trans held)
    | true =>
      rw [Bool.true_and, Bool.true_and]
      rcases charge_on held on with ⟨free, same⟩ | ⟨paid, next, answer⟩
      · have refused : (grants.answer digestSecret call).isOk = false := by
          cases answer : grants.answer digestSecret call with
          | error _ => rfl
          | ok grant =>
            rw [answer] at free
            cases free
        rw [free, refused, same, if_neg Bool.false_ne_true, if_neg Bool.false_ne_true,
          Nat.zero_max]
        exact ih held
      · have rest := ih next
        have gain := record.bucket.refill_tokens_le call.now
        rw [← TokenBucket.take_tokens] at gain
        rw [TokenBucket.take_clock, TokenBucket.take_limit] at rest
        rw [paid, answer, if_pos rfl]
        unfold served at rest
        dsimp only at rest
        generalize seen digestSecret id _ = later at rest ⊢
        have split : max record.bucket.clock (max call.now later) - record.bucket.clock =
            (max record.bucket.clock call.now - record.bucket.clock) +
              (max (max record.bucket.clock call.now) later -
                max record.bucket.clock call.now) := by omega
        rw [split, Nat.mul_add]
        have price : (if (record.bucket.take call.now).2 = true then 1 else 0) =
            TokenBucket.price (record.bucket.take call.now).2 := rfl
        rw [price]
        omega

variable (digestSecret) in
theorem held_run (calls : List Presented) (held : grants.lookup id = some record)
    (within : record.bucket.tokens ≤ record.bucket.limit.burst) :
    ∃ bucket, (run (GrantRegistry.charge digestSecret) grants calls).lookup id =
        some { record with bucket := bucket } ∧
      bucket.limit = record.bucket.limit ∧ bucket.tokens ≤ bucket.limit.burst ∧
      bucket.clock = max record.bucket.clock
        (seen digestSecret id (grants.answered digestSecret calls)) := by
  induction calls generalizing grants record with
  | nil => exact ⟨record.bucket, held, rfl, within, (Nat.max_zero _).symm⟩
  | cons call calls ih =>
    unfold GrantRegistry.answered seen
    rw [run_cons]
    cases on : call.on digestSecret id with
    | false =>
      rw [Bool.false_and, if_neg Bool.false_ne_true, Nat.zero_max]
      exact ih ((charge_off on).trans held) within
    | true =>
      rw [Bool.true_and]
      rcases charge_on held on with ⟨free, same⟩ | ⟨paid, next, -⟩
      · rw [free, same, if_neg Bool.false_ne_true, Nat.zero_max]
        exact ih held within
      · have capped := TokenBucket.take_capped within call.now
        rw [← TokenBucket.take_limit _ call.now] at capped
        obtain ⟨bucket, found, limit, tokens, clock⟩ := ih next (by dsimp only; omega)
        rw [TokenBucket.take_limit] at limit
        rw [TokenBucket.take_clock, max_assoc] at clock
        rw [paid, if_pos rfl]
        exact ⟨bucket, found, limit, tokens, clock⟩

/-- **The window bound**, for a grant as it is minted. -/
theorem served_within (fresh : grants.lookup id = some record)
    (new : record.bucket = TokenBucket.new record.grant.rate) (front : List Presented)
    (call : Presented) (rest : List Presented) :
    served digestSecret id ((run (GrantRegistry.charge digestSecret) grants front).answered
        digestSecret (call :: rest)) ≤ record.grant.rate.burst + record.grant.rate.perSecond *
      (seen digestSecret id (grants.answered digestSecret (front ++ call :: rest)) -
        seen digestSecret id (grants.answered digestSecret (front ++ [call]))) := by
  have full : record.bucket.tokens ≤ record.bucket.limit.burst := by
    rw [new]
    exact le_refl _
  have limit : record.bucket.limit = record.grant.rate := by rw [new]; rfl
  have zero : record.bucket.clock = 0 := by rw [new]; rfl
  obtain ⟨bucket, held, sameLimit, within, -⟩ := held_run digestSecret front fresh full
  obtain ⟨bucket', held', sameLimit', -, clock'⟩ :=
    held_run digestSecret (front ++ [call]) fresh full
  rw [zero, Nat.zero_max] at clock'
  have whole : front ++ call :: rest = (front ++ [call]) ++ rest := by simp
  rw [run_append, run_cons, run_nil] at held'
  rw [whole, answered_append (front ++ [call]) rest, run_append, run_cons, run_nil, seen_append,
    ← clock']
  rw [answered_cons]
  unfold served
  rw [List.countP_cons]
  dsimp only
  have later := served_le digestSecret rest held'
  dsimp only at later
  rw [sameLimit', limit] at later
  unfold served at later
  -- the first request is served by what the bucket holds after its refill, at most the burst
  have first : bucket'.tokens + (if (call.on digestSecret id && ((run
      (GrantRegistry.charge digestSecret) grants front).answer digestSecret call).isOk) = true
      then 1 else 0) ≤ record.grant.rate.burst := by
    rw [sameLimit, limit] at within
    cases on : call.on digestSecret id with
    | false =>
      rw [charge_off on, held, Option.some.injEq] at held'
      rw [Bool.false_and, if_neg Bool.false_ne_true, ← congrArg (·.bucket.tokens) held']
      exact within
    | true =>
      rcases charge_on held on with ⟨free, same⟩ | ⟨-, next, answer⟩
      · rw [same, held, Option.some.injEq] at held'
        have refused : ((run (GrantRegistry.charge digestSecret) grants front).answer digestSecret
            call).isOk = false := by
          cases answer : (run (GrantRegistry.charge digestSecret) grants front).answer digestSecret
              call with
          | error _ => rfl
          | ok grant =>
            rw [answer] at free
            cases free
        rw [refused, Bool.and_false, if_neg Bool.false_ne_true,
          ← congrArg (·.bucket.tokens) held']
        exact within
      · rw [next, Option.some.injEq] at held'
        rw [answer, Bool.true_and, ← congrArg (·.bucket.tokens) held']
        have capped := TokenBucket.take_capped
          (show bucket.tokens ≤ bucket.limit.burst by rw [sameLimit, limit]; exact within) call.now
        rw [sameLimit, limit] at capped
        exact capped
  omega

/-! ### A refused request consumes nothing -/

/-- Nothing is left, and nothing will ever come. -/
def TokenBucket.Dry (bucket : TokenBucket) : Prop :=
  bucket.tokens = 0 ∧ (bucket.limit.perSecond = 0 ∨ bucket.limit.burst = 0)

/-- Two buckets that answer alike. -/
def TokenBucket.Alike (bucket bucket' : TokenBucket) : Prop :=
  bucket = bucket' ∨ bucket.limit = bucket'.limit ∧ bucket.Dry ∧ bucket'.Dry

/-- A bucket as runs leave it: it holds its burst at most, all of it before its first request. -/
def TokenBucket.Sound (bucket : TokenBucket) : Prop :=
  bucket.tokens ≤ bucket.limit.burst ∧
    (bucket.lastRefill = none → bucket.tokens = bucket.limit.burst)

theorem TokenBucket.Dry.refill {bucket : TokenBucket} (dry : bucket.Dry) (now : ℕ) :
    (bucket.refill now).Dry := by
  obtain ⟨empty, never⟩ := dry
  unfold Dry
  rw [refill_limit]
  refine ⟨?_, never⟩
  unfold TokenBucket.refill
  cases bucket.lastRefill with
  | none => exact empty
  | some last =>
    dsimp only
    split_ifs with still
    · exact empty
    · rcases never with slow | small
      · simp [empty, slow]
      · simp [small]

theorem TokenBucket.Dry.take {bucket : TokenBucket} (dry : bucket.Dry) (now : ℕ) :
    (bucket.take now).1.Dry ∧ (bucket.take now).2 = false := by
  unfold TokenBucket.take
  dsimp only
  rw [if_pos (dry.refill now).1]
  exact ⟨dry.refill now, rfl⟩

theorem TokenBucket.Alike.take {bucket bucket' : TokenBucket} (alike : bucket.Alike bucket')
    (now : ℕ) : (bucket.take now).1.Alike (bucket'.take now).1 ∧
      (bucket.take now).2 = (bucket'.take now).2 := by
  rcases alike with rfl | ⟨limit, dry, dry'⟩
  · exact ⟨.inl rfl, rfl⟩
  · refine ⟨.inr ⟨?_, (dry.take now).1, (dry'.take now).1⟩, ?_⟩
    · rw [take_limit, take_limit, limit]
    · rw [(dry.take now).2, (dry'.take now).2]

theorem TokenBucket.Alike.tokens {bucket bucket' : TokenBucket} (alike : bucket.Alike bucket') :
    bucket.tokens = bucket'.tokens := by
  rcases alike with rfl | ⟨-, dry, dry'⟩
  · rfl
  · rw [dry.1, dry'.1]

theorem TokenBucket.Sound.take {bucket : TokenBucket} (sound : bucket.Sound) (now : ℕ) :
    (bucket.take now).1.Sound := by
  have capped := take_capped sound.1 now
  refine ⟨by rw [take_limit]; omega, ?_⟩
  intro untouched
  exfalso
  revert untouched
  unfold TokenBucket.take TokenBucket.refill
  cases held : bucket.lastRefill with
  | none =>
    dsimp only
    split <;> exact Option.some_ne_none _
  | some last =>
    dsimp only
    split_ifs
    · rw [held]
      exact Option.some_ne_none _
    · rw [held]
      exact Option.some_ne_none _
    · exact False.elim
    · exact False.elim

/-- A bucket that refuses is as it was, or is dry before and after. -/
theorem TokenBucket.Sound.refused {bucket : TokenBucket} (sound : bucket.Sound) {now : ℕ}
    (refused : (bucket.take now).2 = false) : bucket.Alike (bucket.take now).1 := by
  have empty : (bucket.refill now).tokens = 0 := by
    have none := mt (take_served bucket now).mpr (by rw [refused]; exact Bool.false_ne_true)
    omega
  have same : (bucket.take now).1 = bucket.refill now := by
    unfold TokenBucket.take
    dsimp only
    rw [if_pos empty]
  have dry : bucket.Dry → bucket.Alike (bucket.refill now) := fun dry =>
    .inr ⟨(refill_limit bucket now).symm, dry, dry.refill now⟩
  rw [same]
  obtain ⟨within, full⟩ := sound
  cases held : bucket.lastRefill with
  | none =>
    have kept : (bucket.refill now).tokens = bucket.tokens := by
      unfold TokenBucket.refill
      rw [held]
    rw [kept] at empty
    exact dry ⟨empty, .inr ((full held).symm.trans empty)⟩
  | some last =>
    by_cases still : now - last = 0
    · left
      unfold TokenBucket.refill
      rw [held]
      dsimp only
      rw [if_pos still]
    · unfold TokenBucket.refill at empty
      rw [held] at empty
      dsimp only at empty
      rw [if_neg still] at empty
      dsimp only at empty
      by_cases small : bucket.limit.burst = 0
      · exact dry ⟨by omega, .inr small⟩
      · have slow : (now - last) * bucket.limit.perSecond = 0 := by omega
        exact dry ⟨by omega, .inl ((Nat.mul_eq_zero.mp slow).resolve_left still)⟩

/-- Two records that answer alike. -/
def GrantRecord.Alike (record record' : GrantRecord) : Prop :=
  record.grant = record'.grant ∧ record.digest = record'.digest ∧
    record.revoked = record'.revoked ∧ record.bucket.Alike record'.bucket

theorem GrantRecord.Alike.refl (record : GrantRecord) : record.Alike record :=
  ⟨rfl, rfl, rfl, .inl rfl⟩

/-- Two registries that answer alike. -/
def GrantRegistry.Alike (grants grants' : GrantRegistry) : Prop :=
  ∀ id, Option.Rel GrantRecord.Alike (grants.lookup id) (grants'.lookup id)

theorem GrantRegistry.Alike.refl (grants : GrantRegistry) : grants.Alike grants := fun id => by
  cases grants.lookup id with
  | none => exact .none
  | some record => exact .some (.refl record)

theorem GrantRegistry.Alike.insert {grants grants' : GrantRegistry} (alike : grants.Alike grants')
    {record record' : GrantRecord} (same : record.Alike record') (id : GrantId) :
    GrantRegistry.Alike (AList.insert id record grants) (AList.insert id record' grants') := by
  intro id'
  rw [Table.lookup_insert, Table.lookup_insert]
  split_ifs
  · exact .some same
  · exact alike id'

variable (digestSecret) in
theorem GrantRegistry.Alike.charge {grants grants' : GrantRegistry} (alike : grants.Alike grants')
    (call : Presented) :
    (grants.charge digestSecret call).Alike (grants'.charge digestSecret call) ∧
      grants.answer digestSecret call = grants'.answer digestSecret call := by
  unfold GrantRegistry.charge GrantRegistry.answer GrantRegistry.authorise
  cases parseGrantToken digestSecret call.token with
  | none => exact ⟨alike, rfl⟩
  | some halves =>
    obtain ⟨id, digest⟩ := halves
    dsimp only
    have there := alike id
    revert there
    cases grants.lookup id with
    | none =>
      intro there
      cases there' : grants'.lookup id with
      | none => exact ⟨alike, rfl⟩
      | some record' =>
        rw [there'] at there
        cases there
    | some record =>
      intro there
      cases there' : grants'.lookup id with
      | none =>
        rw [there'] at there
        cases there
      | some record' =>
        rw [there'] at there
        cases there with
        | some same =>
          obtain ⟨grant, secret, revoked, bucket⟩ := same
          obtain ⟨after, answer⟩ := bucket.take call.now
          have charged : GrantRecord.Alike
              { record with bucket := (record.bucket.take call.now).1 }
              { record' with bucket := (record'.bucket.take call.now).1 } :=
            ⟨grant, secret, revoked, after⟩
          have next := alike.insert charged id
          dsimp only
          rw [grant, secret, revoked, answer] at *
          split_ifs
          · exact ⟨alike, rfl⟩
          · exact ⟨alike, rfl⟩
          · exact ⟨alike, rfl⟩
          · exact ⟨next, rfl⟩
          · exact ⟨next, rfl⟩

/-- **Registries that are alike answer every list of requests alike.** -/
theorem answered_alike (calls : List Presented) {grants grants' : GrantRegistry}
    (alike : grants.Alike grants') :
    grants.answered digestSecret calls = grants'.answered digestSecret calls := by
  induction calls generalizing grants grants' with
  | nil => rfl
  | cons call calls ih =>
    obtain ⟨next, answer⟩ := alike.charge digestSecret call
    rw [answered_cons, answered_cons, ih next, answer]

/-! ### Runs of the registry -/

/-- What can happen to a registry. -/
inductive RegistryCall where
  | mint (id : GrantId) (secret : Bytes) (tenant jobId : String) (upstreams : List String)
    (expiresAt : ℕ) (rate : RateLimit)
  | authorise (call : Presented)
  | revoke (id : GrantId)
  | revokeJob (jobId : String)
  | sweep (now : ℕ)

variable (digestSecret) in
def GrantRegistry.step (grants : GrantRegistry) : RegistryCall → GrantRegistry
  | .mint id secret tenant jobId upstreams expiresAt rate =>
    (grants.mint digestSecret id secret tenant jobId upstreams expiresAt rate).1
  | .authorise call => grants.charge digestSecret call
  | .revoke id => grants.revoke id
  | .revokeJob jobId => grants.revokeJob jobId
  | .sweep now => grants.sweep now

/-- Every bucket is as runs leave it. -/
def GrantRegistry.Sound (grants : GrantRegistry) : Prop :=
  ∀ id record, grants.lookup id = some record → record.bucket.Sound

theorem GrantRegistry.Sound.charge (sound : grants.Sound) (call : Presented) :
    (grants.charge digestSecret call).Sound := by
  intro id record found
  cases on : call.on digestSecret id with
  | false => exact sound id record ((charge_off on).symm.trans found)
  | true =>
    cases held : grants.lookup id with
    | none =>
      obtain ⟨⟨id', digest⟩, parsed, rfl⟩ := Option.map_eq_some_iff.mp (of_decide_eq_true on)
      unfold GrantRegistry.charge GrantRegistry.authorise at found
      rw [parsed] at found
      dsimp only at held found
      rw [held] at found
      dsimp only at found
      rw [held] at found
      cases found
    | some record' =>
      rcases charge_on held on with ⟨-, same⟩ | ⟨-, next, -⟩
      · rw [same] at found
        exact sound id record found
      · rw [next, Option.some.injEq] at found
        subst found
        exact (sound id record' held).take call.now

theorem sound_step (grants : GrantRegistry) (call : RegistryCall) (sound : grants.Sound) :
    (grants.step digestSecret call).Sound := by
  cases call with
  | mint id secret tenant jobId upstreams expiresAt rate =>
    intro id' record found
    unfold GrantRegistry.step GrantRegistry.mint at found
    dsimp only at found
    rw [Table.lookup_insert] at found
    split_ifs at found with same
    · rw [Option.some.injEq] at found
      subst found
      exact ⟨le_refl _, fun _ => rfl⟩
    · exact sound id' record found
  | authorise call => exact sound.charge call
  | revoke id =>
    intro id' record found
    unfold GrantRegistry.step GrantRegistry.revoke at found
    dsimp only at found
    rw [Table.lookup_modify] at found
    split_ifs at found with same
    · obtain ⟨record', held, rfl⟩ := Option.map_eq_some_iff.mp found
      exact sound id' record' (same ▸ held)
    · exact sound id' record found
  | revokeJob jobId =>
    intro id record found
    exact sound id record (Table.lookup_of_keep found).1
  | sweep now =>
    intro id record found
    exact sound id record (Table.lookup_of_keep found).1

/-- **Every run leaves every bucket sound.** -/
theorem sound_run (calls : List RegistryCall) :
    (run (GrantRegistry.step digestSecret) (∅ : GrantRegistry) calls).Sound :=
  run_invariant sound_step (fun _ _ found => absurd found.symm (Option.some_ne_none _)) calls

/-- **A refused request consumes nothing**: the registry after it is alike. -/
theorem refused_alike (sound : grants.Sound) {error : GrantError}
    (refused : grants.answer digestSecret call = .error error) :
    (grants.charge digestSecret call).Alike grants := by
  intro id
  cases on : call.on digestSecret id with
  | false =>
    rw [charge_off on]
    exact GrantRegistry.Alike.refl grants id
  | true =>
    cases held : grants.lookup id with
    | none =>
      obtain ⟨⟨id', digest⟩, parsed, rfl⟩ := Option.map_eq_some_iff.mp (of_decide_eq_true on)
      unfold GrantRegistry.charge GrantRegistry.authorise
      rw [parsed]
      dsimp only at held ⊢
      rw [held]
      dsimp only
      rw [held]
      exact .none
    | some record =>
      rcases charge_on held on with ⟨-, same⟩ | ⟨-, next, answer⟩
      · rw [same, held]
        exact .some (.refl record)
      · rw [next]
        rw [refused] at answer
        refine .some ⟨rfl, rfl, rfl, ?_⟩
        rcases (sound id record held).refused answer.symm with same | ⟨limit, dry, dry'⟩
        · exact .inl same.symm
        · exact .inr ⟨limit.symm, dry', dry⟩

/-- What is left in the bucket of a grant. -/
def GrantRegistry.tokens (grants : GrantRegistry) (id : GrantId) : Option ℕ :=
  (grants.lookup id).map fun record => record.bucket.tokens

theorem GrantRegistry.Alike.tokens {grants grants' : GrantRegistry} (alike : grants.Alike grants')
    (id : GrantId) : grants.tokens id = grants'.tokens id := by
  unfold GrantRegistry.tokens
  have there := alike id
  revert there
  generalize grants.lookup id = found
  generalize grants'.lookup id = found'
  rintro (same | -)
  · obtain ⟨-, -, -, bucket⟩ := same
    rw [Option.map_some, Option.map_some, bucket.tokens]
  · rfl

/-! ### One grant among others -/

/-- **The requests on one grant are answered as if there were no others.** -/
theorem answered_on (calls : List Presented) {grants grants' : GrantRegistry}
    (same : grants.lookup id = grants'.lookup id) :
    (grants.answered digestSecret calls).filter (fun e => e.1.on digestSecret id) =
      grants'.answered digestSecret (calls.filter fun call => call.on digestSecret id) := by
  induction calls generalizing grants grants' with
  | nil => rfl
  | cons call calls ih =>
    cases on : call.on digestSecret id with
    | false =>
      rw [answered_cons, List.filter_cons_of_neg (by rw [on]; exact Bool.false_ne_true),
        List.filter_cons_of_neg (by rw [on]; exact Bool.false_ne_true)]
      exact ih ((charge_off on).trans same)
    | true =>
      rw [answered_cons, List.filter_cons_of_pos (by exact on),
        List.filter_cons_of_pos (by exact on),
        answered_cons]
      obtain ⟨⟨id', digest⟩, parsed, rfl⟩ := Option.map_eq_some_iff.mp (of_decide_eq_true on)
      have next : (grants.charge digestSecret call).lookup id' =
            (grants'.charge digestSecret call).lookup id' ∧
          grants.answer digestSecret call = grants'.answer digestSecret call := by
        unfold GrantRegistry.charge GrantRegistry.answer GrantRegistry.authorise
        rw [parsed]
        dsimp only at same ⊢
        rw [same]
        cases held : grants'.lookup id' with
        | none => exact ⟨same, rfl⟩
        | some record =>
          dsimp only
          split_ifs
          · exact ⟨same, rfl⟩
          · exact ⟨same, rfl⟩
          · exact ⟨same, rfl⟩
          · exact ⟨by rw [Table.lookup_insert, Table.lookup_insert, if_pos rfl, if_pos rfl], rfl⟩
          · exact ⟨by rw [Table.lookup_insert, Table.lookup_insert, if_pos rfl, if_pos rfl], rfl⟩
      rw [ih next.1, next.2]

/-! ### A demand within the rate -/

variable (digestSecret) in
/-- How many of the requests are on the grant in one second of the clock. -/
def demand (id : GrantId) (calls : List Presented) (second : ℕ) : ℕ :=
  calls.countP fun call => call.on digestSecret id && decide (call.now = second)

variable (digestSecret) in
/-- The bucket holds what the requests to come may need in the second it has reached, and any later
second brings its own. -/
structure Meets (id : GrantId) (bucket : TokenBucket) (calls : List Presented) : Prop where
  fits : bucket.limit.burst < 2 ^ 32
  within : bucket.tokens ≤ bucket.limit.burst
  burst : bucket.limit.perSecond ≤ bucket.limit.burst
  ordered : (calls.filter fun call => call.on digestSecret id).Pairwise fun a b => a.now ≤ b.now
  rate : ∀ second, demand digestSecret id calls second ≤ bucket.limit.perSecond
  first : bucket.lastRefill = none → bucket.tokens = bucket.limit.burst
  later : ∀ last, bucket.lastRefill = some last →
    demand digestSecret id calls last ≤ bucket.tokens ∧
    ∀ call ∈ calls, call.on digestSecret id = true → last ≤ call.now

theorem Meets.skip {bucket : TokenBucket} {calls : List Presented}
    (meets : Meets digestSecret id bucket (call :: calls)) :
    Meets digestSecret id bucket calls where
  fits := meets.fits
  within := meets.within
  burst := meets.burst
  ordered := meets.ordered.sublist ((List.sublist_cons_self call calls).filter _)
  rate second := le_trans ((List.sublist_cons_self call calls).countP_le) (meets.rate second)
  first := meets.first
  later last held :=
    ⟨le_trans ((List.sublist_cons_self call calls).countP_le) (meets.later last held).1,
      fun c member => (meets.later last held).2 c (List.mem_cons_of_mem _ member)⟩

theorem demand_cons (on : call.on digestSecret id = true) (calls : List Presented) (second : ℕ) :
    demand digestSecret id (call :: calls) second =
      demand digestSecret id calls second + if call.now = second then 1 else 0 := by
  unfold demand
  rw [List.countP_cons, on, Bool.true_and]
  simp only [decide_eq_true_eq]

/-- After its refill the bucket holds what its second may need. -/
theorem Meets.refilled {bucket : TokenBucket} {calls : List Presented}
    (meets : Meets digestSecret id bucket (call :: calls)) (on : call.on digestSecret id = true) :
    demand digestSecret id (call :: calls) call.now ≤ (bucket.refill call.now).tokens := by
  have rate := meets.rate call.now
  have burst := meets.burst
  rw [TokenBucket.refill_exact meets.fits meets.within]
  unfold TokenBucket.refillExact
  cases held : bucket.lastRefill with
  | none =>
    have full := meets.first held
    dsimp only
    omega
  | some last =>
    obtain ⟨now, order⟩ := meets.later last held
    have ahead := order call List.mem_cons_self on
    have within := meets.within
    dsimp only
    by_cases still : call.now = last
    · rw [still, Nat.sub_self, Nat.zero_mul, Nat.add_zero, min_eq_left within]
      exact now
    · have second : bucket.limit.perSecond ≤ (call.now - last) * bucket.limit.perSecond :=
        Nat.le_mul_of_pos_left _ (by omega)
      omega

theorem TokenBucket.take_lastRefill {bucket : TokenBucket} {now : ℕ}
    (forward : ∀ last, bucket.lastRefill = some last → last ≤ now) :
    (bucket.take now).1.lastRefill = some now := by
  have after : (bucket.refill now).lastRefill = some now := by
    unfold TokenBucket.refill
    cases held : bucket.lastRefill with
    | none => rfl
    | some last =>
      have ahead := forward last held
      dsimp only
      split_ifs with still
      · rw [held]
        congr 1
        omega
      · rfl
  rw [← after]
  unfold TokenBucket.take
  dsimp only
  split <;> rfl

theorem Meets.take {bucket : TokenBucket} {calls : List Presented}
    (meets : Meets digestSecret id bucket (call :: calls)) (on : call.on digestSecret id = true) :
    Meets digestSecret id (bucket.take call.now).1 calls ∧ (bucket.take call.now).2 = true := by
  have enough := meets.refilled on
  have capped := TokenBucket.take_capped meets.within call.now
  have tokens := bucket.take_tokens call.now
  rw [demand_cons on, if_pos rfl] at enough
  have answered : (bucket.take call.now).2 = true := (bucket.take_served call.now).mpr (by omega)
  have last : (bucket.take call.now).1.lastRefill = some call.now :=
    TokenBucket.take_lastRefill fun last held =>
      (meets.later last held).2 call List.mem_cons_self on
  have rest := meets.skip
  have order := meets.ordered
  rw [List.filter_cons_of_pos (by exact on), List.pairwise_cons] at order
  rw [answered] at tokens capped
  change _ + 1 = _ at tokens
  change _ + 1 ≤ _ at capped
  refine ⟨⟨?_, ?_, ?_, rest.ordered, ?_, ?_, ?_⟩, answered⟩
  · rw [TokenBucket.take_limit]
    exact meets.fits
  · rw [TokenBucket.take_limit]
    omega
  · rw [TokenBucket.take_limit]
    exact meets.burst
  · rw [TokenBucket.take_limit]
    exact rest.rate
  · rw [last]
    exact fun none => absurd none (Option.some_ne_none _)
  · rw [last]
    rintro _ ⟨⟩
    exact ⟨by omega, fun c member on' => order.1 c (List.mem_filter.mpr ⟨member, on'⟩)⟩

/-- **A demand within the rate is never refused for it.** -/
theorem demand_served (calls : List Presented) (held : grants.lookup id = some record)
    (meets : Meets digestSecret id record.bucket calls) :
    ∀ e ∈ grants.answered digestSecret calls, e.1.on digestSecret id = true →
      ∀ limit burst, e.2 ≠ .error (.rateLimited limit burst) := by
  induction calls generalizing grants record with
  | nil => exact fun _ member => absurd member List.not_mem_nil
  | cons call calls ih =>
    intro e member on'
    rw [answered_cons, List.mem_cons] at member
    cases on : call.on digestSecret id with
    | false =>
      rcases member with rfl | later
      · rw [on] at on'
        cases on'
      · exact ih ((charge_off on).trans held) meets.skip e later on'
    | true =>
      rcases charge_on held on with ⟨free, same⟩ | ⟨-, next, answer⟩
      · rcases member with rfl | later
        · intro limit burst refused
          dsimp only at refused
          rw [refused] at free
          cases free
        · rw [same] at later
          exact ih held meets.skip e later on'
      · obtain ⟨after, ok⟩ := meets.take on
        rcases member with rfl | later
        · intro limit burst refused
          dsimp only at refused
          rw [refused, ok] at answer
          cases answer
        · exact ih next after e later on'

/-! ### The whole law -/

/-- A minted grant is served within its burst and its rate, over the clock its bucket has seen. -/
theorem minted_window (grants : GrantRegistry) (id : GrantId) (secret : Bytes)
    (tenant jobId : String) (upstreams : List String) (expiresAt : ℕ) (rate : RateLimit)
    (front : List Presented) (call : Presented) (rest : List Presented) :
    served digestSecret id ((run (GrantRegistry.charge digestSecret) (grants.mint digestSecret id
        secret tenant jobId upstreams expiresAt rate).1 front).answered digestSecret
          (call :: rest)) ≤ rate.burst + rate.perSecond *
      (seen digestSecret id ((grants.mint digestSecret id secret tenant jobId upstreams expiresAt
        rate).1.answered digestSecret (front ++ call :: rest)) -
        seen digestSecret id ((grants.mint digestSecret id secret tenant jobId upstreams expiresAt
          rate).1.answered digestSecret (front ++ [call]))) :=
  served_within (AList.lookup_insert _) rfl front call rest

/-- **The rate limit over whole runs.** -/
theorem rate_limit_over_runs (digestSecret : Bytes → Digest) :
    (∀ (calls : List RegistryCall) (id : GrantId) (secret : Bytes) (tenant jobId : String)
      (upstreams : List String) (expiresAt : ℕ) (rate : RateLimit) (front : List Presented)
      (call : Presented) (rest : List Presented),
      let grants := ((run (GrantRegistry.step digestSecret) (∅ : GrantRegistry) calls).mint
        digestSecret id secret tenant jobId upstreams expiresAt rate).1
      served digestSecret id ((run (GrantRegistry.charge digestSecret) grants front).answered
          digestSecret (call :: rest)) ≤ rate.burst + rate.perSecond *
        (seen digestSecret id (grants.answered digestSecret (front ++ call :: rest)) -
          seen digestSecret id (grants.answered digestSecret (front ++ [call])))) ∧
    (∀ (perSecond burst : UInt32) (clocks : List UInt64),
      (MachineBucket.new perSecond burst).takes clocks =
        (TokenBucket.new ⟨perSecond.toNat, burst.toNat⟩).takesExact (clocks.map UInt64.toNat)) ∧
    (∀ (calls : List RegistryCall) (call : Presented) (error : GrantError),
      let grants := run (GrantRegistry.step digestSecret) (∅ : GrantRegistry) calls
      grants.answer digestSecret call = .error error →
        (∀ id, (grants.charge digestSecret call).tokens id = grants.tokens id) ∧
        ∀ rest, (grants.charge digestSecret call).answered digestSecret rest =
          grants.answered digestSecret rest) ∧
    (∀ (grants : GrantRegistry) (id : GrantId) (calls : List Presented),
      (grants.answered digestSecret calls).filter (fun e => e.1.on digestSecret id) =
        grants.answered digestSecret (calls.filter fun call => call.on digestSecret id)) ∧
    (∀ (calls : List RegistryCall) (id : GrantId) (secret : Bytes) (tenant jobId : String)
      (upstreams : List String) (expiresAt : ℕ) (perSecond burst : UInt32)
      (requests : List Presented),
      let grants := ((run (GrantRegistry.step digestSecret) (∅ : GrantRegistry) calls).mint
        digestSecret id secret tenant jobId upstreams expiresAt
          ⟨perSecond.toNat, burst.toNat⟩).1
      perSecond.toNat ≤ burst.toNat →
      ((requests.filter fun call => call.on digestSecret id).Pairwise fun a b => a.now ≤ b.now) →
      (∀ second, demand digestSecret id requests second ≤ perSecond.toNat) →
      ∀ e ∈ grants.answered digestSecret requests, e.1.on digestSecret id = true →
        ∀ limit burst, e.2 ≠ .error (.rateLimited limit burst)) := by
  refine ⟨?window, ?numbers, ?refused, ?apart, ?demand⟩
  case window =>
    intro calls id secret tenant jobId upstreams expiresAt rate front call rest
    exact minted_window _ id secret tenant jobId upstreams expiresAt rate front call rest
  case numbers => exact MachineBucket.machine_takes
  case refused =>
    intro calls call error grants refused
    have alike := refused_alike (sound_run calls) refused
    exact ⟨alike.tokens, fun rest => answered_alike rest alike⟩
  case apart => exact fun grants id calls => answered_on calls rfl
  case demand =>
    intro calls id secret tenant jobId upstreams expiresAt perSecond burst requests grants small
      ordered rate
    refine demand_served requests (AList.lookup_insert _) ?_
    exact ⟨burst.toNat_lt, le_refl _, small, ordered, rate, fun _ => rfl, nofun⟩

end Runs

theorem on_grantToken (digestSecret : Bytes → Digest) (id : GrantId) {secret : Bytes}
    (whole : secret.length = 32) (now : ℕ) :
    (Presented.mk (grantToken id secret) now).on digestSecret id = true := by
  unfold Presented.on
  rw [parseGrantToken_grantToken digestSecret id whole]
  exact decide_eq_true rfl

/-- A grant of one request a second: one request in each of two seconds. -/
theorem steady_demand_served :
    let digestSecret : Bytes → Digest := fun _ => Vector.replicate 32 0
    let id : GrantId := Vector.replicate 16 1
    let token := grantToken id (List.replicate 32 2)
    let grants := ((run (GrantRegistry.step digestSecret) (∅ : GrantRegistry) []).mint
      digestSecret id (List.replicate 32 2) "acme" "job-1" [] 100 ⟨1, 1⟩).1
    ∀ e ∈ grants.answered digestSecret [⟨token, 5⟩, ⟨token, 6⟩],
      e.1.on digestSecret id = true → ∀ limit burst, e.2 ≠ .error (.rateLimited limit burst) := by
  intro digestSecret id token
  have on : ∀ now, (Presented.mk token now).on digestSecret id = true :=
    on_grantToken digestSecret id (List.length_replicate ..)
  refine (rate_limit_over_runs digestSecret).2.2.2.2 [] id (List.replicate 32 2) "acme" "job-1" []
    100
    1 1 [⟨token, 5⟩, ⟨token, 6⟩] (le_refl _) ?_ ?_
  · rw [List.filter_cons_of_pos (by exact on 5), List.filter_cons_of_pos (by exact on 6)]
    exact List.pairwise_pair.mpr (by decide)
  · intro second
    rw [demand_cons (on 5), demand_cons (on 6)]
    show 0 + _ + _ ≤ 1
    dsimp only
    split_ifs <;> omega

/-- **The clock of a request that is refused as expired is not the bucket's.** A request at the hour
of expiry is refused; the clock goes back, and then two requests a second apart are served, though
the largest value among the requests has not moved. -/
theorem expired_clock_unseen : ¬ ∀ (digestSecret : Bytes → Digest) (id : GrantId) (secret : Bytes)
    (tenant jobId : String) (upstreams : List String) (expiresAt : ℕ) (rate : RateLimit)
    (front : List Presented) (call : Presented) (rest : List Presented),
    let grants := ((∅ : GrantRegistry).mint digestSecret id secret tenant jobId upstreams expiresAt
      rate).1
    served digestSecret id ((run (GrantRegistry.charge digestSecret) grants front).answered
        digestSecret (call :: rest)) ≤ rate.burst + rate.perSecond *
      (latest digestSecret id (grants.answered digestSecret (front ++ call :: rest)) -
        latest digestSecret id (grants.answered digestSecret (front ++ [call]))) := by
  intro all
  let digestSecret : Bytes → Digest := fun _ => Vector.replicate 32 0
  let id : GrantId := Vector.replicate 16 1
  obtain ⟨token, made⟩ : ∃ token, token = grantToken id (List.replicate 32 2) := ⟨_, rfl⟩
  have parsed : parseGrantToken digestSecret token = some (id, Vector.replicate 32 0) := by
    rw [made]
    exact parseGrantToken_grantToken digestSecret _ (List.length_replicate ..)
  have on : ∀ now, (Presented.mk token now).on digestSecret id = true := by
    rw [made]
    exact on_grantToken digestSecret id (List.length_replicate ..)
  let grants := ((∅ : GrantRegistry).mint digestSecret id (List.replicate 32 2) "acme" "job-1" []
      100
    ⟨1, 1⟩).1
  have expired : grants.authorise digestSecret token 100 = (grants, .error .expired) := by
    unfold GrantRegistry.authorise
    rw [parsed]
    rfl
  have first : (grants.authorise digestSecret token 1).2.isOk = true := by
    unfold GrantRegistry.authorise
    rw [parsed]
    rfl
  have second : ((grants.authorise digestSecret token 1).1.authorise digestSecret token 2).2.isOk =
      true := by
    unfold GrantRegistry.authorise
    rw [parsed]
    rfl
  have bound := all digestSecret id (List.replicate 32 2) "acme" "job-1" [] 100 ⟨1, 1⟩
    [⟨token, 100⟩] ⟨token, 1⟩ [⟨token, 2⟩]
  change served digestSecret id ((run (GrantRegistry.charge digestSecret) grants _).answered _ _) ≤
    1 + 1 * (latest digestSecret id (grants.answered _ _) -
      latest digestSecret id (grants.answered _ _)) at bound
  simp [GrantRegistry.answered, GrantRegistry.answer, GrantRegistry.charge, served, latest, on,
    expired, first, second] at bound

end HullCi.Proxy
