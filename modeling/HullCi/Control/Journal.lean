/-
**The write-ahead journal, the delivery of one verdict, and the recovery pass.**

An entry is the debt of one accepted dispatch: with no verdict it was never answered, with one its
delivery was never confirmed. The transport's answer to each attempt is a parameter.

* `recover_get` — recovery drops an entry exactly when one of its destinations was delivered to,
  and leaves every other entry as it was.
* `recover_posted` — every destination of every entry is posted to, with the entry's own verdict, or
  `errored` when it has none.
-/

import HullCi.Control.Model

namespace HullCi.Control

open HullCi.Proto HullCi.Base

/-! ### The journal -/

/-- One accepted dispatch and everything needed to answer it without the job store. -/
structure JobIntent where
  jobId : JobId
  repo : String
  treeId : String
  callbackUrls : List String
  acceptedAtUnix : ℕ
  verdict : Option Verdict
  deriving DecidableEq, Repr

/-- The entries outstanding, each under its own job. -/
structure Journal where
  entries : Table JobId JobIntent
  keyed : ∀ jobId intent, entries.lookup jobId = some intent → intent.jobId = jobId

namespace Journal

def new : Journal := ⟨∅, fun _ _ found => by cases found⟩

def get (journal : Journal) (jobId : JobId) : Option JobIntent :=
  journal.entries.lookup jobId

/-- Create or replace the entry of the intent's job. -/
def record (journal : Journal) (intent : JobIntent) : Journal where
  entries := journal.entries.insert intent.jobId intent
  keyed := by
    intro jobId intent' found
    rw [Table.lookup_insert] at found
    by_cases same : jobId = intent.jobId
    · rw [if_pos same, Option.some.injEq] at found
      rw [← found, same]
    · rw [if_neg same] at found
      exact journal.keyed jobId intent' found

/-- Drop the entry. -/
def forget (journal : Journal) (jobId : JobId) : Journal where
  entries := journal.entries.erase jobId
  keyed := by
    intro jobId' intent found
    rw [Table.lookup_erase] at found
    by_cases same : jobId' = jobId
    · rw [if_pos same] at found
      cases found
    · rw [if_neg same] at found
      exact journal.keyed jobId' intent found

/-- Every entry still owed an answer. -/
def outstanding (journal : Journal) : List JobIntent :=
  journal.entries.values

@[simp] theorem get_new (jobId : JobId) : new.get jobId = none := rfl

@[simp] theorem get_record (journal : Journal) (intent : JobIntent) (j : JobId) :
    (journal.record intent).get j = if j = intent.jobId then some intent else journal.get j :=
  Table.lookup_insert _ _ _ _

@[simp] theorem get_forget (journal : Journal) (jobId j : JobId) :
    (journal.forget jobId).get j = if j = jobId then none else journal.get j :=
  Table.lookup_erase _ _ _

theorem mem_outstanding {journal : Journal} {intent : JobIntent} :
    intent ∈ journal.outstanding ↔ journal.get intent.jobId = some intent := by
  unfold outstanding
  rw [Table.mem_values]
  constructor
  · rintro ⟨jobId, found⟩
    rwa [← journal.keyed jobId intent found] at found
  · exact fun found => ⟨intent.jobId, found⟩

end Journal

/-! ### Delivery -/

/-- `CallbackResponse::is_success`. -/
def isSuccess (status : ℕ) : Bool :=
  200 ≤ status ∧ status < 300

/-- `CallbackResponse::is_retryable`. -/
def isRetryable (status : ℕ) : Bool :=
  500 ≤ status ∨ status = 408 ∨ status = 429

/-- The backoff schedule; only the number of attempts decides an outcome. -/
structure RetryPolicy where
  maxAttempts : ℕ := 12

/-- `policy.max_attempts.max(1)`. -/
def RetryPolicy.attempts (policy : RetryPolicy) : ℕ :=
  max policy.maxAttempts 1

/-- The outcome of a whole delivery. -/
inductive Delivery
  | delivered (attempts status : ℕ)
  | parked (attempts : ℕ)
  deriving DecidableEq, Repr

namespace Delivery

def isDelivered : Delivery → Bool
  | .delivered _ _ => true
  | .parked _ => false

def attempts : Delivery → ℕ
  | .delivered attempts _ => attempts
  | .parked attempts => attempts

end Delivery

/-- What one attempt settles: an outcome, or that there is another attempt. No answer is a transport
error. -/
def afterPost (policy : RetryPolicy) (attempt : ℕ) (answer : Option ℕ) : Option Delivery :=
  match answer with
  | some status =>
    if isSuccess status then some (.delivered attempt status)
    else if isRetryable status = false then some (.parked attempt)
    else if attempt = policy.attempts then some (.parked attempt) else none
  | none => if attempt = policy.attempts then some (.parked attempt) else none

/-- The attempts from `attempt` on, with `left` more after it. -/
def deliverFrom (policy : RetryPolicy) (answer : ℕ → Option ℕ) : ℕ → ℕ → Delivery
  | 0, attempt => (afterPost policy attempt (answer attempt)).getD (.parked attempt)
  | left + 1, attempt =>
    match afterPost policy attempt (answer attempt) with
    | some outcome => outcome
    | none => deliverFrom policy answer left (attempt + 1)

/-- Send the verdict, retrying until it lands or the schedule is exhausted. -/
def deliver (policy : RetryPolicy) (answer : ℕ → Option ℕ) : Delivery :=
  deliverFrom policy answer (policy.attempts - 1) 1

theorem afterPost_delivered {policy : RetryPolicy} {attempt : ℕ} {answer : Option ℕ}
    {outcome : Delivery} (settled : afterPost policy attempt answer = some outcome) :
    outcome.isDelivered = answer.any isSuccess := by
  unfold afterPost at settled
  cases answer with
  | none =>
    dsimp only at settled
    by_cases last : attempt = policy.attempts
    · rw [if_pos last] at settled
      obtain rfl := Option.some.inj settled
      rfl
    · rw [if_neg last] at settled
      cases settled
  | some status =>
    dsimp only at settled
    rw [Option.any_some]
    by_cases success : isSuccess status = true
    · rw [if_pos success] at settled
      obtain rfl := Option.some.inj settled
      exact success.symm
    · rw [if_neg success] at settled
      have failed : isSuccess status = false := Bool.eq_false_iff.mpr success
      by_cases refused : isRetryable status = false
      · rw [if_pos refused] at settled
        obtain rfl := Option.some.inj settled
        exact failed.symm
      · rw [if_neg refused] at settled
        by_cases last : attempt = policy.attempts
        · rw [if_pos last] at settled
          obtain rfl := Option.some.inj settled
          exact failed.symm
        · rw [if_neg last] at settled
          cases settled

/-! ### Recovery -/

/-- What recovery sends for an entry: its verdict, or that the runner restarted. -/
def recoveryVerdict (intent : JobIntent) : Verdict :=
  match intent.verdict with
  | some v => v
  | none => .errored .infra
      (sanitizeSummary "the runner restarted before this job produced a verdict" summaryMaxChars)

/-- A verdict sent to a destination, and whether it landed. -/
structure Sent where
  jobId : JobId
  url : String
  verdict : Verdict
  delivered : Bool
  deriving DecidableEq

/-- The transport's answer to each attempt at each destination of each entry. -/
abbrev PostAnswers := JobIntent → String → ℕ → Option ℕ

/-- The sends for one entry, in order. -/
def recoverSends (policy : RetryPolicy) (answers : PostAnswers) (intent : JobIntent) : List Sent :=
  intent.callbackUrls.map fun url =>
    ⟨intent.jobId, url, recoveryVerdict intent, (deliver policy (answers intent url)).isDelivered⟩

/-- The loop body of `recover`. -/
def recoverEntry (policy : RetryPolicy) (answers : PostAnswers) (out : Journal × List Sent)
    (intent : JobIntent) : Journal × List Sent :=
  let sends := recoverSends policy answers intent
  (if sends.any (·.delivered) then out.1.forget intent.jobId else out.1, out.2 ++ sends)

/-- Answer every outstanding entry, then forget the ones that landed. -/
def recover (policy : RetryPolicy) (answers : PostAnswers) (journal : Journal) :
    Journal × List Sent :=
  journal.outstanding.foldl (recoverEntry policy answers) (journal, [])

theorem recover_fold_posted (policy : RetryPolicy) (answers : PostAnswers) (intents : List JobIntent)
    (out : Journal × List Sent) :
    (intents.foldl (recoverEntry policy answers) out).2 =
      out.2 ++ intents.flatMap (recoverSends policy answers) := by
  induction intents generalizing out with
  | nil => exact (List.append_nil _).symm
  | cons intent rest ih =>
    rw [List.foldl_cons, ih, List.flatMap_cons]
    exact List.append_assoc _ _ _

/-- **Every destination of every entry is posted to, with the entry's own answer.** -/
theorem recover_posted (policy : RetryPolicy) (answers : PostAnswers) (journal : Journal) :
    (recover policy answers journal).2 =
      journal.outstanding.flatMap (recoverSends policy answers) :=
  recover_fold_posted policy answers _ _

theorem recover_answers (policy : RetryPolicy) (answers : PostAnswers) {journal : Journal}
    {j : JobId} {intent : JobIntent} (found : journal.get j = some intent) {url : String}
    (listed : url ∈ intent.callbackUrls) :
    ∃ sent ∈ (recover policy answers journal).2,
      sent.jobId = j ∧ sent.url = url ∧ sent.verdict = recoveryVerdict intent := by
  have own : intent.jobId = j := journal.keyed j intent found
  refine ⟨⟨intent.jobId, url, recoveryVerdict intent,
    (deliver policy (answers intent url)).isDelivered⟩, ?_, own, rfl, rfl⟩
  rw [recover_posted, List.mem_flatMap]
  exact ⟨intent, Journal.mem_outstanding.mpr (own ▸ found), List.mem_map.mpr ⟨url, listed, rfl⟩⟩

theorem recover_fold_get (policy : RetryPolicy) (answers : PostAnswers) (intents : List JobIntent)
    (out : Journal × List Sent) (j : JobId) :
    (intents.foldl (recoverEntry policy answers) out).1.get j =
      if ∃ intent ∈ intents, intent.jobId = j ∧
          (recoverSends policy answers intent).any (·.delivered) = true then none
      else out.1.get j := by
  induction intents generalizing out with
  | nil => rw [if_neg (by simp), List.foldl_nil]
  | cons intent rest ih =>
    rw [List.foldl_cons, ih]
    have first : (recoverEntry policy answers out intent).1.get j =
        if intent.jobId = j ∧ (recoverSends policy answers intent).any (·.delivered) = true
        then none else out.1.get j := by
      unfold recoverEntry
      dsimp only
      by_cases landed : (recoverSends policy answers intent).any (·.delivered) = true
      · rw [if_pos landed, Journal.get_forget]
        by_cases same : j = intent.jobId
        · rw [if_pos same, if_pos ⟨same.symm, landed⟩]
        · rw [if_neg same, if_neg fun both => same both.1.symm]
      · rw [if_neg landed, if_neg fun both => landed both.2]
    rw [first]
    by_cases later : ∃ intent ∈ rest, intent.jobId = j ∧
        (recoverSends policy answers intent).any (·.delivered) = true
    · rw [if_pos later, if_pos]
      obtain ⟨intent', member, landed⟩ := later
      exact ⟨intent', List.mem_cons_of_mem _ member, landed⟩
    · rw [if_neg later]
      by_cases now : intent.jobId = j ∧
          (recoverSends policy answers intent).any (·.delivered) = true
      · rw [if_pos now, if_pos ⟨intent, List.mem_cons_self, now⟩]
      · rw [if_neg now, if_neg]
        rintro ⟨intent', member, landed⟩
        rcases List.mem_cons.mp member with rfl | old
        · exact now landed
        · exact later ⟨intent', old, landed⟩

/-- **Recovery drops an entry exactly when one of its destinations was delivered to**, and leaves
every other entry as it was. -/
theorem recover_get (policy : RetryPolicy) (answers : PostAnswers) {journal : Journal} {j : JobId}
    {intent : JobIntent} (found : journal.get j = some intent) :
    (recover policy answers journal).1.get j =
      if (recoverSends policy answers intent).any (·.delivered) then none else some intent := by
  have own : intent.jobId = j := journal.keyed j intent found
  unfold recover
  rw [recover_fold_get, found]
  by_cases landed : (recoverSends policy answers intent).any (·.delivered) = true
  · rw [if_pos landed, if_pos]
    exact ⟨intent, Journal.mem_outstanding.mpr (own ▸ found), own, landed⟩
  · rw [if_neg landed, if_neg]
    rintro ⟨intent', member, same, landed'⟩
    have found' := Journal.mem_outstanding.mp member
    rw [same, found] at found'
    exact landed (Option.some.inj found' ▸ landed')

end HullCi.Control
