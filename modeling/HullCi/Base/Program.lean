/-
**Programs of atomic calls, and proofs about them that other threads cannot upset.**

A `Program` returns, fails, or makes one atomic call and goes on with the answer. A `Pool` runs any
number of them over one shared state, a call at a time, in any order: every list of `Turn`s is a
run.

A `Contract` says what the threads rely on and keep: an invariant of the shared state, and a
relation between an earlier and a later state (`rely`) that every call must be in. A program is
`Safe` when each of its calls keeps both, whatever the others do between them, and when what it
returns meets its postcondition at any later moment.

* `Safe.bind` — a program after a program, one proof after the other.
* `good_run` — when every request's program is safe, every run keeps the invariant, and whatever a
  thread has returned meets its postcondition.
* `follow_run` — a thread that is safe for a postcondition of its own stays so along a run.
* `rely_run` — the states of a run are related by what its calls keep.
-/

import HullCi.Base.Run

namespace HullCi.Base

universe u

/-- A program: it returns, fails, or makes one atomic call and goes on with the answer. -/
inductive Program {Op : Type} (Answer : Op → Type) (E A : Type) : Type where
  | done (value : A)
  | fail (error : E)
  | call (op : Op) (next : Answer op → Program Answer E A)

namespace Program

variable {Op : Type} {Answer : Op → Type} {E A B : Type}

/-- One program after another; a failure ends both. -/
def bind : Program Answer E A → (A → Program Answer E B) → Program Answer E B
  | done value, f => f value
  | fail error, _ => fail error
  | call op next, f => call op fun answer => (next answer).bind f

instance : Monad (Program Answer E) where
  pure := done
  bind := bind

@[simp] theorem bind_done (value : A) (f : A → Program Answer E B) :
    (done value : Program Answer E A) >>= f = f value := rfl

@[simp] theorem bind_fail (error : E) (f : A → Program Answer E B) :
    (fail error : Program Answer E A) >>= f = fail error := rfl

@[simp] theorem bind_call (op : Op) (next : Answer op → Program Answer E A)
    (f : A → Program Answer E B) :
    call op next >>= f = call op fun answer => next answer >>= f := rfl

@[simp] theorem pure_eq (value : A) : (pure value : Program Answer E A) = done value := rfl

theorem bind_assoc {C : Type} (p : Program Answer E A) (f : A → Program Answer E B)
    (g : B → Program Answer E C) : p >>= f >>= g = p >>= fun a => f a >>= g := by
  induction p with
  | done value => rfl
  | fail error => rfl
  | call op next ih =>
    simp only [bind_call]
    exact congrArg (call op) (funext ih)

/-- One call. -/
def request (op : Op) : Program Answer E (Answer op) :=
  call op done

@[simp] theorem bind_request (op : Op) (f : Answer op → Program Answer E B) :
    (request op : Program Answer E (Answer op)) >>= f = call op f := rfl

/-- A result in hand, passed on. -/
def lift : Except E A → Program Answer E A
  | .ok value => done value
  | .error error => fail error

@[simp] theorem lift_ok (value : A) :
    (lift (.ok value) : Program Answer E A) = done value := rfl

@[simp] theorem lift_error (error : E) :
    (lift (.error error) : Program Answer E A) = fail error := rfl

/-- A program over other calls, each of which answers at least as much. -/
def embed {Op' : Type} {Answer' : Op' → Type} (as : Op → Op')
    (back : ∀ op, Answer' (as op) → Answer op) : Program Answer E A → Program Answer' E A
  | done value => done value
  | fail error => fail error
  | call op next => call (as op) fun answer => (next (back op answer)).embed as back

/-- It has come to its end, and not by failing. -/
def returned : Program Answer E A → Bool
  | done _ => true
  | _ => false

/-- The program run to its end with nothing in between. -/
def eval {S : Type u} (handle : S → (op : Op) → S × Answer op) :
    Program Answer E A → S → Except E A × S
  | done value, s => (.ok value, s)
  | fail error, s => (.error error, s)
  | call op next, s => (next (handle s op).2).eval handle (handle s op).1

end Program

open Program

/-! ### Pools -/

/-- Who makes a call: which thread, and which request it serves. -/
structure Caller (R : Type) where
  thread : ℕ
  request : R

/-- Threads over one shared state, each with the request it serves and what is left of it. -/
structure Pool (S : Type u) (R : Type) {Op : Type} (Answer : Op → Type) (E A : Type) where
  shared : S
  threads : List (R × Program Answer E A)

/-- What happens next: a request arrives, or a thread makes its next call. -/
inductive Turn (R I : Type) where
  | start (request : R)
  | turn (thread : ℕ) (input : I)

section Pool

variable {S : Type u} {R I Op : Type} {Answer : Op → Type} {E A : Type}

namespace Pool

/-- No thread yet. -/
def idle (shared : S) : Pool S R Answer E A where
  shared := shared
  threads := []

variable (handle : S → Caller R → I → (op : Op) → S × Answer op) (body : R → Program Answer E A)

/-- One turn. A thread that has ended, or was never started, has none. -/
def step (p : Pool S R Answer E A) : Turn R I → Pool S R Answer E A
  | .start request => { p with threads := p.threads ++ [(request, body request)] }
  | .turn thread input =>
    match p.threads[thread]? with
    | some (request, .call op next) =>
      { shared := (handle p.shared ⟨thread, request⟩ input op).1
        threads := p.threads.set thread
          (request, next (handle p.shared ⟨thread, request⟩ input op).2) }
    | _ => p

/-- Every thread has returned. -/
def Quiet (p : Pool S R Answer E A) : Prop :=
  ∀ thread ∈ p.threads, thread.2.returned = true

instance (p : Pool S R Answer E A) : Decidable p.Quiet :=
  inferInstanceAs (Decidable (∀ thread ∈ p.threads, thread.2.returned = true))

variable {handle body}

theorem step_call {p : Pool S R Answer E A} {thread : ℕ} {input : I} {request : R} {op : Op}
    {next : Answer op → Program Answer E A}
    (here : p.threads[thread]? = some (request, .call op next)) :
    p.step handle body (.turn thread input) =
      { shared := (handle p.shared ⟨thread, request⟩ input op).1
        threads := p.threads.set thread
          (request, next (handle p.shared ⟨thread, request⟩ input op).2) } := by
  simp only [step, here]

variable (handle body) in
/-- **What one turn can do.** -/
theorem step_cases (p : Pool S R Answer E A) (t : Turn R I) :
    (∃ request, t = .start request ∧
      p.step handle body t = { p with threads := p.threads ++ [(request, body request)] }) ∨
    (∃ thread input request op next, t = .turn thread input ∧
      p.threads[thread]? = some (request, .call op next) ∧
      p.step handle body t =
        { shared := (handle p.shared ⟨thread, request⟩ input op).1
          threads := p.threads.set thread
            (request, next (handle p.shared ⟨thread, request⟩ input op).2) }) ∨
    p.step handle body t = p := by
  cases t with
  | start request => exact .inl ⟨request, rfl, rfl⟩
  | turn thread input =>
    cases here : p.threads[thread]? with
    | none =>
      refine .inr (.inr ?_)
      simp only [step, here]
    | some pair =>
      obtain ⟨request, program⟩ := pair
      cases program with
      | done value =>
        refine .inr (.inr ?_)
        simp only [step, here]
      | fail error =>
        refine .inr (.inr ?_)
        simp only [step, here]
      | call op next =>
        exact .inr (.inl ⟨thread, input, request, op, next, rfl, here, step_call here⟩)

/-- A thread of the pool after a turn was there before, or is the one that has just started. -/
theorem request_before {p : Pool S R Answer E A} {t : Turn R I} {i : ℕ} {request : R}
    {program : Program Answer E A}
    (here : (p.step handle body t).threads[i]? = some (request, program)) :
    (∃ program', p.threads[i]? = some (request, program')) ∨
      t = .start request ∧ i = p.threads.length ∧ program = body request := by
  obtain ⟨r, rfl, started⟩ | ⟨thread, input, r, op, next, rfl, at', turned⟩ | same :=
    p.step_cases handle body t
  · rw [started] at here
    have appended : (p.threads ++ [(r, body r)])[i]? = some (request, program) := here
    rw [List.getElem?_append] at appended
    split at appended
    · exact .inl ⟨program, appended⟩
    · rename_i beyond
      cases offset : i - p.threads.length with
      | zero =>
        rw [offset] at appended
        cases appended
        exact .inr ⟨rfl, by omega, rfl⟩
      | succ n =>
        rw [offset] at appended
        cases appended
  · rw [turned] at here
    have put : (p.threads.set thread
        (r, next (handle p.shared ⟨thread, r⟩ input op).2))[i]? = some (request, program) := here
    rw [List.getElem?_set] at put
    split at put
    · rename_i mine
      subst mine
      split at put
      · cases put
        exact .inl ⟨_, at'⟩
      · cases put
    · exact .inl ⟨program, put⟩
  · rw [same] at here
    exact .inl ⟨program, here⟩

/-- A thread keeps its place and its request. -/
theorem request_step {p : Pool S R Answer E A} (t : Turn R I) {i : ℕ} {request : R}
    (here : p.threads[i]?.map Prod.fst = some request) :
    (p.step handle body t).threads[i]?.map Prod.fst = some request := by
  obtain ⟨r, rfl, next⟩ | ⟨thread, input, r, op, next, rfl, at', turned⟩ | same :=
    p.step_cases handle body t
  · rw [next]
    have bound : i < p.threads.length := by
      by_contra beyond
      rw [List.getElem?_eq_none (by omega)] at here
      cases here
    rw [List.getElem?_append_left bound]
    exact here
  · rw [turned]
    show (p.threads.set thread _)[i]?.map Prod.fst = some request
    rw [List.getElem?_set]
    split
    · rename_i same
      subst same
      rw [at'] at here
      split
      · exact here
      · rename_i beyond
        rw [List.getElem?_eq_none (by omega)] at at'
        cases at'
    · exact here
  · rw [same]
    exact here

/-- A thread that has ended stays as it is. -/
theorem ended_step {p : Pool S R Answer E A} (t : Turn R I) {i : ℕ} {request : R}
    {program : Program Answer E A} (here : p.threads[i]? = some (request, program))
    (ended : ∀ op next, program ≠ .call op next) :
    (p.step handle body t).threads[i]? = some (request, program) := by
  obtain ⟨r, rfl, next⟩ | ⟨thread, input, r, op, next, rfl, at', turned⟩ | same :=
    p.step_cases handle body t
  · rw [next]
    have bound : i < p.threads.length := by
      by_contra beyond
      rw [List.getElem?_eq_none (by omega)] at here
      cases here
    rw [List.getElem?_append_left bound]
    exact here
  · have other : thread ≠ i := by
      rintro rfl
      rw [here] at at'
      cases at'
      exact ended op next rfl
    rw [turned]
    show (p.threads.set thread _)[i]? = _
    rw [List.getElem?_set_ne other]
    exact here
  · rw [same]
    exact here

end Pool

/-! ### Contracts -/

/-- What the threads of a pool keep and rely on. -/
structure Contract (S : Type u) (R I : Type) {Op : Type} (Answer : Op → Type) where
  /-- what a call does to the shared state, and its answer -/
  handle : S → Caller R → I → (op : Op) → S × Answer op
  /-- what holds of the shared state at any moment -/
  inv : S → Prop
  /-- how a later state stands to an earlier one -/
  rely : S → S → Prop
  /-- what is assumed of a call and its input, at the state it is made in -/
  may : S → Caller R → I → Op → Prop
  rely_refl : ∀ s, rely s s
  rely_trans : ∀ {s₁ s₂ s₃}, rely s₁ s₂ → rely s₂ s₃ → rely s₁ s₃

namespace Contract

variable (K : Contract S R I Answer)

/-- Every call that is left keeps the invariant and is in `rely`, whatever the others do before
it, and what is returned meets `Q` from then on. -/
def Safe (caller : Caller R) (Q : S → Except E A → Prop) : Program Answer E A → S → Prop
  | .done value, s => ∀ s', K.rely s s' → K.inv s' → Q s' (.ok value)
  | .fail error, s => ∀ s', K.rely s s' → K.inv s' → Q s' (.error error)
  | .call op next, s => ∀ s', K.rely s s' → K.inv s' → ∀ input, K.may s' caller input op →
      K.inv (K.handle s' caller input op).1 ∧ K.rely s' (K.handle s' caller input op).1 ∧
        Safe caller Q (next (K.handle s' caller input op).2) (K.handle s' caller input op).1

variable {K} {caller : Caller R} {Q : S → Except E A → Prop}

theorem Safe.later {p : Program Answer E A} {s s' : S} (safe : K.Safe caller Q p s)
    (later : K.rely s s') : K.Safe caller Q p s' := by
  cases p with
  | done value => exact fun s'' after => safe s'' (K.rely_trans later after)
  | fail error => exact fun s'' after => safe s'' (K.rely_trans later after)
  | call op next => exact fun s'' after => safe s'' (K.rely_trans later after)

theorem Safe.weaken {Q' : S → Except E A → Prop} {p : Program Answer E A} {s : S}
    (weaker : ∀ s r, K.inv s → Q s r → Q' s r) (safe : K.Safe caller Q p s) :
    K.Safe caller Q' p s := by
  induction p generalizing s with
  | done value => exact fun s' after fine => weaker _ _ fine (safe s' after fine)
  | fail error => exact fun s' after fine => weaker _ _ fine (safe s' after fine)
  | call op next ih =>
    intro s' after fine input may
    obtain ⟨inv, rely, rest⟩ := safe s' after fine input may
    exact ⟨inv, rely, ih _ rest⟩

/-- What a program leaves is later than where it started. -/
theorem Safe.framed {p : Program Answer E A} {s₀ s : S} (safe : K.Safe caller Q p s)
    (since : K.rely s₀ s) : K.Safe caller (fun s' r => K.rely s₀ s' ∧ Q s' r) p s := by
  induction p generalizing s with
  | done value =>
    exact fun s' after fine => ⟨K.rely_trans since after, safe s' after fine⟩
  | fail error =>
    exact fun s' after fine => ⟨K.rely_trans since after, safe s' after fine⟩
  | call op next ih =>
    intro s' after fine input may
    obtain ⟨inv, rely, rest⟩ := safe s' after fine input may
    exact ⟨inv, rely, ih _ rest (K.rely_trans since (K.rely_trans after rely))⟩

/-- **One program after another.** The second is safe from every state the first can leave. -/
theorem Safe.bind {B : Type} {p : Program Answer E B} {f : B → Program Answer E A}
    {Q₁ : S → Except E B → Prop} {s : S} (first : K.Safe caller Q₁ p s) (fine : K.inv s)
    (rest : ∀ s' r, K.rely s s' → K.inv s' → Q₁ s' r → K.Safe caller Q (lift r >>= f) s') :
    K.Safe caller Q (p >>= f) s := by
  have framed := first.framed (K.rely_refl s)
  clear first
  revert framed
  generalize K.rely s = since at rest ⊢
  intro framed
  induction p generalizing s with
  | done value =>
    obtain ⟨later, post⟩ := framed s (K.rely_refl s) fine
    exact rest s _ later fine post
  | fail error =>
    obtain ⟨later, post⟩ := framed s (K.rely_refl s) fine
    exact rest s _ later fine post
  | call op next ih =>
    intro s' after fine' input may
    obtain ⟨inv, rely, onward⟩ := framed s' after fine' input may
    exact ⟨inv, rely, ih _ inv onward⟩

/-- A result in hand, passed on. -/
theorem safe_lift {B : Type} {r : Except E B} {f : B → Program Answer E A} {s : S}
    (value : ∀ b, r = .ok b → K.Safe caller Q (f b) s)
    (error : ∀ e, r = .error e → ∀ s', K.rely s s' → K.inv s' → Q s' (.error e)) :
    K.Safe caller Q (lift r >>= f) s := by
  cases r with
  | ok b => exact value b rfl
  | error e => exact error e rfl

/-- A result in hand, returned. -/
theorem safe_result {r : Except E A} {s : S} (post : ∀ s', K.rely s s' → K.inv s' → Q s' r) :
    K.Safe caller Q (lift r) s := by
  cases r with
  | ok a => exact post
  | error e => exact post

/-- The next call of a safe program, made now. -/
theorem Safe.call {op : Op} {next : Answer op → Program Answer E A} {s : S}
    (safe : K.Safe caller Q (.call op next) s) (fine : K.inv s) {input : I}
    (may : K.may s caller input op) :
    K.inv (K.handle s caller input op).1 ∧ K.rely s (K.handle s caller input op).1 ∧
      K.Safe caller Q (next (K.handle s caller input op).2) (K.handle s caller input op).1 :=
  safe s (K.rely_refl s) fine input may

/-- Where a call keeps the contract, only what the program goes on with is left to show. -/
theorem safe_kept {op : Op} {next : Answer op → Program Answer E A} {s : S}
    (keeps : ∀ s' input, K.inv s' → K.may s' caller input op →
      K.inv (K.handle s' caller input op).1 ∧ K.rely s' (K.handle s' caller input op).1)
    (rest : ∀ s' input, K.rely s s' → K.inv s' → K.may s' caller input op →
      K.rely s' (K.handle s' caller input op).1 → K.inv (K.handle s' caller input op).1 →
      K.Safe caller Q (next (K.handle s' caller input op).2) (K.handle s' caller input op).1) :
    K.Safe caller Q (.call op next) s := by
  intro s' later fine input may
  obtain ⟨inv, rely⟩ := keeps s' input fine may
  exact ⟨inv, rely, rest s' input later fine may rely inv⟩

variable (K) in
/-- Every call, made by whatever program, keeps the invariant and is in `rely`. -/
def Keeps : Prop :=
  ∀ s caller input op, K.inv s → K.may s caller input op →
    K.inv (K.handle s caller input op).1 ∧ K.rely s (K.handle s caller input op).1

theorem Keeps.safe_call (keeps : K.Keeps) {op : Op} {next : Answer op → Program Answer E A} {s : S}
    (rest : ∀ s' input, K.rely s s' → K.inv s' → K.may s' caller input op →
      K.rely s' (K.handle s' caller input op).1 → K.inv (K.handle s' caller input op).1 →
      K.Safe caller Q (next (K.handle s' caller input op).2) (K.handle s' caller input op).1) :
    K.Safe caller Q (.call op next) s :=
  safe_kept (fun s' input fine may => keeps s' caller input op fine may) rest

variable (K) in
/-- The contract as it stands from a state on. -/
def since (s₀ : S) : Contract S R I Answer :=
  { K with inv := fun s => K.inv s ∧ K.rely s₀ s }

/-- A program that is safe since a state is safe since a later one. -/
theorem Safe.rebase {s₀ s₁ : S} {p : Program Answer E A} {s : S}
    (safe : (K.since s₀).Safe caller Q p s) (later : K.rely s₀ s₁) :
    (K.since s₁).Safe caller Q p s := by
  have old : ∀ {s'}, (K.since s₁).inv s' → (K.since s₀).inv s' :=
    fun fine => ⟨fine.1, K.rely_trans later fine.2⟩
  induction p generalizing s with
  | done value => exact fun s' after fine => safe s' after (old fine)
  | fail error => exact fun s' after fine => safe s' after (old fine)
  | call op next ih =>
    intro s' after fine input may
    obtain ⟨inv, rely, rest⟩ := safe s' after (old fine) input may
    exact ⟨⟨inv.1, K.rely_trans fine.2 rely⟩, rely, ih _ rest⟩

theorem Keeps.since (keeps : K.Keeps) (s₀ : S) : (K.since s₀).Keeps := by
  intro s caller input op fine may
  obtain ⟨inv, rely⟩ := keeps s caller input op fine.1 may
  exact ⟨⟨inv, K.rely_trans fine.2 rely⟩, rely⟩

section Pull

variable {Op' : Type} {Answer' : Op' → Type}

/-- A contract, read at fewer calls. -/
def pull (K : Contract S R I Answer') (as : Op → Op') (back : ∀ op, Answer' (as op) → Answer op) :
    Contract S R I Answer where
  handle s caller input op :=
    ((K.handle s caller input (as op)).1, back op (K.handle s caller input (as op)).2)
  inv := K.inv
  rely := K.rely
  may s caller input op := K.may s caller input (as op)
  rely_refl := K.rely_refl
  rely_trans := K.rely_trans

/-- A program that is safe over fewer calls is safe over all of them. -/
theorem Safe.embed {K : Contract S R I Answer'} {as : Op → Op'}
    {back : ∀ op, Answer' (as op) → Answer op} {p : Program Answer E A} {s : S}
    (safe : (K.pull as back).Safe caller Q p s) : K.Safe caller Q (p.embed as back) s := by
  induction p generalizing s with
  | done value => exact safe
  | fail error => exact safe
  | call op next ih =>
    intro s' later fine input may
    obtain ⟨inv, rely, rest⟩ := safe s' later fine input may
    exact ⟨inv, rely, ih _ rest⟩

end Pull

variable (K) (body : R → Program Answer E A) (opens : Pool S R Answer E A → R → Prop)

/-- What is assumed of one turn: of the request that arrives, or of the call that is made. -/
def Admits (p : Pool S R Answer E A) : Turn R I → Prop
  | .start request => opens p request
  | .turn thread input => ∀ request op next,
      p.threads[thread]? = some (request, .call op next) → K.may p.shared ⟨thread, request⟩ input op

instance Admits.decidable [∀ p request, Decidable (opens p request)]
    [∀ s caller input op, Decidable (K.may s caller input op)] (p : Pool S R Answer E A) :
    ∀ t : Turn R I, Decidable (K.Admits opens p t)
  | .start request => inferInstanceAs (Decidable (opens p request))
  | .turn thread input =>
    match here : p.threads[thread]? with
    | some (request, .call op next) =>
      decidable_of_iff (K.may p.shared ⟨thread, request⟩ input op) (by
        constructor
        · intro may request' op' next' there
          rw [here] at there
          cases there
          exact may
        · intro admits
          exact admits request op next here)
    | some (_, .done _) => .isTrue (by
        intro _ _ _ there
        rw [here] at there
        cases there)
    | some (_, .fail _) => .isTrue (by
        intro _ _ _ there
        rw [here] at there
        cases there)
    | none => .isTrue (by
        intro _ _ _ there
        rw [here] at there
        cases there)

/-- The invariant holds, and what is left of every thread is safe. -/
structure Good (Q : Caller R → S → Except E A → Prop) (p : Pool S R Answer E A) : Prop where
  inv : K.inv p.shared
  safe : ∀ i request program, p.threads[i]? = some (request, program) →
    K.Safe ⟨i, request⟩ (Q ⟨i, request⟩) program p.shared

variable {K body opens} {Q : Caller R → S → Except E A → Prop}

theorem good_idle {s : S} (fine : K.inv s) :
    K.Good Q (Pool.idle s : Pool S R Answer E A) where
  inv := fine
  safe i request program here := by cases here

/-- **What a thread has returned meets its postcondition.** -/
theorem Good.returned {p : Pool S R Answer E A} (good : K.Good Q p) {i : ℕ} {request : R} {value : A}
    (here : p.threads[i]? = some (request, .done value)) : Q ⟨i, request⟩ p.shared (.ok value) :=
  good.safe i request _ here _ (K.rely_refl _) good.inv

theorem Good.failed {p : Pool S R Answer E A} (good : K.Good Q p) {i : ℕ} {request : R} {error : E}
    (here : p.threads[i]? = some (request, .fail error)) :
    Q ⟨i, request⟩ p.shared (.error error) :=
  good.safe i request _ here _ (K.rely_refl _) good.inv

variable (body) in
/-- One turn of a good pool: the states are related, and a thread that is safe stays so. -/
theorem Good.turn {p : Pool S R Answer E A} (good : K.Good Q p) {t : Turn R I}
    (admits : K.Admits opens p t) :
    K.inv (p.step K.handle body t).shared ∧ K.rely p.shared (p.step K.handle body t).shared ∧
      ∀ (Q' : S → Except E A → Prop) i request program, p.threads[i]? = some (request, program) →
        K.Safe ⟨i, request⟩ Q' program p.shared →
        ∃ program', (p.step K.handle body t).threads[i]? = some (request, program') ∧
          K.Safe ⟨i, request⟩ Q' program' (p.step K.handle body t).shared := by
  obtain ⟨r, rfl, started⟩ | ⟨thread, input, r, op, next, rfl, at', turned⟩ | same :=
    p.step_cases K.handle body t
  · rw [started]
    refine ⟨good.inv, K.rely_refl _, fun Q' i request program here safe => ⟨program, ?_, safe⟩⟩
    have bound : i < p.threads.length := by
      by_contra beyond
      rw [List.getElem?_eq_none (by omega)] at here
      cases here
    show (p.threads ++ _)[i]? = _
    rw [List.getElem?_append_left bound]
    exact here
  · have may := admits r op next at'
    obtain ⟨inv, rely, rest⟩ := (good.safe thread r _ at').call good.inv may
    rw [turned]
    refine ⟨inv, rely, fun Q' i request program here safe => ?_⟩
    by_cases mine : thread = i
    · subst mine
      rw [here] at at'
      cases at'
      have bound : thread < p.threads.length := by
        by_contra beyond
        rw [List.getElem?_eq_none (by omega)] at here
        cases here
      refine ⟨_, ?_, (safe.call good.inv may).2.2⟩
      show (p.threads.set thread _)[thread]? = _
      rw [List.getElem?_set_self bound]
    · refine ⟨program, ?_, safe.later rely⟩
      show (p.threads.set thread _)[i]? = _
      rw [List.getElem?_set_ne mine]
      exact here
  · rw [same]
    exact ⟨good.inv, K.rely_refl _, fun Q' i request program here safe => ⟨program, here, safe⟩⟩

/-- **The step lemma.** A pool stays good when the program of the request that arrives is safe. -/
theorem good_step (safe : ∀ (p : Pool S R Answer E A) i request, K.Good Q p → opens p request →
      K.Safe ⟨i, request⟩ (Q ⟨i, request⟩) (body request) p.shared)
    {p : Pool S R Answer E A} (good : K.Good Q p) {t : Turn R I} (admits : K.Admits opens p t) :
    K.Good Q (p.step K.handle body t) := by
  obtain ⟨inv, rely, stays⟩ := good.turn body admits
  refine ⟨inv, fun i request program here => ?_⟩
  by_cases old : ∃ pair, p.threads[i]? = some pair
  · obtain ⟨⟨request₀, program₀⟩, before⟩ := old
    obtain ⟨program', now, safe'⟩ := stays _ i request₀ program₀ before
      (good.safe i request₀ program₀ before)
    rw [now] at here
    cases here
    exact safe'
  · obtain ⟨r, rfl, started⟩ | ⟨thread, input, r, op, next, rfl, at', turned⟩ | same :=
      p.step_cases K.handle body t
    · rw [started] at here ⊢
      have beyond : p.threads.length ≤ i := by
        by_contra within
        exact old ⟨_, List.getElem?_eq_getElem (by omega)⟩
      rw [List.getElem?_append_right beyond] at here
      cases offset : i - p.threads.length with
      | zero =>
        rw [offset] at here
        cases here
        exact safe p i request good admits
      | succ n =>
        rw [offset] at here
        cases here
    · rw [turned] at here
      have gone : (p.threads.set thread
          (r, next (K.handle p.shared ⟨thread, r⟩ input op).2))[i]? = some (request, program) := here
      rw [List.getElem?_set] at gone
      split at gone
      · rename_i mine
        subst mine
        exact absurd ⟨_, at'⟩ old
      · exact absurd ⟨_, gone⟩ old
    · rw [same] at here
      exact absurd ⟨_, here⟩ old

/-- **The run lemma.** -/
theorem good_run (safe : ∀ (p : Pool S R Answer E A) i request, K.Good Q p → opens p request →
      K.Safe ⟨i, request⟩ (Q ⟨i, request⟩) (body request) p.shared)
    {p : Pool S R Answer E A} (good : K.Good Q p) {turns : List (Turn R I)}
    (along : Along (Pool.step K.handle body) (K.Admits opens) p turns) :
    K.Good Q (run (Pool.step K.handle body) p turns) :=
  run_invariant_along (I := K.Good Q) (fun _ _ good admits => good_step safe good admits) good along

/-- The states of a run stand to each other as every call keeps them. -/
theorem rely_run (safe : ∀ (p : Pool S R Answer E A) i request, K.Good Q p → opens p request →
      K.Safe ⟨i, request⟩ (Q ⟨i, request⟩) (body request) p.shared)
    {p : Pool S R Answer E A} (good : K.Good Q p) {turns : List (Turn R I)}
    (along : Along (Pool.step K.handle body) (K.Admits opens) p turns) :
    K.rely p.shared (run (Pool.step K.handle body) p turns).shared := by
  induction turns generalizing p with
  | nil => exact K.rely_refl _
  | cons t turns ih =>
    exact K.rely_trans (good.turn body along.1).2.1 (ih (good_step safe good along.1) along.2)

/-- **A thread that is safe for a postcondition of its own stays so.** -/
theorem follow_run (safe : ∀ (p : Pool S R Answer E A) i request, K.Good Q p → opens p request →
      K.Safe ⟨i, request⟩ (Q ⟨i, request⟩) (body request) p.shared)
    {p : Pool S R Answer E A} (good : K.Good Q p) {turns : List (Turn R I)}
    (along : Along (Pool.step K.handle body) (K.Admits opens) p turns)
    {Q' : S → Except E A → Prop} {i : ℕ} {request : R} {program : Program Answer E A}
    (here : p.threads[i]? = some (request, program))
    (own : K.Safe ⟨i, request⟩ Q' program p.shared) :
    ∃ program', (run (Pool.step K.handle body) p turns).threads[i]? = some (request, program') ∧
      K.Safe ⟨i, request⟩ Q' program' (run (Pool.step K.handle body) p turns).shared := by
  induction turns generalizing p program with
  | nil => exact ⟨program, here, own⟩
  | cons t turns ih =>
    obtain ⟨program', now, safe'⟩ := (good.turn body along.1).2.2 Q' i request program
      here own
    exact ih (good_step safe good along.1) along.2 now safe'

end Contract

end Pool

end HullCi.Base
