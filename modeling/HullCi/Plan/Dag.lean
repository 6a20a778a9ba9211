/-
**The recorder emits a valid graph, whatever is called.**

`Recorded` says what the steps, the depths and the index have to do with one another; the one call
that changes them, a pushed step, keeps it. The depths are a rank of the `needs` edges, so they are
the lengths of longest paths; the pipeline's own forward pass finds the same numbers.

* `record_keeps` — a pushed step keeps the recording in order.
* `recorder_dag` — after any calls, accepted or refused, the recording is a valid graph.
-/

import HullCi.Base.Rank
import HullCi.Plan.Recorder

namespace HullCi.Plan

open HullCi.Base

/-! ### The graph -/

/-- The step at `j` needs the step at `i`. -/
def Needs (steps : List PlanStep) (i j : ℕ) : Prop :=
  ∃ before after : PlanStep, steps[i]? = some before ∧ steps[j]? = some after ∧ before.name ∈ after.needs

/-- The largest of the depths. -/
def deepest (depths : List ℕ) : ℕ :=
  depths.foldl max 0

/-- **A valid recording under the limits.** -/
structure ValidDag (limits : Limits) (s : State) : Prop where
  names : ∀ step ∈ s.steps, LegalName step.name
  distinct : (s.steps.map PlanStep.name).Nodup
  earlier : ∀ (j : ℕ) (step : PlanStep), s.steps[j]? = some step → ∀ need ∈ step.needs,
    ∃ i < j, ∃ before : PlanStep, s.steps[i]? = some before ∧ before.name = need
  acyclic : ∀ i, ¬ Relation.TransGen (Needs s.steps) i i
  aligned : s.depths.length = s.steps.length
  longest : ∀ i d, s.depths[i]? = some d → IsGreatest {n | Chain (Needs s.steps) n i} d
  depth : s.intoPipeline.depth = deepest s.depths
  shallow : s.intoPipeline.depth ≤ limits.maxDepth
  few : s.steps.length ≤ limits.maxSteps

/-- What the three parts of a recording have to do with one another. -/
structure Recorded (limits : Limits) (s : State) : Prop where
  under : s.limits = limits
  names : ∀ step ∈ s.steps, LegalName step.name
  aligned : s.depths.length = s.steps.length
  index : ∀ name i, s.index.lookup name = some i ↔ (s.steps[i]?).map PlanStep.name = some name
  earlier : ∀ (j : ℕ) (step : PlanStep), s.steps[j]? = some step → ∀ need ∈ step.needs,
    ∃ i < j, s.index.lookup need = some i
  rises : ∀ (j : ℕ) (step : PlanStep), s.steps[j]? = some step → ∀ need ∈ step.needs, ∀ i,
    s.index.lookup need = some i → s.depths.getD i 1 < s.depths.getD j 1
  tight : ∀ (j : ℕ) (step : PlanStep), s.steps[j]? = some step → s.depths.getD j 1 = 1 ∨
    ∃ need ∈ step.needs, ∃ i, s.index.lookup need = some i ∧
      s.depths.getD j 1 = s.depths.getD i 1 + 1
  pass : forward s.steps = ((s.steps.map PlanStep.name).zip s.depths, deepest s.depths)
  shallow : ∀ d ∈ s.depths, d ≤ limits.maxDepth
  few : s.steps.length ≤ limits.maxSteps

/-! ### Maxima -/

theorem foldl_max (l : List ℕ) (b : ℕ) :
    (∀ x ∈ l, x ≤ l.foldl max b) ∧ b ≤ l.foldl max b ∧ (l.foldl max b = b ∨ l.foldl max b ∈ l) := by
  induction l generalizing b with
  | nil => simp
  | cons y rest ih =>
    obtain ⟨above, base, attained⟩ := ih (max b y)
    rw [List.foldl_cons]
    refine ⟨?_, by omega, ?_⟩
    · intro x member
      rcases List.mem_cons.mp member with rfl | member
      · omega
      · exact above x member
    · rcases attained with same | member
      · rcases Nat.le_total b y with le | le
        · exact .inr (by rw [same, Nat.max_eq_right le]; exact List.mem_cons_self)
        · exact .inl (by rw [same, Nat.max_eq_left le])
      · exact .inr (List.mem_cons_of_mem _ member)

theorem deepest_append (depths : List ℕ) (d : ℕ) :
    deepest (depths ++ [d]) = max (deepest depths) d := by
  unfold deepest
  rw [List.foldl_append]
  rfl

theorem deepest_le {depths : List ℕ} {bound : ℕ} (below : ∀ d ∈ depths, d ≤ bound) :
    deepest depths ≤ bound := by
  rcases (foldl_max depths 0).2.2 with zero | member
  · unfold deepest
    omega
  · exact below _ member

/-! ### One step's depth -/

/-- What `needsDepth` computes: the least number above the start and above every entry. -/
theorem needsDepth_ok {s : State} {name : String} {start depth : ℕ} {needs : List String}
    (done : s.needsDepth name start needs = .ok depth) :
    (∀ need ∈ needs, ∃ i, s.index.lookup need = some i ∧ s.depths.getD i 0 + 1 ≤ depth) ∧
      start ≤ depth ∧
      (depth = start ∨
        ∃ need ∈ needs, ∃ i, s.index.lookup need = some i ∧ depth = s.depths.getD i 0 + 1) := by
  induction needs generalizing start with
  | nil =>
    cases done
    exact ⟨by simp, le_rfl, .inl rfl⟩
  | cons need rest ih =>
    unfold State.needsDepth at done
    cases found : s.index.lookup need with
    | none => simp [found] at done
    | some i =>
      simp only [found] at done
      obtain ⟨above, base, attained⟩ := ih done
      refine ⟨?_, by omega, ?_⟩
      · intro other member
        rcases List.mem_cons.mp member with rfl | member
        · exact ⟨i, found, by omega⟩
        · exact above other member
      · rcases attained with same | ⟨other, member, rest⟩
        · rcases Nat.le_total start (s.depths.getD i 0 + 1) with le | le
          · exact .inr ⟨need, List.mem_cons_self, i, found, by omega⟩
          · exact .inl (by omega)
        · exact .inr ⟨other, List.mem_cons_of_mem _ member, rest⟩

namespace Recorded

variable {limits : Limits} {s : State}

theorem index_lt (recorded : Recorded limits s) {name : String} {i : ℕ}
    (found : s.index.lookup name = some i) : i < s.steps.length := by
  obtain ⟨step, read, _⟩ := Option.map_eq_some_iff.mp ((recorded.index name i).mp found)
  exact (List.getElem?_eq_some_iff.mp read).1

theorem getD_eq (recorded : Recorded limits s) {name : String} {i : ℕ}
    (found : s.index.lookup name = some i) (a b : ℕ) : s.depths.getD i a = s.depths.getD i b := by
  have bound : i < s.depths.length := recorded.aligned.symm ▸ recorded.index_lt found
  simp [List.getD_eq_getElem?_getD, List.getElem?_eq_getElem bound]

/-- The pass's search by name and the index find the same depth. -/
theorem find_zip (recorded : Recorded limits s) {name : String} {i : ℕ}
    (found : s.index.lookup name = some i) :
    ((s.steps.map PlanStep.name).zip s.depths).find? (fun d => d.1 == name) =
      some (name, s.depths.getD i 0) := by
  have bound := recorded.index_lt found
  have boundDepths : i < s.depths.length := recorded.aligned.symm ▸ bound
  have here : s.steps[i].name = name := by
    have := (recorded.index name i).mp found
    rw [List.getElem?_eq_getElem bound] at this
    simpa using this
  rw [List.find?_eq_some_iff_getElem]
  refine ⟨by simp, i, by simp [bound, boundDepths], ?_, ?_⟩
  · rw [List.getElem_zip, List.getElem_map, here, List.getD_eq_getElem?_getD,
      List.getElem?_eq_getElem boundDepths, Option.getD_some]
  · intro j before
    have boundJ : j < s.steps.length := before.trans bound
    rw [List.getElem_zip, List.getElem_map]
    simp only [Bool.not_eq_true', beq_eq_false_iff_ne]
    intro same
    have again : s.index.lookup name = some j :=
      (recorded.index name j).mpr (by rw [List.getElem?_eq_getElem boundJ]; simp [same])
    rw [found] at again
    cases again
    exact lt_irrefl _ before

theorem depthBelow_eq (recorded : Recorded limits s) {name : String} {depth : ℕ}
    {needs : List String} (done : s.needsDepth name 1 needs = .ok depth) :
    depthBelow ((s.steps.map PlanStep.name).zip s.depths) needs = depth := by
  obtain ⟨above, base, attained⟩ := needsDepth_ok done
  have mem : ∀ d, d ∈ (needs.filterMap fun n =>
      ((s.steps.map PlanStep.name).zip s.depths).find? fun e => e.1 == n).map Prod.snd ↔
      ∃ need ∈ needs, ∃ i, s.index.lookup need = some i ∧ d = s.depths.getD i 0 := by
    intro d
    simp only [List.mem_map, List.mem_filterMap]
    constructor
    · rintro ⟨entry, ⟨need, member, hit⟩, rfl⟩
      obtain ⟨i, found, _⟩ := above need member
      rw [recorded.find_zip found] at hit
      cases hit
      exact ⟨need, member, i, found, rfl⟩
    · rintro ⟨need, member, i, found, rfl⟩
      exact ⟨_, ⟨need, member, recorded.find_zip found⟩, rfl⟩
  unfold depthBelow
  obtain ⟨upper, _, reached⟩ := foldl_max ((needs.filterMap fun n =>
    ((s.steps.map PlanStep.name).zip s.depths).find? fun e => e.1 == n).map Prod.snd) 0
  refine le_antisymm ?_ ?_
  · rcases reached with zero | member
    · omega
    · obtain ⟨need, member, i, found, same⟩ := (mem _).mp member
      obtain ⟨i', found', le⟩ := above need member
      rw [found] at found'
      cases found'
      omega
  · rcases attained with start | ⟨need, member, i, found, same⟩
    · omega
    · have := upper _ ((mem _).mpr ⟨need, member, i, found, rfl⟩)
      omega

theorem getD_record {i : ℕ} (bound : i < s.depths.length) (step : PlanStep) (depth a : ℕ) :
    (s.record step depth).depths.getD i a = s.depths.getD i a := by
  unfold State.record
  rw [List.getD_eq_getElem?_getD, List.getD_eq_getElem?_getD, List.getElem?_append_left bound]

theorem getD_record_self (recorded : Recorded limits s) (step : PlanStep) (depth a : ℕ) :
    (s.record step depth).depths.getD s.steps.length a = depth := by
  unfold State.record
  rw [List.getD_eq_getElem?_getD, ← recorded.aligned]
  simp

theorem steps_record {step : PlanStep} {depth j : ℕ} {read : PlanStep}
    (found : (s.record step depth).steps[j]? = some read) :
    s.steps[j]? = some read ∨ j = s.steps.length ∧ read = step := by
  unfold State.record at found
  rcases Nat.lt_trichotomy j s.steps.length with lt | rfl | gt
  · rw [List.getElem?_append_left lt] at found
    exact .inl found
  · simp at found
    exact .inr ⟨rfl, found.symm⟩
  · rw [List.getElem?_eq_none (by simp; omega)] at found
    cases found

/-- Every entry of an old step was there before the new step. -/
theorem lookup_record {step : PlanStep} {depth : ℕ} {name : String} {i : ℕ}
    (fresh : s.index.lookup step.name = none) (found : s.index.lookup name = some i) :
    (s.record step depth).index.lookup name = some i := by
  unfold State.record
  have other : name ≠ step.name := by
    rintro rfl
    rw [fresh] at found
    cases found
  simp only [Table.lookup_insert]
  rw [if_neg other]
  exact found

/-- The index after a pushed step finds exactly the positions of the names. -/
theorem index_record (recorded : Recorded limits s) {step : PlanStep} (depth : ℕ)
    (fresh : s.index.lookup step.name = none) (name : String) (i : ℕ) :
    (s.record step depth).index.lookup name = some i ↔
      ((s.record step depth).steps[i]?).map PlanStep.name = some name := by
  have unused : ∀ (j : ℕ) (read : PlanStep), s.steps[j]? = some read → read.name ≠ step.name := by
    intro j read found same
    have := (recorded.index read.name j).mpr (by rw [found]; rfl)
    rw [same, fresh] at this
    cases this
  constructor
  · intro found
    by_cases same : name = step.name
    · simp only [State.record, Table.lookup_insert, same, if_true] at found ⊢
      cases found
      simp
    · simp only [State.record, Table.lookup_insert, same, if_false] at found
      have bound := recorded.index_lt found
      unfold State.record
      rw [List.getElem?_append_left bound]
      exact (recorded.index name i).mp found
  · intro found
    obtain ⟨read, atI, rfl⟩ := Option.map_eq_some_iff.mp found
    rcases steps_record atI with old | ⟨rfl, rfl⟩
    · have other := unused i read old
      simp only [State.record, Table.lookup_insert, other, if_false]
      exact (recorded.index read.name i).mpr (by rw [old]; rfl)
    · simp only [State.record, Table.lookup_insert, if_true]

theorem needed_record (recorded : Recorded limits s) {step : PlanStep} {depth : ℕ}
    (fresh : s.index.lookup step.name = none) {j : ℕ} {read : PlanStep}
    (old : s.steps[j]? = some read) {need : String} (member : need ∈ read.needs) {i : ℕ}
    (found : (s.record step depth).index.lookup need = some i) :
    s.index.lookup need = some i := by
  obtain ⟨i', _, before⟩ := recorded.earlier j read old need member
  rw [lookup_record fresh before] at found
  cases found
  exact before

/-- **A pushed step keeps the recording in order.** -/
theorem record_keeps (recorded : Recorded limits s) {step : PlanStep} {depth : ℕ}
    (pushed : s.Pushed step depth) : Recorded limits (s.record step depth) := by
  obtain ⟨above, base, attained⟩ := needsDepth_ok pushed.longest
  have oldLt : ∀ {j : ℕ} {read : PlanStep}, s.steps[j]? = some read → j < s.depths.length :=
    fun old => recorded.aligned.symm ▸ (List.getElem?_eq_some_iff.mp old).1
  have foundLt : ∀ {name : String} {i : ℕ}, s.index.lookup name = some i → i < s.depths.length :=
    fun found => recorded.aligned.symm ▸ recorded.index_lt found
  have keep : ∀ {i : ℕ}, i < s.depths.length →
      (s.record step depth).depths.getD i 1 = s.depths.getD i 1 :=
    fun bound => getD_record bound step depth 1
  refine {
    under := recorded.under
    names := ?_
    aligned := ?_
    index := recorded.index_record depth pushed.fresh
    earlier := ?_
    rises := ?_
    tight := ?_
    pass := ?_
    shallow := ?_
    few := ?_ }
  · intro read member
    rcases List.mem_append.mp member with old | new
    · exact recorded.names read old
    · cases List.mem_singleton.mp new
      exact pushed.name
  · simp [State.record, recorded.aligned]
  · intro j read found need member
    rcases steps_record found with old | ⟨rfl, rfl⟩
    · obtain ⟨i, lt, before⟩ := recorded.earlier j read old need member
      exact ⟨i, lt, lookup_record pushed.fresh before⟩
    · obtain ⟨i, before, _⟩ := above need member
      exact ⟨i, recorded.index_lt before, lookup_record pushed.fresh before⟩
  · intro j read found need member i points
    rcases steps_record found with old | ⟨rfl, rfl⟩
    · have before := recorded.needed_record pushed.fresh old member points
      rw [keep (oldLt old), keep (foundLt before)]
      exact recorded.rises j read old need member i before
    · obtain ⟨i', before, le⟩ := above need member
      rw [lookup_record pushed.fresh before] at points
      cases points
      rw [recorded.getD_record_self, keep (foundLt before), recorded.getD_eq before 1 0]
      omega
  · intro j read found
    rcases steps_record found with old | ⟨rfl, rfl⟩
    · rw [keep (oldLt old)]
      refine (recorded.tight j read old).imp id ?_
      rintro ⟨need, member, i, before, next⟩
      exact ⟨need, member, i, lookup_record pushed.fresh before, by rw [keep (foundLt before), next]⟩
    · rw [recorded.getD_record_self]
      refine attained.imp id ?_
      rintro ⟨need, member, i, before, next⟩
      refine ⟨need, member, i, lookup_record pushed.fresh before, ?_⟩
      rw [keep (foundLt before), next, recorded.getD_eq before 1 0]
  · have below := recorded.depthBelow_eq pushed.longest
    have same : s.depths.length = (s.steps.map PlanStep.name).length := by
      rw [List.length_map, recorded.aligned]
    simp only [State.record, forward_append, forwardStep, recorded.pass, below, deepest_append,
      List.map_append, List.map_cons, List.map_nil]
    rw [List.zip_append same.symm]
    rfl
  · intro d member
    rcases List.mem_append.mp member with old | new
    · exact recorded.shallow d old
    · cases List.mem_singleton.mp new
      exact recorded.under ▸ pushed.shallow
  · have room := pushed.room
    rw [recorded.under] at room
    simp only [State.record, List.length_append, List.length_singleton]
    omega

/-- A call that leaves the graph alone keeps the recording in order. -/
theorem same_keeps {s' : State} (recorded : Recorded limits s) (same : s.SameGraph s') :
    Recorded limits s' := by
  obtain ⟨steps, depths, index, bounds⟩ := same
  obtain ⟨under, names, aligned, found, earlier, rises, tight, pass, shallow, few⟩ := recorded
  constructor <;> simp only [steps, depths, index, bounds] <;> assumption

theorem after_keeps (recorded : Recorded limits s) (c : Call) : Recorded limits (s.after c) := by
  rcases s.after_cases c with same | ⟨step, depth, pushed, effect⟩
  · exact recorded.same_keeps same
  · rw [effect]
    exact recorded.record_keeps pushed

theorem start (limits : Limits) (actions : List String) :
    Recorded limits (State.new limits actions) where
  under := rfl
  names := fun _ member => absurd member (List.not_mem_nil)
  aligned := rfl
  index := by simp [State.new]
  earlier := by simp [State.new]
  rises := by simp [State.new]
  tight := by simp [State.new]
  pass := rfl
  shallow := fun _ member => absurd member (List.not_mem_nil)
  few := Nat.zero_le _

/-! ### The graph of a recording -/

theorem index_inj (recorded : Recorded limits s) {i j : ℕ} {a b : PlanStep}
    (readA : s.steps[i]? = some a) (readB : s.steps[j]? = some b) (same : a.name = b.name) :
    i = j := by
  have first := (recorded.index a.name i).mpr (by rw [readA]; rfl)
  have second := (recorded.index b.name j).mpr (by rw [readB]; rfl)
  rw [← same, first] at second
  exact Option.some.inj second

/-- The depths are a rank of the `needs` edges. -/
theorem ranked (recorded : Recorded limits s) :
    Ranked (Needs s.steps) fun i => s.depths.getD i 1 where
  rises := by
    rintro i j ⟨before, after, readI, readJ, member⟩
    exact recorded.rises j after readJ before.name member i
      ((recorded.index before.name i).mpr (by rw [readI]; rfl))
  tight := by
    intro j
    cases read : s.steps[j]? with
    | none =>
      have beyond : s.depths.length ≤ j := recorded.aligned ▸ List.getElem?_eq_none_iff.mp read
      exact .inl (by simp [List.getD_eq_getElem?_getD, List.getElem?_eq_none beyond])
    | some step =>
      refine (recorded.tight j step read).imp id ?_
      rintro ⟨need, member, i, found, next⟩
      obtain ⟨before, readI, rfl⟩ := Option.map_eq_some_iff.mp ((recorded.index need i).mp found)
      exact ⟨i, ⟨before, step, readI, read, member⟩, next⟩

theorem validDag (recorded : Recorded limits s) : ValidDag limits s where
  names := recorded.names
  distinct := by
    rw [List.nodup_iff_getElem?_ne_getElem?]
    intro i j lt bound same
    rw [List.length_map] at bound
    have boundI : i < s.steps.length := lt.trans bound
    rw [List.getElem?_map, List.getElem?_map, List.getElem?_eq_getElem bound,
      List.getElem?_eq_getElem boundI] at same
    have := recorded.index_inj (List.getElem?_eq_getElem boundI) (List.getElem?_eq_getElem bound)
      (Option.some.inj same)
    omega
  earlier := by
    intro j step read need member
    obtain ⟨i, lt, found⟩ := recorded.earlier j step read need member
    obtain ⟨before, readI, name⟩ := Option.map_eq_some_iff.mp ((recorded.index need i).mp found)
    exact ⟨i, lt, before, readI, name⟩
  acyclic := recorded.ranked.acyclic
  aligned := recorded.aligned
  longest := by
    intro i d read
    have greatest := recorded.ranked.greatest i
    simp only [List.getD_eq_getElem?_getD, read, Option.getD_some] at greatest
    exact greatest
  depth := congrArg Prod.snd recorded.pass
  shallow := by
    have depth : s.intoPipeline.depth = deepest s.depths := congrArg Prod.snd recorded.pass
    rw [depth]
    exact deepest_le recorded.shallow
  few := recorded.few

end Recorded

/-! ### Every sequence of calls -/

theorem recorded_run (limits : Limits) (actions : List String) (calls : List Call) :
    Recorded limits (run State.after (State.new limits actions) calls) :=
  run_invariant (fun _ c recorded => recorded.after_keeps c) (Recorded.start limits actions) calls

/-- **Whatever is called, the recording is a valid graph, and a refused call leaves it alone.** -/
theorem recorder_dag (limits : Limits) (actions : List String) (calls : List Call) :
    let s := run State.after (State.new limits actions) calls
    ValidDag limits s ∧
      ∀ c message, (s.call c).1 = .error message →
        (s.after c).steps = s.steps ∧ (s.after c).depths = s.depths ∧
          (s.after c).index = s.index := by
  intro s
  refine ⟨(recorded_run limits actions calls).validDag, ?_⟩
  intro c message refused
  obtain ⟨kind, _, effect⟩ := State.call_refused refused
  rw [effect]
  exact ⟨rfl, rfl, rfl⟩

end HullCi.Plan
