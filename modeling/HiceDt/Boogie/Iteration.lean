import HiceDt.Boogie.Recorded
import HiceDt.Boogie.Teacher

/-!
# An iteration of the Boogie teacher

What an iteration of `LearnInv` (`Boogie/Source/Houdini/MLHoudini.cs`, lines 921–1130) does to the
sample and the conjecture. The handler sorts the errors of an answer: positive and negative
counterexamples are recorded at once, implications only if there are no others.

Results:

* `collected_errors`: what the handler has collected after an answer.
* `learnInvStep_effect`: nothing has changed, the loop ends, or counterexamples of the conjecture
  were recorded and the learner was called.
-/

namespace HiceDt.Boogie

open Loop Dictionary

/-! ## Counterexamples of the prover -/

variable {Interp Dummies Counterexample : Type}

namespace MLHoudini

/-- The prover has refuted a verification condition for the conjecture, and this is the
    counterexample that is extracted. -/
def Extracted (h : MLHoudini Interp Dummies Counterexample)
    (values : List (String × DecisionTreeDomain)) (cex : Cex) : Prop :=
  ∃ impl implementation env, h.name2Impl.lookup impl = some implementation ∧
    environment values implementation.funcCalls = .ok env ∧
    ∃ n bound, ∃ error ∈ (h.prover n ⟨env, implementation.vc, bound⟩).errors,
      h.extractState impl error = .ok cex

variable {h : MLHoudini Interp Dummies Counterexample}

/-- The counterexamples that the handler has sorted, and the sample with the ones that are
    recorded at once. -/
structure Collected (h : MLHoudini Interp Dummies Counterexample)
    (impl : String) (extracted : Cex → Prop) (s : Sample) (errors : List Counterexample)
    (c : Collector Counterexample) (labels : List Cex) : Prop where
  recorded : s.recordAll (labels.map fun cex => (cex, true)) = .ok c.sample
  extractedLabels : ∀ cex ∈ labels, extracted cex
  extractedImplications : ∀ cex ∈ c.implicationCounterExamples, extracted cex
  real : ∀ error ∈ c.realErrors, h.extractState impl error = .ok ⟨[], []⟩ ∧ extracted ⟨[], []⟩
  conjectureErrors : c.conjectureErrors.length = labels.length
  implicationErrors : c.implicationErrors.length = c.implicationCounterExamples.length
  length : c.realErrors.length + c.conjectureErrors.length + c.implicationErrors.length =
    errors.length

/-- One more error. -/
theorem Collected.onCounterexample {impl : String} {extracted : Cex → Prop} {s : Sample}
    {errors : List Counterexample} {c c' : Collector Counterexample} {labels : List Cex}
    (hc : h.Collected impl extracted s errors c labels) {error : Counterexample}
    (hextracted : ∀ cex, h.extractState impl error = .ok cex → extracted cex)
    (hrun : h.onCounterexample impl c error = .ok c') :
    ∃ labels', h.Collected impl extracted s (errors ++ [error]) c' labels' := by
  obtain ⟨hrecorded, hlabels, himplications, hreal, hconjecture, himplication, hlength⟩ := hc
  obtain ⟨⟨⟨realError, cexAdded⟩, c₁⟩, hhandle, hrun⟩ := bind_ok.mp hrun
  obtain ⟨cex, hcex, hhandle⟩ := bind_ok.mp hhandle
  have hnew : extracted cex := hextracted cex hcex
  split_ifs at hhandle with hempty hone
  · -- a real error
    obtain ⟨heq, rfl⟩ := Prod.mk.inj (Except.ok.inj hhandle)
    obtain ⟨rfl, rfl⟩ := Prod.mk.inj heq
    simp only [↓reduceIte] at hrun
    obtain rfl := Except.ok.inj hrun
    obtain ⟨lhs, rhs⟩ := cex
    obtain ⟨hlhs, hrhs⟩ := Bool.and_eq_true_iff.mp hempty
    obtain rfl := List.isEmpty_iff.mp hlhs
    obtain rfl := List.isEmpty_iff.mp hrhs
    refine ⟨labels, hrecorded, hlabels, himplications, ?_, hconjecture, himplication, ?_⟩
    · exact List.forall_mem_append.mpr ⟨hreal, List.forall_mem_singleton.mpr ⟨hcex, hnew⟩⟩
    · simp only [List.length_append, List.length_singleton]
      omega
  · -- a positive or negative counterexample
    obtain ⟨sample, hsample, hret⟩ := bind_ok.mp hhandle
    obtain ⟨heq, rfl⟩ := Prod.mk.inj (Except.ok.inj hret)
    obtain ⟨rfl, rfl⟩ := Prod.mk.inj heq
    simp only [↓reduceIte, Bool.false_eq_true] at hrun
    obtain rfl := Except.ok.inj hrun
    refine ⟨labels ++ [cex], ?_, ?_, himplications, hreal, ?_, himplication, ?_⟩
    · rw [List.map_append]
      exact recordAll_append hrecorded (bind_ok.mpr ⟨sample, hsample, rfl⟩)
    · exact List.forall_mem_append.mpr ⟨hlabels, List.forall_mem_singleton.mpr hnew⟩
    · simp only [List.length_append, List.length_singleton]
      omega
    · simp only [List.length_append, List.length_singleton]
      omega
  · -- an implication
    obtain ⟨heq, rfl⟩ := Prod.mk.inj (Except.ok.inj hhandle)
    obtain ⟨rfl, rfl⟩ := Prod.mk.inj heq
    simp only [↓reduceIte, Bool.false_eq_true] at hrun
    obtain rfl := Except.ok.inj hrun
    refine ⟨labels, hrecorded, hlabels, ?_, hreal, hconjecture, ?_, ?_⟩
    · exact List.forall_mem_append.mpr ⟨himplications, List.forall_mem_singleton.mpr hnew⟩
    · simp only [List.length_append, List.length_singleton]
      omega
    · simp only [List.length_append, List.length_singleton]
      omega

/-- All errors of an answer. -/
theorem collected_errors {impl : String} {extracted : Cex → Prop} {s : Sample}
    {errors : List Counterexample} (hextracted : ∀ error ∈ errors, ∀ cex,
      h.extractState impl error = .ok cex → extracted cex) {c : Collector Counterexample}
    (hrun : errors.foldlM (h.onCounterexample impl) { sample := s } = .ok c) :
    ∃ labels, h.Collected impl extracted s errors c labels := by
  refine foldlM_ok_spec (I := fun done c => ∃ labels, h.Collected impl extracted s done c labels)
    (fun done error rest c c' hl hc hstep => ?_) ⟨[], ?_⟩ hrun
  · obtain ⟨labels, hc⟩ := hc
    exact hc.onCounterexample (hextracted error
      (hl ▸ List.mem_append_right done List.mem_cons_self)) hstep
  · exact ⟨rfl, fun _ hcex => (List.not_mem_nil hcex).elim, fun _ hcex =>
      (List.not_mem_nil hcex).elim, fun _ herror => (List.not_mem_nil herror).elim, rfl, rfl, rfl⟩

/-! ## An iteration -/

/-- Neither the sample nor the conjecture has changed. -/
structure Quiet (s s' : TeacherState) : Prop where
  sample : s'.sample = s.sample
  function2Value : s'.function2Value = s.function2Value
  numLearnerQueries : s'.numLearnerQueries = s.numLearnerQueries

/-- New counterexamples were recorded, and the learner was called. -/
structure Learned (h : MLHoudini Interp Dummies Counterexample) (s s' : TeacherState)
    (cexs : List Cex)
    (funcsChanged : List String) (root : TreeNode) : Prop where
  ne_nil : cexs ≠ []
  extracted : ∀ cex ∈ cexs, h.Extracted s.function2Value cex
  recorded : s.sample.recordAll (cexs.map fun cex => (cex, true)) = .ok s'.sample
  numLearnerQueries : s'.numLearnerQueries = s.numLearnerQueries + 1
  learner : h.learner s'.numLearnerQueries = .ok root
  models : h.constructModels root s.function2Value = .ok (funcsChanged, s'.function2Value)

/-- What an iteration does; `worklist` is left if the implementation counts as verified. -/
inductive Effect (h : MLHoudini Interp Dummies Counterexample) (s : TeacherState)
    (worklist : List (ℕ × String)) : Option (VCGenOutcome Counterexample) → TeacherState → Prop
  | quiet {s' : TeacherState} : Quiet s s' → s'.worklist = worklist → Effect h s worklist none s'
  | stopped {o : VCGenOutcome Counterexample} {s' : TeacherState} :
    o.outcome ≠ .invalid → Effect h s worklist (some o) s'
  | real {impl : String} {errors : List Counterexample} {s' : TeacherState} :
    errors ≠ [] →
    (∀ error ∈ errors, h.extractState impl error = .ok ⟨[], []⟩ ∧
      h.Extracted s.function2Value ⟨[], []⟩) →
    Effect h s worklist (some ⟨.invalid, errors⟩) s'
  | learned {outcome : Option (VCGenOutcome Counterexample)} {s' : TeacherState} {cexs : List Cex}
    {funcsChanged : List String} {root : TreeNode} :
    h.Learned s s' cexs funcsChanged root → outcome = none ∨ funcsChanged = [] →
    Effect h s worklist outcome s'

theorem Effect.of_quiet {s s₁ s' : TeacherState} {worklist : List (ℕ × String)}
    {outcome : Option (VCGenOutcome Counterexample)} (heffect : h.Effect s₁ worklist outcome s')
    (hquiet : Quiet s s₁) : h.Effect s worklist outcome s' := by
  obtain ⟨hsample, hvalue, hqueries⟩ := hquiet
  cases heffect with
  | quiet hq hworklist =>
    exact .quiet ⟨hq.sample.trans hsample, hq.function2Value.trans hvalue,
      hq.numLearnerQueries.trans hqueries⟩ hworklist
  | stopped ho => exact .stopped ho
  | real hne hall => exact .real hne (hvalue ▸ hall)
  | learned hl hout =>
    obtain ⟨hne, hextracted, hrecorded, hquery, hlearner, hmodels⟩ := hl
    rw [hvalue] at hextracted hmodels
    rw [hsample] at hrecorded
    rw [hqueries] at hquery
    exact .learned ⟨hne, hextracted, hrecorded, hquery, hlearner, hmodels⟩ hout

/-- A call of the learner. -/
theorem learn_eq {s s' : TeacherState} {funcsChanged : List String}
    (hrun : h.learn s = .ok (funcsChanged, s')) :
    s'.sample = s.sample ∧ s'.numLearnerQueries = s.numLearnerQueries + 1 ∧
      ∃ root, h.learner s'.numLearnerQueries = .ok root ∧
        h.constructModels root s.function2Value = .ok (funcsChanged, s'.function2Value) := by
  unfold learn at hrun
  obtain ⟨_, -, hrun⟩ := bind_ok.mp hrun
  obtain ⟨root, hroot, hrun⟩ := bind_ok.mp hrun
  split_ifs at hrun
  obtain ⟨⟨changed, values⟩, hmodels, hrun⟩ := bind_ok.mp hrun
  obtain ⟨rfl, rfl⟩ := Prod.mk.inj (Except.ok.inj hrun)
  exact ⟨rfl, rfl, root, hroot, hmodels⟩

/-- The implications are recorded if there are no labels. -/
theorem addImplications_eq {c : Collector Counterexample} {s s' : TeacherState}
    (hrun : h.addImplications c s = .ok s') :
    (c.conjectureErrors ≠ [] ∧ s' = s) ∨ (c.conjectureErrors = [] ∧ ∃ sample,
      s.sample.recordAll (c.implicationCounterExamples.map fun cex => (cex, true)) = .ok sample ∧
        s' = { s with sample := sample }) := by
  unfold addImplications at hrun
  split_ifs at hrun with hempty
  · obtain ⟨_, -, hrun⟩ := bind_ok.mp hrun
    obtain ⟨sample, hsample, hrun⟩ := bind_ok.mp hrun
    obtain rfl := Except.ok.inj hrun
    refine .inr ⟨List.isEmpty_iff.mp hempty, sample, ?_, rfl⟩
    rw [Sample.recordAll, List.foldlM_map]
    exact hsample
  · exact .inl ⟨fun hnil => hempty (List.isEmpty_iff.mpr hnil), (Except.ok.inj hrun).symm⟩

/-- The reaction to the errors of an answer. -/
theorem refine_effect {impl : String} {errors : List Counterexample} {c : Collector Counterexample}
    {labels : List Cex} {s s' : TeacherState} {outcome : Option (VCGenOutcome Counterexample)}
    {n : ℕ}
    (hc : h.Collected impl (h.Extracted s.function2Value) s.sample errors c labels)
    (hne : errors ≠ [])
    (hrun : h.refine impl c { s with sample := c.sample, numProverQueries := n } =
      .ok (outcome, s'))
    (worklist : List (ℕ × String)) : h.Effect s worklist outcome s' := by
  unfold refine at hrun
  by_cases hreal : (!c.realErrors.isEmpty) = true
  · rw [if_pos hreal] at hrun
    obtain ⟨rfl, -⟩ := Prod.mk.inj (Except.ok.inj hrun)
    refine .real (fun hnil => ?_) hc.real
    rw [hnil] at hreal
    cases hreal
  rw [if_neg hreal] at hrun
  obtain ⟨s₁, himpl, hrun⟩ := bind_ok.mp hrun
  obtain ⟨⟨funcsChanged, s₂⟩, hlearn, hrun⟩ := bind_ok.mp hrun
  obtain ⟨hsample, hqueries, root, hroot, hmodels⟩ := learn_eq hlearn
  -- the counterexamples that are recorded
  have hcexs : ∃ cexs, cexs ≠ [] ∧ (∀ cex ∈ cexs, h.Extracted s.function2Value cex) ∧
      s.sample.recordAll (cexs.map fun cex => (cex, true)) = .ok s₁.sample := by
    rcases addImplications_eq himpl with ⟨hlabels, rfl⟩ | ⟨hlabels, sample, hadded, rfl⟩
    · refine ⟨labels, fun hnil => hlabels ?_, hc.extractedLabels, hc.recorded⟩
      exact List.eq_nil_of_length_eq_zero (by rw [hc.conjectureErrors, hnil, List.length_nil])
    · have hzero : labels.length = 0 := by rw [← hc.conjectureErrors, hlabels, List.length_nil]
      obtain rfl := List.eq_nil_of_length_eq_zero hzero
      have hsame : s.sample = c.sample := Except.ok.inj hc.recorded
      refine ⟨c.implicationCounterExamples, fun hnil => hne ?_, hc.extractedImplications, ?_⟩
      · have hrealErrors : c.realErrors = [] := by
          by_contra hcons
          rw [List.isEmpty_eq_false_iff.mpr hcons] at hreal
          exact hreal rfl
        have hlength := hc.length
        rw [hrealErrors, hlabels, hc.implicationErrors, hnil, List.length_nil] at hlength
        exact List.eq_nil_of_length_eq_zero hlength.symm
      · rw [hsame]
        exact hadded
  obtain ⟨cexs, hcexs, hextracted, hrecorded⟩ := hcexs
  obtain ⟨hvalue, hnumber⟩ : s₁.function2Value = s.function2Value ∧
      s₁.numLearnerQueries = s.numLearnerQueries := by
    rcases addImplications_eq himpl with ⟨-, rfl⟩ | ⟨-, sample, -, rfl⟩
    · exact ⟨rfl, rfl⟩
    · exact ⟨rfl, rfl⟩
  have hlearned : h.Learned s s₂ cexs funcsChanged root :=
    ⟨hcexs, hextracted, hsample ▸ hrecorded, hnumber ▸ hqueries, hroot, hvalue ▸ hmodels⟩
  dsimp only at hrun
  by_cases hchanged : funcsChanged.isEmpty = true
  · rw [if_pos hchanged] at hrun
    obtain ⟨rfl, rfl⟩ := Prod.mk.inj (Except.ok.inj hrun)
    exact .learned hlearned (.inr (List.isEmpty_iff.mp hchanged))
  · rw [if_neg hchanged] at hrun
    obtain ⟨_, -, hrun⟩ := bind_ok.mp hrun
    obtain ⟨rfl, rfl⟩ := Prod.mk.inj (Except.ok.inj hrun)
    obtain ⟨hne', hextracted', hrecorded', hquery', hlearner', hmodels'⟩ := hlearned
    exact .learned ⟨hne', hextracted', hrecorded', hquery', hlearner', hmodels'⟩ (.inl rfl)

/-- The queries about an implementation. -/
theorem boundsLoop_effect {impl : String} {implementation : Implementation Interp Dummies}
    (hitem : h.name2Impl.lookup impl = some implementation)
    {env : List (FuncCall Interp Dummies × DecisionTreeDomain)} :
    ∀ {rest : List ℕ} {hasIntegerVariable : Bool} {s s' : TeacherState}
      {outcome : Option (VCGenOutcome Counterexample)},
      environment s.function2Value implementation.funcCalls = .ok env →
      h.boundsLoop impl env implementation.vc rest hasIntegerVariable s = .ok (outcome, s') →
      h.Effect s s.worklist outcome s' := by
  intro rest
  induction rest with
  | nil =>
    intro hasIntegerVariable s s' outcome _ hrun
    obtain ⟨rfl, rfl⟩ := Prod.mk.inj (Except.ok.inj hrun)
    exact .quiet ⟨rfl, rfl, rfl⟩ rfl
  | cons i rest ih =>
    intro hasIntegerVariable s s' outcome henv hrun
    rw [boundsLoop] at hrun
    by_cases hvariable : (!hasIntegerVariable) = true
    · rw [if_pos hvariable] at hrun
      exact ih henv hrun
    rw [if_neg hvariable] at hrun
    obtain ⟨c, herrors, hrun⟩ := bind_ok.mp hrun
    dsimp only at hrun
    split_ifs at hrun with houtcome hvalid
    · obtain ⟨rfl, rfl⟩ := Prod.mk.inj (Except.ok.inj hrun)
      refine .stopped fun hinvalid => ?_
      rcases houtcome with htime | hmemory
      · cases htime.symm.trans hinvalid
      · cases hmemory.symm.trans hinvalid
    · -- the prover has called the handler
      have hextracted : ∀ error ∈ (h.prover s.numProverQueries
        ⟨env, implementation.vc, h.boundAt i⟩).errors,
          ∀ cex, h.extractState impl error = .ok cex → h.Extracted s.function2Value cex :=
        fun error herror cex hcex => ⟨impl, implementation, env, hitem, henv, _, _, error, herror,
        hcex⟩
      obtain ⟨labels, hc⟩ := collected_errors hextracted herrors
      refine refine_effect hc (fun hnil => ?_) hrun _
      rw [hnil] at herrors
      obtain rfl := Except.ok.inj herrors
      cases hvalid
    · have hnil := errors_of_vcIsValid herrors (by simpa using hvalid)
      rw [hnil] at herrors
      obtain rfl := Except.ok.inj herrors
      have hrest : h.Effect { s with numProverQueries := s.numProverQueries + 1 } s.worklist outcome
        s' := ih henv hrun
      exact hrest.of_quiet ⟨rfl, rfl, rfl⟩

/-- An iteration of the loop over the worklist. -/
theorem learnInvStep_effect {s s' : TeacherState} {outcome : Option (VCGenOutcome Counterexample)}
    (hrun : h.learnInvStep s = .ok (outcome, s')) :
    h.Effect s s.worklist.tail outcome s' ∧ (outcome = none → s.worklist ≠ []) := by
  unfold learnInvStep at hrun
  match hworklist : s.worklist with
  | [] =>
    rw [hworklist] at hrun
    obtain ⟨rfl, rfl⟩ := Prod.mk.inj (Except.ok.inj hrun)
    exact ⟨.stopped ProverOutcome.noConfusion, fun hnone => by cases hnone⟩
  | (priority, impl) :: worklist =>
    rw [hworklist] at hrun
    obtain ⟨implementation, hitem, hrun⟩ := bind_ok.mp hrun
    obtain ⟨env, henv, hrun⟩ := bind_ok.mp hrun
    have hloop : h.Effect { s with worklist := worklist } worklist outcome s' :=
      boundsLoop_effect (item_ok.mp hitem) henv hrun
    exact ⟨hloop.of_quiet ⟨rfl, rfl, rfl⟩, fun _ => List.cons_ne_nil _ _⟩

end MLHoudini

end HiceDt.Boogie
