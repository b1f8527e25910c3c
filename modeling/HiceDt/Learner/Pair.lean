import HiceDt.Learner.Attempt

/-!
# Two points with different labels

A sample that an attempt splits with one cut or not at all, depending on the bound.

Results:

* `pair_ratiosOk`: the gain ratio of its only cut is 1.
* `pair_contradictory`: with a bound that does not tell the points apart, the constraints
  are contradictory.
-/

namespace HiceDt.Learner

open HiceDt Machine Solver Score Loop

variable {F : Type} [Score F] {k : ℕ} {T : ℤ} {d d' : Datapoint}

/-! ## The sample -/

/-- The first point is labelled true, the second one false. -/
def pair (d d' : Datapoint) : Sample where
  mem x := match x with
    | .point 0 =>
      { categoricalData := d.categoricalData, intData := d.intData, isClassified := true
        classification := true }
    | _ =>
      { categoricalData := d'.categoricalData, intData := d'.intData, isClassified := true
        classification := false }
  datapoints := [.point 0, .point 1]
  hornConstraints := []
  numberOfCategories := [d.category 0 + 1]

theorem pair_ok (hd : d.categoricalData.length = 1 ∧ d.intData.length = k)
    (hd' : d'.categoricalData.length = 1 ∧ d'.intData.length = k)
    (hcat : d.category 0 = d'.category 0) : (pair d d').Ok k := by
  refine ⟨⟨by simp [pair], by simp [pair, label, Datapoint.label], by simp [pair],
    by simp [pair], by simp [pair], by simp, by simp, by simp, fun x _ => ?_⟩, ⟨?_, ?_⟩⟩
  · simp only [pair]
    split <;> exact ⟨rfl, rfl⟩
  · simp only [pair, List.mem_cons, List.not_mem_nil, or_false]
    rintro x (rfl | rfl)
    · exact hd
    · exact hd'
  · simp only [pair, List.mem_cons, List.not_mem_nil, or_false]
    rintro x (rfl | rfl)
    · show d.category 0 < d.category 0 + 1
      omega
    · show d'.category 0 < d.category 0 + 1
      omega

theorem pair_boundConstraints (hdist : isDistinguishable d d' T = .ok true) :
    getIndistinguishableDatapoints (pair d d').mem T (pair d d').datapoints = .ok [] := by
  have hsame : isDistinguishable ((pair d d').mem (.point 0)) ((pair d d').mem (.point 1)) T =
      .ok true := hdist
  simp only [pair, getIndistinguishableDatapoints, indistinguishableFrom, bind,
    Except.bind] at hsame ⊢
  rw [hsame]
  rfl

theorem pair_consistent (d d' : Datapoint) :
    Consistent (pair d d').mem (pair d d').datapoints ((pair d d').hornConstraints ++ []) [] []
      fun x => x = .point 0 := by
  simp [Consistent, pair, label, Datapoint.label]

theorem pair_satisfiable (d d' : Datapoint) : (pair d d').Satisfiable :=
  ⟨_, consistent_of_append (pair_consistent d d')⟩

section Ratio

variable {cfg : Settings} {s : LearnerState ℝ} {l attr : ℕ} {node : List ℕ}

theorem indices_self (l : ℕ) : indices l l = [l] := by
  unfold indices
  rw [show l + 1 - l = 1 by omega]
  rfl

theorem indices_two (l : ℕ) : indices l (l + 1) = [l, l + 1] := by
  unfold indices
  rw [show l + 1 + 1 - l = 2 by omega]
  rfl

/-- The only cut of two points. -/
theorem cutLoop_two {cs : CutState ℝ}
    (h : cutLoop cfg s ⟨l, l + 1, node⟩ attr l ⟨0, .initial, .initial⟩ = .ok cs)
    (hc : cs.cut.possible = true) :
    (s.point (l + 1)).int attr ≠ (s.point l).int attr ∧ cs.tries = 1 ∧
      ∃ total, totalEntropy cfg s ⟨l, l + 1, node⟩ l = .ok total ∧
        cs.cut = { possible := true, entropy := total, splitIndex := l,
                   intrinsicValue := intrinsicValue cfg s l l (l + 1) } := by
  rw [cutLoop] at h
  simp only [show l < l + 1 by omega, if_true] at h
  by_cases heq : (s.point (l + 1)).int attr = (s.point l).int attr
  · have hskip : skipEqual (fun i => (s.point i).int attr) (l + 1) l = l + 1 := by
      rw [skipEqual, if_pos ⟨le_refl _, heq⟩, skipEqual, if_neg (by omega)]
    rw [hskip, if_neg (by omega)] at h
    obtain rfl := Except.ok.inj h
    simp [Cut.initial] at hc
  · have hskip : skipEqual (fun i => (s.point i).int attr) (l + 1) l = l := by
      rw [skipEqual, if_neg fun h => heq h.2]
    rw [hskip, if_pos (by omega)] at h
    refine ⟨heq, ?_⟩
    unfold tryCut at h
    split at h
    · simp at h
    · rename_i cs' hcs
      rw [cutLoop] at h
      simp only [lt_irrefl, if_false] at h
      obtain rfl := Except.ok.inj h
      split at hcs
      · obtain ⟨total, htotal, hcs⟩ := bind_ok.mp hcs
        obtain rfl := Except.ok.inj hcs
        exact ⟨rfl, total, htotal, by simp [Cut.consider, Cut.initial]⟩
      · obtain rfl := Except.ok.inj hcs
        simp [Cut.initial] at hc

theorem numPointsWithClassification_self (hc : (s.point l).isClassified = true) (b : Bool) :
    numPointsWithClassification s l l b = if (s.point l).classification = b then 1 else 0 := by
  unfold numPointsWithClassification
  rw [indices_self]
  by_cases h : (s.point l).classification = b
  · simp [hc, h]
  · simp [hc, h]

theorem numClassifiedPoints_self (hcfg : cfg.entropyComputation = .penalty)
    (hc : (s.point l).isClassified = true) : numClassifiedPoints cfg s l l = 1 := by
  simp [numClassifiedPoints, hcfg, indices_self, hc]

theorem entropy_self (hcfg : cfg.entropyComputation = .penalty)
    (hc : (s.point l).isClassified = true) : entropy cfg s l l = .ok (0 : ℝ) := by
  unfold entropy
  rw [hcfg]
  simp only [numPointsWithClassification_self hc]
  cases (s.point l).classification with
  | true => simp [entropyOfCounts]
  | false => simp [entropyOfCounts]

theorem penaltyVal_nil (hh : cfg.hornConstraints = []) (l c r : ℕ) :
    penaltyVal cfg s l c r = (0 : ℝ) := by
  simp [penaltyVal, penalty, hh]

/-- Two points with different labels lie in two halves without entropy. -/
theorem ratio_two {ratio : ℝ} (hcfg : cfg.entropyComputation = .penalty)
    (hh : cfg.hornConstraints = []) (hc : (s.point l).isClassified = true)
    (hc' : (s.point (l + 1)).isClassified = true)
    (hne : (s.point (l + 1)).classification = !(s.point l).classification)
    (h : AttributeRatio cfg s ⟨l, l + 1, node⟩ attr ratio) : ratio = 1 := by
  obtain ⟨cs, gain, hrun, hposs, hgain, -, rfl⟩ := h
  obtain ⟨hval, htries, total, htotal, hcut⟩ := cutLoop_two hrun hposs
  -- the length of the interval is 1; if the difference wraps around to 0, it is 0
  have hinterval : (wrap32 ((s.point (l + 1)).int attr - (s.point l).int attr)).tdiv
      (wrap32 ((s.point (l + 1)).int attr - (s.point l).int attr)) = 1 ∨
      (wrap32 ((s.point (l + 1)).int attr - (s.point l).int attr)).tdiv
      (wrap32 ((s.point (l + 1)).int attr - (s.point l).int attr)) = 0 := by
    by_cases hzero : wrap32 ((s.point (l + 1)).int attr - (s.point l).int attr) = 0
    · rw [hzero]
      exact .inr rfl
    · exact .inl (Int.tdiv_self hzero)
  have hnum : ∀ b, numPointsWithClassification s l (l + 1) b = 1 := by
    intro b
    unfold numPointsWithClassification
    rw [indices_two]
    cases b <;> cases hl : (s.point l).classification <;> rw [hl] at hne <;>
      simp [hc, hc', hne, hl]
  have hclassified : numClassifiedPoints cfg s l (l + 1) = 2 := by
    simp [numClassifiedPoints, hcfg, indices_two, hc, hc']
  have hzero : totalEntropy cfg s ⟨l, l + 1, node⟩ l = .ok (0 : ℝ) := by
    unfold totalEntropy weightedEntropy
    simp only [entropy_self hcfg hc, entropy_self hcfg hc', hcfg, hclassified, penaltyVal_nil hh,
      bind, Except.bind]
    simp [pure, Except.pure]
  have hentropy : entropy cfg s l (l + 1) = .ok (1 : ℝ) := by
    unfold entropy
    rw [hcfg]
    simp only [hnum]
    simp only [entropyOfCounts]
    norm_num [logb_half]
  have hiv : intrinsicValue cfg s l l (l + 1) = (1 : ℝ) := by
    unfold intrinsicValue intrinsicTerm
    simp only [numClassifiedPoints_self hcfg hc, numClassifiedPoints_self hcfg hc']
    norm_num [logb_half]
  rw [hzero] at htotal
  obtain rfl := Except.ok.inj htotal
  rw [hcut] at hgain ⊢
  simp only [cutGain, hentropy, hclassified, htries, bind, Except.bind, assert] at hgain
  have hgain' : gain = 1 := by
    rcases hinterval with hone | hnone
    · rw [hone] at hgain
      simp [pure, Except.pure] at hgain
      exact hgain.symm
    · rw [hnone] at hgain
      simp [pure, Except.pure] at hgain
      exact hgain.symm
  rw [hiv, hgain']
  simp

end Ratio

omit [Score F] in
/-- The orders in which the learner may keep the pair. -/
theorem pair_order {s : LearnerState F} (h : s.datapointPtrs.Perm (pair d d').datapoints) :
    s.datapointPtrs = [.point 0, .point 1] ∨ s.datapointPtrs = [.point 1, .point 0] := by
  obtain ⟨x, y, hxy⟩ := List.length_eq_two.mp h.length_eq
  rw [hxy] at h ⊢
  have hnodup : x ≠ y := by
    have := h.nodup_iff.mpr (by simp [pair])
    simpa using this
  have hx : x = .point 0 ∨ x = .point 1 := by simpa [pair] using h.subset List.mem_cons_self
  have hy : y = .point 0 ∨ y = .point 1 := by
    simpa [pair] using h.subset (List.mem_cons_of_mem _ List.mem_cons_self)
  rcases hx with rfl | rfl <;> rcases hy with rfl | rfl <;> simp at hnodup ⊢

theorem pair_classified {m : Heap} {hcs : List HornConstraint}
    (h : SampleInv (pair d d').datapoints (pair d d').mem hcs m) :
    (m (.point 0)).isClassified = true ∧ (m (.point 0)).classification = true ∧
      (m (.point 1)).isClassified = true ∧ (m (.point 1)).classification = false := by
  have h0 := h.keeps (.point 0) (by simp [pair]) true rfl
  have h1 := h.keeps (.point 1) (by simp [pair]) false rfl
  simp only [label, Datapoint.label, Option.ite_none_right_eq_some, Option.some.injEq] at h0 h1
  exact ⟨h0.1, h0.2, h1.1, h1.2⟩

theorem pair_ratio {s : LearnerState ℝ} {l r attr : ℕ} {node : List ℕ} {L : List Slice} {ratio : ℝ}
    {threshold : Option ℤ}
    (h : LearnInv (pair d d').datapoints (pair d d').mem [] s (⟨l, r, node⟩ :: L)) (hlr : l < r)
    (hratio : AttributeRatio ((pair d d').settings [] threshold) s ⟨l, r, node⟩ attr ratio) :
    ratio = 1 := by
  have hlen : s.datapointPtrs.length = 2 := h.perm.length_eq
  have hr : r < s.datapointPtrs.length := (h.tree.range _ List.mem_cons_self).2
  obtain ⟨rfl, rfl⟩ : l = 0 ∧ r = 0 + 1 := by omega
  obtain ⟨hc, hl, hc', hl'⟩ := pair_classified h.sample
  rcases pair_order h.perm with hptrs | hptrs
  · have h0 : s.point 0 = s.solver.mem (.point
      0) := by simp [LearnerState.point, LearnerState.ptr, hptrs]
    have h1 : s.point (0 + 1) = s.solver.mem (.point 1) := by
      simp [LearnerState.point, LearnerState.ptr, hptrs]
    exact ratio_two rfl rfl (by rw [h0, hc]) (by rw [h1, hc']) (by rw [h0, h1, hl, hl']; rfl) hratio
  · have h0 : s.point 0 = s.solver.mem (.point
      1) := by simp [LearnerState.point, LearnerState.ptr, hptrs]
    have h1 : s.point (0 + 1) = s.solver.mem (.point 0) := by
      simp [LearnerState.point, LearnerState.ptr, hptrs]
    exact ratio_two rfl rfl (by rw [h0, hc']) (by rw [h1, hc]) (by rw [h0, h1, hl, hl']; rfl) hratio

/-- The constraints for the bound contradict the labels, or there are none. -/
theorem pair_boundConstraints_cases (h : (pair d d').Ok k) {threshold : Option ℤ}
    {hcs : List HornConstraint} (hcs_eq : (pair d d').boundConstraints threshold = .ok hcs) :
    hcs = [] ∨ ¬ ∃ ν, Consistent (pair d d').mem (pair d d').datapoints
      ((pair d d').hornConstraints ++ hcs) [] [] ν := by
  cases threshold with
  | none => exact .inl (Except.ok.inj hcs_eq).symm
  | some T =>
    by_cases hdist : Distinguishable k T ((pair d d').mem (.point 0)) ((pair d d').mem (.point 1))
    · left
      have heq := isDistinguishable_eq T (h.points.arity (.point 0) (by simp [pair]))
        (h.points.arity (.point 1) (by simp [pair]))
      rw [decide_eq_true hdist] at heq
      exact Except.ok.inj (hcs_eq.symm.trans (pair_boundConstraints heq))
    · right
      rintro ⟨ν, hν⟩
      obtain ⟨hcs', heq, -, hcompl⟩ := getIndistinguishableDatapoints_spec T (pair d d').datapoints
        h.points.arity
      obtain rfl := Except.ok.inj (hcs_eq.symm.trans heq)
      have hmem := hcompl (.point 0) (by simp [pair]) (.point 1) (by simp [pair]) (by simp) hdist
      have h0 : ν (.point 0) = true := hν.1 (.point 0) (by simp [pair]) true rfl
      have h1 : ν (.point 1) = false := hν.1 (.point 1) (by simp [pair]) false rfl
      obtain ⟨c, hc, hνc⟩ := hν.2.2.2 _ (List.mem_append_right _ hmem) fun p hp => by
        rw [List.mem_singleton.mp hp]
        exact h0
      obtain rfl := Option.some.inj hc
      rw [h1] at hνc
      cases hνc

/-- The gain ratios that an attempt on the pair computes. -/
theorem pair_ratiosOk (h : (pair d d').Ok k) (env : Environment) (threshold : Option ℤ) :
    RatiosOk ℝ env (pair d d') threshold := by
  intro hcs s₀ s ratio hcs_eq hinit hreach hratio
  rcases pair_boundConstraints_cases h hcs_eq with rfl | hno
  swap
  · -- the initial run fails
    obtain ⟨hcs', heq, hscope⟩ := h.boundConstraints threshold
    obtain rfl := Except.ok.inj (hcs_eq.symm.trans heq)
    rcases initialRun_spec env ((pair d d').settings hcs threshold)
      ((pair d d').fresh : LearnerState ℝ) (h.validInput hscope) with ⟨hsat, -⟩ | ⟨-, hrun⟩
    · exact absurd hsat hno
    · rw [hrun] at hinit
      cases hinit
  obtain ⟨hstart, -⟩ := learnInv_start h hcs_eq (by simp [pair]) hinit
  obtain ⟨⟨l, r, node⟩, L, s', h', hfinds⟩ := hratio.finds (hreach.inv hstart)
  have hrange := h'.tree.range _ List.mem_cons_self
  have hpoints : SampleOk (pair d d').mem (pair d d').datapoints
      ((pair d d').settings [] threshold).numberOfCategories k := h.points
  obtain ⟨attr, -, s₂, hres, hfound⟩ := hfinds.exists_attribute (k := k) hrange
    fun i hi => (h'.arity hpoints (h'.lt_length List.mem_cons_self hi)).2
  obtain ⟨i, ⟨hli, hir⟩, -, j, ⟨hlj, hjr⟩, hlt⟩ := hfound.hasCut env (plain_settings _ _ _)
    (hres.inRange hrange)
  have hlr : l < r := by
    have hij : i ≠ j := by
      rintro rfl
      omega
    dsimp only at hli hir hlj hjr
    omega
  have h₃ := h'.resort (hres.trans (sortSlice_resorted env (fun d => d.int attr)
    (hres.inRange hrange)))
  rw [pair_ratio h₃ hlr hfound]
  norm_num

/-- If the bound does not tell the points apart, the attempt finds no tree. -/
theorem pair_contradictory (h : (pair d d').Ok k) (env : Environment)
    (hdist : ¬ Distinguishable k T ((pair d d').mem (.point 0)) ((pair d d').mem (.point 1)))
    {steps : ℕ} (hsteps : 4 < steps) :
    attempt ℝ env (pair d d') steps (some T) = .error contradictory := by
  obtain ⟨hcs, hcs_eq, -, hcompl⟩ := getIndistinguishableDatapoints_spec T (pair d d').datapoints
    h.points.arity
  have hmem := hcompl (.point 0) (by simp [pair]) (.point 1) (by simp [pair]) (by simp) hdist
  rcases attempt_spec h hsteps (pair_ratiosOk h env (some T)) hcs hcs_eq with ⟨-, herr⟩ | ⟨hsat, -⟩
  · exact herr
  · have hbound : (pair d d').boundConstraints (some T) = .ok hcs := hcs_eq
    rcases pair_boundConstraints_cases h hbound with rfl | hno
    · cases hmem
    · exact absurd hsat hno

end HiceDt.Learner
