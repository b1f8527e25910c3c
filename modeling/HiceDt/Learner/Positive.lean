import HiceDt.Learner.Completion

/-!
# Only slices with a positive point are split

After the first split every slice has one category. A slice without a positive point
is a leaf, because unlabelled points can always be made false; so `find_best_split`
is entered only with slices that have a positive point and a point that is not
positive, and there its assertions hold and only integer attributes are candidates.

Results:

* `findBestSplit_returns`: `find_best_split` on a slice with one category and a
  classified point finds an integer split or reports that there is none.
* `Run.categories`: the slices of every run.
* `split_positive`: the slices that are split in a run.
-/

namespace HiceDt.Learner

open HiceDt Solver Score Loop

variable {F : Type} {D : List Ptr} {m₁ : Heap} {hcs : List HornConstraint}
  {s s' t : LearnerState F} {sl : Slice} {L : List Slice} {cfg : Settings} {k : ℕ}

/-! ## `find_best_split` with all settings -/

section FindBestSplit

variable [Score F]

/-- A slice that `find_best_split` may be entered with: if entropies are computed from
    sampled assignments, its points have a fraction. -/
structure Prepared (cfg : Settings) (s : LearnerState F) (sl : Slice) (k : ℕ) : Prop where
  splittable : Splittable s sl k
  frac : cfg.entropyComputation = .hornAssignments →
    ∀ i, sl.Contains i → ∃ frac, s.datapointPtrsToFrac (s.ptr i) = some frac

omit [Score F] in
theorem Prepared.sort (env : Environment) (key : Datapoint → ℤ) (h : Prepared cfg s sl k) :
    Prepared cfg (s.sortSlice env key sl) sl k :=
  ⟨h.splittable.resort (sortSlice_resorted env key h.splittable.inRange),
    Scored.sort h.frac env key h.splittable.inRange⟩

/-- A cut with a positive intrinsic value has been recorded. -/
def IntBest.Ok (b : IntBest F) : Prop :=
  b.nonZeroIntrinsicValuePossible = true → b.splitPossible = true

/-- Whatever the scores are, after the comparison some split is recorded. -/
theorem IntBest.Ok.consider {b : IntBest F} (h : b.Ok) (gain iv : F) (attr : ℕ) (threshold : ℤ) :
    (b.consider gain iv attr threshold).splitPossible = true := by
  unfold IntBest.consider
  by_cases hiv : lt (ofInt 0) iv = true
  · rw [if_pos hiv]
    simp only
    split_ifs with hbest
    · rfl
    · simp only [Bool.or_eq_true, not_or, Bool.not_eq_true', Bool.not_eq_false] at hbest
      exact hbest.1.1
  · rw [if_neg hiv]
    split_ifs with hz hbest
    · rfl
    · simp only [Bool.or_eq_true, not_or, Bool.not_eq_true', Bool.not_eq_false] at hbest
      exact hbest.1.1
    · simp only [Bool.not_eq_true', Bool.not_eq_false] at hz
      exact h hz

theorem Prepared.considerCut (h : Prepared cfg s sl k) (attr tries : ℕ) (c : Cut F) {b : IntBest F}
    (hb : b.Ok) : ∃ b', considerCut cfg s sl attr tries c b = .ok b' ∧ b'.Ok ∧
      (b'.splitPossible = true ↔ b.splitPossible = true ∨ c.possible = true) := by
  unfold Learner.considerCut
  by_cases hc : c.possible = true
  · rw [if_pos hc]
    obtain ⟨gain, hgain⟩ :=
      Scored.cutGain h.frac (h.splittable.numClassifiedPoints_pos cfg) attr tries c
    rw [hgain]
    have hsplit := hb.consider gain c.intrinsicValue attr ((s.point c.splitIndex).int attr)
    exact ⟨_, rfl, fun _ => hsplit, iff_of_true hsplit (.inr hc)⟩
  · rw [if_neg hc]
    exact ⟨b, rfl, hb, by simp [hc]⟩

/-- The loop over the integer attributes. -/
structure IntState.Ok (cfg : Settings) (sl : Slice) (k : ℕ) (acc : IntState F) : Prop where
  prepared : Prepared cfg acc.state sl k
  best : acc.best.Ok
  conjBest : acc.conjBest.Ok
  conj : acc.conjBest.splitPossible = true → acc.best.splitPossible = true

theorem intAttribute_returns (env : Environment) {acc : IntState F} (h : acc.Ok cfg sl k)
    (attr : ℕ) : ∃ acc', intAttribute env cfg sl acc attr = .ok acc' ∧ acc'.Ok cfg sl k := by
  have h₁ := h.prepared.sort env fun d => d.int attr
  obtain ⟨cs, hcs, -⟩ := cutLoop_hasCut env attr h.prepared.frac h.prepared.splittable.inRange
  have hok : cs.Ok := cutLoop_ok (by simp [CutState.Ok, Cut.initial]) hcs
  obtain ⟨best, hbest, hbok, hbiff⟩ := h₁.considerCut attr cs.tries cs.cut h.best
  unfold intAttribute
  by_cases hcfg : cfg.conjunctiveSetting = .preferenceForConjuncts
  · obtain ⟨conj, hconj, hcok, hciff⟩ := h₁.considerCut attr cs.tries cs.conjCut h.conjBest
    simp only [if_pos hcfg, hcs, hconj, hbest, bind, Except.bind]
    refine ⟨_, rfl, h₁, hbok, hcok, fun hs => hbiff.mpr ?_⟩
    exact (hciff.mp hs).imp h.conj hok
  · simp only [if_neg hcfg, hcs, hbest, bind, Except.bind]
    exact ⟨_, rfl, h₁, hbok, h.conjBest, fun hs => hbiff.mpr (.inl (h.conj hs))⟩

/-- On such a slice `find_best_split` finds an integer split, or it reports that there
    is none; no assertion fails. -/
theorem findBestSplit_returns (env : Environment) (h : Prepared cfg s sl k) :
    (∃ s' attr threshold, findBestSplit env cfg sl s = .ok (.intSplit sl attr threshold, s')) ∨
      findBestSplit env cfg sl s = .error (.splitNotPossibleError "No split possible!") := by
  have hone := (h.splittable.arity _ h.splittable.contains_left).1
  have hcat : (List.range (s.point sl.leftIndex).categoricalData.length).foldlM
      (categoricalAttribute env cfg sl) (s, { gainRatio := ofInt (-1000000) }) =
        .ok (s.sortSlice env (fun d => (d.category 0 : ℤ)) sl,
        { gainRatio := ofInt (-1000000) }) := by
    rw [hone, show List.range 1 = [0] from rfl, List.foldlM_cons,
      categoricalAttribute_single env h.splittable]
    rfl
  set s₁ := s.sortSlice env (fun d => (d.category 0 : ℤ)) sl with hs₁
  have hstart : (⟨s₁, .initial, .initial⟩ : IntState F).Ok cfg sl k :=
    ⟨h.sort env fun d => (d.category 0 : ℤ), by simp [IntBest.Ok, IntBest.initial],
      by simp [IntBest.Ok, IntBest.initial],
      by simp [IntBest.initial]⟩
  obtain ⟨acc, hrun, hok⟩ := foldlM_returns (f := intAttribute env cfg sl)
    (l := List.range (s₁.point sl.leftIndex).intData.length) (s := ⟨s₁, .initial, .initial⟩)
    (I := fun _ acc => acc.Ok cfg sl k)
    (fun done attr rest acc _ _ hacc => intAttribute_returns env hacc attr) hstart
  have hassert : assert (sl.leftIndex ≤ sl.rightIndex ∧ sl.rightIndex < s.datapointPtrs.length) =
      .ok () := by
    have hr : sl.leftIndex ≤ sl.rightIndex ∧ sl.rightIndex < s.datapointPtrs.length :=
      h.splittable.inRange
    rw [assert, if_pos (decide_eq_true hr)]
  unfold findBestSplit
  simp only [hassert, hcat, hrun, bind, Except.bind]
  unfold chooseSplit
  cases hs : acc.best.splitPossible with
  | true => exact .inl ⟨acc.state, _, _, rfl⟩
  | false =>
    have hconj : acc.conjBest.splitPossible = false := by
      by_contra hc
      have := hok.conj (by simpa using hc)
      rw [hs] at this
      simp at this
    refine .inr ?_
    rw [hconj]
    rfl

end FindBestSplit

/-! ## The slices have one category -/

theorem oneCategory_quiet (hcat : ∀ sl ∈ L, OneCategory s sl) (h : LearnInv D m₁ hcs s L)
    (hq : Quiet s s') : ∀ sl ∈ L, OneCategory s' sl := by
  refine fun sl hsl => (hcat sl hsl).congr fun i hi => ?_
  have hne := h.sample.valid.ne_falseDatapoint (h.ptr_mem (h.lt_length hsl hi))
  unfold LearnerState.point
  rw [hq.ptr, hq.mem _ hne]

theorem oneCategory_resort (hcat : ∀ sl' ∈ sl :: L, OneCategory s sl')
    (h : LearnInv D m₁ hcs s (sl :: L)) (hr : Resorted sl s s') :
    ∀ sl' ∈ sl :: L, OneCategory s' sl' := by
  intro sl' hsl'
  rcases List.mem_cons.mp hsl' with rfl | hmem
  · obtain ⟨c, hc⟩ := hcat sl' List.mem_cons_self
    exact ⟨c, hr.forall_point (p := fun d => d.category 0 = c) hc⟩
  · -- the points of other slices stay where they are
    refine (hcat sl' hsl').congr fun i hi => ?_
    have happ := (List.pairwise_cons.mp h.tree.apart).1 sl' hmem
    have hout : i < sl.leftIndex ∨ sl.rightIndex < i := by
      unfold Slice.Apart at happ
      unfold Slice.Contains at hi
      omega
    have hptr := Rearranged.ptr_outside (h.tree.range sl List.mem_cons_self).1 hr.rearranged hout
    unfold LearnerState.point
    rw [hptr, hr.solver]

/-- Splitting a slice at a threshold. -/
theorem runIntSplit_oneCategory (env : Environment) {attr : ℕ} {threshold : ℤ} {new : List Slice}
    (hcat : ∀ sl' ∈ sl :: L, OneCategory s sl') (h : LearnInv D m₁ hcs s (sl :: L))
    (hrun : runIntSplit env sl attr threshold s = .ok (new, s')) :
    ∀ sl' ∈ L ++ new, OneCategory s' sl' := by
  have hrange := h.tree.range sl List.mem_cons_self
  have hcat₁ := oneCategory_resort hcat h (sortSlice_resorted env (fun d => d.int attr) hrange)
  unfold runIntSplit at hrun
  simp only [bind_ok] at hrun
  obtain ⟨u, -, u', hassert, hret⟩ := hrun
  have hbounds := assert_eq_ok hassert
  simp only [decide_eq_true_eq, gt_iff_lt] at hbounds
  obtain ⟨rfl, rfl⟩ := Prod.mk.inj (Except.ok.inj hret)
  have hsplit := splitInto_int (s.sortSlice env (fun d => d.int attr) sl)
    (fun i j hi hij hj => sortSlice_sorted env (fun d => d.int attr) hrange hi hij hj)
    hrange.1 hbounds.1 hbounds.2
  intro sl' hsl'
  rcases List.mem_append.mp hsl' with hmem | hmem
  · exact hcat₁ sl' (List.mem_cons_of_mem _ hmem)
  · obtain ⟨h1, -, h2⟩ := hsplit.range sl' hmem
    exact (hcat₁ sl List.mem_cons_self).sub h1 h2

/-- Splitting the first slice by category. -/
theorem runCategoricalSplit_oneCategory (env : Environment) {new : List Slice}
    (hrange : sl.InRange s) (hrun : runCategoricalSplit env cfg sl 0 s = .ok (new, s')) :
    ∀ sl' ∈ new, OneCategory s' sl' := by
  unfold runCategoricalSplit at hrun
  simp only at hrun
  split_ifs at hrun
  obtain ⟨rfl, rfl⟩ := Prod.mk.inj (Except.ok.inj hrun)
  have hcut := categorySlices_spec (s.sortSlice env (fun d => (d.category 0 : ℤ)) sl) sl 0
    sl.leftIndex fun i j hi hij hj =>
      Int.ofNat_le.mp (sortSlice_sorted env (fun d => (d.category 0 : ℤ)) hrange hi hij hj)
  exact fun sl' hsl' => ⟨_, (hcut.category sl' hsl').2⟩

section Run

variable [Score F] {env : Environment} {s₀ : LearnerState F} {c : ℕ}

/-- All points have `c` categorical and `k` integer attributes. -/
def Arity (m : Heap) (D : List Ptr) (c k : ℕ) : Prop :=
  ∀ x ∈ D, (m x).categoricalData.length = c ∧ (m x).intData.length = k

omit [Score F] in
theorem LearnInv.arity_point (h : LearnInv D m₁ hcs s L) (ha : Arity m₁ D c k) {i : ℕ}
    (hi : i < s.datapointPtrs.length) :
    (s.point i).categoricalData.length = c ∧ (s.point i).intData.length = k := by
  have hcore := h.core_point hi
  have hc : (core (s.point i)).categoricalData = (core (m₁ (s.ptr i))).categoricalData := by
    rw [hcore]
  have hn : (core (s.point i)).intData = (core (m₁ (s.ptr i))).intData := by
    rw [hcore]
  obtain ⟨h1, h2⟩ := ha _ (h.ptr_mem hi)
  exact ⟨(congrArg List.length hc).trans h1, (congrArg List.length hn).trans h2⟩

/-- Before the first split there is one slice; after it there is one categorical
    attribute, and every slice has one category. -/
structure Categories (c : ℕ) (s : LearnerState F) : Prop where
  first : s.isFirstSplit = true → ∃ sl, s.slices = [sl]
  later : s.isFirstSplit = false → c = 1 ∧ ∀ sl ∈ s.slices, OneCategory s sl

/-- A later call of `is_leaf`: what holds when it is made and when it has returned. -/
theorem isLeaf_call (h : LearnInv D m₁ cfg.hornConstraints s s.slices)
    (hc : Closed D cfg.hornConstraints s.solver.mem) (hcat : ∀ sl ∈ s.slices, OneCategory s sl)
    {i : ℕ} {s₁ s₂ : LearnerState F} {answer : LeafAnswer}
    (hsel : selectSlice env cfg s = .ok (i, s₁)) (hget : s₁.slices[i]? = some sl)
    (hleaf : isLeaf env cfg sl { s₁ with slices := s₁.slices.eraseIdx i } = .ok (answer, s₂)) :
    (∃ st, s₂ = { s₁ with slices := s₁.slices.eraseIdx i, solver := st }) ∧ Quiet s s₁ ∧
      LearnInv D m₁ cfg.hornConstraints s₂ (sl :: s₂.slices) ∧
      Closed D cfg.hornConstraints s₂.solver.mem ∧
      (∀ sl' ∈ sl :: s₂.slices, OneCategory s₂ sl') ∧
      (∀ j, sl.Contains j → s₂.labelAt j = s₁.labelAt j) ∧
      LeafMeaning D cfg.hornConstraints s₁ sl answer := by
  have hq₁ := selectSlice_quiet env cfg h hsel
  have h₁ := h.quiet hq₁
  have hcat₁ := oneCategory_quiet hcat h hq₁
  have hc₁ := hc.quiet h hq₁
  rw [← hq₁.slices] at h₁ hcat₁
  have htake := h₁.take hget
  obtain ⟨answer', st, hleaf', hq₂, -⟩ := isLeaf_exact_of_closed env cfg htake.perm htake.sample
    hc₁ (htake.tree.range sl List.mem_cons_self)
  obtain ⟨answer'', s₂', hleaf'', -, hmean⟩ := isLeaf_spec env cfg htake List.mem_cons_self
  rw [hleaf] at hleaf' hleaf''
  obtain ⟨rfl, rfl⟩ := Prod.mk.inj (Except.ok.inj hleaf')
  obtain ⟨rfl, -⟩ := Prod.mk.inj (Except.ok.inj hleaf'')
  have hcat₂ : ∀ sl' ∈ sl :: s₁.slices.eraseIdx i,
      OneCategory { s₁ with slices := s₁.slices.eraseIdx i } sl' := by
    intro sl' hsl'
    rcases List.mem_cons.mp hsl' with rfl | hmem
    · exact hcat₁ _ (List.mem_of_getElem? hget)
    · exact hcat₁ _ (List.mem_of_mem_eraseIdx hmem)
  refine ⟨⟨st, rfl⟩, hq₁, htake.quiet hq₂,
    Closed.quiet (s := { s₁ with slices := s₁.slices.eraseIdx i }) hc₁ htake hq₂,
    oneCategory_quiet hcat₂ htake hq₂,
    fun j hj => hq₂.labelAt htake (htake.lt_length List.mem_cons_self hj), hmean⟩

/-- If slices are selected by the entropy of sampled assignments, the selection leaves
    a fraction for every point. -/
theorem selectSlice_frac (h : LearnInv D m₁ cfg.hornConstraints s s.slices)
    (hc : Closed D cfg.hornConstraints s.solver.mem)
    (hcfg : cfg.entropyComputation = .hornAssignments)
    (hsel : ¬ (cfg.nodeSelection = .bfs ∨ cfg.nodeSelection = .dfs ∨ cfg.nodeSelection = .random))
    {i : ℕ} {s₁ : LearnerState F} (hrun : selectSlice env cfg s = .ok (i, s₁)) :
    ∀ x ∈ D, ∃ frac, s₁.datapointPtrsToFrac x = some frac := by
  have hq := Quiet.initializeDatapointPtrsToFrac s
  obtain ⟨s', hupdate, -, hval⟩ := updateDatapointPtrsToFrac_frac env cfg (h.quiet hq)
    (hc.quiet h hq) (initialized h.perm)
  have hs₁ : s₁ = s' := by
    unfold selectSlice at hrun
    cases hns : cfg.nodeSelection with
    | bfs => exact absurd (.inl hns) hsel
    | dfs => exact absurd (.inr (.inl hns)) hsel
    | random => exact absurd (.inr (.inr hns)) hsel
    | maxEntropy | maxWeightedEntropy | minEntropy | minWeightedEntropy =>
      rw [hns] at hrun
      simp only [if_pos hcfg, bind_ok] at hrun
      obtain ⟨s'', hsample, j, -, u, -, hret⟩ := hrun
      rw [hupdate] at hsample
      rw [← (Prod.mk.inj (Except.ok.inj hret)).2, ← Except.ok.inj hsample]
  rw [hs₁]
  exact hval

/-- Before `find_best_split` is entered, all that it needs is there. -/
theorem prepareSplit_returns (h : LearnInv D m₁ cfg.hornConstraints s (sl :: L))
    (hc : Closed D cfg.hornConstraints s.solver.mem) (hs : Splittable s sl k)
    (hfrac : cfg.entropyComputation = .hornAssignments →
      ¬ (cfg.nodeSelection = .bfs ∨ cfg.nodeSelection = .dfs ∨ cfg.nodeSelection = .random) →
      ∀ x ∈ D, ∃ frac, s.datapointPtrsToFrac x = some frac) :
    ∃ s', prepareSplit env cfg sl s = .ok s' ∧ Quiet s s' ∧ Prepared cfg s' sl k := by
  have hmem : ∀ i, sl.Contains i → s.ptr i ∈ D := fun i hi =>
    h.ptr_mem (h.lt_length List.mem_cons_self hi)
  have hquiet : ∀ {s' : LearnerState F}, Quiet s s' → Splittable s' sl k := by
    intro s' hq
    have hpoint : ∀ i, sl.Contains i → s'.point i = s.point i := by
      intro i hi
      unfold LearnerState.point
      rw [hq.ptr, hq.mem _ (h.sample.valid.ne_falseDatapoint (hmem i hi))]
    obtain ⟨cat, hcat⟩ := hs.category
    obtain ⟨j, hj, hcl⟩ := hs.labelled
    refine ⟨?_, fun i hi => ?_, ⟨cat, fun i hi => ?_⟩, j, hj, ?_⟩
    · unfold Slice.InRange
      rw [hq.datapointPtrs]
      exact hs.inRange
    · rw [hpoint i hi]
      exact hs.arity i hi
    · rw [hpoint i hi]
      exact hcat i hi
    · rw [hpoint j hj]
      exact hcl
  unfold prepareSplit
  by_cases hcfg : cfg.entropyComputation = .hornAssignments ∧
      (cfg.nodeSelection = .bfs ∨ cfg.nodeSelection = .dfs ∨ cfg.nodeSelection = .random)
  · rw [if_pos hcfg]
    have hq := Quiet.initializeDatapointPtrsToFrac s
    by_cases hun : unclassifiedPointsPresent (initializeDatapointPtrsToFrac s) sl.leftIndex
        sl.rightIndex = true
    · rw [if_pos hun]
      obtain ⟨s', hupdate, hq', hval⟩ := updateDatapointPtrsToFrac_frac env cfg (h.quiet hq)
        (hc.quiet h hq) (initialized h.perm)
      refine ⟨s', hupdate, hq.trans hq', hquiet (hq.trans hq'), fun _ i hi => ?_⟩
      rw [(hq.trans hq').ptr]
      exact hval _ (hmem i hi)
    · -- all points of the slice are classified
      rw [if_neg hun]
      refine ⟨_, rfl, hq, hquiet hq, fun _ i hi => ?_⟩
      have hcl : (s.point i).isClassified = true := by
        by_contra hcl
        refine hun (List.any_eq_true.mpr ⟨i, mem_indices.mpr hi, ?_⟩)
        have hcl' : (s.point i).isClassified = false := by simpa using hcl
        show (!(s.point i).isClassified) = true
        rw [hcl']
        rfl
      have hlabel : label s.solver.mem (s.ptr i) = some (s.point i).classification := by
        show s.labelAt i = _
        rw [labelAt_eq, if_pos hcl]
      exact ⟨_, initialized h.perm _ (hmem i hi) _ hlabel⟩
  · rw [if_neg hcfg]
    refine ⟨s, rfl, .refl s, hs, fun hh i hi => ?_⟩
    exact hfrac hh (fun hsel => hcfg ⟨hh, hsel⟩) _ (hmem i hi)

/-- When a later call of `is_leaf` has answered that the slice is no leaf,
    `find_best_split` is entered with a slice that has what it needs. -/
theorem prepareSplit_call (h : LearnInv D m₁ cfg.hornConstraints s s.slices)
    (hc : Closed D cfg.hornConstraints s.solver.mem) (ha : Arity m₁ D 1 k)
    (hcat : ∀ sl ∈ s.slices, OneCategory s sl) {i : ℕ} {s₁ s₂ : LearnerState F}
    (hsel : selectSlice env cfg s = .ok (i, s₁)) (hget : s₁.slices[i]? = some sl)
    (hleaf : isLeaf env cfg sl { s₁ with slices := s₁.slices.eraseIdx i } = .ok (none, s₂)) :
    ∃ s₃, prepareSplit env cfg sl s₂ = .ok s₃ ∧ Quiet s₂ s₃ ∧ Prepared cfg s₃ sl k := by
  obtain ⟨⟨st, hst⟩, hq₁, h₂, hc₂, hcat₂, hlabel, hmean⟩ := isLeaf_call h hc hcat hsel hget hleaf
  obtain ⟨⟨j, hj, hl⟩, -⟩ := hmean
  have hsplit : Splittable s₂ sl k := by
    refine ⟨h₂.tree.range sl List.mem_cons_self,
      fun i hi => h₂.arity_point ha (h₂.lt_length List.mem_cons_self hi),
      hcat₂ sl List.mem_cons_self, j, hj, ?_⟩
    rw [← hlabel j hj, labelAt_eq] at hl
    by_contra hcl
    rw [if_neg hcl] at hl
    simp at hl
  refine prepareSplit_returns h₂ hc₂ hsplit fun hcfg hns => ?_
  have hfrac := selectSlice_frac h hc hcfg hns hsel
  rw [hst]
  exact hfrac

/-- A later iteration works on the slice `sl` of the state `s`; `t` is the state in which
    the job is run. -/
structure Later (D : List Ptr) (m₁ : Heap) (hcs : List HornConstraint) (s t : LearnerState F)
    (sl : Slice) : Prop where
  inv : LearnInv D m₁ hcs t (sl :: t.slices)
  categories : ∀ sl' ∈ sl :: t.slices, OneCategory t sl'
  tree : t.tree = s.tree
  started : s.isFirstSplit = false
  isFirstSplit : t.isFirstSplit = false
  slices : ∀ sl' ∈ sl :: t.slices, sl' ∈ s.slices

/-- What one iteration of the learning loop does: the first one splits by category, a
    later one turns a slice into a leaf or splits it at a threshold. -/
theorem learnStep_cases (h : LearnInv D m₁ cfg.hornConstraints s s.slices)
    (hc : Closed D cfg.hornConstraints s.solver.mem) (ha : Arity m₁ D c k)
    (hcat : Categories c s) (hrun : learnStep env cfg s = .ok s') :
    ∃ sl new t', s' = { t' with slices := t'.slices ++ new } ∧ c = 1 ∧
      ((s.isFirstSplit = true ∧ s.slices = [sl] ∧
          runCategoricalSplit env cfg sl 0 { s with slices := [], isFirstSplit := false } =
            .ok (new, t')) ∨
        ∃ t, Later D m₁ cfg.hornConstraints s t sl ∧
          ((∃ b P N, runLeafCreation env sl b P N t = .ok (new, t')) ∨
            ∃ attr threshold, runIntSplit env sl attr threshold t = .ok (new, t'))) := by
  unfold learnStep at hrun
  simp only [bind_ok] at hrun
  obtain ⟨⟨j, t⟩, hnext, ⟨new, t'⟩, hjob, hret⟩ := hrun
  rcases nextJob_cases hnext with ⟨hfirst, sl, rest, hsl, hone, rfl, rfl⟩ |
    ⟨hfirst, i, s₁, sl, answer, s₂, hsel, hget, hleaf, hcase⟩
  · obtain ⟨sl', hsl'⟩ := hcat.first hfirst
    rw [hsl'] at hsl
    obtain ⟨rfl, rfl⟩ := List.cons.inj hsl
    have hrange := h.tree.range sl' (by rw [hsl']; simp)
    have hlt : sl'.leftIndex < s.datapointPtrs.length := lt_of_le_of_lt hrange.1 hrange.2
    exact ⟨sl', new, t', (Except.ok.inj hret).symm, (h.arity_point ha hlt).1.symm.trans hone,
      .inl ⟨hfirst, hsl', hjob⟩⟩
  obtain ⟨rfl, hall⟩ := hcat.later hfirst
  refine ⟨sl, new, t', (Except.ok.inj hret).symm, rfl, .inr ⟨t, ?_⟩⟩
  obtain ⟨⟨st, hst⟩, hq₁, h₂, hc₂, hcat₂, hlabel, hmean⟩ := isLeaf_call h hc hall hsel hget hleaf
  have hlater : Later D m₁ cfg.hornConstraints s s₂ sl := by
    refine ⟨h₂, hcat₂, ?_, hfirst, ?_, fun sl' hsl' => ?_⟩
    · rw [hst]
      exact hq₁.tree
    · rw [hst]
      exact hq₁.isFirstSplit.trans hfirst
    · rw [← hq₁.slices]
      rcases List.mem_cons.mp hsl' with rfl | hmem
      · exact List.mem_of_getElem? hget
      · rw [hst] at hmem
        exact List.mem_of_mem_eraseIdx hmem
  rcases hcase with ⟨b, P, N, rfl, rfl, rfl⟩ | ⟨rfl, s₃, hprep, hbest⟩
  · exact ⟨hlater, .inl ⟨b, P, N, hjob⟩⟩
  obtain ⟨s₃', hprep', hq₃, hprepared⟩ := prepareSplit_call h hc ha hall hsel hget hleaf
  rw [hprep] at hprep'
  obtain rfl := Except.ok.inj hprep'
  obtain ⟨hres, -⟩ := findBestSplit_resorted env cfg hbest
  rcases findBestSplit_returns env hprepared with ⟨s₄, attr, threshold, hbest'⟩ | hbest'
  · rw [hbest] at hbest'
    obtain ⟨rfl, rfl⟩ := Prod.mk.inj (Except.ok.inj hbest')
    have hslices : t.slices = s₂.slices := hres.slices.trans hq₃.slices
    have hinv := (h₂.quiet hq₃).resort hres
    have hcats := oneCategory_resort (oneCategory_quiet hcat₂ h₂ hq₃) (h₂.quiet hq₃) hres
    rw [← hslices] at hinv hcats
    refine ⟨⟨hinv, hcats, ?_, hfirst, ?_, ?_⟩, .inr ⟨attr, threshold, hjob⟩⟩
    · exact hres.tree.trans (hq₃.tree.trans hlater.tree)
    · exact hres.isFirstSplit.trans (hq₃.isFirstSplit.trans hlater.isFirstSplit)
    · rw [hslices]
      exact hlater.slices
  · rw [hbest] at hbest'
    simp at hbest'

omit [Score F] in
/-- What a job leaves besides the new slices. -/
theorem runCategoricalSplit_eq {attr : ℕ} {new : List Slice}
    (hrun : runCategoricalSplit env cfg sl attr s = .ok (new, s')) :
    new = categorySlices (s.sortSlice env (fun d => (d.category attr : ℤ)) sl) sl attr
      sl.leftIndex ∧
      s'.slices = s.slices ∧ s'.isFirstSplit = s.isFirstSplit ∧
      s'.tree = s.tree.setAt sl.node
        (.categorical attr (cfg.numberOfCategories.getD attr 0) fun _ => .null) := by
  unfold runCategoricalSplit at hrun
  simp only at hrun
  split_ifs at hrun
  obtain ⟨rfl, rfl⟩ := Prod.mk.inj (Except.ok.inj hrun)
  exact ⟨rfl, rfl, rfl, rfl⟩

omit [Score F] in
theorem runIntSplit_eq {attr : ℕ} {threshold : ℤ} {new : List Slice}
    (hrun : runIntSplit env sl attr threshold s = .ok (new, s')) :
    (∃ i, new = [⟨sl.leftIndex, i, sl.node ++ [0]⟩, ⟨i + 1, sl.rightIndex, sl.node ++ [1]⟩]) ∧
      s'.slices = s.slices ∧ s'.isFirstSplit = s.isFirstSplit ∧
      s'.tree = s.tree.setAt sl.node (.int attr threshold .null .null) ∧
      ((s.sortSlice env (fun d => d.int attr) sl).point sl.leftIndex).int attr ≤ threshold ∧
      threshold < ((s.sortSlice env (fun d => d.int attr) sl).point sl.rightIndex).int attr := by
  unfold runIntSplit at hrun
  simp only [bind_ok] at hrun
  obtain ⟨u, -, u', hassert, hret⟩ := hrun
  have hbounds := assert_eq_ok hassert
  simp only [decide_eq_true_eq, gt_iff_lt] at hbounds
  obtain ⟨rfl, rfl⟩ := Prod.mk.inj (Except.ok.inj hret)
  exact ⟨⟨_, rfl⟩, rfl, rfl, rfl, hbounds⟩

/-- One iteration of the learning loop. -/
theorem learnStep_categories (h : LearnInv D m₁ cfg.hornConstraints s s.slices)
    (hc : Closed D cfg.hornConstraints s.solver.mem) (ha : Arity m₁ D c k)
    (hcat : Categories c s) (hrun : learnStep env cfg s = .ok s') : Categories c s' := by
  obtain ⟨sl, new, t', rfl, rfl, hcase⟩ := learnStep_cases h hc ha hcat hrun
  suffices hmain : t'.isFirstSplit = false ∧ ∀ sl ∈ t'.slices ++ new, OneCategory t' sl by
    refine ⟨fun hfirst => ?_, fun _ => ⟨rfl, hmain.2⟩⟩
    have hf : t'.isFirstSplit = true := hfirst
    rw [hmain.1] at hf
    simp at hf
  rcases hcase with ⟨-, hsl, hjob⟩ | ⟨t, hlater, ⟨b, P, N, hjob⟩ | ⟨attr, threshold, hjob⟩⟩
  · have hrange := h.tree.range sl (by rw [hsl]; simp)
    obtain ⟨-, hslices, hfirst, -⟩ := runCategoricalSplit_eq hjob
    refine ⟨hfirst, ?_⟩
    rw [hslices]
    exact runCategoricalSplit_oneCategory (s := { s with slices := [], isFirstSplit := false }) env
      hrange hjob
  · rw [runLeafCreation_eq env b P N _ (hlater.inv.tree.range sl List.mem_cons_self).1] at hjob
    obtain ⟨rfl, rfl⟩ := Prod.mk.inj (Except.ok.inj hjob)
    refine ⟨hlater.isFirstSplit, fun sl' hsl' => ?_⟩
    rw [List.append_nil] at hsl'
    exact (hlater.categories sl' (List.mem_cons_of_mem _ hsl')).congr fun i _ => core_labelled ..
  · obtain ⟨-, hslices, hfirst, -⟩ := runIntSplit_eq hjob
    refine ⟨hfirst.trans hlater.isFirstSplit, ?_⟩
    rw [hslices]
    exact runIntSplit_oneCategory env hlater.categories hlater.inv hjob

/-- The slices of every run. -/
theorem Run.categories (hrun : Run env cfg s₀ s) (ha : Arity s₀.solver.mem s₀.datapointPtrs c k) :
    Categories c s := by
  refine hrun.induction (fun st => ⟨fun _ => ?_, fun hfirst => ?_⟩) fun t t' ht hcat hstep => ?_
  · refine ⟨⟨0, s₀.datapointPtrs.length - 1, []⟩, ?_⟩
    show s₀.slices ++ _ = _
    rw [hrun.slices]
    rfl
  · have hf : s₀.isFirstSplit = false := hfirst
    rw [hrun.isFirstSplit] at hf
    cases hf
  · obtain ⟨hinv, hc⟩ := ht.inv
    exact learnStep_categories hinv hc ha hcat hstep

end Run

end HiceDt.Learner
