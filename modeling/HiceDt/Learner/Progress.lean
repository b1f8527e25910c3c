import Mathlib.Logic.Relation
import HiceDt.Learner.Cuts
import HiceDt.Learner.Soundness

/-!
# Progress of the learner

With the heuristics of the driver, an iteration of the learning loop returns unless
it meets a slice without an allowed cut. Then the slice has a point that is
labelled true and one that is not, and no allowed cut separates them. Every
iteration that returns decreases `work`, so the loop terminates.

Results:

* `learnStep_progress`: one iteration.
* `learn_progress`: a run returns, or it ends because two points are inseparable.
* `LooksForSplit.hasCut`: a run that returns has found a cut of every slice that was no leaf.
-/

namespace HiceDt.Learner

open HiceDt Solver Score Loop

variable {F : Type} {D P N : List Ptr} {m₁ : Heap} {hcs : List HornConstraint}
  {s s' s'' : LearnerState F} {sl : Slice} {L : List Slice} {cfg : Settings} {k : ℕ}

/-! ## Samples -/

/-- The points have one categorical attribute, whose value is a category, and `k`
    integer attributes. -/
structure SampleOk (m : Heap) (D : List Ptr) (numberOfCategories : List ℕ) (k : ℕ) : Prop where
  arity : ∀ x ∈ D, (m x).categoricalData.length = 1 ∧ (m x).intData.length = k
  category : ∀ x ∈ D, (m x).category 0 < numberOfCategories.getD 0 0

/-- Some attribute has different values, and the bound allows a cut at the smaller
    one. -/
def Separable (cfg : Settings) (k : ℕ) (d d' : Datapoint) : Prop :=
  ∃ attr < k, (d.int attr < d'.int attr ∧ cutAllowed cfg (d.int attr) = true) ∨
    (d'.int attr < d.int attr ∧ cutAllowed cfg (d'.int attr) = true)

/-- The bound allows the threshold, and it is a value of a point. -/
def AllowedCut (cfg : Settings) (D : List Ptr) (m₁ : Heap) (attr : ℕ) (threshold : ℤ) : Prop :=
  cutAllowed cfg threshold = true ∧ ∃ x ∈ D, (m₁ x).int attr = threshold

theorem LearnInv.core_point (h : LearnInv D m₁ hcs s L) {i : ℕ}
    (hi : i < s.datapointPtrs.length) : core (s.point i) = core (m₁ (s.ptr i)) :=
  h.sample.core_eq _ (h.sample.valid.ne_falseDatapoint (h.ptr_mem hi))

theorem LearnInv.arity (h : LearnInv D m₁ hcs s L) (hok : SampleOk m₁ D cfg.numberOfCategories k)
    {i : ℕ} (hi : i < s.datapointPtrs.length) :
    (s.point i).categoricalData.length = 1 ∧ (s.point i).intData.length = k := by
  have hcore := h.core_point hi
  have hc : (core (s.point i)).categoricalData = (core (m₁ (s.ptr i))).categoricalData := by
    rw [hcore]
  have hn : (core (s.point i)).intData = (core (m₁ (s.ptr i))).intData := by
    rw [hcore]
  obtain ⟨h1, h2⟩ := hok.arity _ (h.ptr_mem hi)
  exact ⟨(congrArg List.length hc).trans h1, (congrArg List.length hn).trans h2⟩

theorem LearnInv.category_lt (h : LearnInv D m₁ hcs s L)
    (hok : SampleOk m₁ D cfg.numberOfCategories k) {i : ℕ} (hi : i < s.datapointPtrs.length) :
    (s.point i).category 0 < cfg.numberOfCategories.getD 0 0 := by
  rw [category_congr (h.core_point hi)]
  exact hok.category _ (h.ptr_mem hi)

/-! ## The measure -/

/-- The number of nodes that a slice may still need, leaves and inner nodes. -/
def Slice.weight (sl : Slice) : ℕ := 2 * (sl.rightIndex + 1 - sl.leftIndex) - 1

/-- The number of iterations that may still be needed. -/
def work (s : LearnerState F) : ℕ :=
  (s.slices.map Slice.weight).sum + if s.isFirstSplit then 1 else 0

theorem categorySlices_weight (s : LearnerState F) (sl : Slice) (attr cur : ℕ) :
    ((categorySlices s sl attr cur).map Slice.weight).sum ≤ 2 * (sl.rightIndex + 1 - cur) - 1 := by
  induction cur using categorySlices.induct s sl attr with
  | case1 cur hle c right ih =>
    have hcr : cur ≤ right := le_runEnd ..
    have hrr : right ≤ sl.rightIndex := runEnd_le _ _ _ _ hle
    rw [categorySlices, if_pos hle]
    show (2 * (right + 1 - cur) - 1) +
      ((categorySlices s sl attr (right + 1)).map Slice.weight).sum ≤ _
    omega
  | case2 cur hgt =>
    rw [categorySlices, if_neg hgt]
    simp

/-! ## The invariant -/

/-- All points of the slice have the same category. -/
def OneCategory (s : LearnerState F) (sl : Slice) : Prop :=
  ∃ c, ∀ i, sl.Contains i → (s.point i).category 0 = c

/-- After the first split every slice has one category; the thresholds of the tree
    are allowed. -/
structure Progress (cfg : Settings) (D : List Ptr) (m₁ : Heap) (s : LearnerState F)
    (L : List Slice) : Prop where
  category : ∀ sl ∈ L, OneCategory s sl
  thresholds : s.tree.Thresholds (AllowedCut cfg D m₁)

theorem OneCategory.congr (h : OneCategory s sl)
    (hcore : ∀ i, sl.Contains i → core (s'.point i) = core (s.point i)) : OneCategory s' sl := by
  obtain ⟨c, hc⟩ := h
  refine ⟨c, fun i hi => ?_⟩
  rw [category_congr (hcore i hi)]
  exact hc i hi

theorem OneCategory.sub {sl' : Slice} (h : OneCategory s sl)
    (hl : sl.leftIndex ≤ sl'.leftIndex) (hr : sl'.rightIndex ≤ sl.rightIndex) :
    OneCategory s sl' := by
  obtain ⟨c, hc⟩ := h
  exact ⟨c, fun i hi => hc i ⟨le_trans hl hi.1, le_trans hi.2 hr⟩⟩

theorem OneCategory.quiet (h : OneCategory s sl) (hinv : LearnInv D m₁ hcs s (sl :: L))
    (hq : Quiet s s') : OneCategory s' sl := by
  refine h.congr fun i hi => ?_
  have hne := hinv.sample.valid.ne_falseDatapoint
    (hinv.ptr_mem (hinv.lt_length List.mem_cons_self hi))
  unfold LearnerState.point
  rw [hq.ptr, hq.mem _ hne]

theorem LeafMeaning.quiet_none (h : LeafMeaning D hcs s sl none)
    (hinv : LearnInv D m₁ hcs s (sl :: L))
    (hq : Quiet s s') : LeafMeaning D hcs s' sl none := by
  obtain ⟨⟨i, hi, hli⟩, j, hj, hlj⟩ := h
  refine ⟨⟨i, hi, ?_⟩, j, hj, ?_⟩
  · rw [hq.labelAt hinv (hinv.lt_length List.mem_cons_self hi)]
    exact hli
  · rw [hq.labelAt hinv (hinv.lt_length List.mem_cons_self hj)]
    exact hlj

theorem Progress.quiet (h : Progress cfg D m₁ s L) (hinv : LearnInv D m₁ hcs s L)
    (hq : Quiet s s') :
    Progress cfg D m₁ s' L := by
  refine ⟨fun sl hsl => (h.category sl hsl).congr fun i hi =>
    ?_, by rw [hq.tree]; exact h.thresholds⟩
  have hne := hinv.sample.valid.ne_falseDatapoint (hinv.ptr_mem (hinv.lt_length hsl hi))
  unfold LearnerState.point
  rw [hq.ptr, hq.mem _ hne]

theorem Progress.resort (h : Progress cfg D m₁ s (sl :: L)) (hinv : LearnInv D m₁ hcs s (sl :: L))
    (hr : Resorted sl s s') : Progress cfg D m₁ s' (sl :: L) := by
  refine ⟨fun sl' hsl' => ?_, by rw [hr.tree]; exact h.thresholds⟩
  rcases List.mem_cons.mp hsl' with rfl | hmem
  · obtain ⟨c, hc⟩ := h.category sl' List.mem_cons_self
    exact ⟨c, hr.forall_point (p := fun d => d.category 0 = c) hc⟩
  · -- the points of other slices stay where they are
    refine (h.category sl' hsl').congr fun i hi => ?_
    have happ := (List.pairwise_cons.mp hinv.tree.apart).1 sl' hmem
    have hout : i < sl.leftIndex ∨ sl.rightIndex < i := by
      unfold Slice.Apart at happ
      unfold Slice.Contains at hi
      omega
    have hptr := Rearranged.ptr_outside (hinv.tree.range sl List.mem_cons_self).1 hr.rearranged hout
    unfold LearnerState.point
    rw [hptr, hr.solver]

/-- The state of the learning loop between two iterations. -/
def Ready (cfg : Settings) (D : List Ptr) (m₁ : Heap) (s : LearnerState F) : Prop :=
  (s.isFirstSplit = true ∧ (∃ sl, s.slices = [sl]) ∧
      s.tree.Thresholds (AllowedCut cfg D m₁)) ∨
    (s.isFirstSplit = false ∧ Progress cfg D m₁ s s.slices)

/-! ## Running a job -/

theorem runLeafCreation_progress (env : Environment) (b : Bool) (P N : List Ptr)
    (h : LearnInv D m₁ hcs s (sl :: L)) (hpr : Progress cfg D m₁ s (sl :: L)) :
    ∃ s', runLeafCreation env sl b P N s = .ok ([], s') ∧ s'.slices = s.slices ∧
      s'.isFirstSplit = s.isFirstSplit ∧ Progress cfg D m₁ s' L := by
  have hle := (h.tree.range sl List.mem_cons_self).1
  refine ⟨_, runLeafCreation_eq env b P N s hle, rfl, rfl, fun sl' hsl' => ?_, ?_⟩
  · exact (hpr.category sl' (List.mem_cons_of_mem _ hsl')).congr fun i _ => core_labelled ..
  · have hn : (Tree.leaf b).Thresholds (AllowedCut cfg D m₁) := trivial
    exact hpr.thresholds.setAt hn sl.node

/-- A cut of the slice splits it. -/
theorem runIntSplit_progress (env : Environment) {attr : ℕ} {threshold : ℤ}
    (h : LearnInv D m₁ hcs s (sl :: L)) (hpr : Progress cfg D m₁ s (sl :: L))
    (hcut : ValidCut cfg s sl attr threshold) :
    ∃ new s', runIntSplit env sl attr threshold s = .ok (new, s') ∧ s'.slices = s.slices ∧
      s'.isFirstSplit = s.isFirstSplit ∧ Progress cfg D m₁ s' (L ++ new) ∧
      (new.map Slice.weight).sum < sl.weight := by
  have hrange := h.tree.range sl List.mem_cons_self
  have hres := sortSlice_resorted env (fun d => d.int attr) hrange
  have hsorted := fun i j (hi : sl.leftIndex ≤ i) (hij : i ≤ j) (hj : j ≤ sl.rightIndex) =>
    sortSlice_sorted env (fun d => d.int attr) hrange hi hij hj
  have hpr₁ := hpr.resort h hres
  have hallowed : AllowedCut cfg D m₁ attr threshold := by
    obtain ⟨⟨i, hi, heq⟩, -, ha⟩ := hcut
    have hi' := h.lt_length List.mem_cons_self hi
    exact ⟨ha, s.ptr i, h.ptr_mem hi', by rw [← int_congr (h.core_point hi'), heq]⟩
  obtain ⟨⟨i, hi, hieq⟩, ⟨j, hj, hjgt⟩, -⟩ := hres.validCut.mpr hcut
  have hsl : (s.sortSlice env (fun d => d.int attr) sl).slices = s.slices := rfl
  have hfi : (s.sortSlice env (fun d => d.int attr) sl).isFirstSplit = s.isFirstSplit := rfl
  have hlt : sl.leftIndex < sl.rightIndex := by
    rcases Nat.eq_or_lt_of_le hrange.1 with e | hlt
    · have hij : i = j := by
        have h1 := hi.1; have h2 := hi.2; have h3 := hj.1; have h4 := hj.2
        omega
      rw [hij] at hieq
      omega
    · exact hlt
  unfold runIntSplit
  generalize s.sortSlice env (fun d => d.int attr) sl = s₁ at hres hsorted hpr₁ hieq hjgt hsl hfi ⊢
  have hleft : (s₁.point sl.leftIndex).int attr ≤ threshold :=
    le_trans (hsorted _ i (le_refl _) hi.1 hi.2) (le_of_eq hieq)
  have hright : threshold < (s₁.point sl.rightIndex).int attr :=
    lt_of_lt_of_le hjgt (hsorted j _ hj.1 hj.2 (le_refl _))
  obtain ⟨h1, h2, h3, -⟩ := splitAtIndex_spec (fun i => (s₁.point i).int attr) threshold hleft
    sl.rightIndex hrange.1
  simp only [assert, decide_eq_true hlt, decide_eq_true (And.intro hleft hright), gt_iff_lt,
    if_true, bind, Except.bind]
  generalize splitAtIndex (fun i => (s₁.point i).int attr) threshold sl.rightIndex = c at h1 h2 h3
  have hcr : c < sl.rightIndex := by
    rcases Nat.eq_or_lt_of_le h2 with e | hlt
    · rw [e] at h3
      have : (s₁.point sl.rightIndex).int attr ≤ threshold := h3
      omega
    · exact hlt
  refine ⟨_, _, rfl, hsl, hfi, ⟨fun sl' hsl' => ?_, ?_⟩, ?_⟩
  · rcases List.mem_append.mp hsl' with hmem | hmem
    · exact hpr₁.category sl' (List.mem_cons_of_mem _ hmem)
    · refine (hpr₁.category sl List.mem_cons_self).sub ?_ ?_
      · simp only [List.mem_cons, List.not_mem_nil, or_false] at hmem
        rcases hmem with rfl | rfl
        · exact le_refl _
        · show sl.leftIndex ≤ c + 1
          omega
      · simp only [List.mem_cons, List.not_mem_nil, or_false] at hmem
        rcases hmem with rfl | rfl
        · exact h2
        · exact le_refl _
  · have hn : (Tree.int attr threshold .null .null).Thresholds (AllowedCut cfg D m₁) :=
      ⟨hallowed, trivial, trivial⟩
    exact hpr₁.thresholds.setAt hn sl.node
  · simp only [List.map_cons, List.map_nil, List.sum_cons, List.sum_nil, Slice.weight]
    omega

/-! ## Slices without a cut -/

/-- Two points of the same category that no allowed cut separates, in a closed sample
    in which one of them is labelled true and the other one is not. -/
def Stuck (cfg : Settings) (k : ℕ) (D : List Ptr) (m₁ : Heap) : Prop :=
  ∃ m, SampleInv D m₁ cfg.hornConstraints m ∧ ∃ x ∈ D, ∃ y ∈ D,
    label m x = some true ∧ label m y ≠ some true ∧
    (m₁ x).category 0 = (m₁ y).category 0 ∧ ¬ Separable cfg k (m₁ x) (m₁ y)

/-- A slice that `is_leaf` rejects. -/
theorem splittable_of_leafMeaning (h : LearnInv D m₁ cfg.hornConstraints s (sl :: L))
    (hok : SampleOk m₁ D cfg.numberOfCategories k) (hcat : OneCategory s sl)
    (hm : LeafMeaning D cfg.hornConstraints s sl none) : Splittable s sl k := by
  refine ⟨h.tree.range sl List.mem_cons_self,
    fun i hi => h.arity hok (h.lt_length List.mem_cons_self hi), hcat, ?_⟩
  obtain ⟨⟨i, hi, hl⟩, -⟩ := hm
  refine ⟨i, hi, ?_⟩
  rw [labelAt_eq] at hl
  by_contra hc
  rw [if_neg hc] at hl
  simp at hl

/-- If such a slice has no allowed cut, two points are inseparable. -/
theorem stuck_of_leafMeaning (h : LearnInv D m₁ cfg.hornConstraints s (sl :: L))
    (hcat : OneCategory s sl) (hm : LeafMeaning D cfg.hornConstraints s sl none)
    (hno : ∀ attr < k, ¬ HasCut cfg s sl attr) : Stuck cfg k D m₁ := by
  obtain ⟨⟨i, hi, hli⟩, j, hj, hlj⟩ := hm
  obtain ⟨c, hc⟩ := hcat
  have hi' := h.lt_length List.mem_cons_self hi
  have hj' := h.lt_length List.mem_cons_self hj
  refine ⟨s.solver.mem, h.sample, s.ptr i, h.ptr_mem hi', s.ptr j, h.ptr_mem hj', hli, hlj, ?_, ?_⟩
  · rw [← category_congr (h.core_point hi'), ← category_congr (h.core_point hj'), hc i hi, hc j hj]
  · rintro ⟨attr, hk, hsep⟩
    rw [← int_congr (h.core_point hi'), ← int_congr (h.core_point hj')] at hsep
    rcases hsep with ⟨hlt, ha⟩ | ⟨hlt, ha⟩
    · exact hno attr hk ⟨i, hi, ha, j, hj, hlt⟩
    · exact hno attr hk ⟨j, hj, ha, i, hi, hlt⟩

section Step

variable [Score F]

theorem learnStep_of {env : Environment} {j : Job} {new : List Slice}
    (hnext : nextJob env cfg s = .ok (j, s')) (hjob : runJob env cfg s' j = .ok (new, s'')) :
    learnStep env cfg s = .ok { s'' with slices := s''.slices ++ new } := by
  unfold learnStep
  simp only [hnext, hjob, bind, Except.bind]
  rfl

/-! ## The first iteration -/

theorem nextJob_first (env : Environment) (cfg : Settings) (hfirst : s.isFirstSplit = true)
    (hsl : s.slices = [sl]) (hone : (s.point sl.leftIndex).categoricalData.length = 1) :
    nextJob env cfg s =
      .ok (.categoricalSplit sl 0, { s with slices := [], isFirstSplit := false }) := by
  unfold nextJob
  rw [if_pos hfirst, hsl]
  simp [hone]
  rfl

/-- The first iteration splits by the category. -/
theorem learnStep_first (env : Environment) (h : LearnInv D m₁ hcs s s.slices)
    (hok : SampleOk m₁ D cfg.numberOfCategories k) (hfirst : s.isFirstSplit = true)
    (hsl : s.slices = [sl]) (hthr : s.tree.Thresholds (AllowedCut cfg D m₁)) :
    ∃ s', learnStep env cfg s = .ok s' ∧ Ready cfg D m₁ s' ∧ work s' < work s := by
  rw [hsl] at h
  have hrange := h.tree.range sl List.mem_cons_self
  have hone := (h.arity hok (lt_of_le_of_lt hrange.1 hrange.2)).1
  have hnext := nextJob_first env cfg hfirst hsl hone
  set s₁ : LearnerState F := { s with slices := [], isFirstSplit := false } with hs₁
  have h₁ : LearnInv D m₁ hcs s₁ [sl] := h.frame rfl rfl rfl
  set s₂ := s₁.sortSlice env (fun d => (d.category 0 : ℤ)) sl with hs₂
  have hres : Resorted sl s₁ s₂ := sortSlice_resorted env _ hrange
  have h₂ := h₁.resort hres
  have hall : (indices sl.leftIndex sl.rightIndex).all
      (fun i => (s₂.point i).category 0 < cfg.numberOfCategories.getD 0 0) = true := by
    rw [List.all_eq_true]
    intro i hi
    exact decide_eq_true (h₂.category_lt hok (h₂.lt_length List.mem_cons_self (mem_indices.mp hi)))
  set node : Tree := .categorical 0 (cfg.numberOfCategories.getD 0 0) fun _ => .null with hnode
  have hjob : runJob env cfg s₁ (.categoricalSplit sl 0) =
      .ok (categorySlices s₂ sl 0 sl.leftIndex,
      { s₂ with tree := s₂.tree.setAt sl.node node }) := by
    show runCategoricalSplit env cfg sl 0 s₁ = _
    unfold runCategoricalSplit
    simp only
    rw [if_pos hall]
    rfl
  have hcut := categorySlices_spec s₂ sl 0 sl.leftIndex fun i j hi hij hj =>
    Int.ofNat_le.mp (sortSlice_sorted env (fun d => (d.category 0 : ℤ)) hrange hi hij hj)
  refine ⟨_, learnStep_of hnext hjob, .inr ⟨rfl, fun ns hns => ?_, ?_⟩, ?_⟩
  · exact ⟨_, (hcut.category ns hns).2⟩
  · have hn : node.Thresholds (AllowedCut cfg D m₁) := fun _ => trivial
    exact Tree.Thresholds.setAt hthr hn sl.node
  · have hw := categorySlices_weight s₂ sl 0 sl.leftIndex
    show (([] ++ categorySlices s₂ sl 0 sl.leftIndex).map Slice.weight).sum + 0 < work s
    unfold work
    rw [hsl, hfirst, List.nil_append]
    simp only [List.map_cons, List.map_nil, List.sum_cons, List.sum_nil, if_true]
    unfold Slice.weight at hw ⊢
    omega

/-! ## The other iterations -/

/-- `next_job` computes the gain ratio when it looks for the best split. -/
def ComputesRatio (env : Environment) (cfg : Settings) (s : LearnerState F) (ratio : F) : Prop :=
  s.isFirstSplit = false ∧ ∃ i s₁ sl s₂ s₃, selectSlice env cfg s = .ok (i, s₁) ∧
    s₁.slices[i]? = some sl ∧
    isLeaf env cfg sl { s₁ with slices := s₁.slices.eraseIdx i } = .ok (none, s₂) ∧
    prepareSplit env cfg sl s₂ = .ok s₃ ∧ FindsRatio env cfg sl s₃ ratio

theorem selectSlice_bfs (env : Environment) (hbfs : cfg.nodeSelection = .bfs) :
    selectSlice env cfg s = .ok (0, s) := by
  unfold selectSlice
  rw [hbfs]
  rfl

theorem prepareSplit_plain (env : Environment) (hp : Plain cfg) (sl : Slice) :
    prepareSplit env cfg sl s = .ok s := by
  unfold prepareSplit
  rw [if_neg fun h => hp.entropy h.1]

theorem nextJob_later (env : Environment) (hbfs : cfg.nodeSelection = .bfs)
    (hfirst : s.isFirstSplit = false) (hsl : s.slices = sl :: L) {answer : LeafAnswer}
    (hleaf : isLeaf env cfg sl { s with slices := L } = .ok (answer, s')) :
    nextJob env cfg s = match answer with
      | some (label, positive, negative) => .ok (.leafCreation sl label positive negative, s')
      | none => prepareSplit env cfg sl s' >>= findBestSplit env cfg sl := by
  unfold nextJob
  rw [if_neg (by rw [hfirst]; simp), selectSlice_bfs env hbfs]
  simp only [bind, Except.bind, hsl, List.getElem?_cons_zero, List.eraseIdx_cons_zero, hleaf]
  cases answer with
  | none => rfl
  | some a => rfl

/-- `next_job` takes the slice, which is no leaf, and calls `find_best_split` for it in the
    state `s'`. -/
def LooksForSplit (env : Environment) (cfg : Settings) (s : LearnerState F) (sl : Slice)
    (s' : LearnerState F) : Prop :=
  s.isFirstSplit = false ∧ ∃ i s₁ s₂, selectSlice env cfg s = .ok (i, s₁) ∧
  s₁.slices[i]? = some sl ∧
    isLeaf env cfg sl { s₁ with slices := s₁.slices.eraseIdx i } = .ok (none, s₂) ∧
    prepareSplit env cfg sl s₂ = .ok s'

/-- The slice that is looked at has no allowed cut. -/
def NoCut (env : Environment) (cfg : Settings) (k : ℕ) (s : LearnerState F) : Prop :=
  ∃ sl s', LooksForSplit env cfg s sl s' ∧ ∀ attr < k, ¬ HasCut cfg s' sl attr

theorem LooksForSplit.computesRatio {env : Environment} (h : LooksForSplit env cfg s sl s')
    {ratio : F}
    (hr : FindsRatio env cfg sl s' ratio) : ComputesRatio env cfg s ratio := by
  obtain ⟨hfirst, i, s₁, s₂, hsel, hget, hleaf, hprep⟩ := h
  exact ⟨hfirst, i, s₁, sl, s₂, s', hsel, hget, hleaf, hprep, hr⟩

theorem LooksForSplit.nextJob {env : Environment} (h : LooksForSplit env cfg s sl s') :
    nextJob env cfg s = findBestSplit env cfg sl s' := by
  obtain ⟨hfirst, i, s₁, s₂, hsel, hget, hleaf, hprep⟩ := h
  unfold Learner.nextJob
  rw [if_neg (by rw [hfirst]; simp), hsel]
  simp only [bind, Except.bind, hget, hleaf, hprep]

/-- What is known when a split is looked for. -/
theorem LooksForSplit.spec {env : Environment} (hl : LooksForSplit env cfg s sl s')
    (h : LearnInv D m₁ cfg.hornConstraints s s.slices) (hpr : Progress cfg D m₁ s s.slices) :
    ∃ L, LearnInv D m₁ cfg.hornConstraints s' (sl :: L) ∧ OneCategory s' sl ∧
      LeafMeaning D cfg.hornConstraints s' sl none := by
  obtain ⟨-, i, s₁, s₂, hsel, hget, hleaf, hprep⟩ := hl
  have hq₁ := selectSlice_quiet env cfg h hsel
  have h₁ := h.quiet hq₁
  have hpr₁ := hpr.quiet h hq₁
  rw [← hq₁.slices] at h₁ hpr₁
  have htake := h₁.take hget
  have hcat : OneCategory ({ s₁ with slices := s₁.slices.eraseIdx i } : LearnerState F) sl :=
    hpr₁.category sl (List.mem_of_getElem? hget)
  obtain ⟨answer, s₂', hleaf', hq₂, hm⟩ := isLeaf_spec env cfg htake List.mem_cons_self
  rw [hleaf] at hleaf'
  obtain ⟨rfl, rfl⟩ := Prod.mk.inj (Except.ok.inj hleaf')
  have h₂ := htake.quiet hq₂
  have hq₃ := prepareSplit_quiet env cfg h₂ hprep
  exact ⟨_, h₂.quiet hq₃, (hcat.quiet htake hq₂).quiet h₂ hq₃,
    (LeafMeaning.quiet_none hm htake hq₂).quiet_none h₂ hq₃⟩

/-- Without a cut the iteration fails. -/
theorem LooksForSplit.learnStep_error {env : Environment} (hl : LooksForSplit env cfg s sl s')
    (hp : Plain cfg) (h : LearnInv D m₁ cfg.hornConstraints s s.slices)
    (hok : SampleOk m₁ D cfg.numberOfCategories k) (hpr : Progress cfg D m₁ s s.slices)
    (hratio : ∀ ratio, ComputesRatio env cfg s ratio → lt (ofInt (-1000000)) ratio = true)
    (hno : ∀ attr < k, ¬ HasCut cfg s' sl attr) :
    learnStep env cfg s = .error (.splitNotPossibleError "No split possible!") := by
  obtain ⟨L, h', hcat, hm⟩ := hl.spec h hpr
  have hfinds : ∀ ratio, FindsRatio env cfg sl s' ratio → lt (ofInt (-1000000)) ratio = true :=
    fun ratio hr => hratio ratio (hl.computesRatio hr)
  rcases findBestSplit_spec env hp (splittable_of_leafMeaning h' hok hcat hm) hfinds with
    ⟨s₃, attr, threshold, -, hres, hk, hcut⟩ | ⟨hbest, -⟩
  · exact absurd (hres.hasCut.mp hcut.hasCut) (hno attr hk)
  · unfold learnStep
    rw [hl.nextJob, hbest]
    rfl

/-- A later iteration returns and leaves less work, or it is stuck. -/
theorem learnStep_later (env : Environment) (hp : Plain cfg) (hbfs : cfg.nodeSelection = .bfs)
    (h : LearnInv D m₁ cfg.hornConstraints s s.slices)
    (hok : SampleOk m₁ D cfg.numberOfCategories k) (hfirst : s.isFirstSplit = false)
    (hpr : Progress cfg D m₁ s s.slices) (hsl : s.slices = sl :: L)
    (hratio : ∀ ratio, ComputesRatio env cfg s ratio → lt (ofInt (-1000000)) ratio = true) :
    (∃ s', learnStep env cfg s = .ok s' ∧ Ready cfg D m₁ s' ∧ work s' < work s) ∨
      (learnStep env cfg s = .error (.splitNotPossibleError "No split possible!") ∧
        NoCut env cfg k s ∧ Stuck cfg k D m₁) := by
  have hwork : work s = sl.weight + (L.map Slice.weight).sum := by
    unfold work
    rw [hsl, hfirst]
    simp
  have hinv := h
  have hprog := hpr
  rw [hsl] at h hpr
  have hlr := (h.tree.range sl List.mem_cons_self).1
  have hpos : 0 < sl.weight := by
    unfold Slice.weight
    omega
  set s₁ : LearnerState F := { s with slices := L } with hs₁
  have h₁ : LearnInv D m₁ cfg.hornConstraints s₁ (sl :: L) := h.frame rfl rfl rfl
  have hpr₁ : Progress cfg D m₁ s₁ (sl :: L) := ⟨hpr.category, hpr.thresholds⟩
  obtain ⟨answer, s₂, hleaf, hq, hm⟩ := isLeaf_spec env cfg h₁ List.mem_cons_self
  have h₂ := h₁.quiet hq
  have hpr₂ := hpr₁.quiet h₁ hq
  have hnext := nextJob_later env hbfs hfirst hsl hleaf
  cases answer with
  | some a =>
    obtain ⟨b, P, N⟩ := a
    obtain ⟨s₃, hrun, hslices, hfirst₃, hpr₃⟩ := runLeafCreation_progress env b P N h₂ hpr₂
    refine .inl ⟨_, learnStep_of hnext hrun, .inr ⟨?_, ?_⟩, ?_⟩
    · exact hfirst₃.trans (hq.isFirstSplit.trans hfirst)
    · rw [List.append_nil, hslices, hq.slices]
      exact ⟨hpr₃.category, hpr₃.thresholds⟩
    · rw [hwork]
      unfold work
      rw [List.append_nil, hslices, hq.slices, hfirst₃, hq.isFirstSplit]
      show (L.map Slice.weight).sum + (if s.isFirstSplit then 1 else 0) < _
      rw [hfirst]
      simp only [Bool.false_eq_true, if_false]
      omega
  | none =>
    rw [prepareSplit_plain env hp sl] at hnext
    have hm₂ := LeafMeaning.quiet_none hm h₁ hq
    have hcat := hpr₂.category sl List.mem_cons_self
    have hlooks : LooksForSplit env cfg s sl s₂ := by
      refine ⟨hfirst, 0, s, s₂, selectSlice_bfs env hbfs, by rw [hsl]; rfl, ?_,
        prepareSplit_plain env hp sl⟩
      rw [hsl]
      exact hleaf
    have hfinds : ∀ ratio, FindsRatio env cfg sl s₂ ratio → lt (ofInt (-1000000)) ratio = true :=
      fun ratio hr => hratio ratio (hlooks.computesRatio hr)
    rcases findBestSplit_spec env hp (splittable_of_leafMeaning h₂ hok hcat hm₂) hfinds with
      ⟨s₃, attr, threshold, hbest, hres, hk, hcut⟩ | ⟨-, hno⟩
    · obtain ⟨new, s₄, hrun, hslices, hfirst₄, hpr₄, hw⟩ := runIntSplit_progress env
        (h₂.resort hres) (hpr₂.resort h₂ hres) hcut
      refine .inl ⟨_, learnStep_of (hnext.trans hbest) hrun, .inr ⟨?_, ?_⟩, ?_⟩
      · exact hfirst₄.trans (hres.isFirstSplit.trans (hq.isFirstSplit.trans hfirst))
      · rw [hslices, hres.slices, hq.slices]
        exact ⟨hpr₄.category, hpr₄.thresholds⟩
      · rw [hwork]
        unfold work
        rw [hslices, hres.slices, hq.slices, hfirst₄, hres.isFirstSplit, hq.isFirstSplit]
        show ((L ++ new).map Slice.weight).sum + (if s.isFirstSplit then 1 else 0) < _
        rw [hfirst, List.map_append, List.sum_append]
        simp only [Bool.false_eq_true, if_false]
        omega
    · exact .inr ⟨hlooks.learnStep_error hp hinv hok hprog hratio hno, ⟨sl, s₂, hlooks, hno⟩,
        stuck_of_leafMeaning h₂ hcat hm₂ hno⟩

/-! ## Whole runs -/

/-- One iteration returns and leaves less work, or it is stuck. -/
theorem learnStep_progress (env : Environment) (hp : Plain cfg) (hbfs : cfg.nodeSelection = .bfs)
    (h : LearnInv D m₁ cfg.hornConstraints s s.slices)
    (hok : SampleOk m₁ D cfg.numberOfCategories k) (hready : Ready cfg D m₁ s) (hne : s.slices ≠ [])
    (hratio : ∀ ratio, ComputesRatio env cfg s ratio → lt (ofInt (-1000000)) ratio = true) :
    (∃ s', learnStep env cfg s = .ok s' ∧ Ready cfg D m₁ s' ∧ work s' < work s) ∨
      (learnStep env cfg s = .error (.splitNotPossibleError "No split possible!") ∧
        NoCut env cfg k s ∧ Stuck cfg k D m₁) := by
  rcases hready with ⟨hfirst, ⟨sl, hsl⟩, hthr⟩ | ⟨hfirst, hpr⟩
  · exact .inl (learnStep_first env h hok hfirst hsl hthr)
  · obtain ⟨sl, L, hsl⟩ := List.exists_cons_of_ne_nil hne
    exact learnStep_later env hp hbfs h hok hfirst hpr hsl hratio

/-- The state is reached by the learning loop. -/
def Reaches (env : Environment) (cfg : Settings) : LearnerState F → LearnerState F → Prop :=
  Relation.ReflTransGen fun a b => learnStep env cfg a = .ok b

theorem learnLoop_progress (env : Environment) (hp : Plain cfg) (hbfs : cfg.nodeSelection = .bfs)
    (hok : SampleOk m₁ D cfg.numberOfCategories k) :
    ∀ (fuel : ℕ) (s : LearnerState F), LearnInv D m₁ cfg.hornConstraints s s.slices →
      Ready cfg D m₁ s → work s < fuel →
      (∀ t, Reaches env cfg s t → ∀ ratio, ComputesRatio env cfg t ratio →
        lt (ofInt (-1000000)) ratio = true) →
      (∃ s', learnLoop env cfg fuel s = .ok s' ∧
          s'.tree.Thresholds (AllowedCut cfg D m₁)) ∨
        (learnLoop env cfg fuel s = .error (.splitNotPossibleError "No split possible!") ∧
          (∃ t, Reaches env cfg s t ∧ NoCut env cfg k t) ∧ Stuck cfg k D m₁) := by
  intro fuel
  induction fuel with
  | zero =>
    intro s _ _ hw
    omega
  | succ fuel ih =>
    intro s h hready hw hratio
    rw [learnLoop]
    by_cases hempty : s.slices.isEmpty = true
    · rw [if_pos hempty]
      refine .inl ⟨s, rfl, ?_⟩
      rcases hready with ⟨-, -, hthr⟩ | ⟨-, hpr⟩
      · exact hthr
      · exact hpr.thresholds
    · rw [if_neg hempty]
      have hne : s.slices ≠ [] := fun e => hempty (List.isEmpty_iff.mpr e)
      rcases learnStep_progress env hp hbfs h hok hready hne (hratio s .refl) with
        ⟨s₁, hstep, hready₁, hlt⟩ | ⟨hstep, hno, hstuck⟩
      · rw [hstep]
        rcases ih s₁ (learnStep_inv env cfg h hstep) hready₁ (by omega)
          (fun t ht => hratio t (.head hstep ht)) with hreturns | ⟨hrun, ⟨t, ht, hno⟩, hstuck⟩
        · exact .inl hreturns
        · exact .inr ⟨hrun, ⟨t, .head hstep ht, hno⟩, hstuck⟩
      · rw [hstep]
        exact .inr ⟨rfl, ⟨s, .refl, hno⟩, hstuck⟩

/-- A run of `learn` returns, with allowed thresholds only, or it ends because it is
    stuck. -/
theorem learn_progress (env : Environment) (hp : Plain cfg) (hbfs : cfg.nodeSelection = .bfs)
    (hok : SampleOk m₁ s.datapointPtrs cfg.numberOfCategories k)
    (hs : SampleInv s.datapointPtrs m₁ cfg.hornConstraints s.solver.mem) (hslices : s.slices = [])
    (hfirst : s.isFirstSplit = true) {fuel : ℕ} (hfuel : 2 * s.datapointPtrs.length < fuel)
    (hratio : ∀ t, Reaches env cfg (initialSlice s) t → ∀ ratio, ComputesRatio env cfg t ratio →
      lt (ofInt (-1000000)) ratio = true) :
    (∃ tree s', learn env cfg fuel s = .ok (tree, s') ∧
        tree.Thresholds (AllowedCut cfg s.datapointPtrs m₁)) ∨
      (learn env cfg fuel s = .error (.splitNotPossibleError "No split possible!") ∧
        s.datapointPtrs ≠ [] ∧ (∃ t, Reaches env cfg (initialSlice s) t ∧ NoCut env cfg k t) ∧
        Stuck cfg k s.datapointPtrs m₁) := by
  unfold learn
  by_cases hempty : s.datapointPtrs.isEmpty = true
  · rw [if_pos hempty]
    exact .inl ⟨.leaf true, s, rfl, trivial⟩
  rw [if_neg hempty]
  have hne : s.datapointPtrs ≠ [] := fun e => hempty (List.isEmpty_iff.mpr e)
  have hlen : 0 < s.datapointPtrs.length := List.length_pos_iff.mpr hne
  have hsl : (initialSlice s).slices = [⟨0, s.datapointPtrs.length - 1, []⟩] := by
    show s.slices ++ _ = _
    rw [hslices]
    rfl
  have hwork : work (initialSlice s) < fuel := by
    unfold work
    rw [hsl, show (initialSlice s).isFirstSplit = true from hfirst]
    simp only [List.map_cons, List.map_nil, List.sum_cons, List.sum_nil, Slice.weight, if_true]
    omega
  have hstart := LearnInv.start hs hslices hne
  rcases learnLoop_progress env hp hbfs hok fuel (initialSlice s) hstart
    (.inl ⟨hfirst, ⟨_, hsl⟩, trivial⟩) hwork hratio with ⟨s', hrun, hthr⟩ | ⟨hrun, hno, hstuck⟩
  · refine .inl ⟨s'.tree, s', ?_, hthr⟩
    have hfinal := learnLoop_inv env cfg fuel (initialSlice s) hstart hrun
    have hnull : s'.tree.isNull = false := by
      have hlen' : 0 < s'.datapointPtrs.length := by
        rw [hfinal.perm.length_eq]
        exact hlen
      obtain ⟨sl, hmem, -⟩ | ⟨b, ho, -⟩ := hfinal.tree.covered 0 hlen'
      · simp at hmem
      · cases ht : s'.tree with
        | null => rw [ht] at ho; simp [Tree.output] at ho
        | leaf _ => rfl
        | int _ _ _ _ => rfl
        | categorical _ _ _ => rfl
    simp only [hrun, bind, Except.bind, hnull, Bool.not_false, assert_true]
    rfl
  · refine .inr ⟨?_, hne, hno, hstuck⟩
    rw [hrun]
    rfl

/-! ## Runs that return -/

theorem slices_ne_nil_of_learnStep {env : Environment} (hbfs : cfg.nodeSelection = .bfs)
    (hstep : learnStep env cfg s = .ok s') : s.slices ≠ [] := by
  intro hnil
  obtain ⟨⟨j, s₁⟩, hnext, -⟩ := bind_ok.mp hstep
  unfold nextJob at hnext
  cases hfirst : s.isFirstSplit with
  | true =>
    rw [if_pos hfirst, hnil] at hnext
    cases hnext
  | false =>
    rw [if_neg (by rw [hfirst]; simp), selectSlice_bfs env hbfs] at hnext
    simp only [bind, Except.bind, hnil, List.getElem?_nil] at hnext
    cases hnext

/-- The invariants hold in every state of a run. -/
theorem Reaches.ready {env : Environment} (hr : Reaches env cfg s s') (hp : Plain cfg)
    (hbfs : cfg.nodeSelection = .bfs) (h : LearnInv D m₁ cfg.hornConstraints s s.slices)
    (hok : SampleOk m₁ D cfg.numberOfCategories k) (hready : Ready cfg D m₁ s)
    (hratio : ∀ t, Reaches env cfg s t → ∀ ratio, ComputesRatio env cfg t ratio →
      lt (ofInt (-1000000)) ratio = true) :
    LearnInv D m₁ cfg.hornConstraints s' s'.slices ∧ Ready cfg D m₁ s' := by
  induction hr with
  | refl => exact ⟨h, hready⟩
  | tail hr hstep ih =>
    obtain ⟨ha, hready_a⟩ := ih
    refine ⟨learnStep_inv env cfg ha hstep, ?_⟩
    rcases learnStep_progress env hp hbfs ha hok hready_a (slices_ne_nil_of_learnStep hbfs hstep)
      (hratio _ hr) with ⟨b, hstep', hready_b, -⟩ | ⟨herr, -⟩
    · rw [Except.ok.inj (hstep.symm.trans hstep')]
      exact hready_b
    · rw [hstep] at herr
      cases herr

/-- A loop that returns does so from every state that it reaches. -/
theorem learnLoop_of_reaches {env : Environment} (hbfs : cfg.nodeSelection = .bfs)
    (hr : Reaches env cfg s s') {fuel : ℕ} {r : LearnerState F}
    (hrun : learnLoop env cfg fuel s = .ok r) : ∃ fuel', learnLoop env cfg fuel' s' = .ok r := by
  induction hr with
  | refl => exact ⟨fuel, hrun⟩
  | @tail a b _ hstep ih =>
    obtain ⟨fuel', hrun'⟩ := ih
    cases fuel' with
    | zero => cases hrun'
    | succ fuel' =>
      have hne : ¬ a.slices.isEmpty = true := fun e =>
        slices_ne_nil_of_learnStep hbfs hstep (List.isEmpty_iff.mp e)
      rw [learnLoop, if_neg hne, hstep] at hrun'
      exact ⟨fuel', hrun'⟩

/-- If the loop returns, every slice for which a split is looked for has a cut. -/
theorem LooksForSplit.hasCut {env : Environment} {r t t' : LearnerState F}
    (hl : LooksForSplit env cfg t sl t') (hp : Plain cfg) (hbfs : cfg.nodeSelection = .bfs)
    (h : LearnInv D m₁ cfg.hornConstraints s s.slices)
    (hok : SampleOk m₁ D cfg.numberOfCategories k) (hready : Ready cfg D m₁ s)
    (hratio : ∀ t, Reaches env cfg s t → ∀ ratio, ComputesRatio env cfg t ratio →
      lt (ofInt (-1000000)) ratio = true)
    {fuel : ℕ} (hrun : learnLoop env cfg fuel s = .ok r) (hr : Reaches env cfg s t) :
    ∃ attr < k, HasCut cfg t' sl attr := by
  by_contra hno
  obtain ⟨ht, hready_t⟩ := hr.ready hp hbfs h hok hready hratio
  obtain ⟨hfirst, i, s₁, s₂, hsel, hget, -⟩ := id hl
  have hpr : Progress cfg D m₁ t t.slices := by
    rcases hready_t with ⟨hfirst', -⟩ | ⟨-, hpr⟩
    · rw [hfirst] at hfirst'
      cases hfirst'
    · exact hpr
  have herr := hl.learnStep_error hp ht hok hpr (hratio t hr) fun attr hk hcut =>
    hno ⟨attr, hk, hcut⟩
  obtain ⟨fuel', hrun'⟩ := learnLoop_of_reaches hbfs hr hrun
  cases fuel' with
  | zero => cases hrun'
  | succ fuel' =>
    have hne : ¬ t.slices.isEmpty = true := by
      rw [selectSlice_bfs env hbfs] at hsel
      obtain ⟨rfl, rfl⟩ := Prod.mk.inj (Except.ok.inj hsel)
      intro e
      rw [List.isEmpty_iff.mp e] at hget
      cases hget
    rw [learnLoop, if_neg hne, herr] at hrun'
    cases hrun'

/-! ## Computed gain ratios -/

theorem Reaches.inv {env : Environment} (hr : Reaches env cfg s s')
    (h : LearnInv D m₁ cfg.hornConstraints s s.slices) :
    LearnInv D m₁ cfg.hornConstraints s' s'.slices := by
  induction hr with
  | refl => exact h
  | tail _ hstep ih => exact learnStep_inv env cfg ih hstep

/-- The slice for which a gain ratio is computed, with the state in which
    `find_best_split` starts. -/
theorem ComputesRatio.finds {env : Environment} {ratio : F}
    (h : LearnInv D m₁ cfg.hornConstraints s s.slices) (hratio : ComputesRatio env cfg s ratio) :
    ∃ sl L s', LearnInv D m₁ cfg.hornConstraints s' (sl :: L) ∧ FindsRatio env cfg sl s' ratio := by
  obtain ⟨-, i, s₁, sl, s₂, s₃, hsel, hget, hleaf, hprep, hfinds⟩ := hratio
  have hq₁ := selectSlice_quiet env cfg h hsel
  have h₁ := h.quiet hq₁
  rw [← hq₁.slices] at h₁
  have htake := h₁.take hget
  obtain ⟨answer, s₂', hleaf', hq₂, -⟩ := isLeaf_spec env cfg htake List.mem_cons_self
  rw [hleaf] at hleaf'
  obtain ⟨-, rfl⟩ := Prod.mk.inj (Except.ok.inj hleaf')
  have h₂ := htake.quiet hq₂
  exact ⟨sl, _, s₃, h₂.quiet (prepareSplit_quiet env cfg h₂ hprep), hfinds⟩

/-- A gain ratio is computed only if an allowed cut separates two points. -/
theorem ComputesRatio.exists_cut {env : Environment} {ratio : F} (hp : Plain cfg)
    (h : LearnInv D m₁ cfg.hornConstraints s s.slices)
    (hok : SampleOk m₁ D cfg.numberOfCategories k) (hratio : ComputesRatio env cfg s ratio) :
    ∃ x ∈ D, ∃ y ∈ D, ∃ attr < k, (m₁ x).int attr < (m₁ y).int attr ∧
      cutAllowed cfg ((m₁ x).int attr) = true := by
  obtain ⟨sl, L, s', h', hfinds⟩ := hratio.finds h
  obtain ⟨attr, hk, i, hi, ha, j, hj, hlt⟩ := hfinds.hasCut hp
    (h'.tree.range sl List.mem_cons_self)
    fun i hi => (h'.arity hok (h'.lt_length List.mem_cons_self hi)).2
  have hi' := h'.lt_length List.mem_cons_self hi
  have hj' := h'.lt_length List.mem_cons_self hj
  rw [int_congr (h'.core_point hi'), int_congr (h'.core_point hj')] at hlt
  rw [int_congr (h'.core_point hi')] at ha
  exact ⟨_, h'.ptr_mem hi', _, h'.ptr_mem hj', attr, hk, hlt, ha⟩

end Step

end HiceDt.Learner
