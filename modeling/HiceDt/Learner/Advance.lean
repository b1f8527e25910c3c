import Mathlib.Data.Finset.Sort
import Mathlib.Data.Int.Log
import Mathlib.Data.List.GetD
import HiceDt.Learner.Consistent

/-!
# When `find_best_split` makes progress

`find_best_split` is meant to return a job that really splits the slice, or to report
that there is none. Whatever values the scores take, three things can go wrong: the
assertion that the intrinsic value of a categorical attribute is positive, the
assertion that the slice has classified points, and a cut that sets the flag
`non_zero_intrinsic_value_possible` without being recorded, so that attribute 0 and
threshold 0 are selected.

Results:

* `categoryLoop_spec`: the intrinsic value of a categorical attribute.
* `candidates_returns`, `candidates_aborts`: when the candidates are computed.
* `findBestSplit_advances_iff`: `find_best_split` makes progress iff none of the three
  things happens.
-/

namespace HiceDt.Learner

open HiceDt Solver Score Loop

variable {F : Type} {s s' : LearnerState F} {sl : Slice} {cfg : Settings}

/-! ## Statement -/

/-- The slice has two categories of the attribute. -/
def SeveralCategories (s : LearnerState F) (sl : Slice) (attr : ℕ) : Prop :=
  ∃ i, sl.Contains i ∧ ∃ j, sl.Contains j ∧ (s.point i).category attr ≠ (s.point j).category attr

/-- The smallest value of the attribute is at most the threshold, which is less than
    the largest value: the assertion of `int_split_job::run` (`job.cpp`, lines
    61–94). -/
def Separates (s : LearnerState F) (sl : Slice) (attr : ℕ) (threshold : ℤ) : Prop :=
  (∃ i, sl.Contains i ∧ (s.point i).int attr ≤ threshold) ∧
    ∃ i, sl.Contains i ∧ threshold < (s.point i).int attr

/-- The job really splits the slice, whose points have `c` categorical and `k` integer
    attributes. -/
def ReallySplits (s : LearnerState F) (sl : Slice) (c k : ℕ) : Job → Prop
  | .categoricalSplit sl' attr => sl' = sl ∧ attr < c ∧ SeveralCategories s sl attr
  | .intSplit sl' attr threshold => sl' = sl ∧ attr < k ∧ Separates s sl attr threshold
  | .leafCreation .. => False

/-- There is no split of the slice that the settings allow. -/
def NoSplit (cfg : Settings) (s : LearnerState F) (sl : Slice) (c k : ℕ) : Prop :=
  (∀ attr < c, ¬ SeveralCategories s sl attr) ∧ ∀ attr < k, ¬ HasCut cfg s sl attr

/-- The slice lies in the vector, and its points have `c` categorical and `k` integer
    attributes. -/
structure WellFormed (s : LearnerState F) (sl : Slice) (c k : ℕ) : Prop where
  inRange : sl.InRange s
  arity : ∀ i, sl.Contains i →
    (s.point i).categoricalData.length = c ∧ (s.point i).intData.length = k

/-- `find_best_split` returns a job that really splits the slice, or it throws
    `split_not_possible_error` because there is none. -/
def Advances [Score F] (env : Environment) (cfg : Settings) (sl : Slice) (s : LearnerState F)
    (c k : ℕ) : Prop :=
  match findBestSplit env cfg sl s with
  | .ok (job, _) => ReallySplits s sl c k job
  | .error (.splitNotPossibleError _) => NoSplit cfg s sl c k
  | .error _ => False

/-- The categories in a part of the slice, in ascending order. -/
def categories (s : LearnerState F) (attr left right : ℕ) : List ℕ :=
  ((indices left right).map fun i => (s.point i).category attr).toFinset.sort

/-- `num_classified_points` counts the point. -/
def counted (cfg : Settings) (d : Datapoint) : Bool :=
  cfg.entropyComputation = .hornAssignments || d.isClassified

/-- How many points of the category are counted. -/
def categorySize (cfg : Settings) (s : LearnerState F) (sl : Slice) (attr category : ℕ) : ℕ :=
  (indices sl.leftIndex sl.rightIndex).countP fun i =>
    (s.point i).category attr == category && counted cfg (s.point i)

/-- The term of a category in the intrinsic value of the attribute. -/
def categoryTerm [Score F] (cfg : Settings) (s : LearnerState F) (sl : Slice) (attr category : ℕ) :
    F :=
  intrinsicTerm (mul (ofInt 1) (ofInt (categorySize cfg s sl attr category)))
    (mul (ofInt 1) (ofInt (numClassifiedPoints cfg s sl.leftIndex sl.rightIndex)))

/-- The intrinsic value of a categorical attribute, summed up in ascending order of the
    categories. -/
def totalIntrinsicValue [Score F] (cfg : Settings) (s : LearnerState F) (sl : Slice) (attr : ℕ) :
    F :=
  (categories s attr sl.leftIndex sl.rightIndex).foldl
    (fun total category => add total (categoryTerm cfg s sl attr category)) (ofInt 0)

/-- The assertion on the intrinsic value of a categorical attribute holds. -/
def PositiveIntrinsicValue [Score F] (cfg : Settings) (s : LearnerState F) (sl : Slice)
    (attr : ℕ) : Prop :=
  SeveralCategories s sl attr → lt (ofInt 0) (totalIntrinsicValue cfg s sl attr) = true

/-- The assertion on the number of classified points holds for an integer
    attribute. -/
def Classified (cfg : Settings) (s : LearnerState F) (sl : Slice) (attr : ℕ) : Prop :=
  HasCut cfg s sl attr → 0 < numClassifiedPoints cfg s sl.leftIndex sl.rightIndex

/-- Some cut has a positive intrinsic value, but no such cut is recorded. -/
def Lost [Score F] (cs : List (IntCandidate F)) : Prop := Untouched cs ∧ ∃ c ∈ cs, c.nonZero = true

/-- The integer job is selected although its cut is lost. -/
def Candidates.SelectsLost [Score F] (cfg : Settings) (c : Candidates F) : Prop :=
  Lost (c.preferred cfg) ∧ (c.categorical = [] ∨
    le (ofInt (-1000000)) (CategoricalBest.all c.categorical).gainRatio = true)

/-- What `find_best_split` needs. -/
structure Sound [Score F] (env : Environment) (cfg : Settings) (sl : Slice) (s : LearnerState F)
    (c k : ℕ) : Prop where
  intrinsicValue : ∀ attr < c, PositiveIntrinsicValue cfg s sl attr
  classified : ∀ attr < k, Classified cfg s sl attr
  recorded : ∀ cs, candidates env cfg sl s = .ok cs → cs.SelectsLost cfg → Separates s sl 0 0

/-! ## Counting in a slice -/

/-- The pointers of the slice. -/
theorem map_ptr_indices (hr : sl.InRange s) : (indices sl.leftIndex sl.rightIndex).map s.ptr =
    (s.datapointPtrs.drop sl.leftIndex).take (sl.rightIndex + 1 - sl.leftIndex) := by
  have h2 : sl.rightIndex < s.datapointPtrs.length := hr.2
  unfold indices
  apply List.ext_getElem
  · rw [List.length_map, List.length_range', List.length_take, List.length_drop]
    omega
  · intro i h₁ h₂
    rw [List.length_take, List.length_drop] at h₂
    rw [List.getElem_map, List.getElem_range', List.getElem_take, List.getElem_drop, one_mul]
    unfold LearnerState.ptr
    rw [List.getD_eq_getElem _ _ (by omega)]

/-- Sorting does not change how many points have a property. -/
theorem Resorted.countP (h : Resorted sl s s') (hr : sl.InRange s) (p : Datapoint → Bool) :
    (indices sl.leftIndex sl.rightIndex).countP (fun i => p (s'.point i)) =
      (indices sl.leftIndex sl.rightIndex).countP fun i => p (s.point i) := by
  have hcount : ∀ t : LearnerState F, t.solver.mem = s.solver.mem →
      (indices sl.leftIndex sl.rightIndex).countP (fun i => p (t.point i)) =
        ((indices sl.leftIndex sl.rightIndex).map t.ptr).countP fun x => p (s.solver.mem x) := by
    intro t ht
    rw [List.countP_map]
    unfold LearnerState.point
    rw [ht]
    rfl
  have hperm : ((indices sl.leftIndex sl.rightIndex).map s'.ptr).Perm
      ((indices sl.leftIndex sl.rightIndex).map s.ptr) := by
    rw [map_ptr_indices hr, map_ptr_indices (h.inRange hr)]
    obtain ⟨A, M, M', C, hv, hv', hp, hA, hM⟩ := h.rearranged
    rw [hv, hv', ← hA, List.drop_left, List.drop_left, hA, ← hM, List.take_left, ← hp.length_eq,
      List.take_left]
    exact hp
  rw [hcount s' (by rw [h.solver]), hcount s rfl]
  exact hperm.countP_eq _

theorem numClassifiedPoints_eq (cfg : Settings) (s : LearnerState F) {left right : ℕ}
    (h : left ≤ right) : numClassifiedPoints cfg s left right =
      (indices left right).countP fun i => counted cfg (s.point i) := by
  unfold numClassifiedPoints counted
  cases cfg.entropyComputation with
  | hornAssignments =>
    simp only [decide_true, Bool.true_or, List.countP_true, indices, List.length_range']
    omega
  | defaultEntropy => rw [List.countP_eq_length_filter]; rfl
  | penalty => rw [List.countP_eq_length_filter]; rfl

theorem Resorted.numClassifiedPoints (h : Resorted sl s s') (hr : sl.InRange s) (cfg : Settings) :
    numClassifiedPoints cfg s' sl.leftIndex sl.rightIndex =
      numClassifiedPoints cfg s sl.leftIndex sl.rightIndex := by
  rw [numClassifiedPoints_eq cfg s' hr.1, numClassifiedPoints_eq cfg s hr.1]
  exact h.countP hr (counted cfg)

theorem mem_categories {attr left right c : ℕ} : c ∈ categories s attr left right ↔
    ∃ i, left ≤ i ∧ i ≤ right ∧ (s.point i).category attr = c := by
  unfold categories
  simp only [Finset.mem_sort, List.mem_toFinset, List.mem_map, mem_indices, and_assoc]

theorem Resorted.categories (h : Resorted sl s s') (attr : ℕ) :
    categories s' attr sl.leftIndex sl.rightIndex = categories s attr sl.leftIndex
      sl.rightIndex := by
  unfold Learner.categories
  congr 1
  ext c
  have hpoint := h.exists_point fun d => d.category attr = c
  simp only [List.mem_toFinset, List.mem_map, mem_indices]
  exact hpoint

theorem Resorted.severalCategories (h : Resorted sl s s') {attr : ℕ} :
    SeveralCategories s' sl attr ↔ SeveralCategories s sl attr := by
  unfold SeveralCategories
  rw [h.exists_point fun d => ∃ j, sl.Contains j ∧ d.category attr ≠ (s'.point j).category attr]
  refine exists_congr fun i => and_congr_right fun _ => ?_
  exact h.exists_point fun d => (s.point i).category attr ≠ d.category attr

theorem Resorted.totalIntrinsicValue [Score F] (h : Resorted sl s s') (hr : sl.InRange s)
    (cfg : Settings) (attr : ℕ) :
    totalIntrinsicValue cfg s' sl attr = totalIntrinsicValue cfg s sl attr := by
  have hsize : ∀ c, categorySize cfg s' sl attr c = categorySize cfg s sl attr c :=
    fun c => h.countP hr fun d => d.category attr == c && counted cfg d
  unfold Learner.totalIntrinsicValue categoryTerm
  simp only [h.categories, hsize, h.numClassifiedPoints hr]

/-! ## The intrinsic value of a categorical attribute -/

/-- The categories from the beginning of a run on. -/
theorem categories_run {attr cur next right : ℕ} (hcur : cur ≤ next)
    (hnext : next ≤ right) (hrun : ∀ i, cur ≤ i → i ≤ next →
      (s.point i).category attr = (s.point cur).category attr)
    (hlater : ∀ i, next < i → i ≤ right →
      (s.point cur).category attr < (s.point i).category attr) :
    categories s attr cur right =
      (s.point cur).category attr :: categories s attr (next + 1) right := by
  have hset : ((indices cur right).map fun i => (s.point i).category attr).toFinset =
      insert ((s.point cur).category attr)
        ((indices (next + 1) right).map fun i => (s.point i).category attr).toFinset := by
    ext c
    simp only [List.mem_toFinset, List.mem_map, mem_indices, Finset.mem_insert]
    constructor
    · rintro ⟨i, ⟨h1, h2⟩, rfl⟩
      by_cases hi : i ≤ next
      · exact .inl (hrun i h1 hi)
      · exact .inr ⟨i, ⟨by omega, h2⟩, rfl⟩
    · rintro (rfl | ⟨i, ⟨h1, h2⟩, rfl⟩)
      · exact ⟨cur, ⟨le_refl _, by omega⟩, rfl⟩
      · exact ⟨i, ⟨by omega, h2⟩, rfl⟩
  have hlt : ∀ c ∈ ((indices (next + 1) right).map fun i => (s.point i).category attr).toFinset,
      (s.point cur).category attr < c := by
    intro c hc
    simp only [List.mem_toFinset, List.mem_map, mem_indices] at hc
    obtain ⟨i, ⟨h1, h2⟩, rfl⟩ := hc
    exact hlater i h1 h2
  unfold categories
  rw [hset]
  exact Finset.sort_insert _ (fun c hc => le_of_lt (hlt c hc)) fun hc => lt_irrefl _ (hlt _ hc)

theorem indices_append {left right : ℕ} (cur : ℕ) (hl : left ≤ cur) (hr : cur ≤ right + 1) :
    indices left right = List.range' left (cur - left) ++ indices cur right := by
  unfold indices
  rw [show right + 1 - left = (cur - left) + (right + 1 - cur) by omega, ← List.range'_append_1,
    show left + (cur - left) = cur by omega]

/-- The points of a category are those of its run. -/
theorem categorySize_run {attr cur next : ℕ} (hl : sl.leftIndex ≤ cur) (hcur : cur ≤ next)
    (hnext : next ≤ sl.rightIndex)
    (hrun : ∀ i, cur ≤ i → i ≤ next → (s.point i).category attr = (s.point cur).category attr)
    (hbefore : ∀ i, sl.leftIndex ≤ i → i < cur →
      (s.point i).category attr ≠ (s.point cur).category attr)
    (hlater : ∀ i, next < i → i ≤ sl.rightIndex →
      (s.point i).category attr ≠ (s.point cur).category attr) :
    categorySize cfg s sl attr ((s.point cur).category attr) = numClassifiedPoints cfg s cur
      next := by
  have hpart : indices sl.leftIndex sl.rightIndex = List.range' sl.leftIndex (cur - sl.leftIndex) ++
      (indices cur next ++ indices (next + 1) sl.rightIndex) := by
    rw [indices_append cur hl (by omega), indices_append (next + 1) (by omega) (by omega)]
    rfl
  unfold categorySize
  rw [numClassifiedPoints_eq cfg s hcur, hpart, List.countP_append, List.countP_append]
  have hzero : ∀ l : List ℕ, (∀ i ∈ l, (s.point i).category attr ≠ (s.point cur).category attr) →
      l.countP (fun i => (s.point i).category attr == (s.point cur).category attr &&
        counted cfg (s.point i)) = 0 := by
    intro l hne
    rw [List.countP_eq_zero]
    intro i hi
    simp [hne i hi]
  rw [hzero (List.range' _ _), hzero (indices (next + 1) _), zero_add, add_zero]
  · refine List.countP_congr fun i hi => ?_
    rw [mem_indices] at hi
    simp [hrun i hi.1 hi.2]
  · intro i hi
    rw [mem_indices] at hi
    exact hlater i (by omega) hi.2
  · intro i hi
    rw [List.mem_range'_1] at hi
    exact hbefore i hi.1 (by omega)

section Loops

variable [Score F]

/-- The loop over the categories of a slice that has several sums up their terms. -/
theorem categoryLoop_spec {attr : ℕ} (h : Scored cfg s sl)
    (hsorted : ∀ i j, sl.leftIndex ≤ i → i ≤ j → j ≤ sl.rightIndex →
      (s.point i).category attr ≤ (s.point j).category attr)
    (hseveral : SeveralCategories s sl attr) :
    ∀ (cur : ℕ) (entropy value : F), sl.leftIndex ≤ cur →
      (∀ i, sl.leftIndex ≤ i → i < cur → cur ≤ sl.rightIndex →
        (s.point i).category attr ≠ (s.point cur).category attr) →
      ∃ entropy', categoryLoop cfg s sl attr cur entropy value = .ok (some (entropy',
        (categories s attr cur sl.rightIndex).foldl
          (fun total category => add total (categoryTerm cfg s sl attr category)) value)) := by
  intro cur
  -- induction on the number of points that are left
  induction hn : sl.rightIndex + 1 - cur using Nat.strong_induction_on generalizing cur with
  | _ n ih =>
    intro entropy value hl hbefore
    rw [categoryLoop]
    by_cases hcur : cur ≤ sl.rightIndex
    swap
    · have hnil : categories s attr cur sl.rightIndex = [] := by
        rw [List.eq_nil_iff_forall_not_mem]
        intro c hc
        obtain ⟨i, h1, h2, -⟩ := mem_categories.mp hc
        omega
      rw [if_neg hcur, hnil]
      exact ⟨entropy, rfl⟩
    rw [if_pos hcur]
    have hle := le_runEnd (fun i => (s.point i).category attr) sl.rightIndex
      ((s.point cur).category attr) cur
    have hright := runEnd_le (fun i => (s.point i).category attr) sl.rightIndex
      ((s.point cur).category attr) cur hcur
    have hval := runEnd_val (fun i => (s.point i).category attr) sl.rightIndex
      ((s.point cur).category attr) cur
    have hstop := runEnd_stop (fun i => (s.point i).category attr) sl.rightIndex
      ((s.point cur).category attr) cur
    generalize runEnd (fun i => (s.point i).category attr) sl.rightIndex
      ((s.point cur).category attr) cur = next at hle hright hval hstop ⊢
    simp only at hval hstop ⊢
    have hrun : ∀ i, cur ≤ i → i ≤ next →
        (s.point i).category attr = (s.point cur).category attr := by
      intro i h1 h2
      rcases Nat.eq_or_lt_of_le h1 with rfl | hlt
      · rfl
      · exact hval i hlt h2
    have hlater : ∀ i, next < i → i ≤ sl.rightIndex →
        (s.point cur).category attr < (s.point i).category attr := by
      intro i h1 h2
      have hne := hstop (by omega)
      have hge := hsorted cur (next + 1) hl (by omega) (by omega)
      have hi := hsorted (next + 1) i (by omega) h1 h2
      omega
    have hwhole : ¬ (cur = sl.leftIndex ∧ next = sl.rightIndex) := by
      rintro ⟨rfl, rfl⟩
      obtain ⟨i, hi, j, hj, hne⟩ := hseveral
      exact hne ((hrun i hi.1 hi.2).trans (hrun j hj.1 hj.2).symm)
    obtain ⟨e, he⟩ := h.weightedEntropy hl hright
    rw [if_neg hwhole, he]
    simp only
    obtain ⟨entropy', hrest⟩ := ih (sl.rightIndex + 1 - (next + 1)) (by omega) (next + 1) rfl
      (add entropy e) (add value (categoryTerm cfg s sl attr ((s.point cur).category attr)))
      (by omega) fun i h1 h2 h3 => by
        have := hsorted i next h1 (by omega) hright
        have := hlater (next + 1) (by omega) h3
        have := hrun next hle (le_refl _)
        omega
    refine ⟨entropy', ?_⟩
    rw [categories_run hle hright hrun hlater, List.foldl_cons, ← hrest]
    unfold categoryTerm
    rw [categorySize_run hl hle hright hrun (fun i h1 h2 => hbefore i h1 h2 hcur)
      fun i h1 h2 => (hlater i h1 h2).ne']

/-! ## The candidates -/

/-- A slice with one category has no candidate. -/
theorem categoricalCandidate_single {attr : ℕ} (hr : sl.InRange s)
    (hone : ¬ SeveralCategories s sl attr) : categoricalCandidate cfg s sl attr = .ok [] := by
  have hend : runEnd (fun i => (s.point i).category attr) sl.rightIndex
      ((s.point sl.leftIndex).category attr) sl.leftIndex = sl.rightIndex := by
    refine runEnd_all _ _ _ _ hr.1 fun i hl hr' => ?_
    by_contra hne
    exact hone ⟨i, ⟨hl, hr'⟩, sl.leftIndex, ⟨le_refl _, hr.1⟩, hne⟩
  have hloop : categoryLoop cfg s sl attr sl.leftIndex (ofInt 0 : F) (ofInt 0) = .ok none := by
    rw [categoryLoop, if_pos hr.1]
    simp only [hend, and_self, if_true]
  unfold categoricalCandidate
  rw [hloop]
  rfl

/-- A slice with several categories has one, or the assertion fails. -/
theorem categoricalCandidate_several {attr : ℕ} (h : Scored cfg s sl)
    (hsorted : ∀ i j, sl.leftIndex ≤ i → i ≤ j → j ≤ sl.rightIndex →
      (s.point i).category attr ≤ (s.point j).category attr)
    (hseveral : SeveralCategories s sl attr) : ∃ gainRatio, categoricalCandidate cfg s sl attr =
      if lt (ofInt 0) (totalIntrinsicValue cfg s sl attr) then .ok [⟨attr, gainRatio⟩]
      else .error .assertionFailure := by
  obtain ⟨entropy', hloop⟩ : ∃ entropy', categoryLoop cfg s sl attr sl.leftIndex (ofInt 0)
    (ofInt 0) =
      .ok (some (entropy', totalIntrinsicValue cfg s sl attr)) :=
    categoryLoop_spec h hsorted hseveral sl.leftIndex (ofInt 0) (ofInt 0) (le_refl _)
      fun i h1 h2 => absurd h1 (by omega)
  obtain ⟨e, he⟩ := h.entropy (le_refl _) (le_refl _)
  unfold categoricalCandidate
  rw [hloop]
  simp only [bind, Except.bind, he]
  cases lt (ofInt 0) (totalIntrinsicValue cfg s sl attr) with
  | true => exact ⟨_, rfl⟩
  | false => exact ⟨ofInt 0, rfl⟩

/-- The best cut of an attribute is a candidate if there are classified points. -/
theorem intCandidate_spec (h : Scored cfg s sl) (attr tries : ℕ) (c : Cut F) :
    ∃ gain, intCandidate cfg s sl attr tries c = if c.possible = true then
      if 0 < numClassifiedPoints cfg s sl.leftIndex sl.rightIndex then
        .ok [⟨attr, (s.point c.splitIndex).int attr, gain, c.intrinsicValue⟩]
      else .error .assertionFailure
    else .ok [] := by
  obtain ⟨e, he⟩ := h.entropy (le_refl _) (le_refl _)
  unfold intCandidate
  by_cases hc : c.possible = true
  swap
  · exact ⟨ofInt 0, by rw [if_neg hc, if_neg hc]⟩
  rw [if_pos hc]
  by_cases hn : 0 < numClassifiedPoints cfg s sl.leftIndex sl.rightIndex
  · obtain ⟨gain, hgain⟩ := h.cutGain hn attr tries c
    refine ⟨gain, ?_⟩
    rw [hgain, if_pos hc, if_pos hn]
    rfl
  · refine ⟨ofInt 0, ?_⟩
    rw [if_pos hc, if_neg hn]
    unfold cutGain
    simp only [he, bind, Except.bind, assert, gt_iff_lt, decide_eq_false hn]
    rfl

theorem Resorted.positiveIntrinsicValue (h : Resorted sl s s') (hr : sl.InRange s) {attr : ℕ} :
    PositiveIntrinsicValue cfg s' sl attr ↔ PositiveIntrinsicValue cfg s sl attr := by
  unfold PositiveIntrinsicValue
  rw [h.severalCategories, h.totalIntrinsicValue hr]

/-- The candidate of a categorical attribute, after sorting the slice by it. -/
theorem categoricalCandidate_sorted (env : Environment) (attr : ℕ) (h : Scored cfg s sl)
    (hr : sl.InRange s) :
    (PositiveIntrinsicValue cfg s sl attr → ∃ cs,
      categoricalCandidate cfg (s.sortSlice env (fun d => d.category attr) sl) sl attr = .ok cs ∧
      (∀ c ∈ cs, c.attr = attr ∧ SeveralCategories s sl attr) ∧
      (SeveralCategories s sl attr → cs ≠ [])) ∧
    (¬ PositiveIntrinsicValue cfg s sl attr →
      categoricalCandidate cfg (s.sortSlice env (fun d => d.category attr) sl) sl attr =
        .error .assertionFailure) := by
  have hres := sortSlice_resorted env (fun d => (d.category attr : ℤ)) hr
  by_cases hsev : SeveralCategories s sl attr
  · obtain ⟨gainRatio, hcand⟩ := categoricalCandidate_several
      (h.sort env (fun d => (d.category attr : ℤ)) hr)
      (fun i j hi hij hj =>
        Int.ofNat_le.mp (sortSlice_sorted env (fun d => (d.category attr : ℤ)) hr hi hij hj))
      (hres.severalCategories.mpr hsev)
    rw [hres.totalIntrinsicValue hr] at hcand
    constructor
    · intro hpos
      rw [if_pos (hpos hsev)] at hcand
      exact ⟨_, hcand, by simp [hsev], by simp⟩
    · intro hneg
      rwa [if_neg fun hlt => hneg fun _ => hlt] at hcand
  · refine ⟨fun _ => ⟨[], ?_, by simp, fun h' => absurd h' hsev⟩, fun hneg => ?_⟩
    · exact categoricalCandidate_single (hres.inRange hr)
        fun h' => hsev (hres.severalCategories.mp h')
    · exact absurd (fun h' => absurd h' hsev) hneg

/-- The categorical candidates are those of the attributes with several categories. -/
theorem categoricalCandidates_returns (env : Environment) :
    ∀ (attrs : List ℕ) (s : LearnerState F), Scored cfg s sl → sl.InRange s →
      (∀ attr ∈ attrs, PositiveIntrinsicValue cfg s sl attr) →
      ∃ s' cs, categoricalCandidates env cfg sl attrs s = .ok (s', cs) ∧ Resorted sl s s' ∧
        Scored cfg s' sl ∧ (∀ c ∈ cs, c.attr ∈ attrs ∧ SeveralCategories s sl c.attr) ∧
        ∀ attr ∈ attrs, SeveralCategories s sl attr → cs ≠ [] := by
  intro attrs
  induction attrs with
  | nil => exact fun s h hr _ => ⟨s, [], rfl, .refl hr, h, by simp, by simp⟩
  | cons attr rest ih =>
    intro s h hr hpos
    rw [List.forall_mem_cons] at hpos
    have hres := sortSlice_resorted env (fun d => (d.category attr : ℤ)) hr
    obtain ⟨c, hcand, hc, hcne⟩ := (categoricalCandidate_sorted env attr h hr).1 hpos.1
    obtain ⟨s', cs, hrun, hres', hsc', hcs, hne⟩ := ih _
      (h.sort env (fun d => (d.category attr : ℤ)) hr) (hres.inRange hr)
      fun a ha => (hres.positiveIntrinsicValue hr).mpr (hpos.2 a ha)
    refine ⟨s', c ++ cs, ?_, hres.trans hres', hsc', ?_, ?_⟩
    · simp only [categoricalCandidates, hcand, hrun, bind, Except.bind]
      rfl
    · intro c' hc'
      rcases List.mem_append.mp hc' with hmem | hmem
      · obtain ⟨rfl, hsev⟩ := hc c' hmem
        exact ⟨List.mem_cons_self, hsev⟩
      · exact ⟨List.mem_cons_of_mem _ (hcs c' hmem).1, hres.severalCategories.mp (hcs c' hmem).2⟩
    · intro a ha hsev hnil
      obtain ⟨rfl, rfl⟩ := List.append_eq_nil_iff.mp hnil
      rcases List.mem_cons.mp ha with rfl | hmem
      · exact hcne hsev rfl
      · exact hne a hmem (hres.severalCategories.mpr hsev) rfl

/-- The assertion on the intrinsic value of an attribute fails. -/
theorem categoricalCandidates_aborts (env : Environment) :
    ∀ (attrs : List ℕ) (s : LearnerState F), Scored cfg s sl → sl.InRange s →
      (∃ attr ∈ attrs, ¬ PositiveIntrinsicValue cfg s sl attr) →
      categoricalCandidates env cfg sl attrs s = .error .assertionFailure := by
  intro attrs
  induction attrs with
  | nil =>
    rintro s - - ⟨attr, hattr, -⟩
    exact absurd hattr (by simp)
  | cons attr rest ih =>
    rintro s h hr ⟨a, ha, hneg⟩
    have hres := sortSlice_resorted env (fun d => (d.category attr : ℤ)) hr
    rw [categoricalCandidates]
    by_cases hpos : PositiveIntrinsicValue cfg s sl attr
    · obtain ⟨c, hcand, -⟩ := (categoricalCandidate_sorted env attr h hr).1 hpos
      have hrest := ih _ (h.sort env (fun d => (d.category attr : ℤ)) hr) (hres.inRange hr) (by
        rcases List.mem_cons.mp ha with rfl | hmem
        · exact absurd hpos hneg
        · exact ⟨a, hmem, fun hpos' => hneg ((hres.positiveIntrinsicValue hr).mp hpos')⟩)
      simp only [hcand, hrest, bind, Except.bind]
    · simp only [(categoricalCandidate_sorted env attr h hr).2 hpos]
      rfl

omit [Score F] in
theorem Resorted.classified (h : Resorted sl s s') (hr : sl.InRange s) {attr : ℕ} :
    Classified cfg s' sl attr ↔ Classified cfg s sl attr := by
  unfold Classified
  rw [h.hasCut, h.numClassifiedPoints hr]

/-- The candidates of an integer attribute, after sorting the slice by it. -/
theorem attributeCandidates_sorted (env : Environment) (attr : ℕ) (h : Scored cfg s sl)
    (hr : sl.InRange s) :
    (Classified cfg s sl attr → ∃ cuts conjs,
      attributeCandidates cfg (s.sortSlice env (fun d => d.int attr) sl) sl attr =
        .ok (cuts, conjs) ∧
      (∀ c ∈ cuts ++ conjs, c.attr = attr ∧ ValidCut cfg s sl attr c.threshold) ∧
      (HasCut cfg s sl attr → cuts ≠ [])) ∧
    (¬ Classified cfg s sl attr →
      attributeCandidates cfg (s.sortSlice env (fun d => d.int attr) sl) sl attr =
        .error .assertionFailure) := by
  have hres := sortSlice_resorted env (fun d => d.int attr) hr
  obtain ⟨cs, hrun, hok, hokj, hposs⟩ := cutLoop_hasCut env attr h hr
  have hboth : cs.Ok := cutLoop_ok (by simp [CutState.Ok, Cut.initial]) hrun
  have hcand := intCandidate_spec (h.sort env (fun d => d.int attr) hr) attr cs.tries
  rw [hres.numClassifiedPoints hr] at hcand
  unfold attributeCandidates
  simp only [hrun, bind, Except.bind]
  constructor
  · intro hcl
    -- each of the two cuts gives at most one candidate, and that is a cut of the slice
    have hone : ∀ c : Cut F, c.Ok cfg (s.sortSlice env (fun d => d.int attr) sl) sl attr →
        (c.possible = true → HasCut cfg s sl attr) → ∃ l,
        intCandidate cfg (s.sortSlice env (fun d => d.int attr) sl) sl attr cs.tries c = .ok l ∧
        (∀ c' ∈ l, c'.attr = attr ∧ ValidCut cfg s sl attr c'.threshold) ∧
        (c.possible = true → l ≠ []) := by
      intro c hc hcut
      obtain ⟨gain, heq⟩ := hcand c
      by_cases hp : c.possible = true
      · rw [if_pos hp, if_pos (hcl (hcut hp))] at heq
        exact ⟨_, heq, by simpa using hres.validCut.mp (hc hp).validCut, by simp⟩
      · rw [if_neg hp] at heq
        exact ⟨[], heq, by simp, fun h' => absurd h' hp⟩
    obtain ⟨cuts, hcuts, hvalid, hne⟩ := hone cs.cut hok hposs.mp
    obtain ⟨conjs, hconjs, hvalid', -⟩ := hone cs.conjCut hokj fun hp => hposs.mp (hboth hp)
    by_cases hcfg : cfg.conjunctiveSetting = .preferenceForConjuncts
    · simp only [if_pos hcfg, hconjs, hcuts]
      exact ⟨cuts, conjs, rfl, List.forall_mem_append.mpr ⟨hvalid, hvalid'⟩,
        fun hcut => hne (hposs.mpr hcut)⟩
    · simp only [if_neg hcfg, hcuts]
      exact ⟨cuts, [], rfl, by simpa using hvalid, fun hcut => hne (hposs.mpr hcut)⟩
  · intro hncl
    unfold Classified at hncl
    rw [Classical.not_imp] at hncl
    obtain ⟨gain, hcut⟩ := hcand cs.cut
    obtain ⟨gain', hconj⟩ := hcand cs.conjCut
    rw [if_neg hncl.2] at hcut hconj
    rw [if_pos (hposs.mpr hncl.1)] at hcut
    by_cases hcfg : cfg.conjunctiveSetting = .preferenceForConjuncts
    · simp only [if_pos hcfg, hconj, hcut]
      split_ifs
      · rfl
      · rfl
    · simp only [if_neg hcfg, hcut]

/-- The integer candidates are cuts of the slice, and there is one for every attribute
    with a cut. -/
theorem intCandidates_returns (env : Environment) :
    ∀ (attrs : List ℕ) (s : LearnerState F), Scored cfg s sl → sl.InRange s →
      (∀ attr ∈ attrs, Classified cfg s sl attr) →
      ∃ s' cuts conjs, intCandidates env cfg sl attrs s = .ok (s', cuts, conjs) ∧
        (∀ c ∈ cuts ++ conjs, c.attr ∈ attrs ∧ ValidCut cfg s sl c.attr c.threshold) ∧
        ∀ attr ∈ attrs, HasCut cfg s sl attr → cuts ≠ [] := by
  intro attrs
  induction attrs with
  | nil => exact fun s h hr _ => ⟨s, [], [], rfl, by simp, by simp⟩
  | cons attr rest ih =>
    intro s h hr hcl
    rw [List.forall_mem_cons] at hcl
    have hres := sortSlice_resorted env (fun d => d.int attr) hr
    obtain ⟨c, cj, hcand, hc, hcne⟩ := (attributeCandidates_sorted env attr h hr).1 hcl.1
    obtain ⟨s', cuts, conjs, hrun, hcs, hne⟩ := ih _ (h.sort env (fun d => d.int attr) hr)
      (hres.inRange hr) fun a ha => (hres.classified hr).mpr (hcl.2 a ha)
    refine ⟨s', c ++ cuts, cj ++ conjs, ?_, ?_, ?_⟩
    · simp only [intCandidates, hcand, hrun, bind, Except.bind]
      rfl
    · intro c' hc'
      have hmem : c' ∈ c ++ cj ∨ c' ∈ cuts ++ conjs := by
        simp only [List.mem_append] at hc' ⊢
        tauto
      rcases hmem with hmem | hmem
      · obtain ⟨rfl, hv⟩ := hc c' hmem
        exact ⟨List.mem_cons_self, hv⟩
      · exact ⟨List.mem_cons_of_mem _ (hcs c' hmem).1, hres.validCut.mp (hcs c' hmem).2⟩
    · intro a ha hcut hnil
      obtain ⟨rfl, rfl⟩ := List.append_eq_nil_iff.mp hnil
      rcases List.mem_cons.mp ha with rfl | hmem
      · exact hcne hcut rfl
      · exact hne a hmem (hres.hasCut.mpr hcut) rfl

/-- The assertion on the number of classified points fails. -/
theorem intCandidates_aborts (env : Environment) :
    ∀ (attrs : List ℕ) (s : LearnerState F), Scored cfg s sl → sl.InRange s →
      (∃ attr ∈ attrs, ¬ Classified cfg s sl attr) →
      intCandidates env cfg sl attrs s = .error .assertionFailure := by
  intro attrs
  induction attrs with
  | nil =>
    rintro s - - ⟨attr, hattr, -⟩
    exact absurd hattr (by simp)
  | cons attr rest ih =>
    rintro s h hr ⟨a, ha, hneg⟩
    have hres := sortSlice_resorted env (fun d => d.int attr) hr
    rw [intCandidates]
    by_cases hcl : Classified cfg s sl attr
    · obtain ⟨c, cj, hcand, -⟩ := (attributeCandidates_sorted env attr h hr).1 hcl
      have hrest := ih _ (h.sort env (fun d => d.int attr) hr) (hres.inRange hr) (by
        rcases List.mem_cons.mp ha with rfl | hmem
        · exact absurd hcl hneg
        · exact ⟨a, hmem, fun hcl' => hneg ((hres.classified hr).mp hcl')⟩)
      simp only [hcand, hrest, bind, Except.bind]
    · simp only [(attributeCandidates_sorted env attr h hr).2 hcl]
      rfl

/-- The candidates are splits of the slice, and there are some if there is a split. -/
structure Candidates.Valid (cfg : Settings) (s : LearnerState F) (sl : Slice) (c k : ℕ)
    (cs : Candidates F) : Prop where
  categorical : ∀ c' ∈ cs.categorical, c'.attr < c ∧ SeveralCategories s sl c'.attr
  severalCategories : ∀ attr < c, SeveralCategories s sl attr → cs.categorical ≠ []
  cuts : ∀ c' ∈ cs.cuts ++ cs.conjunctive, c'.attr < k ∧ ValidCut cfg s sl c'.attr c'.threshold
  hasCut : ∀ attr < k, HasCut cfg s sl attr → cs.cuts ≠ []

theorem candidates_returns (env : Environment) {c k : ℕ} (h : Scored cfg s sl)
    (hw : WellFormed s sl c k) (hpos : ∀ attr < c, PositiveIntrinsicValue cfg s sl attr)
    (hcl : ∀ attr < k, Classified cfg s sl attr) :
    ∃ cs, candidates env cfg sl s = .ok cs ∧ cs.Valid cfg s sl c k := by
  have hleft : sl.Contains sl.leftIndex := ⟨le_refl _, hw.inRange.1⟩
  obtain ⟨s₁, cats, hcat, hres, hsc, hcats, hcatne⟩ := categoricalCandidates_returns env
    (List.range c) s h hw.inRange fun attr ha => hpos attr (List.mem_range.mp ha)
  have hk : (s₁.point sl.leftIndex).intData.length = k :=
    hres.forall_point (p := fun d => d.intData.length = k) (fun i hi => (hw.arity i hi).2) _ hleft
  obtain ⟨s₂, cuts, conjs, hint, hcuts, hcutne⟩ := intCandidates_returns env (List.range k) s₁ hsc
    (hres.inRange hw.inRange) fun attr ha =>
      (hres.classified hw.inRange).mpr (hcl attr (List.mem_range.mp ha))
  refine ⟨⟨s₂, cats, cuts, conjs⟩, ?_, ?_, ?_, ?_, ?_⟩
  · unfold candidates
    simp only [(hw.arity _ hleft).1, hcat, hk, hint, bind, Except.bind]
    rfl
  · exact fun c' hc' => ⟨List.mem_range.mp (hcats c' hc').1, (hcats c' hc').2⟩
  · exact fun attr ha => hcatne attr (List.mem_range.mpr ha)
  · exact fun c' hc' => ⟨List.mem_range.mp (hcuts c' hc').1, hres.validCut.mp (hcuts c' hc').2⟩
  · exact fun attr ha hcut => hcutne attr (List.mem_range.mpr ha) (hres.hasCut.mpr hcut)

theorem candidates_aborts (env : Environment) {c k : ℕ} (h : Scored cfg s sl)
    (hw : WellFormed s sl c k) (hneg : (∃ attr < c, ¬ PositiveIntrinsicValue cfg s sl attr) ∨
      ∃ attr < k, ¬ Classified cfg s sl attr) :
    candidates env cfg sl s = .error .assertionFailure := by
  have hleft : sl.Contains sl.leftIndex := ⟨le_refl _, hw.inRange.1⟩
  unfold candidates
  rw [(hw.arity _ hleft).1]
  by_cases hpos : ∀ attr ∈ List.range c, PositiveIntrinsicValue cfg s sl attr
  · obtain ⟨s₁, cats, hcat, hres, hsc, -⟩ :=
      categoricalCandidates_returns env (List.range c) s h hw.inRange hpos
    have hk : (s₁.point sl.leftIndex).intData.length = k :=
      hres.forall_point (p := fun d => d.intData.length = k) (fun i hi => (hw.arity i hi).2) _ hleft
    have hint : intCandidates env cfg sl (List.range k) s₁ = .error .assertionFailure := by
      refine intCandidates_aborts env (List.range k) s₁ hsc (hres.inRange hw.inRange) ?_
      rcases hneg with ⟨attr, ha, hneg⟩ | ⟨attr, ha, hneg⟩
      · exact absurd (hpos attr (List.mem_range.mpr ha)) hneg
      · exact ⟨attr, List.mem_range.mpr ha, fun hcl => hneg ((hres.classified hw.inRange).mp hcl)⟩
    simp only [hcat, hk, hint, bind, Except.bind]
  · push Not at hpos
    rw [categoricalCandidates_aborts env (List.range c) s h hw.inRange hpos]
    rfl

/-! ## The selection -/

/-- If a cut is lost, the initial values are selected. -/
theorem IntBest.selected_of_lost {cs : List (IntCandidate F)} (h : Lost cs) :
    (IntBest.all cs).selected = (ofInt (-1000000), 0, 0) := by
  have hspec := IntBest.all_spec cs
  obtain ⟨hattr, hthr, hratio⟩ := hspec.initialRecord h.1
  unfold IntBest.selected
  rw [if_pos (hspec.nonZero.mpr h.2), hattr, hthr, hratio]

/-- Otherwise one of the candidates is. -/
theorem IntBest.selected_of_not_lost {cs : List (IntCandidate F)} (hne : cs ≠ []) (h : ¬ Lost cs) :
    ∃ c ∈ cs, (IntBest.all cs).selected.2 = (c.attr, c.threshold) := by
  have hspec := IntBest.all_spec cs
  unfold IntBest.selected
  by_cases hz : (IntBest.all cs).nonZeroIntrinsicValuePossible = true
  · obtain ⟨c, hc, -, hattr, hthr, -⟩ := hspec.record fun hun => h ⟨hun, hspec.nonZero.mp hz⟩
    exact ⟨c, hc, by rw [if_pos hz, hattr, hthr]⟩
  · obtain ⟨c, hc, hattr, hthr, -⟩ := hspec.zeroRecord (by simpa using hz) hne
    exact ⟨c, hc, by rw [if_neg hz, hattr, hthr]⟩

omit [Score F] in
theorem ValidCut.separates {attr : ℕ} {threshold : ℤ} (h : ValidCut cfg s sl attr threshold) :
    Separates s sl attr threshold := by
  obtain ⟨⟨i, hi, he⟩, hj, -⟩ := h
  exact ⟨⟨i, hi, le_of_eq he⟩, hj⟩

omit [Score F] in
theorem Candidates.Valid.preferred {c k : ℕ} {cs : Candidates F} (h : cs.Valid cfg s sl c k) :
    ∀ c' ∈ cs.preferred cfg, c'.attr < k ∧ ValidCut cfg s sl c'.attr c'.threshold := by
  intro c' hc'
  apply h.cuts
  unfold Candidates.preferred at hc'
  split_ifs at hc' with hconj
  · exact List.mem_append_right _ hc'
  · exact List.mem_append_left _ hc'

/-- The integer job splits the slice, unless its cut is lost. -/
theorem Candidates.Valid.intJob {c k : ℕ} {cs : Candidates F} (h : cs.Valid cfg s sl c k)
    (hne : cs.preferred cfg ≠ []) : ReallySplits s sl c k (cs.intJob cfg sl) ↔
      (Lost (cs.preferred cfg) → Separates s sl 0 0) := by
  unfold Candidates.intJob
  by_cases hlost : Lost (cs.preferred cfg)
  · obtain ⟨c', hc', -⟩ := hlost.2
    have hk : 0 < k := lt_of_le_of_lt (Nat.zero_le _) (h.preferred c' hc').1
    rw [IntBest.selected_of_lost hlost]
    exact ⟨fun hs _ => hs.2.2, fun hs => ⟨rfl, hk, hs hlost⟩⟩
  · obtain ⟨c', hc', heq⟩ := IntBest.selected_of_not_lost hne hlost
    obtain ⟨hattr, hvalid⟩ := h.preferred c' hc'
    rw [heq]
    exact iff_of_true ⟨rfl, hattr, hvalid.separates⟩ fun hl => absurd hl hlost

theorem Candidates.Valid.categoricalSplit {c k : ℕ} {cs : Candidates F} (h : cs.Valid cfg s sl c k)
    (hne : cs.categorical ≠ []) :
    ReallySplits s sl c k (.categoricalSplit sl (CategoricalBest.all cs.categorical).attr) := by
  obtain ⟨c', hc', hattr, -⟩ := (CategoricalBest.all_spec cs.categorical).2 hne
  obtain ⟨hc, hsev⟩ := h.categorical c' hc'
  rw [hattr]
  exact ⟨rfl, hc, hsev⟩

/-- The selection among valid candidates. -/
theorem Candidates.Valid.select {c k : ℕ} {cs : Candidates F} (h : cs.Valid cfg s sl c k)
    (hconj : cs.conjunctive ≠ [] → cs.cuts ≠ []) :
    (cs.select cfg sl = .error (.splitNotPossibleError "No split possible!") ∧
        ¬ cs.SelectsLost cfg ∧ NoSplit cfg s sl c k) ∨
      ∃ job, cs.select cfg sl = .ok job ∧
        (ReallySplits s sl c k job ↔ (cs.SelectsLost cfg → Separates s sl 0 0)) := by
  rw [Candidates.select_eq cfg sl hconj]
  by_cases hpref : cs.preferred cfg = []
  · -- only a categorical split is possible
    have hlost : ¬ cs.SelectsLost cfg := by
      rintro ⟨⟨-, c', hc', -⟩, -⟩
      rw [hpref] at hc'
      exact absurd hc' (by simp)
    rw [if_pos hpref]
    by_cases hcat : cs.categorical = []
    · refine .inl ⟨if_pos hcat, hlost, fun attr ha hsev => ?_, fun attr ha hcut => ?_⟩
      · exact h.severalCategories attr ha hsev hcat
      · exact h.hasCut attr ha hcut ((Candidates.preferred_eq_nil cfg hconj).mp hpref)
    · refine .inr ⟨_, if_neg hcat, ?_⟩
      exact iff_of_true (h.categoricalSplit hcat) fun hl => absurd hl hlost
  rw [if_neg hpref]
  by_cases hcat : cs.categorical = []
  · refine .inr ⟨_, if_pos hcat, ?_⟩
    rw [h.intJob hpref]
    unfold Candidates.SelectsLost
    simp [hcat]
  rw [if_neg hcat]
  by_cases hle : le (IntBest.all (cs.preferred cfg)).selected.1
      (CategoricalBest.all cs.categorical).gainRatio = true
  · refine .inr ⟨_, if_pos hle, ?_⟩
    rw [h.intJob hpref]
    refine ⟨fun hs hl => hs hl.1, fun hs hl => hs ⟨hl, .inr ?_⟩⟩
    rwa [IntBest.selected_of_lost hl] at hle
  · refine .inr ⟨_, if_neg hle, iff_of_true (h.categoricalSplit hcat) ?_⟩
    rintro ⟨hl, hcat' | hle'⟩
    · exact absurd hcat' hcat
    · rw [IntBest.selected_of_lost hl] at hle
      exact absurd hle' hle

/-- `find_best_split` makes progress iff the intrinsic values that it divides by are
    positive, there are classified points if there is a cut, and no cut that counts is
    lost. The scores are arbitrary. -/
theorem findBestSplit_advances_iff (env : Environment) (cfg : Settings) (sl : Slice)
    (s : LearnerState F) (c k : ℕ) (hw : WellFormed s sl c k) (hsc : Scored cfg s sl) :
    Advances env cfg sl s c k ↔ Sound env cfg sl s c k := by
  have hassert : assert (sl.leftIndex ≤ sl.rightIndex ∧ sl.rightIndex < s.datapointPtrs.length) =
      .ok () := by
    have hr : sl.leftIndex ≤ sl.rightIndex ∧ sl.rightIndex < s.datapointPtrs.length := hw.inRange
    rw [assert, if_pos (decide_eq_true hr)]
  unfold Advances
  rw [findBestSplit_eq]
  simp only [hassert, bind, Except.bind]
  by_cases hok : (∀ attr < c, PositiveIntrinsicValue cfg s sl attr) ∧
      ∀ attr < k, Classified cfg s sl attr
  · obtain ⟨cs, hcs, hvalid⟩ := candidates_returns env hsc hw hok.1 hok.2
    have hsound : Sound env cfg sl s c k ↔ (cs.SelectsLost cfg → Separates s sl 0 0) := by
      refine ⟨fun h => h.recorded cs hcs, fun h => ⟨hok.1, hok.2, fun cs' hcs' => ?_⟩⟩
      rw [hcs] at hcs'
      rwa [← Except.ok.inj hcs']
    rw [hsound, hcs]
    rcases hvalid.select (candidates_ok hcs) with ⟨hrun, hlost, hno⟩ | ⟨job, hrun, hiff⟩
    · simp only [hrun]
      exact iff_of_true hno fun hl => absurd hl hlost
    · simp only [hrun]
      exact hiff
  · have hneg : (∃ attr < c, ¬ PositiveIntrinsicValue cfg s sl attr) ∨
        ∃ attr < k, ¬ Classified cfg s sl attr := by
      by_contra hno
      push Not at hno
      exact hok hno
    rw [candidates_aborts env hsc hw hneg]
    exact iff_of_false id fun h => hok ⟨h.intrinsicValue, h.classified⟩

end Loops

/-! ## A lost cut -/

/-- Rational scores with a value that is not a number. The logarithm is exact on powers
    of two; of a number that is not positive it is not a number. -/
instance : Score (Option ℚ) where
  ofInt n := some n
  add := Option.map₂ (· + ·)
  sub := Option.map₂ (· - ·)
  mul := Option.map₂ (· * ·)
  div a b := if b = some 0 then none else Option.map₂ (· / ·) a b
  neg := Option.map (- ·)
  log2 a := a.bind fun x => if 0 < x then some (Int.log 2 x : ℚ) else none
  toFloat := id
  lt a b := match a, b with
    | some x, some y => x < y
    | _, _ => false
  le a b := match a, b with
    | some x, some y => x ≤ y
    | _, _ => false
  eq a b := match a, b with
    | some x, some y => x = y
    | _, _ => false

/-- An unlabelled point and two labelled ones. The cut of attribute 0 has no labelled
    point on its right. The best cut of attribute 1 separates the labels; the difference
    of the largest and the smallest value overflows, so its gain is not a number. -/
def threePoints : LearnerState (Option ℚ) where
  solver := { mem := fun x => match x with
    | .point 0 => { categoricalData := [0], intData := [7, -2000000000] }
    | .point 1 =>
      { categoricalData := [0], intData := [5, 1999999999], isClassified := true, classification :=
      true }
    | .point 2 => { categoricalData := [0], intData := [5, 2000000000], isClassified := true }
    | _ => {} }
  datapointPtrs := [.point 0, .point 1, .point 2]

def threeSettings : Settings :=
  { hornConstraints := [], numberOfCategories := [1], entropyComputation := .defaultEntropy }

/-- The labelled points alone are split at attribute 1. -/
theorem findBestSplit_advances_iff_labelled :
    WellFormed threePoints ⟨1, 2, []⟩ 1 2 ∧ Scored threeSettings threePoints ⟨1, 2, []⟩ ∧
      Advances .stable threeSettings ⟨1, 2, []⟩ threePoints 1 2 := by
  have hcontains : ∀ i, (⟨1, 2, []⟩ : Slice).Contains i → i = 1 ∨ i = 2 := by
    intro i hi
    unfold Slice.Contains at hi
    simp only at hi
    omega
  have hw : WellFormed threePoints ⟨1, 2, []⟩ 1 2 := by
    refine ⟨⟨by decide, by decide⟩, fun i hi => ?_⟩
    rcases hcontains i hi with rfl | rfl
    · exact ⟨rfl, rfl⟩
    · exact ⟨rfl, rfl⟩
  have hsc : Scored threeSettings threePoints ⟨1, 2, []⟩ := fun h => absurd h (by decide)
  have hfirst : (match candidates .stable threeSettings ⟨1, 2, []⟩ threePoints with
      | .ok cs => ((cs.preferred threeSettings).head?.map IntCandidate.nonZero)
      | .error _ => none) = some true := by
    decide +kernel
  refine ⟨hw, hsc, (findBestSplit_advances_iff .stable threeSettings _ threePoints 1 2 hw hsc).mpr
    ⟨fun attr ha hsev => ?_, fun attr _ _ => by decide, fun cs hcs hlost => ?_⟩⟩
  · obtain rfl : attr = 0 := by omega
    obtain ⟨i, hi, j, hj, hne⟩ := hsev
    rcases hcontains i hi with rfl | rfl <;> rcases hcontains j hj with rfl | rfl <;>
      exact absurd rfl hne
  · rw [hcs] at hfirst
    obtain ⟨c', hc', htrue⟩ := Option.map_eq_some_iff.mp hfirst
    rw [hlost.1.1.1 c' hc'] at htrue
    exact absurd htrue (by simp)

/-- With the unlabelled point, attribute 0 and threshold 0 are selected, although all
    values of attribute 0 are larger. -/
theorem findBestSplit_lostCut :
    WellFormed threePoints ⟨0, 2, []⟩ 1 2 ∧ Scored threeSettings threePoints ⟨0, 2, []⟩ ∧
      ¬ Advances .stable threeSettings ⟨0, 2, []⟩ threePoints 1 2 := by
  have hcontains : ∀ i, (⟨0, 2, []⟩ : Slice).Contains i → i = 0 ∨ i = 1 ∨ i = 2 := by
    intro i hi
    unfold Slice.Contains at hi
    simp only at hi
    omega
  refine ⟨⟨⟨by decide, by decide⟩, fun i hi => ?_⟩, fun h => absurd h (by decide), ?_⟩
  · rcases hcontains i hi with rfl | rfl | rfl
    · exact ⟨rfl, rfl⟩
    · exact ⟨rfl, rfl⟩
    · exact ⟨rfl, rfl⟩
  have hjob : (match findBestSplit .stable threeSettings ⟨0, 2, []⟩ threePoints with
      | .ok (.intSplit _ attr threshold, _) => some (attr, threshold)
      | _ => none) = some (0, 0) := by
    decide +kernel
  unfold Advances
  split at hjob
  · rename_i hrun
    obtain ⟨rfl, rfl⟩ := Prod.mk.inj (Option.some.inj hjob)
    rw [hrun]
    rintro ⟨-, -, ⟨i, hi, hle⟩, -⟩
    rcases hcontains i hi with rfl | rfl | rfl <;> exact absurd hle (by decide)
  · cases hjob

end HiceDt.Learner
