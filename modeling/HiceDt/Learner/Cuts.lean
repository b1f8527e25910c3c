import HiceDt.Learner.Candidates
import HiceDt.Learner.Split

/-!
# Which cuts `find_best_split` finds

With entropies that are computed from the labels, `find_best_split` considers for
every integer attribute the cuts at the values in the slice that the threshold
allows. It finds a cut iff there is one, provided that the gain ratios compare
above the initial value of the best gain ratio.

Results:

* `cutLoop_spec`: the cut of an attribute that the loop finds.
* `BestOk.consider`: the best cut stays a cut of the slice.
* `findBestSplit_spec`: `find_best_split` on a slice with one category.
-/

namespace HiceDt.Learner

open HiceDt Solver Score Loop

variable {F : Type} [Score F] {s s' : LearnerState F} {sl : Slice} {cfg : Settings}

/-- The heuristics of the driver: entropies are computed from the labels, and
    conjunctive cuts are not preferred. -/
structure Plain (cfg : Settings) : Prop where
  entropy : cfg.entropyComputation ≠ .hornAssignments
  conjunctive : cfg.conjunctiveSetting = .noPreferenceForConjuncts

/-- If entropies are computed from sampled assignments, the points of the slice have a
    fraction. -/
def Scored (cfg : Settings) (s : LearnerState F) (sl : Slice) : Prop :=
  cfg.entropyComputation = .hornAssignments →
    ∀ i, sl.Contains i → ∃ frac, s.datapointPtrsToFrac (s.ptr i) = some frac

omit [Score F] in
theorem Plain.scored (hp : Plain cfg) (s : LearnerState F) (sl : Slice) : Scored cfg s sl :=
  fun h => absurd h hp.entropy

omit [Score F] in
theorem Scored.sort (h : Scored cfg s sl) (env : Environment) (key : Datapoint → ℤ)
    (hr : sl.InRange s) : Scored cfg (s.sortSlice env key sl) sl := by
  intro hcfg i hi
  obtain ⟨j, hj1, hj2, hj⟩ :=
    Rearranged.ptr_inside (sortSlice_resorted env key hr).rearranged hi.1 hi.2
  obtain ⟨frac, hfrac⟩ := h hcfg j ⟨hj1, hj2⟩
  exact ⟨frac, by rw [hj]; exact hfrac⟩

/-! ## Entropies -/

/-- `entropy` returns if the points have a fraction. -/
theorem entropy_of_frac (cfg : Settings) {left right : ℕ}
    (hfrac : ∀ i, left ≤ i → i ≤ right → ∃ frac, s.datapointPtrsToFrac (s.ptr i) = some frac) :
    ∃ e, entropy cfg s left right = .ok e := by
  unfold entropy
  cases cfg.entropyComputation with
  | defaultEntropy => exact ⟨_, rfl⟩
  | penalty => exact ⟨_, rfl⟩
  | hornAssignments =>
    refine foldlM_bind_returns (fun count i hi => ?_) fun count => ⟨_, rfl⟩
    obtain ⟨frac, hi'⟩ := hfrac i (mem_indices.mp hi).1 (mem_indices.mp hi).2
    rw [hi']
    exact ⟨_, rfl⟩

theorem Scored.entropy (h : Scored cfg s sl) {left right : ℕ} (hl : sl.leftIndex ≤ left)
    (hr : right ≤ sl.rightIndex) : ∃ e, entropy cfg s left right = .ok e := by
  cases hcfg : cfg.entropyComputation with
  | hornAssignments =>
    exact entropy_of_frac cfg fun i h1 h2 => h hcfg i ⟨le_trans hl h1, le_trans h2 hr⟩
  | defaultEntropy =>
    unfold Learner.entropy
    rw [hcfg]
    exact ⟨_, rfl⟩
  | penalty =>
    unfold Learner.entropy
    rw [hcfg]
    exact ⟨_, rfl⟩

theorem Scored.weightedEntropy (h : Scored cfg s sl) {left right : ℕ}
    (hl : sl.leftIndex ≤ left) (hr : right ≤ sl.rightIndex) :
    ∃ e, weightedEntropy cfg s left right = .ok e := by
  obtain ⟨e, he⟩ := h.entropy hl hr
  unfold Learner.weightedEntropy
  rw [he]
  cases cfg.entropyComputation with
  | hornAssignments => exact ⟨_, rfl⟩
  | defaultEntropy => exact ⟨_, rfl⟩
  | penalty => exact ⟨_, rfl⟩

theorem Scored.totalEntropy (h : Scored cfg s sl) {cur : ℕ} (hl : sl.leftIndex ≤ cur)
    (hr : cur ≤ sl.rightIndex) : ∃ e, totalEntropy cfg s sl cur = .ok e := by
  obtain ⟨e₁, h₁⟩ := h.weightedEntropy (le_refl _) hr
  obtain ⟨e₂, h₂⟩ := h.weightedEntropy (le_trans hl (Nat.le_succ cur)) (le_refl _)
  unfold Learner.totalEntropy
  rw [h₁, h₂]
  cases cfg.entropyComputation with
  | hornAssignments => exact ⟨_, rfl⟩
  | defaultEntropy => exact ⟨_, rfl⟩
  | penalty => exact ⟨_, rfl⟩

/-- The gain of a cut is computed if there are classified points. -/
theorem Scored.cutGain (h : Scored cfg s sl)
    (hn : 0 < numClassifiedPoints cfg s sl.leftIndex sl.rightIndex) (attr tries : ℕ) (c : Cut F) :
    ∃ gain, cutGain cfg s sl attr tries c = .ok gain := by
  obtain ⟨e, he⟩ := h.entropy (le_refl _) (le_refl _)
  unfold Learner.cutGain
  rw [he]
  simp only [assert, decide_eq_true hn, bind, Except.bind, if_true]
  exact ⟨_, rfl⟩

/-! ## The loop over the cuts -/

theorem skipEqual_val (val : ℕ → ℤ) (right cur : ℕ) :
    ∀ i, cur ≤ i → i ≤ skipEqual val right cur → val i = val cur := by
  induction cur using skipEqual.induct val right with
  | case1 cur hc ih =>
    intro i hi hle
    rw [skipEqual, if_pos hc] at hle
    rcases Nat.eq_or_lt_of_le hi with rfl | hlt
    · rfl
    · rw [ih i hlt hle, hc.2]
  | case2 cur hc =>
    intro i hi hle
    rw [skipEqual, if_neg hc] at hle
    rw [show i = cur by omega]

theorem skipEqual_stop (val : ℕ → ℤ) (right cur : ℕ) :
    skipEqual val right cur < right →
      val (skipEqual val right cur + 1) ≠ val (skipEqual val right cur) := by
  induction cur using skipEqual.induct val right with
  | case1 cur hc ih =>
    rw [skipEqual, if_pos hc]
    exact ih
  | case2 cur hc =>
    rw [skipEqual, if_neg hc]
    intro hlt he
    exact hc ⟨hlt, he⟩

/-- The entry at index `i` is followed by a larger one, and the threshold allows a
    cut between them. -/
def CutAt (cfg : Settings) (s : LearnerState F) (sl : Slice) (attr i : ℕ) : Prop :=
  (sl.leftIndex ≤ i ∧ i < sl.rightIndex) ∧
    (s.point i).int attr < (s.point (i + 1)).int attr ∧
    cutAllowed cfg ((s.point i).int attr) = true

/-- The cut recorded for an attribute, if there is one, is a cut. -/
def Cut.Ok (cfg : Settings) (s : LearnerState F) (sl : Slice) (attr : ℕ) (c : Cut F) : Prop :=
  c.possible = true → CutAt cfg s sl attr c.splitIndex

theorem Cut.Ok.consider {attr cur : ℕ} {c : Cut F} (h : c.Ok cfg s sl attr)
    (hcur : CutAt cfg s sl attr cur) (total : F) :
    (c.consider cfg s sl cur total).Ok cfg s sl attr := by
  unfold Cut.consider
  split_ifs with hc
  · exact fun _ => hcur
  · exact h

/-- The body of the loop at the end of a run of equal values. -/
theorem tryCut_spec {attr cur : ℕ} {cs : CutState F} (h : Scored cfg s sl)
    (hl : sl.leftIndex ≤ cur) (hr : cur ≤ sl.rightIndex)
    (hcur : cutAllowed cfg ((s.point cur).int attr) = true → CutAt cfg s sl attr cur)
    (hcs : cs.cut.Ok cfg s sl attr) (hconj : cs.conjCut.Ok cfg s sl attr) :
    ∃ cs', tryCut cfg s sl attr cur cs = .ok cs' ∧ cs'.cut.Ok cfg s sl attr ∧
      cs'.conjCut.Ok cfg s sl attr ∧ (cs'.cut.possible = true ↔
        cs.cut.possible = true ∨ cutAllowed cfg ((s.point cur).int attr) = true) := by
  obtain ⟨total, htotal⟩ := h.totalEntropy hl hr
  unfold tryCut
  simp only
  by_cases hallowed : cutAllowed cfg ((s.point cur).int attr) = true
  · rw [if_pos hallowed, htotal]
    refine ⟨_, rfl, hcs.consider (hcur hallowed) total, ?_, ?_⟩
    · show Cut.Ok cfg s sl attr (if _ then _ else _)
      split_ifs
      · exact hconj.consider (hcur hallowed) total
      · exact hconj
    · exact iff_of_true (Cut.consider_possible cur total cs.cut) (.inr hallowed)
  · rw [if_neg hallowed]
    exact ⟨_, rfl, hcs, hconj, by simp [hallowed]⟩

/-- The loop finds a cut iff there is one. -/
theorem cutLoop_spec {attr : ℕ} (h : Scored cfg s sl)
    (hsorted : ∀ i j, sl.leftIndex ≤ i → i ≤ j → j ≤ sl.rightIndex →
      (s.point i).int attr ≤ (s.point j).int attr) :
    ∀ (cur : ℕ) (cs : CutState F), sl.leftIndex ≤ cur → cs.cut.Ok cfg s sl attr →
      cs.conjCut.Ok cfg s sl attr →
      ∃ cs', cutLoop cfg s sl attr cur cs = .ok cs' ∧ cs'.cut.Ok cfg s sl attr ∧
        cs'.conjCut.Ok cfg s sl attr ∧ (cs'.cut.possible = true ↔ cs.cut.possible = true ∨
          ∃ i, cur ≤ i ∧ CutAt cfg s sl attr i) := by
  intro cur
  -- induction on the number of entries that are left
  induction hn : sl.rightIndex - cur using Nat.strong_induction_on generalizing cur with
  | _ n ih =>
    intro cs hleft hcs hconj
    rw [cutLoop]
    by_cases hlt : cur < sl.rightIndex
    swap
    · rw [if_neg hlt]
      refine ⟨cs, rfl, hcs, hconj, .inl, ?_⟩
      rintro (hp | ⟨i, hi, hcut⟩)
      · exact hp
      · have := hcut.1
        omega
    rw [if_pos hlt]
    simp only
    have hle := le_skipEqual (fun i => (s.point i).int attr) sl.rightIndex cur
    have hval := skipEqual_val (fun i => (s.point i).int attr) sl.rightIndex cur
    have hstop := skipEqual_stop (fun i => (s.point i).int attr) sl.rightIndex cur
    generalize skipEqual (fun i => (s.point i).int attr) sl.rightIndex cur = next at hle hval hstop
    -- inside the run there is no cut
    have hskip : ∀ i, cur ≤ i → i < next → ¬ CutAt cfg s sl attr i := by
      intro i hi hin hcut
      have h1 : (s.point i).int attr = (s.point cur).int attr := hval i hi (by omega)
      have h2 : (s.point (i + 1)).int attr = (s.point cur).int attr := hval (i + 1) (by omega) hin
      have := hcut.2.1
      omega
    by_cases hnext : next < sl.rightIndex
    · rw [if_pos hnext]
      have hgt : (s.point next).int attr < (s.point (next + 1)).int attr := by
        have h1 := hsorted next (next + 1) (by omega) (by omega) (by omega)
        have h2 : (s.point (next + 1)).int attr ≠ (s.point next).int attr := hstop hnext
        omega
      obtain ⟨cs₁, hrun, hok, hokj, hposs⟩ := tryCut_spec h (by omega) (le_of_lt hnext)
        (fun ha => ⟨⟨by omega, hnext⟩, hgt, ha⟩) hcs hconj
      rw [hrun]
      obtain ⟨cs', hrun', hok', hokj', hposs'⟩ := ih (sl.rightIndex - (next + 1)) (by omega)
        (next + 1) rfl cs₁ (by omega) hok hokj
      refine ⟨cs', hrun', hok', hokj', ?_⟩
      rw [hposs', hposs, or_assoc]
      refine or_congr_right ⟨?_, ?_⟩
      · rintro (ha | ⟨i, hi, hcut⟩)
        · exact ⟨next, hle, ⟨by omega, hnext⟩, hgt, ha⟩
        · exact ⟨i, by omega, hcut⟩
      · rintro ⟨i, hi, hcut⟩
        rcases lt_trichotomy i next with hlt | rfl | hlt
        · exact absurd hcut (hskip i hi hlt)
        · exact .inl hcut.2.2
        · exact .inr ⟨i, hlt, hcut⟩
    · rw [if_neg hnext]
      refine ⟨cs, rfl, hcs, hconj, .inl, ?_⟩
      rintro (hp | ⟨i, hi, hcut⟩)
      · exact hp
      · have := hcut.1
        exact absurd hcut (hskip i hi (by omega))

/-! ## Cuts of a slice, in any order -/

section Order

omit [Score F]

/-- The threshold is a value of the slice, it separates points, and the bound allows
    it. -/
def ValidCut (cfg : Settings) (s : LearnerState F) (sl : Slice) (attr : ℕ) (threshold : ℤ) : Prop :=
  (∃ i, sl.Contains i ∧ (s.point i).int attr = threshold) ∧
    (∃ i, sl.Contains i ∧ threshold < (s.point i).int attr) ∧ cutAllowed cfg threshold = true

/-- The slice has two values of the attribute, and the bound allows a cut at the
    smaller one. -/
def HasCut (cfg : Settings) (s : LearnerState F) (sl : Slice) (attr : ℕ) : Prop :=
  ∃ i, sl.Contains i ∧ (cutAllowed cfg ((s.point i).int attr) = true ∧
    ∃ j, sl.Contains j ∧ (s.point i).int attr < (s.point j).int attr)

theorem CutAt.validCut {attr i : ℕ} (h : CutAt cfg s sl attr i) :
    ValidCut cfg s sl attr ((s.point i).int attr) := by
  obtain ⟨⟨hl, hr⟩, hlt, ha⟩ := h
  exact ⟨⟨i, ⟨hl, by omega⟩, rfl⟩, ⟨i + 1, ⟨by omega, hr⟩, hlt⟩, ha⟩

theorem ValidCut.hasCut {attr : ℕ} {threshold : ℤ} (h : ValidCut cfg s sl attr threshold) :
    HasCut cfg s sl attr := by
  obtain ⟨⟨i, hi, rfl⟩, ⟨j, hj, hlt⟩, ha⟩ := h
  exact ⟨i, hi, ha, j, hj, hlt⟩

/-- Between two different values of a sorted slice there is a cut at the smaller
    one. -/
theorem exists_cutAt {attr : ℕ}
    (hsorted : ∀ i j, sl.leftIndex ≤ i → i ≤ j → j ≤ sl.rightIndex →
      (s.point i).int attr ≤ (s.point j).int attr) :
    ∀ (n i j : ℕ), j - i = n → sl.Contains i → sl.Contains j →
      (s.point i).int attr < (s.point j).int attr →
      cutAllowed cfg ((s.point i).int attr) = true → ∃ k, sl.leftIndex ≤ k ∧
        CutAt cfg s sl attr k := by
  intro n
  induction n with
  | zero =>
    intro i j hn hi hj hlt _
    have := hsorted j i hj.1 (by omega) hi.2
    omega
  | succ n ih =>
    intro i j hn hi hj hlt ha
    have hil := hi.1
    have hjr := hj.2
    by_cases hstep : (s.point i).int attr < (s.point (i + 1)).int attr
    · exact ⟨i, hi.1, ⟨hi.1, by omega⟩, hstep, ha⟩
    · have heq : (s.point (i + 1)).int attr = (s.point i).int attr := by
        have := hsorted i (i + 1) hi.1 (by omega) (by omega)
        omega
      refine ih (i + 1) j (by omega) ⟨by omega, by omega⟩ hj (by omega) ?_
      rw [heq]
      exact ha

theorem hasCut_iff {attr : ℕ}
    (hsorted : ∀ i j, sl.leftIndex ≤ i → i ≤ j → j ≤ sl.rightIndex →
      (s.point i).int attr ≤ (s.point j).int attr) :
    (∃ i, sl.leftIndex ≤ i ∧ CutAt cfg s sl attr i) ↔ HasCut cfg s sl attr := by
  constructor
  · rintro ⟨i, -, ⟨hl, hr⟩, hlt, ha⟩
    exact ⟨i, ⟨hl, by omega⟩, ha, i + 1, ⟨by omega, hr⟩, hlt⟩
  · rintro ⟨i, hi, ha, j, hj, hlt⟩
    exact exists_cutAt hsorted (j - i) i j rfl hi hj hlt ha

/-- The slice has the same points. -/
theorem Resorted.exists_point (h : Resorted sl s s') (p : Datapoint → Prop) :
    (∃ i, sl.Contains i ∧ p (s'.point i)) ↔ ∃ i, sl.Contains i ∧ p (s.point i) := by
  have hmem : s'.solver.mem = s.solver.mem := by rw [h.solver]
  constructor
  · rintro ⟨i, hi, hpi⟩
    obtain ⟨j, hj1, hj2, hj⟩ := Rearranged.ptr_inside h.rearranged hi.1 hi.2
    refine ⟨j, ⟨hj1, hj2⟩, ?_⟩
    unfold LearnerState.point at hpi ⊢
    rwa [← hj, ← hmem]
  · rintro ⟨i, hi, hpi⟩
    obtain ⟨j, hj, hji⟩ := h.point_inside hi
    refine ⟨j, hj, ?_⟩
    unfold LearnerState.point at hpi ⊢
    rwa [hji, hmem]

theorem Resorted.forall_point (h : Resorted sl s s') {p : Datapoint → Prop}
    (hall : ∀ i, sl.Contains i → p (s.point i)) : ∀ i, sl.Contains i → p (s'.point i) := by
  intro i hi
  obtain ⟨j, hj1, hj2, hj⟩ := Rearranged.ptr_inside h.rearranged hi.1 hi.2
  have := hall j ⟨hj1, hj2⟩
  unfold LearnerState.point at this ⊢
  rwa [hj, h.solver]

theorem Resorted.validCut (h : Resorted sl s s') {attr : ℕ} {threshold : ℤ} :
    ValidCut cfg s' sl attr threshold ↔ ValidCut cfg s sl attr threshold := by
  unfold ValidCut
  rw [h.exists_point fun d => d.int attr = threshold, h.exists_point fun d =>
    threshold < d.int attr]

theorem Resorted.hasCut (h : Resorted sl s s') {attr : ℕ} :
    HasCut cfg s' sl attr ↔ HasCut cfg s sl attr := by
  unfold HasCut
  rw [h.exists_point fun d => cutAllowed cfg (d.int attr) = true ∧
    ∃ j, sl.Contains j ∧ d.int attr < (s'.point j).int attr]
  refine exists_congr fun i => and_congr_right fun _ => and_congr_right fun _ => ?_
  exact h.exists_point fun d => (s.point i).int attr < d.int attr

end Order

/-- The loop on a slice that is sorted by the attribute. -/
theorem cutLoop_hasCut (env : Environment) (attr : ℕ) (h : Scored cfg s sl) (hr : sl.InRange s) :
    ∃ cs, cutLoop cfg (s.sortSlice env (fun d => d.int attr) sl) sl attr sl.leftIndex
        ⟨0, .initial, .initial⟩ = .ok cs ∧
      cs.cut.Ok cfg (s.sortSlice env (fun d => d.int attr) sl) sl attr ∧
      cs.conjCut.Ok cfg (s.sortSlice env (fun d => d.int attr) sl) sl attr ∧
      (cs.cut.possible = true ↔ HasCut cfg s sl attr) := by
  have hsorted := fun i j (hi : sl.leftIndex ≤ i) (hij : i ≤ j) (hj : j ≤ sl.rightIndex) =>
    sortSlice_sorted env (fun d => d.int attr) hr hi hij hj
  obtain ⟨cs, hrun, hok, hokj, hposs⟩ := cutLoop_spec (h.sort env (fun d => d.int attr) hr) hsorted
    sl.leftIndex ⟨0, .initial, .initial⟩ (le_refl _) (by simp [Cut.Ok, Cut.initial])
    (by simp [Cut.Ok, Cut.initial])
  refine ⟨cs, hrun, hok, hokj, ?_⟩
  rw [hposs, hasCut_iff hsorted, (sortSlice_resorted env (fun d => d.int attr) hr).hasCut]
  simp [Cut.initial]

/-! ## The best cut -/

/-- The best split so far satisfies `V`; as long as no cut has a positive intrinsic
    value, the best gain ratio has its initial value. -/
structure BestOk (V : ℕ → ℤ → Prop) (b : IntBest F) : Prop where
  zero : b.nonZeroIntrinsicValuePossible = false → b.gainRatio = ofInt (-1000000) ∧
    (b.splitPossible = true → V b.attr4ZeroIv b.threshold4ZeroIv)
  nonZero : b.nonZeroIntrinsicValuePossible = true →
    b.splitPossible = true ∧ V b.attr b.threshold

theorem BestOk.initial (V : ℕ → ℤ → Prop) : BestOk V (.initial : IntBest F) :=
  ⟨fun _ => ⟨rfl, by simp [IntBest.initial]⟩, by simp [IntBest.initial]⟩

theorem BestOk.selected {V : ℕ → ℤ → Prop} {b : IntBest F} (h : BestOk V b)
    (hs : b.splitPossible = true) : V b.selected.2.1 b.selected.2.2 := by
  unfold IntBest.selected
  split_ifs with hz
  · exact (h.nonZero hz).2
  · exact (h.zero (by simpa using hz)).2 hs

/-- Comparing with a further cut. -/
theorem BestOk.consider {V : ℕ → ℤ → Prop} {b : IntBest F} (h : BestOk V b) (gain iv : F)
    {attr : ℕ} {threshold : ℤ} (hV : V attr threshold)
    (hratio : lt (ofInt 0) iv = true → lt (ofInt (-1000000)) (div gain iv) = true) :
    BestOk V (b.consider gain iv attr threshold) ∧
      (b.consider gain iv attr threshold).splitPossible = true := by
  unfold IntBest.consider
  by_cases hiv : lt (ofInt 0) iv = true
  · rw [if_pos hiv]
    simp only
    split_ifs with hbest
    · exact ⟨⟨by simp, fun _ => ⟨rfl, hV⟩⟩, rfl⟩
    · simp only [Bool.or_eq_true, not_or, Bool.not_eq_true', Bool.not_eq_false] at hbest
      obtain ⟨⟨hsplit, hlt⟩, -⟩ := hbest
      -- the initial value has been replaced before
      have hz : b.nonZeroIntrinsicValuePossible = true := by
        by_contra hz
        rw [(h.zero (by simpa using hz)).1] at hlt
        exact hlt (hratio hiv)
      exact ⟨⟨by simp, fun _ => h.nonZero hz⟩, hsplit⟩
  · rw [if_neg hiv]
    split_ifs with hz hbest
    · rw [Bool.not_eq_true'] at hz
      exact ⟨⟨fun _ => ⟨(h.zero hz).1, fun _ => hV⟩, fun hnz => absurd hz (by simp_all)⟩, rfl⟩
    · simp only [Bool.or_eq_true, not_or, Bool.not_eq_true', Bool.not_eq_false] at hbest
      exact ⟨h, hbest.1.1⟩
    · simp only [Bool.not_eq_true', Bool.not_eq_false] at hz
      exact ⟨h, (h.nonZero hz).1⟩

/-! ## `find_best_split` on a slice with one category -/

/-- A slice of points with one categorical attribute, on which they agree, and `k`
    integer attributes; some point is labelled. -/
structure Splittable (s : LearnerState F) (sl : Slice) (k : ℕ) : Prop where
  inRange : sl.InRange s
  arity : ∀ i, sl.Contains i →
    (s.point i).categoricalData.length = 1 ∧ (s.point i).intData.length = k
  category : ∃ c, ∀ i, sl.Contains i → (s.point i).category 0 = c
  labelled : ∃ i, sl.Contains i ∧ (s.point i).isClassified = true

omit [Score F] in
theorem Splittable.resort {k : ℕ} (h : Splittable s sl k) (hr : Resorted sl s s') :
    Splittable s' sl k := by
  obtain ⟨c, hc⟩ := h.category
  exact ⟨hr.inRange h.inRange,
    hr.forall_point (p := fun d => d.categoricalData.length = 1 ∧ d.intData.length = k) h.arity,
    ⟨c, hr.forall_point (p := fun d => d.category 0 = c) hc⟩,
    (hr.exists_point fun d => d.isClassified = true).mpr h.labelled⟩

omit [Score F] in
theorem Splittable.contains_left {k : ℕ} (h : Splittable s sl k) : sl.Contains sl.leftIndex :=
  ⟨le_refl _, h.inRange.1⟩

omit [Score F] in
/-- The assertions on the number of classified points hold. -/
theorem Splittable.numClassifiedPoints_pos (cfg : Settings) {k : ℕ} (h : Splittable s sl k) :
    0 < numClassifiedPoints cfg s sl.leftIndex sl.rightIndex := by
  obtain ⟨i, hi, hc⟩ := h.labelled
  have hmem : i ∈ (indices sl.leftIndex sl.rightIndex).filter fun i => (s.point i).isClassified :=
    List.mem_filter.mpr ⟨mem_indices.mpr hi, hc⟩
  unfold numClassifiedPoints
  cases cfg.entropyComputation with
  | hornAssignments => exact Nat.succ_pos _
  | defaultEntropy => exact List.length_pos_of_mem hmem
  | penalty => exact List.length_pos_of_mem hmem

theorem runEnd_all {β : Type} [DecidableEq β] (val : ℕ → β) (right : ℕ) (c : β) (cur : ℕ)
    (hcur : cur ≤ right) (hall : ∀ i, cur ≤ i → i ≤ right → val i = c) :
    runEnd val right c cur = right := by
  induction cur using runEnd.induct val right c with
  | case1 cur h ih =>
    rw [runEnd, if_pos h]
    exact ih h.1 fun i hi hr => hall i (by omega) hr
  | case2 cur h =>
    rw [runEnd, if_neg h]
    by_contra hne
    exact h ⟨by omega, (hall (cur + 1) (by omega) (by omega)).symm⟩

/-- The only category is skipped. -/
theorem categoricalAttribute_single (env : Environment) {k : ℕ} (h : Splittable s sl k)
    (best : CategoricalBest F) : categoricalAttribute env cfg sl (s, best) 0 =
      .ok (s.sortSlice env (fun d => (d.category 0 : ℤ)) sl, best) := by
  have h₁ := h.resort (sortSlice_resorted env (fun d => (d.category 0 : ℤ)) h.inRange)
  obtain ⟨c, hc⟩ := h₁.category
  have hend : runEnd
      (fun i => ((s.sortSlice env (fun d => (d.category 0 : ℤ)) sl).point i).category 0)
      sl.rightIndex
      (((s.sortSlice env (fun d => (d.category 0 : ℤ)) sl).point sl.leftIndex).category 0)
      sl.leftIndex = sl.rightIndex := by
    refine runEnd_all _ _ _ _ h.inRange.1 fun i hl hr => ?_
    rw [hc i ⟨hl, hr⟩, hc _ h₁.contains_left]
  unfold categoricalAttribute
  simp only
  rw [categoryLoop, if_pos h.inRange.1]
  simp only [hend, and_self, if_true]
  rfl

/-- The gain ratio that `find_best_split` computes for an attribute of a sorted
    slice. -/
def AttributeRatio (cfg : Settings) (s : LearnerState F) (sl : Slice) (attr : ℕ) (ratio : F) :
    Prop :=
  ∃ cs gain, cutLoop cfg s sl attr sl.leftIndex ⟨0, .initial, .initial⟩ = .ok cs ∧
    cs.cut.possible = true ∧ cutGain cfg s sl attr cs.tries cs.cut = .ok gain ∧
    lt (ofInt 0) cs.cut.intrinsicValue = true ∧ ratio = div gain cs.cut.intrinsicValue

/-- One iteration of the loop over the integer attributes. -/
theorem intAttribute_spec (env : Environment) (hp : Plain cfg) {k : ℕ} {acc : IntState F}
    (h : Splittable acc.state sl k) {attr : ℕ} {V : ℕ → ℤ → Prop}
    (hV : ∀ t, ValidCut cfg acc.state sl attr t → V attr t) (hbest : BestOk V acc.best)
    (hratio : ∀ ratio, AttributeRatio cfg (acc.state.sortSlice env (fun d => d.int attr) sl) sl attr
      ratio → lt (ofInt (-1000000)) ratio = true) :
    ∃ acc', intAttribute env cfg sl acc attr = .ok acc' ∧ Resorted sl acc.state acc'.state ∧
      acc'.conjBest = acc.conjBest ∧ BestOk V acc'.best ∧
      (acc'.best.splitPossible = true ↔
        acc.best.splitPossible = true ∨ HasCut cfg acc.state sl attr) := by
  have hres := sortSlice_resorted env (fun d => d.int attr) h.inRange
  have h₁ := h.resort hres
  obtain ⟨cs, hrun, hok, -, hposs⟩ := cutLoop_hasCut env attr (hp.scored acc.state sl) h.inRange
  unfold intAttribute
  rw [hp.conjunctive]
  simp only [reduceCtorEq, if_false]
  generalize acc.state.sortSlice env (fun d => d.int attr) sl = s₁ at hres h₁ hratio hrun hok ⊢
  rw [hrun]
  by_cases hc : cs.cut.possible = true
  · obtain ⟨gain, hgain⟩ :=
      (hp.scored s₁ sl).cutGain (h₁.numClassifiedPoints_pos cfg) attr cs.tries cs.cut
    have hvalid := hV _ (hres.validCut.mp (hok hc).validCut)
    obtain ⟨hb, hs⟩ := hbest.consider gain cs.cut.intrinsicValue hvalid
      fun hiv => hratio _ ⟨cs, gain, hrun, hc, hgain, hiv, rfl⟩
    refine ⟨⟨s₁, acc.best.consider gain cs.cut.intrinsicValue attr
      ((s₁.point cs.cut.splitIndex).int attr), acc.conjBest⟩, ?_, hres, rfl, hb, ?_⟩
    · unfold considerCut
      simp only [bind, Except.bind, if_pos hc, hgain]
      rfl
    · exact iff_of_true hs (.inr (hposs.mp hc))
  · refine ⟨⟨s₁, acc.best, acc.conjBest⟩, ?_, hres, rfl, hbest, ?_⟩
    · unfold considerCut
      simp only [bind, Except.bind, if_neg hc]
      rfl
    · rw [← hposs]
      simp [hc]

/-- `find_best_split` on the slice computes the gain ratio for some attribute. -/
def FindsRatio (env : Environment) (cfg : Settings) (sl : Slice) (s : LearnerState F) (ratio : F) :
    Prop :=
  ∃ s₁ cat done attr rest acc,
    (List.range (s.point sl.leftIndex).categoricalData.length).foldlM
      (categoricalAttribute env cfg sl) (s, { gainRatio := ofInt (-1000000) }) = .ok (s₁, cat) ∧
    List.range (s₁.point sl.leftIndex).intData.length = done ++ attr :: rest ∧
    done.foldlM (intAttribute env cfg sl) ⟨s₁, .initial, .initial⟩ = .ok acc ∧
    AttributeRatio cfg (acc.state.sortSlice env (fun d => d.int attr) sl) sl attr ratio

theorem AttributeRatio.hasCut (env : Environment) (hp : Plain cfg) {attr : ℕ} {ratio : F}
    (hr : sl.InRange s)
    (h : AttributeRatio cfg (s.sortSlice env (fun d => d.int attr) sl) sl attr ratio) :
    HasCut cfg s sl attr := by
  obtain ⟨cs, -, hrun, hposs, -⟩ := h
  obtain ⟨cs', hrun', -, -, hiff⟩ := cutLoop_hasCut env attr (hp.scored s sl) hr
  rw [hrun] at hrun'
  obtain rfl := Except.ok.inj hrun'
  exact hiff.mp hposs

/-- The attribute, and the state in which the slice is sorted by it. -/
theorem FindsRatio.exists_attribute {env : Environment} {k : ℕ} {ratio : F} (hr : sl.InRange s)
    (hk : ∀ i, sl.Contains i → (s.point i).intData.length = k) (h : FindsRatio env cfg sl s ratio) :
    ∃ attr < k, ∃ s', Resorted sl s s' ∧
      AttributeRatio cfg (s'.sortSlice env (fun d => d.int attr) sl) sl attr ratio := by
  obtain ⟨s₁, cat, done, attr, rest, acc, hcat, hrange, hint, hratio⟩ := h
  have hres : Resorted sl s s₁ :=
    foldlM_ok (I := fun acc : LearnerState F × CategoricalBest F => Resorted sl s acc.1)
      (fun a b a' ha hrun => ha.trans (categoricalAttribute_resorted env cfg (ha.inRange hr) hrun))
      (.refl hr) hcat
  have hres' : Resorted sl s acc.state :=
    foldlM_ok (I := fun acc => Resorted sl s acc.state)
      (fun a b a' ha hrun => ha.trans (intAttribute_resorted env cfg (ha.inRange hr) hrun)) hres
      hint
  refine ⟨attr, ?_, acc.state, hres', hratio⟩
  rw [hres.forall_point (p := fun d => d.intData.length = k) hk _ ⟨le_refl _, hr.1⟩] at hrange
  rw [← List.mem_range, hrange]
  simp

/-- A gain ratio is computed for a cut of the slice only. -/
theorem FindsRatio.hasCut {env : Environment} (hp : Plain cfg) {k : ℕ} {ratio : F}
    (hr : sl.InRange s) (hk : ∀ i, sl.Contains i → (s.point i).intData.length = k)
    (h : FindsRatio env cfg sl s ratio) : ∃ attr < k, HasCut cfg s sl attr := by
  obtain ⟨attr, hattr, s', hres, hratio⟩ := h.exists_attribute hr hk
  exact ⟨attr, hattr, hres.hasCut.mp (hratio.hasCut env hp (hres.inRange hr))⟩

/-- The loop over the integer attributes. -/
theorem foldlM_intAttribute (env : Environment) (hp : Plain cfg) {k : ℕ}
    (h : Splittable s sl k)
    (hratio : ∀ done attr rest acc ratio, List.range k = done ++ attr :: rest →
      done.foldlM (intAttribute env cfg sl) ⟨s, .initial, .initial⟩ = .ok acc →
      AttributeRatio cfg (acc.state.sortSlice env (fun d => d.int attr) sl) sl attr ratio →
      lt (ofInt (-1000000)) ratio = true) :
    ∃ acc, (List.range k).foldlM (intAttribute env cfg sl) ⟨s, .initial, .initial⟩ = .ok acc ∧
      Resorted sl s acc.state ∧ acc.conjBest = .initial ∧
      BestOk (fun a t => a < k ∧ ValidCut cfg s sl a t) acc.best ∧
      (acc.best.splitPossible = true ↔ ∃ attr < k, HasCut cfg s sl attr) := by
  have hmain := foldlM_returns (f := intAttribute env cfg sl) (l := List.range k)
    (s := ⟨s, .initial, .initial⟩)
    (I := fun done acc => Resorted sl s acc.state ∧ acc.conjBest = .initial ∧
      BestOk (fun a t => a < k ∧ ValidCut cfg s sl a t) acc.best ∧
      (acc.best.splitPossible = true ↔ ∃ attr ∈ done, HasCut cfg s sl attr))
    (by
      intro done attr rest acc hl hrun ⟨hres, hconj, hbest, hsplit⟩
      have hattr : attr < k := by
        rw [← List.mem_range, hl]
        simp
      obtain ⟨acc', hrun', hres', hconj', hbest', hsplit'⟩ := intAttribute_spec env hp
        (h.resort hres) (fun t ht => ⟨hattr, hres.validCut.mp ht⟩) hbest
        fun ratio hr => hratio done attr rest acc ratio hl hrun hr
      refine ⟨acc', hrun', hres.trans hres', hconj'.trans hconj, hbest', ?_⟩
      rw [hsplit', hsplit, hres.hasCut]
      simp [or_and_right, exists_or])
    ⟨.refl h.inRange, rfl, .initial _, by simp [IntBest.initial]⟩
  simpa [List.mem_range] using hmain

/-- `find_best_split` on a slice with one category: it finds a cut of the slice iff
    there is one. -/
theorem findBestSplit_spec (env : Environment) (hp : Plain cfg) {k : ℕ} (h : Splittable s sl k)
    (hratio : ∀ ratio, FindsRatio env cfg sl s ratio → lt (ofInt (-1000000)) ratio = true) :
    (∃ s' attr threshold, findBestSplit env cfg sl s = .ok (.intSplit sl attr threshold, s') ∧
        Resorted sl s s' ∧ attr < k ∧ ValidCut cfg s' sl attr threshold) ∨
      (findBestSplit env cfg sl s = .error (.splitNotPossibleError "No split possible!") ∧
        ∀ attr < k, ¬ HasCut cfg s sl attr) := by
  have hres := sortSlice_resorted env (fun d => (d.category 0 : ℤ)) h.inRange
  have hone := (h.arity _ h.contains_left).1
  have hcat : (List.range (s.point sl.leftIndex).categoricalData.length).foldlM
      (categoricalAttribute env cfg sl) (s, { gainRatio := ofInt (-1000000) }) =
        .ok (s.sortSlice env (fun d => (d.category 0 : ℤ)) sl,
        { gainRatio := ofInt (-1000000) }) := by
    rw [hone, show List.range 1 = [0] from rfl, List.foldlM_cons,
      categoricalAttribute_single env h]
    rfl
  have hlen : ((s.sortSlice env (fun d => (d.category 0 : ℤ)) sl).point
      sl.leftIndex).intData.length = k :=
    ((h.resort hres).arity _ h.contains_left).2
  obtain ⟨acc, hrun, hres', hconj, hbest, hsplit⟩ := foldlM_intAttribute env hp (h.resort hres)
    fun done attr rest acc ratio hl hrun hr =>
      hratio ratio ⟨_, _, done, attr, rest, acc, hcat, by rw [hlen]; exact hl, hrun, hr⟩
  rw [← hlen] at hrun
  have hassert : assert (sl.leftIndex ≤ sl.rightIndex ∧ sl.rightIndex < s.datapointPtrs.length) =
      .ok () := by
    have hr : sl.leftIndex ≤ sl.rightIndex ∧ sl.rightIndex < s.datapointPtrs.length := h.inRange
    rw [assert, if_pos (decide_eq_true hr)]
  unfold findBestSplit
  simp only [hassert, hcat, hrun, bind, Except.bind]
  unfold chooseSplit
  rw [hp.conjunctive, hconj]
  cases hs : acc.best.splitPossible with
  | true =>
    refine .inl ⟨acc.state, acc.best.selected.2.1, acc.best.selected.2.2, rfl, hres.trans hres', ?_⟩
    obtain ⟨hk, hv⟩ := hbest.selected hs
    exact ⟨hk, hres'.validCut.mpr hv⟩
  | false =>
    refine .inr ⟨rfl, fun attr hk hcut => ?_⟩
    have : acc.best.splitPossible = true := hsplit.mpr ⟨attr, hk, hres.hasCut.mpr hcut⟩
    rw [hs] at this
    simp at this

end HiceDt.Learner
