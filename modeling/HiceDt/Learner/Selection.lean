import HiceDt.Learner.Candidates
import HiceDt.Learner.Consistent

/-!
# Which split is selected

`find_best_split` (`hice-dt/include/simple_job_manager.h`, lines 1849–1985) should
return the candidate with the largest gain ratio. The groups of variables hold the
best categorical and the best integer candidate, but the last comparison is the one of
a version that minimised entropies: of the two, it takes the one with the smaller
ratio.

Results:

* `selected_spec`: the selected integer candidate has the largest gain ratio.
* `findBestSplit_best_iff`: the returned job is the best candidate iff there are
  candidates of one kind only or the best ratios of the two kinds are the same.
-/

namespace HiceDt.Learner

open HiceDt Score Loop Machine

/-- Scores that compare like real numbers. Nothing is said about the operations, so
    that the gain ratios are arbitrary real numbers. -/
structure RealValued (F : Type) [Score F] where
  val : F → ℝ
  lt_iff : ∀ a b, lt a b = true ↔ val a < val b
  le_iff : ∀ a b, le a b = true ↔ val a ≤ val b
  eq_iff : ∀ a b, eq a b = true ↔ val a = val b
  initial : val (ofInt (-1000000)) = -1000000

variable {F : Type} [Score F]

/-! ## The candidates that are compared -/

/-- The integer candidates that are compared, with their gain ratios: those with a
    positive intrinsic value, or all of them if there is none. -/
def comparedCuts (cs : List (IntCandidate F)) : List (IntCandidate F × F) :=
  if cs.any IntCandidate.nonZero then
    (cs.filter IntCandidate.nonZero).map fun c => (c, c.ratio)
  else cs.map fun c => (c, c.gain)

/-- The categorical jobs with their gain ratios. -/
def Candidates.categoricalJobs (sl : Slice) (c : Candidates F) : List (Job × F) :=
  c.categorical.map fun x => (.categoricalSplit sl x.attr, x.gainRatio)

/-- The integer jobs with their gain ratios. -/
def Candidates.intJobs (cfg : Settings) (sl : Slice) (c : Candidates F) : List (Job × F) :=
  (comparedCuts (c.preferred cfg)).map fun p => (.intSplit sl p.1.attr p.1.threshold, p.2)

/-- All jobs that are compared. -/
def Candidates.jobs (cfg : Settings) (sl : Slice) (c : Candidates F) : List (Job × F) :=
  c.categoricalJobs sl ++ c.intJobs cfg sl

theorem comparedCuts_eq_nil {cs : List (IntCandidate F)} : comparedCuts cs = [] ↔ cs = [] := by
  unfold comparedCuts
  split_ifs with hany
  · obtain ⟨c, hc, hnz⟩ := List.any_eq_true.mp hany
    refine iff_of_false ?_ (List.ne_nil_of_mem hc)
    rw [List.map_eq_nil_iff]
    exact List.ne_nil_of_mem (List.mem_filter.mpr ⟨hc, hnz⟩)
  · exact List.map_eq_nil_iff

/-! ## The best candidate of each kind -/

variable (R : RealValued F)

/-- The records hold upper bounds of the ratios that have been compared. -/
theorem IntBest.all_max (cs : List (IntCandidate F)) :
    (∀ c ∈ cs, c.nonZero = true → R.val c.ratio ≤ R.val (IntBest.all cs).gainRatio) ∧
      ((IntBest.all cs).nonZeroIntrinsicValuePossible = false →
        ∀ c ∈ cs, R.val c.gain ≤ R.val (IntBest.all cs).gainRatio4ZeroIv) := by
  induction cs using List.reverseRecOn with
  | nil => exact ⟨by simp, by simp⟩
  | append_singleton cs c ih =>
    have htake : IntBest.all (cs ++ [c]) = (IntBest.all cs).take c := by
      unfold IntBest.all
      rw [List.foldl_append]
      rfl
    have hspec := IntBest.all_spec cs
    rw [htake]
    simp only [List.forall_mem_append, List.forall_mem_singleton]
    cases hc : c.nonZero with
    | true =>
      rw [IntBest.take_nonZero hc]
      split_ifs with hbest
      · refine ⟨⟨fun c' hc' hnz => ?_, fun _ => le_rfl⟩, by simp⟩
        have hle := ih.1 c' hc' hnz
        simp only [Bool.or_eq_true, Bool.and_eq_true, Bool.not_eq_true', R.lt_iff,
          R.eq_iff] at hbest
        rcases hbest with (hfirst | hlt) | ⟨heq, -⟩
        · have hposs := hspec.splitPossible.mpr (List.ne_nil_of_mem hc')
          rw [hfirst] at hposs
          exact absurd hposs (by simp)
        · exact hle.trans hlt.le
        · exact hle.trans heq.ge
      · rw [Bool.not_eq_true, Bool.or_eq_false_iff, Bool.or_eq_false_iff] at hbest
        refine ⟨⟨ih.1, fun _ => ?_⟩, by simp⟩
        have hlt := hbest.1.2
        rw [← Bool.not_eq_true, R.lt_iff] at hlt
        exact not_lt.mp hlt
    | false =>
      rw [IntBest.take_zero hc]
      split_ifs with hz hbest
      · refine ⟨⟨ih.1, by simp⟩, fun _ => ⟨fun c' hc' => ?_, le_rfl⟩⟩
        have hle := ih.2 (by simpa using hz) c' hc'
        simp only [Bool.or_eq_true, Bool.and_eq_true, Bool.not_eq_true', R.lt_iff,
          R.eq_iff] at hbest
        rcases hbest with (hfirst | hlt) | ⟨heq, -⟩
        · have hposs := hspec.splitPossible.mpr (List.ne_nil_of_mem hc')
          rw [hfirst] at hposs
          exact absurd hposs (by simp)
        · exact hle.trans hlt.le
        · exact hle.trans heq.ge
      · rw [Bool.not_eq_true, Bool.or_eq_false_iff, Bool.or_eq_false_iff] at hbest
        refine ⟨⟨ih.1, by simp⟩, fun hn => ⟨ih.2 hn, ?_⟩⟩
        have hlt := hbest.1.2
        rw [← Bool.not_eq_true, R.lt_iff] at hlt
        exact not_lt.mp hlt
      · refine ⟨⟨ih.1, by simp⟩, fun hn => ?_⟩
        rw [hn] at hz
        exact absurd rfl hz

/-- A ratio above the initial value gets into the record. -/
theorem not_untouched {cs : List (IntCandidate F)} (hex : ∃ c ∈ cs, c.nonZero = true)
    (habove : ∀ c ∈ cs, c.nonZero = true → -1000000 < R.val c.ratio) : ¬ Untouched cs := by
  rintro ⟨-, hall⟩
  obtain ⟨c, hc, hnz⟩ := hex
  have hno := hall c hc hnz
  unfold IntCandidate.beatsInitial at hno
  rw [Bool.or_eq_false_iff, ← Bool.not_eq_true, R.lt_iff, R.initial] at hno
  exact hno.1 (habove c hc hnz)

/-- The selected integer candidate has the largest gain ratio. -/
theorem selected_spec {cs : List (IntCandidate F)} (hne : cs ≠ [])
    (habove : ∀ p ∈ comparedCuts cs, -1000000 < R.val p.2) :
    ∃ p ∈ comparedCuts cs, (IntBest.all cs).selected = (p.2, p.1.attr, p.1.threshold) ∧
      ∀ q ∈ comparedCuts cs, R.val q.2 ≤ R.val p.2 := by
  have hspec := IntBest.all_spec cs
  obtain ⟨hmax, hmaxZero⟩ := IntBest.all_max R cs
  unfold comparedCuts at habove ⊢
  unfold IntBest.selected
  by_cases hex : ∃ c ∈ cs, c.nonZero = true
  · have hany : cs.any IntCandidate.nonZero = true := List.any_eq_true.mpr hex
    rw [if_pos hany] at habove ⊢
    rw [if_pos (hspec.nonZero.mpr hex)]
    have hmem : ∀ c ∈ cs, c.nonZero = true →
        (c, c.ratio) ∈ (cs.filter IntCandidate.nonZero).map fun c => (c, c.ratio) :=
      fun c hc hnz => List.mem_map.mpr ⟨c, List.mem_filter.mpr ⟨hc, hnz⟩, rfl⟩
    obtain ⟨c, hc, hnz, hattr, hθ, hratio⟩ := hspec.record
      (not_untouched R hex fun c hc hnz => habove _ (hmem c hc hnz))
    refine ⟨(c, c.ratio), hmem c hc hnz, by rw [hattr, hθ, hratio], fun q hq => ?_⟩
    obtain ⟨c', hc', rfl⟩ := List.mem_map.mp hq
    obtain ⟨hc', hnz'⟩ := List.mem_filter.mp hc'
    have hle := hmax c' hc' hnz'
    rwa [hratio] at hle
  · have hany : ¬ cs.any IntCandidate.nonZero = true := fun h => hex (List.any_eq_true.mp h)
    have hzero : (IntBest.all cs).nonZeroIntrinsicValuePossible = false := by
      rw [← Bool.not_eq_true, hspec.nonZero]
      exact hex
    rw [if_neg hany, if_neg (by rw [hzero]; simp)]
    obtain ⟨c, hc, hattr, hθ, hgain⟩ := hspec.zeroRecord hzero hne
    refine ⟨(c, c.gain), List.mem_map_of_mem hc, by rw [hattr, hθ, hgain], fun q hq => ?_⟩
    obtain ⟨c', hc', rfl⟩ := List.mem_map.mp hq
    have hle := hmaxZero hzero c' hc'
    rwa [hgain] at hle

theorem CategoricalBest.all_max (cs : List (CategoricalCandidate F)) :
    ∀ c ∈ cs, R.val c.gainRatio ≤ R.val (CategoricalBest.all cs).gainRatio := by
  induction cs using List.reverseRecOn with
  | nil => simp
  | append_singleton cs c ih =>
    have hspec := (CategoricalBest.all_spec cs).1
    rw [CategoricalBest.all_append]
    simp only [List.forall_mem_append, List.forall_mem_singleton]
    unfold CategoricalBest.consider
    split_ifs with hbest
    · refine ⟨fun c' hc' => ?_, le_rfl⟩
      have hle := ih c' hc'
      rw [Bool.or_eq_true, Bool.not_eq_true', R.lt_iff] at hbest
      rcases hbest with hfirst | hlt
      · have hposs := hspec.mpr (List.ne_nil_of_mem hc')
        rw [hfirst] at hposs
        exact absurd hposs (by simp)
      · exact hle.trans hlt.le
    · rw [Bool.not_eq_true, Bool.or_eq_false_iff] at hbest
      refine ⟨ih, ?_⟩
      have hlt := hbest.2
      rw [← Bool.not_eq_true, R.lt_iff] at hlt
      exact not_lt.mp hlt

/-- The best candidate among the given ones is `p`. -/
def IsBest (l : List (Job × F)) (p : Job × F) : Prop := p ∈ l ∧ ∀ q ∈ l, R.val q.2 ≤ R.val p.2

variable {R} {cfg : Settings} {sl : Slice} {c : Candidates F}

theorem categoricalJobs_best (sl : Slice) (hne : c.categorical ≠ []) :
    IsBest R (c.categoricalJobs sl) (.categoricalSplit sl (CategoricalBest.all c.categorical).attr,
      (CategoricalBest.all c.categorical).gainRatio) := by
  obtain ⟨x, hx, hattr, hratio⟩ := (CategoricalBest.all_spec c.categorical).2 hne
  refine ⟨?_, fun q hq => ?_⟩
  · rw [hattr, hratio]
    exact List.mem_map.mpr ⟨x, hx, rfl⟩
  · obtain ⟨y, hy, rfl⟩ := List.mem_map.mp hq
    exact CategoricalBest.all_max R c.categorical y hy

theorem intJobs_best (sl : Slice) (hne : c.preferred cfg ≠ [])
    (habove : ∀ p ∈ c.intJobs cfg sl, -1000000 < R.val p.2) :
    IsBest R (c.intJobs cfg sl) (c.intJob cfg sl, (IntBest.all (c.preferred cfg)).selected.1) := by
  obtain ⟨p, hp, hsel, hmax⟩ := selected_spec R hne fun p hp => habove _ (List.mem_map_of_mem hp)
  unfold Candidates.intJob
  rw [hsel]
  refine ⟨List.mem_map.mpr ⟨p, hp, rfl⟩, fun q hq => ?_⟩
  obtain ⟨p', hp', rfl⟩ := List.mem_map.mp hq
  exact hmax p' hp'

/-! ## The last comparison -/

/-- Among candidates of both kinds, a best one stays the best iff it is at least as good
    as the best one of the other kind. -/
theorem isBest_append {l l' : List (Job × F)} {p q : Job × F} (hp : IsBest R l p)
    (hq : IsBest R l' q) : IsBest R (l ++ l') p ↔ R.val q.2 ≤ R.val p.2 := by
  constructor
  · exact fun h => h.2 q (List.mem_append_right _ hq.1)
  · intro hle
    refine ⟨List.mem_append_left _ hp.1, fun x hx => ?_⟩
    rcases List.mem_append.mp hx with hx | hx
    · exact hp.2 x hx
    · exact (hq.2 x hx).trans hle

/-- The two lists have the same best ratio. -/
theorem same_best {l l' : List (Job × F)} {p q : Job × F} (hp : IsBest R l p) (hq : IsBest R l' q) :
    R.val p.2 = R.val q.2 ↔
      (∀ x ∈ l, ∃ y ∈ l', R.val x.2 ≤ R.val y.2) ∧ ∀ y ∈ l', ∃ x ∈ l, R.val y.2 ≤ R.val x.2 := by
  constructor
  · intro heq
    exact ⟨fun x hx => ⟨q, hq.1, (hp.2 x hx).trans heq.le⟩, fun y hy =>
      ⟨p, hp.1, (hq.2 y hy).trans heq.ge⟩⟩
  · rintro ⟨h, h'⟩
    obtain ⟨y, hy, hpy⟩ := h p hp.1
    obtain ⟨x, hx, hqx⟩ := h' q hq.1
    exact le_antisymm (hpy.trans (hq.2 y hy)) (hqx.trans (hp.2 x hx))

omit [Score F] in
theorem mem_categoricalJobs {j : Job} {r : F} (h : (j, r) ∈ c.categoricalJobs sl) :
    ∃ attr, j = .categoricalSplit sl attr := by
  obtain ⟨x, -, heq⟩ := List.mem_map.mp h
  exact ⟨x.attr, (Prod.mk.inj heq).1.symm⟩

theorem mem_intJobs {j : Job} {r : F} (h : (j, r) ∈ c.intJobs cfg sl) :
    ∃ attr threshold, j = .intSplit sl attr threshold := by
  obtain ⟨p, -, heq⟩ := List.mem_map.mp h
  exact ⟨p.1.attr, p.1.threshold, (Prod.mk.inj heq).1.symm⟩

theorem intJobs_eq_nil : c.intJobs cfg sl = [] ↔ c.preferred cfg = [] := by
  unfold Candidates.intJobs
  rw [List.map_eq_nil_iff, comparedCuts_eq_nil]

omit [Score F] in
theorem categoricalJobs_eq_nil : c.categoricalJobs sl = [] ↔ c.categorical = [] :=
  List.map_eq_nil_iff

/-- The candidates that `find_best_split` compares are `c`, and whenever it returns a
    job, no candidate has a larger gain ratio. -/
def ReturnsBest (R : RealValued F) (env : Environment) (cfg : Settings) (sl : Slice)
    (s : LearnerState F) (c : Candidates F) : Prop :=
  ∀ job s', findBestSplit env cfg sl s = .ok (job, s') →
    ∃ ratio, (job, ratio) ∈ c.jobs cfg sl ∧ ∀ q ∈ c.jobs cfg sl, R.val q.2 ≤ R.val ratio

theorem select_best_iff (hconj : c.conjunctive ≠ [] → c.cuts ≠ [])
    (habove : ∀ p ∈ c.jobs cfg sl, -1000000 < R.val p.2) :
    (∀ job, c.select cfg sl = .ok job → ∃ ratio, IsBest R (c.jobs cfg sl) (job, ratio)) ↔
      c.categoricalJobs sl = [] ∨ c.intJobs cfg sl = [] ∨
        (∀ x ∈ c.categoricalJobs sl, ∃ y ∈ c.intJobs cfg sl, R.val x.2 ≤ R.val y.2) ∧
          ∀ y ∈ c.intJobs cfg sl, ∃ x ∈ c.categoricalJobs sl, R.val y.2 ≤ R.val x.2 := by
  rw [Candidates.select_eq cfg sl hconj, intJobs_eq_nil, categoricalJobs_eq_nil]
  unfold Candidates.jobs at habove ⊢
  rw [List.forall_mem_append] at habove
  by_cases hint : c.preferred cfg = []
  · rw [if_pos hint, intJobs_eq_nil.mpr hint, List.append_nil]
    refine iff_of_true (fun job hjob => ?_) (.inr (.inl hint))
    split_ifs at hjob with hcat
    rw [← Except.ok.inj hjob]
    exact ⟨_, categoricalJobs_best sl hcat⟩
  · have hbestInt := intJobs_best sl hint habove.2
    rw [if_neg hint]
    by_cases hcat : c.categorical = []
    · rw [if_pos hcat, categoricalJobs_eq_nil.mpr hcat, List.nil_append]
      refine iff_of_true (fun job hjob => ?_) (.inl hcat)
      rw [← Except.ok.inj hjob]
      exact ⟨_, hbestInt⟩
    · have hbestCat := categoricalJobs_best (R := R) sl hcat
      rw [if_neg hcat, or_iff_right hcat, or_iff_right hint, ← same_best hbestCat hbestInt]
      constructor
      · intro hall
        -- the job of the other kind has the other ratio
        by_cases hle : R.val (IntBest.all (c.preferred cfg)).selected.1 ≤
            R.val (CategoricalBest.all c.categorical).gainRatio
        · rw [if_pos ((R.le_iff _ _).mpr hle)] at hall
          obtain ⟨ratio, hmem, hmax⟩ := hall _ rfl
          have hratio : R.val ratio ≤ R.val (IntBest.all (c.preferred cfg)).selected.1 := by
            rcases List.mem_append.mp hmem with hmem | hmem
            · obtain ⟨attr, heq⟩ := mem_categoricalJobs hmem
              cases heq
            · exact hbestInt.2 _ hmem
          exact le_antisymm ((hmax _ (List.mem_append_left _ hbestCat.1)).trans hratio) hle
        · rw [if_neg fun h => hle ((R.le_iff _ _).mp h)] at hall
          obtain ⟨ratio, hmem, hmax⟩ := hall _ rfl
          have hratio : R.val ratio ≤ R.val (CategoricalBest.all c.categorical).gainRatio := by
            rcases List.mem_append.mp hmem with hmem | hmem
            · exact hbestCat.2 _ hmem
            · obtain ⟨attr, threshold, heq⟩ := mem_intJobs hmem
              cases heq
          exact absurd ((hmax _ (List.mem_append_right _ hbestInt.1)).trans hratio) hle
      · intro heq job hjob
        split_ifs at hjob with hle
        · rw [← Except.ok.inj hjob]
          have hbest := (isBest_append hbestInt hbestCat).mpr heq.le
          exact ⟨_, (List.perm_append_comm.mem_iff).mp hbest.1,
            fun q hq => hbest.2 q ((List.perm_append_comm.mem_iff).mp hq)⟩
        · rw [← Except.ok.inj hjob]
          exact ⟨_, (isBest_append hbestCat hbestInt).mpr heq.ge⟩

/-- `find_best_split` returns the best candidate iff all candidates are of one kind, or
    the best gain ratios of the two kinds are the same. -/
theorem findBestSplit_best_iff (R : RealValued F) (env : Environment) (cfg : Settings)
    {sl : Slice} {s : LearnerState F} {c : Candidates F}
    (hrange : sl.leftIndex ≤ sl.rightIndex ∧ sl.rightIndex < s.datapointPtrs.length)
    (hc : candidates env cfg sl s = .ok c) (habove : ∀ p ∈ c.jobs cfg sl, -1000000 < R.val p.2) :
    ReturnsBest R env cfg sl s c ↔
      c.categoricalJobs sl = [] ∨ c.intJobs cfg sl = [] ∨
        (∀ x ∈ c.categoricalJobs sl, ∃ y ∈ c.intJobs cfg sl, R.val x.2 ≤ R.val y.2) ∧
          ∀ y ∈ c.intJobs cfg sl, ∃ x ∈ c.categoricalJobs sl, R.val y.2 ≤ R.val x.2 := by
  rw [← select_best_iff (candidates_ok hc) habove]
  unfold ReturnsBest IsBest
  rw [findBestSplit_eq, decide_eq_true hrange, assert_true, hc]
  constructor
  · intro h job hjob
    refine h job c.state ?_
    simp only [bind, Except.bind, hjob]
    rfl
  · intro h job s' hrun
    obtain ⟨job', hjob, hret⟩ := bind_ok.mp (show (c.select cfg sl >>= _) = _ from hrun)
    obtain ⟨rfl, -⟩ := Prod.mk.inj (Except.ok.inj hret)
    exact h job' hjob

/-! ## Two slices -/

/-- Rational scores. The logarithm is exact on powers of two; the runs below take the
    logarithms of 1/2 and 1 only, so that the values are those of the real numbers and of
    `double`. -/
instance : Score ℚ where
  ofInt n := n
  add := (· + ·)
  sub := (· - ·)
  mul := (· * ·)
  div := (· / ·)
  neg := (- ·)
  log2 a := Int.log 2 a
  toFloat := id
  lt a b := a < b
  le a b := a ≤ b
  eq a b := a = b

/-- The rational scores among the real numbers. -/
def RealValued.rational : RealValued ℚ where
  val a := a
  lt_iff a b := by rw [Rat.cast_lt]; exact decide_eq_true_iff
  le_iff a b := by rw [Rat.cast_le]; exact decide_eq_true_iff
  eq_iff a b := by rw [Rat.cast_inj]; exact decide_eq_true_iff
  initial := by
    show (((-1000000 : ℤ) : ℚ) : ℝ) = -1000000
    norm_num

/-- Four points; the category gives the label, the integer attribute says nothing. -/
def square : LearnerState ℚ where
  solver := { mem := fun x => match x with
    | .point 0 => { categoricalData := [0], intData := [0], isClassified := true, classification :=
      true }
    | .point 1 => { categoricalData := [1], intData := [1], isClassified := true, classification :=
      false }
    | .point 2 => { categoricalData := [0], intData := [1], isClassified := true, classification :=
      true }
    | .point 3 => { categoricalData := [1], intData := [0], isClassified := true, classification :=
      false }
    | _ => {} }
  datapointPtrs := [.point 0, .point 1, .point 2, .point 3]

def squareSettings : Settings :=
  { hornConstraints := [], numberOfCategories := [2], entropyComputation := .defaultEntropy }

deriving instance DecidableEq for Job

/-- The categorical jobs and the integer jobs that are compared, each with its ratio. -/
def comparedJobs (sl : Slice) : Option (List (Job × ℚ) × List (Job × ℚ)) :=
  (candidates .stable squareSettings sl square).toOption.map fun c =>
    (c.categoricalJobs sl, c.intJobs squareSettings sl)

theorem exists_candidates {sl : Slice} {l l' : List (Job × ℚ)}
    (h : comparedJobs sl = some (l, l')) :
    ∃ c, candidates .stable squareSettings sl square = .ok c ∧ c.categoricalJobs sl = l ∧
      c.intJobs squareSettings sl = l' := by
  unfold comparedJobs at h
  obtain ⟨c, hc, hjobs⟩ := Option.map_eq_some_iff.mp h
  obtain ⟨hl, hl'⟩ := Prod.mk.inj hjobs
  cases hrun : candidates .stable squareSettings sl square with
  | error e =>
    rw [hrun] at hc
    cases hc
  | ok c' =>
    rw [hrun] at hc
    obtain rfl := Option.some.inj hc
    exact ⟨c', rfl, hl, hl'⟩

/-- On the first two points both candidates have the ratio 1. -/
theorem findBestSplit_best_iff_two : ∃ c, candidates .stable squareSettings ⟨0, 1, []⟩ square =
    .ok c ∧
    ReturnsBest .rational .stable squareSettings ⟨0, 1, []⟩ square c := by
  have hjobs : comparedJobs ⟨0, 1, []⟩ = some
      ([(.categoricalSplit ⟨0, 1, []⟩ 0, 1)], [(.intSplit ⟨0, 1, []⟩ 0 0, 1)]) := by
    decide +kernel
  obtain ⟨c, hc, hcat, hint⟩ := exists_candidates hjobs
  refine ⟨c, hc, (findBestSplit_best_iff .rational .stable squareSettings (by decide) hc ?_).mpr
    (.inr (.inr ?_))⟩
  · unfold Candidates.jobs
    rw [hcat, hint]
    simp [RealValued.rational]
    norm_num
  · rw [hcat, hint]
    simp [RealValued.rational]

/-- On all four points the category has the ratio 1 and the integer attribute the ratio
    0, and the integer split is returned. -/
theorem findBestSplit_square : ∃ c, candidates .stable squareSettings ⟨0, 3, []⟩ square = .ok c ∧
    (∀ p ∈ c.jobs squareSettings ⟨0, 3, []⟩, -1000000 < RealValued.rational.val p.2) ∧
    (∃ s', findBestSplit .stable squareSettings ⟨0, 3, []⟩ square =
      .ok (.intSplit ⟨0, 3, []⟩ 0 0, s')) ∧
    ¬ ReturnsBest .rational .stable squareSettings ⟨0, 3, []⟩ square c := by
  have hjobs : comparedJobs ⟨0, 3, []⟩ = some
      ([(.categoricalSplit ⟨0, 3, []⟩ 0, 1)], [(.intSplit ⟨0, 3, []⟩ 0 0, 0)]) := by
    decide +kernel
  obtain ⟨c, hc, hcat, hint⟩ := exists_candidates hjobs
  have hjob : (findBestSplit .stable squareSettings ⟨0, 3, []⟩ square).toOption.map Prod.fst =
      some (.intSplit ⟨0, 3, []⟩ 0 0) := by
    decide +kernel
  have hrun : ∃ s', findBestSplit .stable squareSettings ⟨0, 3, []⟩ square =
      .ok (.intSplit ⟨0, 3, []⟩ 0 0, s') := by
    cases hres : findBestSplit .stable squareSettings ⟨0, 3, []⟩ square with
    | error e =>
      rw [hres] at hjob
      cases hjob
    | ok r =>
      rw [hres] at hjob
      exact ⟨r.2, congrArg Except.ok (Prod.ext (Option.some.inj hjob) rfl)⟩
  refine ⟨c, hc, ?_, hrun, fun hbest => ?_⟩
  · unfold Candidates.jobs
    rw [hcat, hint]
    simp [RealValued.rational]
    norm_num
  · obtain ⟨s', hrun⟩ := hrun
    obtain ⟨ratio, hmem, hmax⟩ := hbest _ _ hrun
    unfold Candidates.jobs at hmem hmax
    rw [hcat, hint] at hmem hmax
    have hratio : ratio = 0 := by simpa using hmem
    have hle := hmax (.categoricalSplit ⟨0, 3, []⟩ 0, 1) (by simp)
    rw [hratio] at hle
    norm_num [RealValued.rational] at hle

end HiceDt.Learner
