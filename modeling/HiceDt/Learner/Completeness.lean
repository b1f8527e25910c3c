import HiceDt.Learner.Pair

/-!
# Completeness of the driver

An attempt that fails with a bound makes the loop go on with a larger bound until no
bound is used; then the sample alone decides.

Results:

* `not_stuck_of_distinct`: without a bound every slice has a cut if the points have
  different attributes.
* `boundLoop_complete`: the loop ends with a tree iff the sample is satisfiable.
-/

namespace HiceDt.Learner

open HiceDt Solver Score Loop

variable {F : Type} [Score F] {sample : Sample} {k : ℕ} {env : Environment}

/-! ## Without a bound -/

/-- Points with different attributes and the same category differ in an integer. -/
theorem exists_int_ne {d d' : Datapoint}
    (hd : d.categoricalData.length = 1 ∧ d.intData.length = k)
    (hd' : d'.categoricalData.length = 1 ∧ d'.intData.length = k)
    (hcat : d.category 0 = d'.category 0)
    (hne : d.categoricalData ≠ d'.categoricalData ∨ d.intData ≠ d'.intData) :
    ∃ attr < k, d.int attr ≠ d'.int attr := by
  have hcats : d.categoricalData = d'.categoricalData := by
    refine List.ext_getElem (hd.1.trans hd'.1.symm) fun i h1 h2 => ?_
    have hi : i = 0 := by omega
    subst hi
    unfold Datapoint.category at hcat
    rw [List.getD_eq_getElem _ _ h1, List.getD_eq_getElem _ _ h2] at hcat
    exact hcat
  have hints := hne.resolve_left fun h => h hcats
  by_contra hno
  refine hints (List.ext_getElem (hd.2.trans hd'.2.symm) fun i h1 h2 => ?_)
  by_contra hi
  refine hno ⟨i, by omega, ?_⟩
  unfold Datapoint.int
  rw [List.getD_eq_getElem _ _ h1, List.getD_eq_getElem _ _ h2]
  exact hi

/-- The points have the same attributes. -/
def SameAttributes (d d' : Datapoint) : Prop :=
  d.categoricalData = d'.categoricalData ∧ d.intData = d'.intData

theorem SameAttributes.int {d d' : Datapoint} (h : SameAttributes d d') (attr : ℕ) :
    d.int attr = d'.int attr := by
  unfold Datapoint.int
  rw [h.2]

theorem SameAttributes.category {d d' : Datapoint} (h : SameAttributes d d') (attr : ℕ) :
    d.category attr = d'.category attr := by
  unfold Datapoint.category
  rw [h.1]

/-- The attribute vectors of the points are pairwise different. -/
def Sample.Distinct (sample : Sample) : Prop :=
  ∀ x ∈ sample.datapoints, ∀ y ∈ sample.datapoints, x ≠ y →
    (sample.mem x).categoricalData ≠ (sample.mem y).categoricalData ∨
      (sample.mem x).intData ≠ (sample.mem y).intData

theorem not_stuck_of_distinct (h : sample.Ok k) (hd : sample.Distinct) :
    ¬ Stuck (sample.settings [] none) k sample.datapoints sample.mem := by
  rintro ⟨m, -, x, hx, y, hy, hlx, hly, hcat, hsep⟩
  have hxy : x ≠ y := by
    rintro rfl
    exact hly hlx
  obtain ⟨attr, hk, hne⟩ := exists_int_ne (h.points.arity x hx) (h.points.arity y hy) hcat
    (hd x hx y hy hxy)
  rcases lt_or_gt_of_ne hne with hlt | hlt
  · exact hsep ⟨attr, hk, .inl ⟨hlt, rfl⟩⟩
  · exact hsep ⟨attr, hk, .inr ⟨hlt, rfl⟩⟩

/-- The attempt without a bound. -/
theorem attempt_unbounded (h : sample.Ok k) (hd : sample.Distinct) {steps : ℕ}
    (hsteps : 2 * sample.datapoints.length < steps) (hratio : RatiosOk F env sample none) :
    (¬ sample.Satisfiable ∧ attempt F env sample steps none = .error contradictory) ∨
      (∃ tree, attempt F env sample steps none = .ok tree ∧ sample.Fits tree) := by
  rcases attempt_spec h hsteps hratio [] rfl with
    ⟨hno, herr⟩ | ⟨-, ⟨tree, hrun, hfits, -⟩ | ⟨-, -, hstuck⟩⟩
  · refine .inl ⟨fun hsat => hno ?_, herr⟩
    rw [List.append_nil]
    exact hsat
  · exact .inr ⟨tree, hrun, hfits⟩
  · exact absurd hstuck (not_stuck_of_distinct h hd)

/-! ## The loop -/

/-- `IsRun F env sample steps n b n' b'`: the loop that starts with bound `b` and
    platform `n` comes to the attempt with bound `b'` and platform `n'`. -/
inductive IsRun (F : Type) [Score F] (env : ℕ → Environment) (sample : Sample) (steps : ℕ) :
    ℕ → Bound → ℕ → Bound → Prop
  | here {n : ℕ} {b : Bound} : IsRun F env sample steps n b n b
  | next {n n' : ℕ} {b b' : Bound} {e : Error} (hrun : b.useBound = true)
      (herr : attempt F (env (n + 1)) sample steps b.threshold = .error e)
      (hlater : IsRun F env sample steps n b.increase n' b') :
      IsRun F env sample steps (n + 1) b n' b'

/-- How the loop is to end. -/
structure Outcome (F : Type) [Score F] (env : ℕ → Environment) (sample : Sample) (steps n : ℕ)
    (b : Bound) : Prop where
  satisfiable : sample.Satisfiable →
    ∃ tree, boundLoop F env sample steps (n + 1) b = .ok tree ∧ sample.Fits tree
  contradictory : ¬ sample.Satisfiable →
    boundLoop F env sample steps (n + 1) b = .error Learner.contradictory ∧
      ∃ n' b', IsRun F env sample steps n b n' b' ∧ b'.useBound = false ∧
        attempt F (env n') sample steps b'.threshold = .error Learner.contradictory

theorem Sample.Fits.satisfiable {tree : Tree} (h : sample.Fits tree) : sample.Satisfiable := by
  obtain ⟨ν, -, hν⟩ := h
  exact ⟨ν, hν⟩

variable {env : ℕ → Environment} {steps n : ℕ} {b : Bound}

theorem Bound.threshold_none (hb : b.useBound = false) : b.threshold = none := by
  unfold Bound.threshold
  rw [hb]
  rfl

/-- The last attempt. -/
theorem Outcome.last (h : sample.Ok k) (hd : sample.Distinct)
    (hsteps : 2 * sample.datapoints.length < steps) (hb : b.useBound = false)
    (hratio : RatiosOk F (env n) sample b.threshold) : Outcome F env sample steps n b := by
  have hthr := Bound.threshold_none hb
  rw [hthr] at hratio
  have hloop : ∀ r, attempt F (env n) sample steps none = r →
      boundLoop F env sample steps (n + 1) b = r := by
    intro r hr
    rw [boundLoop, hthr, hr]
    match r with
    | .ok tree => rfl
    | .error (.sampleError what) => simp [hb]
    | .error (.splitNotPossibleError what) => simp [hb]
    | .error (.internalError _) => rfl
    | .error (.runtimeError _) => rfl
    | .error (.noConjunctionExistsException _) => rfl
    | .error .assertionFailure => rfl
    | .error .undefinedBehaviour => rfl
    | .error .outOfFuel => rfl
  rcases attempt_unbounded h hd hsteps hratio with ⟨hno, herr⟩ | ⟨tree, hrun, hfits⟩
  · exact ⟨fun hsat => absurd hsat hno, fun _ =>
      ⟨hloop _ herr, n, b, .here, hb, by rw [hthr]; exact herr⟩⟩
  · exact ⟨fun _ => ⟨tree, hloop _ hrun, hfits⟩, fun hno => absurd hfits.satisfiable hno⟩

/-- An attempt with a bound that fails passes on to the next one. -/
theorem Outcome.retry {e : Error} (hb : b.useBound = true)
    (herr : attempt F (env (n + 1)) sample steps b.threshold = .error e)
    (he : e = .splitNotPossibleError "No split possible!" ∨ e = Learner.contradictory)
    (hnext : Outcome F env sample steps n b.increase) : Outcome F env sample steps (n + 1) b := by
  have hloop : boundLoop F env sample steps (n + 1 + 1) b =
      boundLoop F env sample steps (n + 1) b.increase := by
    rw [boundLoop, herr]
    rcases he with rfl | rfl
    · exact if_pos hb
    · exact if_pos hb
  refine ⟨fun hsat => ?_, fun hno => ?_⟩
  · rw [hloop]
    exact hnext.satisfiable hsat
  · obtain ⟨hrun, n', b', hisrun, hlast⟩ := hnext.contradictory hno
    exact ⟨hloop.trans hrun, n', b', .next hb herr hisrun, hlast⟩

/-- The loop ends as it should once the bounds that are left are used up. -/
theorem boundLoop_outcome (h : sample.Ok k) (hd : sample.Distinct)
    (hsteps : 2 * sample.datapoints.length < steps) :
    ∀ (n : ℕ) (b : Bound), maxBound < b.bound * 2 ^ n →
      (∀ n' b', IsRun F env sample steps n b n' b' → RatiosOk F (env n') sample b'.threshold) →
      Outcome F env sample steps n b := by
  intro n
  induction n with
  | zero =>
    intro b hbound hratio
    refine .last h hd hsteps ?_ (hratio 0 b .here)
    unfold Bound.useBound
    rw [decide_eq_false (by omega)]
    simp
  | succ n ih =>
    intro b hbound hratio
    cases hb : b.useBound with
    | false => exact .last h hd hsteps hb (hratio _ b .here)
    | true =>
      have hinc : maxBound < b.increase.bound * 2 ^ n := by
        show maxBound < b.bound * 2 * 2 ^ n
        rw [mul_assoc, ← pow_succ']
        exact hbound
      obtain ⟨hcs, hcs_eq, -⟩ := h.boundConstraints b.threshold
      have hnext : ∀ {e}, attempt F (env (n + 1)) sample steps b.threshold = .error e →
          Outcome F env sample steps n b.increase := fun herr =>
        ih b.increase hinc fun n' b' hrun => hratio n' b' (.next hb herr hrun)
      rcases attempt_spec h hsteps (hratio _ b .here) hcs hcs_eq with
        ⟨-, herr⟩ | ⟨-, ⟨tree, hrun, hfits, -⟩ | ⟨herr, -⟩⟩
      · exact .retry hb herr (.inr rfl) (hnext herr)
      · refine ⟨fun _ => ⟨tree, ?_, hfits⟩, fun hno => absurd hfits.satisfiable hno⟩
        rw [boundLoop, hrun]
      · exact .retry hb herr (.inl rfl) (hnext herr)

/-- Every attempt of the loop that uses no bound is the unbounded learner. -/
theorem attempt_ne_splitNotPossible (h : sample.Ok k) (hd : sample.Distinct)
    (hsteps : 2 * sample.datapoints.length < steps) (hb : b.useBound = false)
    (hratio : RatiosOk F (env n) sample b.threshold) (what : String) :
    attempt F (env n) sample steps b.threshold ≠ .error (.splitNotPossibleError what) := by
  rw [Bound.threshold_none hb] at hratio ⊢
  rcases attempt_unbounded h hd hsteps hratio with ⟨-, herr⟩ | ⟨tree, hrun, -⟩
  · rw [herr]
    simp [contradictory]
  · rw [hrun]
    simp

/-- Completeness of the driver: on a sample with pairwise different attribute vectors,
    from any bound that is at least 1 and with or without bounds, the loop returns a
    tree iff the sample is satisfiable; the tree fits the sample. Otherwise it ends
    with the error of an attempt without bound. An attempt without bound always finds
    a split. -/
theorem boundLoop_complete (F : Type) [Score F] (env : ℕ → Environment) (sample : Sample) (k : ℕ)
    (h : sample.Ok k) (hd : sample.Distinct) (b : Bound) (hb : 1 ≤ b.bound) (steps : ℕ)
    (hsteps : 2 * sample.datapoints.length < steps) (n : ℕ) (hn : 5 ≤ n)
    (hratio : ∀ n' b', IsRun F env sample steps n b n' b' →
      RatiosOk F (env n') sample b'.threshold) :
    ((∃ tree, boundLoop F env sample steps (n + 1) b = .ok tree) ↔ sample.Satisfiable) ∧
      (∀ tree, boundLoop F env sample steps (n + 1) b = .ok tree → sample.Fits tree) ∧
      (¬ sample.Satisfiable →
        boundLoop F env sample steps (n + 1) b = .error contradictory ∧
          ∃ n' b', IsRun F env sample steps n b n' b' ∧ b'.useBound = false ∧
            attempt F (env n') sample steps b'.threshold = .error contradictory) ∧
      ∀ n' b', IsRun F env sample steps n b n' b' → b'.useBound = false →
        ∀ what, attempt F (env n') sample steps b'.threshold ≠
          .error (.splitNotPossibleError what) := by
  have hbound : maxBound < b.bound * 2 ^ n := by
    have h32 : (2 : ℤ) ^ 5 ≤ 2 ^ n := pow_le_pow_right₀ (by norm_num) hn
    unfold maxBound
    nlinarith
  have hout := boundLoop_outcome h hd hsteps n b hbound hratio
  have hok : ∀ tree, boundLoop F env sample steps (n + 1) b = .ok tree → sample.Fits tree := by
    intro tree hrun
    by_cases hsat : sample.Satisfiable
    · obtain ⟨tree', hrun', hfits⟩ := hout.satisfiable hsat
      rw [hrun] at hrun'
      rw [Except.ok.inj hrun']
      exact hfits
    · rw [(hout.contradictory hsat).1] at hrun
      simp at hrun
  refine ⟨⟨fun ⟨tree, hrun⟩ => (hok tree hrun).satisfiable, fun hsat => ?_⟩, hok,
    hout.contradictory, fun n' b' hrun hb' what =>
      attempt_ne_splitNotPossible h hd hsteps hb' (hratio n' b' hrun) what⟩
  obtain ⟨tree, hrun, -⟩ := hout.satisfiable hsat
  exact ⟨tree, hrun⟩

/-! ## A bound that is raised -/

/-- The values 2, labelled true, and 3, labelled false. -/
def twoThree : Sample :=
  pair { categoricalData := [0], intData := [2] } { categoricalData := [0], intData := [3] }

theorem twoThree_ok : twoThree.Ok 1 := pair_ok ⟨rfl, rfl⟩ ⟨rfl, rfl⟩ rfl

/-- Bound 1 does not tell the values apart; from there the loop comes to a tree. -/
theorem boundLoop_complete_twoThree :
    attempt ℝ .stable twoThree 5 (some 1) = .error contradictory ∧
      ∃ tree, boundLoop ℝ (fun _ => .stable) twoThree 5 6 ⟨1, true⟩ = .ok tree ∧
        twoThree.Fits tree := by
  refine ⟨pair_contradictory twoThree_ok .stable (by decide) (by decide), ?_⟩
  obtain ⟨hiff, hfits, -⟩ := boundLoop_complete ℝ (fun _ => .stable) twoThree 1 twoThree_ok
    (by simp [Sample.Distinct, twoThree, pair]) ⟨1, true⟩ (by decide) 5 (by decide) 5 (by decide)
    fun _ b' _ => pair_ratiosOk twoThree_ok .stable b'.threshold
  obtain ⟨tree, hrun⟩ := hiff.mpr (pair_satisfiable _ _)
  exact ⟨tree, hrun, hfits tree hrun⟩

end HiceDt.Learner
