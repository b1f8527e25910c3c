import Mathlib.Analysis.SpecialFunctions.Log.Base
import Mathlib.Data.List.Sort
import HiceDt.Learner.Progress

/-!
# The learned tree is consistent

When the learning loop ends, every point is labelled, the tree outputs its label,
and the labels satisfy the constraints. That is what `is_consistent` checks.

Results:

* `isConsistent_of_valuation`: when `is_consistent` answers `true`.
* `learn_result`: the tree that a run returns, for any heap that the run extends.
* `learn_sound`: the tree that `learn` returns after the initial run of the solver.
-/

namespace HiceDt.Learner

open HiceDt Solver Loop

variable {F : Type} {D : List Ptr} {m m₁ : Heap} {hcs : List HornConstraint}
  {s s' : LearnerState F} {tree : Tree} {ν : Ptr → Bool}

/-! ## `is_consistent` -/

theorem checkAll_eq_true {β : Type} {body : β → Except Error Bool} {l : List β}
    (h : ∀ x ∈ l, body x = .ok true) : checkAll body l = .ok true := by
  induction l with
  | nil => rfl
  | cons x l ih =>
    rw [checkAll, h x List.mem_cons_self]
    exact ih fun y hy => h y (List.mem_cons_of_mem _ hy)

theorem premisesHold_eq {l : List Ptr} (h : ∀ p ∈ l, tree.output (m p) = .ok (ν p)) :
    premisesHold tree m l = .ok (l.all ν) := by
  induction l with
  | nil => rfl
  | cons p l ih =>
    rw [premisesHold, h p List.mem_cons_self, List.all_cons]
    cases hp : ν p with
    | true => exact ih fun q hq => h q (List.mem_cons_of_mem _ hq)
    | false => rfl

/-- A constraint that holds of the outputs. -/
theorem constraintHolds_eq_true {hc : HornConstraint}
    (hout : ∀ x ∈ D, tree.output (m x) = .ok (ν x))
    (hprem : ∀ p ∈ hc.premises, p ∈ D) (hconcl : ∀ c, hc.conclusion = some c → c ∈ D)
    (hholds : hc.Holds ν) : constraintHolds tree m hc = .ok true := by
  unfold constraintHolds
  rw [premisesHold_eq fun p hp => hout p (hprem p hp)]
  cases hall : hc.premises.all ν with
  | false => rfl
  | true =>
    obtain ⟨c, hc', hν⟩ := hholds fun p hp => List.all_eq_true.mp hall p hp
    simp only [bind, Except.bind, if_true, hc']
    rw [hout c (hconcl c hc'), hν]

theorem labelHolds_eq_true {x : Ptr} (hout : tree.output (m x) = .ok (ν x))
    (hlabel : ∀ b, label m x = some b → ν x = b) : labelHolds tree m x = .ok true := by
  unfold labelHolds
  by_cases hc : (m x).isClassified = true
  · have hl : label m x = some (m x).classification := by
      unfold label Datapoint.label
      rw [if_pos hc]
    rw [if_pos hc, hout, hlabel _ hl]
    show Except.ok ((m x).classification == (m x).classification) = .ok true
    rw [beq_self_eq_true]
  · rw [if_neg hc]

/-- `is_consistent` answers `true` if the outputs agree with the labels and satisfy the
    constraints. -/
theorem isConsistent_of_valuation (hnull : tree.isNull = false)
    (hout : ∀ x ∈ D, tree.output (m x) = .ok (ν x))
    (hlabel : ∀ x ∈ D, ∀ b, label m x = some b → ν x = b) (hv : ValidInput m D hcs [] [])
    (hholds : ∀ hc ∈ hcs, hc.Holds ν) {v : List Ptr} (hp : v.Perm D) :
    isConsistent tree v hcs m = .ok true := by
  unfold isConsistent
  rw [hnull, checkAll_eq_true fun x hx =>
    labelHolds_eq_true (hout x (hp.subset hx)) (hlabel x (hp.subset hx))]
  show checkAll (constraintHolds tree m) hcs = .ok true
  exact checkAll_eq_true fun hc hhc =>
    constraintHolds_eq_true hout (hv.premises hc hhc) (hv.conclusion hc hhc) (hholds hc hhc)

/-! ## The end of a run -/

/-- At the end, labels and outputs agree and satisfy the constraints. -/
theorem LearnInv.final (h : LearnInv D m₁ hcs s []) :
    ∃ ν : Ptr → Bool, (∀ x ∈ D, s.tree.output (s.solver.mem x) = .ok (ν x)) ∧
      (∀ x ∈ D, label s.solver.mem x = some (ν x)) ∧ ∀ hc ∈ hcs, hc.Holds ν := by
  obtain ⟨ν, hν⟩ := h.sample.consistent
  have hall : ∀ x ∈ D, ∃ b, s.tree.output (s.solver.mem x) = .ok b ∧
      label s.solver.mem x = some b := by
    intro x hx
    obtain ⟨i, hi, hget⟩ := List.getElem_of_mem (h.perm.symm.subset hx)
    have hptr : s.ptr i = x := by
      rw [s.ptr_eq, List.getElem?_eq_getElem hi, hget]
      rfl
    obtain ⟨sl, hmem, -⟩ | ⟨b, ho, hb⟩ := h.tree.covered i hi
    · simp at hmem
    · unfold LearnerState.point at ho
      unfold LearnerState.labelAt at hb
      rw [hptr] at ho hb
      exact ⟨b, ho, hb⟩
  refine ⟨ν, fun x hx => ?_, fun x hx => ?_, hν.2.2.2⟩
  · obtain ⟨b, ho, hb⟩ := hall x hx
    rw [hν.1 x hx b hb]
    exact ho
  · obtain ⟨b, -, hb⟩ := hall x hx
    rw [hν.1 x hx b hb]
    exact hb

/-- What is known about the tree `tree` and the vector `v` that a run returns. -/
structure Learned (D : List Ptr) (m₁ : Heap) (hcs : List HornConstraint) (tree : Tree)
    (s : LearnerState F) (ν : Ptr → Bool) : Prop where
  perm : s.datapointPtrs.Perm D
  output : ∀ x ∈ D, tree.output (m₁ x) = .ok (ν x)
  consistent : Consistent m₁ D hcs [] [] ν
  isConsistent : Learner.isConsistent tree s.datapointPtrs hcs s.solver.mem = .ok true

theorem SampleInv.self (hs : SampleInv D m₁ hcs m) : SampleInv D m hcs m :=
  ⟨hs.valid, fun _ _ => rfl, fun _ _ _ h => h, hs.consistent, hs.closed⟩

/-- The learner on an empty sample. -/
theorem learned_empty (hs : SampleInv s.datapointPtrs m₁ hcs s.solver.mem)
    (hempty : s.datapointPtrs = []) : ∃ ν, Learned s.datapointPtrs m₁ hcs (.leaf true) s ν := by
  obtain ⟨ν, hν⟩ := hs.consistent
  have hno : ∀ x, x ∉ s.datapointPtrs := by
    intro x
    rw [hempty]
    exact List.not_mem_nil
  refine ⟨ν, .refl _, fun x hx => absurd hx (hno x),
    ⟨fun x hx => absurd hx (hno x), by simp, by simp, hν.2.2.2⟩, ?_⟩
  exact isConsistent_of_valuation rfl (fun x hx => absurd hx (hno x))
    (fun x hx => absurd hx (hno x)) hs.valid hν.2.2.2 (.refl _)

variable [Score F]

/-- The tree that a run returns. -/
theorem learn_result (env : Environment) (cfg : Settings) {fuel : ℕ}
    (hs : SampleInv s.datapointPtrs m₁ cfg.hornConstraints s.solver.mem) (hslices : s.slices = [])
    (hrun : learn env cfg fuel s = .ok (tree, s')) :
    ∃ ν, Learned s.datapointPtrs m₁ cfg.hornConstraints tree s' ν := by
  unfold learn at hrun
  split_ifs at hrun with hempty
  · obtain ⟨rfl, rfl⟩ := Prod.mk.inj (Except.ok.inj hrun)
    exact learned_empty hs (List.isEmpty_iff.mp hempty)
  have hne : s.datapointPtrs ≠ [] := fun e => hempty (List.isEmpty_iff.mpr e)
  simp only [bind_ok] at hrun
  obtain ⟨t, hloop, u, hassert, hret⟩ := hrun
  obtain ⟨rfl, rfl⟩ := Prod.mk.inj (Except.ok.inj hret)
  have hfinal := learnLoop_inv env cfg fuel _ (LearnInv.start hs hslices hne) hloop
  have hnull : t.tree.isNull = false := by simpa using assert_eq_ok hassert
  obtain ⟨ν, hout, hlabel, hholds⟩ := hfinal.final
  have hlab : ∀ x ∈ s.datapointPtrs, ∀ b, label t.solver.mem x = some b → ν x = b := by
    intro x hx b hb
    rw [hlabel x hx] at hb
    exact Option.some.inj hb
  refine ⟨ν, hfinal.perm, fun x hx => ?_, ⟨fun x hx b hb => ?_, by simp, by simp, hholds⟩, ?_⟩
  · have hne' := hfinal.sample.valid.ne_falseDatapoint hx
    rw [← output_congr (hfinal.sample.core_eq x hne')]
    exact hout x hx
  · exact hlab x hx b (hfinal.sample.keeps x hx b hb)
  · exact isConsistent_of_valuation hnull hout hlab hfinal.sample.valid hholds hfinal.perm

/-- Soundness of the learner: for all scores, orders of slices and behaviours of the
    platform, if the initial run succeeds and `learn` returns a tree, the tree is
    consistent, it outputs the labels that the points had before learning (those of
    the sample and those of the initial run), and its outputs satisfy the
    constraints. -/
theorem learn_sound (env : Environment) (cfg : Settings) (fuel : ℕ) (s s₁ s' : LearnerState F)
    (tree : Tree) (hv : ValidInput s.solver.mem s.datapointPtrs cfg.hornConstraints [] [])
    (hslices : s.slices = []) (hinit : initialRun env cfg s = .ok s₁)
    (hlearn : learn env cfg fuel s₁ = .ok (tree, s')) :
    isConsistent tree s'.datapointPtrs cfg.hornConstraints s'.solver.mem = .ok true ∧
      s'.datapointPtrs.Perm s.datapointPtrs ∧
      (∀ x ∈ s.datapointPtrs, ∀ b, label s.solver.mem x = some b ∨ label s₁.solver.mem x = some b →
        tree.output (s.solver.mem x) = .ok b) ∧
      ∃ ν : Ptr → Bool, (∀ x ∈ s.datapointPtrs, tree.output (s.solver.mem x) = .ok (ν x)) ∧
        ∀ hc ∈ cfg.hornConstraints, hc.Holds ν := by
  rcases initialRun_spec env cfg s hv with ⟨-, st, hrun, hsample⟩ | ⟨-, hrun⟩
  swap
  · rw [hrun] at hinit
    simp at hinit
  rw [hrun] at hinit
  have hs₁ := Except.ok.inj hinit
  subst hs₁
  obtain ⟨ν, hl⟩ := learn_result (s := { s with solver := st }) env cfg hsample.self hslices hlearn
  have hout : ∀ x ∈ s.datapointPtrs, tree.output (s.solver.mem x) = .ok (ν x) := by
    intro x hx
    rw [← output_congr (hsample.core_eq x (hv.ne_falseDatapoint hx))]
    exact hl.output x hx
  refine ⟨hl.isConsistent, hl.perm, fun x hx b hb => ?_, ν, hout, hl.consistent.2.2.2⟩
  have hb' : label st.mem x = some b := by
    rcases hb with hb | hb
    · exact hsample.keeps x hx b hb
    · exact hb
  rw [hout x hx, hl.consistent.1 x hx b hb']

/-! ## A sample

Two points in different categories that exclude each other; one is labelled true,
so the initial run labels the other one false. -/

open Classical in
/-- Exact scores. -/
noncomputable instance : Score ℝ where
  ofInt n := n
  add := (· + ·)
  sub := (· - ·)
  mul := (· * ·)
  div := (· / ·)
  neg := (- ·)
  log2 := Real.logb (2 : ℕ)
  toFloat := id
  lt a b := decide (a < b)
  le a b := decide (a ≤ b)
  eq a b := decide (a = b)

@[simp] theorem real_ofInt (n : ℤ) : (Score.ofInt n : ℝ) = n := rfl

@[simp] theorem real_add (a b : ℝ) : Score.add a b = a + b := rfl

@[simp] theorem real_sub (a b : ℝ) : Score.sub a b = a - b := rfl

@[simp] theorem real_mul (a b : ℝ) : Score.mul a b = a * b := rfl

@[simp] theorem real_div (a b : ℝ) : Score.div a b = a / b := rfl

@[simp] theorem real_neg (a : ℝ) : Score.neg a = -a := rfl

@[simp] theorem real_log2 (a : ℝ) : Score.log2 a = Real.logb 2 a := rfl

@[simp] theorem real_lt (a b : ℝ) : Score.lt a b = decide (a < b) := rfl

@[simp] theorem real_eq (a b : ℝ) : Score.eq a b = decide (a = b) := rfl

theorem logb_half : Real.logb 2 (1 / 2) = -1 := by
  rw [one_div, Real.logb_inv, Real.logb_self_eq_one (by norm_num)]

/-- A platform with a stable sort. -/
def Environment.stable : Environment where
  ord := .stored
  sort _ key l := l.insertionSort fun a b => key a ≤ key b
  rand _ := 0
  sort_perm _ key l := List.perm_insertionSort _ l
  sort_sorted _ key l := by
    have : Std.Total fun a b : Ptr => key a ≤ key b := ⟨fun a b => le_total (key a) (key b)⟩
    have : IsTrans Ptr fun a b => key a ≤ key b := ⟨fun _ _ _ => le_trans⟩
    exact List.pairwise_insertionSort _ l

/-- The two points and the constraint that excludes both. -/
def exclusive : Sample where
  mem x := match x with
    | .point 0 => { categoricalData := [0], isClassified := true, classification := true }
    | _ => { categoricalData := [1] }
  datapoints := [.point 0, .point 1]
  hornConstraints := [⟨[.point 0, .point 1], none, false⟩]
  numberOfCategories := [2]

theorem exclusive_validInput :
    ValidInput exclusive.mem exclusive.datapoints exclusive.hornConstraints [] [] := by
  refine ⟨by simp [exclusive], by simp [exclusive, label, Datapoint.label], by simp [exclusive],
    by simp [exclusive], by simp [exclusive], by simp, by simp, by simp, fun x _ => ?_⟩
  simp only [exclusive]
  split <;> exact ⟨rfl, rfl⟩

theorem exclusive_consistent :
    Consistent exclusive.mem exclusive.datapoints exclusive.hornConstraints [] []
      fun x => x = .point 0 := by
  simp [Consistent, exclusive, label, Datapoint.label, HornConstraint.Holds]

theorem exclusive_sampleOk :
    SampleOk exclusive.mem exclusive.datapoints exclusive.numberOfCategories 0 := by
  constructor <;> simp [exclusive, Datapoint.category]

/-- Points of the same category are the same point. -/
theorem exclusive_not_stuck {cfg : Settings} {k : ℕ} :
    ¬ Stuck cfg k exclusive.datapoints exclusive.mem := by
  rintro ⟨m, -, x, hx, y, hy, hlx, hly, hcat, -⟩
  simp only [exclusive, List.mem_cons, List.not_mem_nil, or_false] at hx hy
  rcases hx with rfl | rfl <;> rcases hy with rfl | rfl
  · exact hly hlx
  · simp [exclusive, Datapoint.category] at hcat
  · simp [exclusive, Datapoint.category] at hcat
  · exact hly hlx

/-- The initial run succeeds, the learner returns, and the tree separates the points. -/
theorem learn_sound_exclusive :
    ∃ (s₁ s' : LearnerState ℝ) (tree : Tree),
      initialRun .stable (exclusive.settings [] none) exclusive.fresh = .ok s₁ ∧
      learn .stable (exclusive.settings [] none) 5 s₁ = .ok (tree, s') ∧
      tree.output (exclusive.mem (.point 0)) = .ok true ∧
      isConsistent tree s'.datapointPtrs exclusive.hornConstraints s'.solver.mem = .ok true := by
  have hv : ValidInput (exclusive.fresh : LearnerState ℝ).solver.mem
      (exclusive.fresh : LearnerState ℝ).datapointPtrs
      (exclusive.settings [] none).hornConstraints [] [] := exclusive_validInput
  obtain ⟨-, st, hinit, hs⟩ | ⟨hno, -⟩ := initialRun_spec .stable (exclusive.settings [] none)
    (exclusive.fresh : LearnerState ℝ) hv
  swap
  · exact absurd ⟨_, exclusive_consistent⟩ hno
  set s₁ : LearnerState ℝ := { exclusive.fresh with solver := st } with hs₁
  have hstart := LearnInv.start (s := s₁) hs rfl (by simp [hs₁, Sample.fresh, exclusive])
  have hp : Plain (exclusive.settings [] none) := ⟨by simp [Sample.settings], rfl⟩
  have hratio : ∀ t, Reaches .stable (exclusive.settings [] none) (initialSlice s₁) t →
      ∀ ratio, ComputesRatio .stable (exclusive.settings [] none) t ratio →
        Score.lt (Score.ofInt (-1000000)) ratio = true := by
    intro t ht ratio hr
    obtain ⟨x, -, y, -, attr, hk, -⟩ := hr.exists_cut hp (ht.inv hstart) exclusive_sampleOk
    omega
  obtain ⟨tree, s', hlearn, -⟩ | ⟨-, -, -, hstuck⟩ := learn_progress (s := s₁) .stable hp rfl
    exclusive_sampleOk hs rfl rfl (by decide : 2 * 2 < 5) hratio
  swap
  · exact absurd hstuck exclusive_not_stuck
  obtain ⟨hcons, -, hlab, -⟩ := learn_sound .stable (exclusive.settings [] none) 5 exclusive.fresh
    s₁ s' tree hv rfl hinit hlearn
  exact ⟨_, s', tree, hinit, hlearn, hlab (.point 0) (by simp [Sample.fresh, exclusive]) true
    (.inl rfl), hcons⟩

end HiceDt.Learner
