import Mathlib.Data.List.GetD
import HiceDt.Learner.Consistent

/-!
# The penalty for cut Horn constraints

The term that `find_best_split` adds to the entropy of a cut in the mode `PENALTY`
(`hice-dt/include/simple_job_manager.h`, lines 1714–1735 and 1988–2039), in exact
arithmetic. It weighs the implications that the cut separates by the fractions of
negative and positive points on the two sides. The fractions overwrite the counts
that they are computed from: the fraction of positive points of a side is computed
with the fraction of its negative points instead of their number.

Results:

* `penalty_eq`: the two loops over every clause count the cut premises.
* `penaltyVal_eq`, `codePenalty_swap`: the term as a function of the two parts; it does
  not change if the parts are swapped.
* `penaltyAsIntended_iff`: when the term is the intended one.
-/

namespace HiceDt.Learner

open HiceDt

variable {F : Type}

/-! ## The intended penalty -/

/-- The points at the indexes `left, …, right`. -/
def LearnerState.part (s : LearnerState F) (left right : ℕ) : List Ptr :=
  (indices left right).map s.ptr

/-- The number of points with the given label. -/
def labelCount (m : Heap) (l : List Ptr) (b : Bool) : ℕ :=
  (l.filter fun x => (m x).isClassified && (m x).classification == b).length

/-- The fraction of the points with the given label among the labelled ones, 0 if there
    are none. -/
noncomputable def labelFraction (m : Heap) (l : List Ptr) (b : Bool) : ℝ :=
  if labelCount m l false + labelCount m l true = 0 then 0
  else labelCount m l b / (labelCount m l false + labelCount m l true)

/-- The unlabelled premises in `source` if there is an unlabelled conclusion in
    `target`. -/
def cutPremises (m : Heap) (source target : List Ptr) (hc : HornConstraint) : ℕ :=
  if ∃ c ∈ target, hc.conclusion = some c ∧ (m c).isClassified = false then
    (hc.premises.filter fun p => p ∈ source ∧ (m p).isClassified = false).length
  else 0

/-- The same over all Horn constraints. -/
def cutCount (m : Heap) (hcs : List HornConstraint) (source target : List Ptr) : ℕ :=
  (hcs.map (cutPremises m source target)).sum

/-- The weighted ratio of the cut implications. -/
noncomputable def intendedPenalty (m : Heap) (hcs : List HornConstraint) (l r : List Ptr) : ℝ :=
  2 * ((1 - labelFraction m l false * labelFraction m r true) * cutCount m hcs l r +
      (1 - labelFraction m r false * labelFraction m l true) * cutCount m hcs r l) /
    (2 * (cutCount m hcs l r + cutCount m hcs r l) +
      (labelCount m (l ++ r) false + labelCount m (l ++ r) true))

/-- Some Horn constraint has an unlabelled premise in `source` and an unlabelled
    conclusion in `target`. -/
def Crosses (m : Heap) (hcs : List HornConstraint) (source target : List Ptr) : Prop :=
  ∃ hc ∈ hcs, (∃ p ∈ hc.premises, p ∈ source ∧ (m p).isClassified = false) ∧
    ∃ c ∈ target, hc.conclusion = some c ∧ (m c).isClassified = false

/-- Both labels occur. -/
def Mixed (m : Heap) (l : List Ptr) : Prop :=
  (∃ x ∈ l, (m x).isClassified = true ∧ (m x).classification = false) ∧
    ∃ x ∈ l, (m x).isClassified = true ∧ (m x).classification = true

variable {m : Heap} {hcs : List HornConstraint} {source target l r l' r' : List Ptr}

theorem labelCount_append (m : Heap) (l r : List Ptr) (b : Bool) :
    labelCount m (l ++ r) b = labelCount m l b + labelCount m r b := by
  unfold labelCount
  rw [List.filter_append, List.length_append]

theorem labelCount_perm (h : l'.Perm l) (b : Bool) : labelCount m l' b = labelCount m l b :=
  (h.filter _).length_eq

theorem labelCount_pos {b : Bool} :
    0 < labelCount m l b ↔ ∃ x ∈ l, (m x).isClassified = true ∧ (m x).classification = b := by
  unfold labelCount
  rw [List.length_pos_iff_exists_mem]
  simp only [List.mem_filter, Bool.and_eq_true, beq_iff_eq]

theorem cutPremises_pos {hc : HornConstraint} : 0 < cutPremises m source target hc ↔
    (∃ p ∈ hc.premises, p ∈ source ∧ (m p).isClassified = false) ∧
      ∃ c ∈ target, hc.conclusion = some c ∧ (m c).isClassified = false := by
  unfold cutPremises
  split_ifs with hcon
  · rw [and_iff_left hcon, List.length_pos_iff_exists_mem]
    simp only [List.mem_filter, decide_eq_true_eq]
  · simp [hcon]

theorem cutCount_pos : 0 < cutCount m hcs source target ↔ Crosses m hcs source target := by
  unfold cutCount Crosses
  rw [Nat.pos_iff_ne_zero, Ne, List.sum_eq_zero_iff]
  simp only [List.mem_map, forall_exists_index, and_imp, forall_apply_eq_imp_iff₂, not_forall,
    ← Nat.pos_iff_ne_zero, ← Ne.eq_def, cutPremises_pos, exists_prop]

theorem cutCount_congr (hs : ∀ x, x ∈ l' ↔ x ∈ l) (ht : ∀ x, x ∈ r' ↔ x ∈ r) :
    cutCount m hcs l' r' = cutCount m hcs l r := by
  unfold cutCount cutPremises
  simp only [hs, ht]

/-! ## Counting cut implications -/

/-- The premises that are a new point and the premises among the points before. -/
theorem length_filter_cons {premises : List Ptr} {p : Ptr → Bool} {x : Ptr} (hx : x ∉ l) :
    (premises.filter fun y => y = x ∧ p x).length + (premises.filter fun y => y ∈ l ∧ p y).length =
      (premises.filter fun y => y ∈ x :: l ∧ p y).length := by
  induction premises with
  | nil => rfl
  | cons y premises ih =>
    by_cases hyx : y = x
    · subst hyx
      by_cases hp : p y = true
      · simp only [List.filter_cons, hx, hp, and_true, decide_true, decide_false, if_true,
          Bool.false_eq_true, if_false, List.length_cons, List.mem_cons_self] at ih ⊢
        omega
      · simp only [List.filter_cons, hp, and_false, decide_false, Bool.false_eq_true,
          if_false] at ih ⊢
        exact ih
    · simp only [List.filter_cons, List.mem_cons, hyx, false_or, false_and, decide_false,
        Bool.false_eq_true, if_false] at ih ⊢
      split_ifs
      · rw [List.length_cons, List.length_cons]
        omega
      · exact ih

/-- Every premise is counted at the one index where it is. -/
theorem sum_filter_eq (premises : List Ptr) (p : Ptr → Bool) (hnd : l.Nodup) :
    (l.map fun x => (premises.filter fun y => y = x ∧ p x).length).sum =
      (premises.filter fun y => y ∈ l ∧ p y).length := by
  induction l with
  | nil => simp
  | cons x l ih =>
    obtain ⟨hx, hnd⟩ := List.nodup_cons.mp hnd
    rw [List.map_cons, List.sum_cons, ih hnd, length_filter_cons hx]

variable {s : LearnerState F} {left cur right : ℕ}

/-- A clause contributes in the direction from its premises to its conclusion. -/
theorem clausePenalty_eq (hnd : (s.part left cur ++ s.part (cur + 1) right).Nodup)
    (hc : HornConstraint) : clausePenalty s left cur right hc =
      (cutPremises s.solver.mem (s.part left cur) (s.part (cur + 1) right) hc,
        cutPremises s.solver.mem (s.part (cur + 1) right) (s.part left cur) hc) := by
  obtain ⟨hl, hr, hdisj⟩ := List.nodup_append.mp hnd
  have hpremises : ∀ a b, (s.part a b).Nodup →
      ((indices a b).map fun i =>
        (hc.premises.filter fun p => p = s.ptr i ∧ (!(s.point i).isClassified) = true).length).sum =
      (hc.premises.filter fun p => p ∈ s.part a b ∧
      (s.solver.mem p).isClassified = false).length := by
    intro a b hnd
    have h := sum_filter_eq hc.premises (fun x => !(s.solver.mem x).isClassified) hnd
    rw [LearnerState.part, List.map_map] at h
    simp only [Bool.not_eq_true'] at h ⊢
    exact h
  have hconclusion : ∀ a b,
      ((indices a b).any fun i => hc.conclusion = some (s.ptr i) ∧
      (!(s.point i).isClassified) = true) =
        true ↔ ∃ c ∈ s.part a b, hc.conclusion = some c ∧
        (s.solver.mem c).isClassified = false := by
    intro a b
    unfold LearnerState.part
    rw [List.any_eq_true]
    simp only [List.mem_map, exists_exists_and_eq_and, decide_eq_true_eq, Bool.not_eq_true']
    rfl
  unfold clausePenalty cutPremises
  simp only [hpremises _ _ hl, hpremises _ _ hr, hconclusion]
  by_cases hright : ∃ c ∈ s.part (cur + 1) right,
      hc.conclusion = some c ∧ (s.solver.mem c).isClassified = false
  · have hleft : ¬ ∃ c ∈ s.part left cur,
        hc.conclusion = some c ∧ (s.solver.mem c).isClassified = false := by
      rintro ⟨c, hmem, hc', -⟩
      obtain ⟨c', hmem', hc'', -⟩ := hright
      exact hdisj c hmem c' hmem' (Option.some.inj (hc'.symm.trans hc''))
    rw [if_pos hright, if_pos hright, if_neg hleft]
  · rw [if_neg hright, if_neg hright]
    split_ifs
    · rfl
    · rfl

theorem penalty_eq (cfg : Settings) (hnd : (s.part left cur ++ s.part (cur + 1) right).Nodup) :
    penalty cfg s left cur right =
      (cutCount s.solver.mem cfg.hornConstraints (s.part left cur) (s.part (cur + 1) right),
        cutCount s.solver.mem cfg.hornConstraints (s.part (cur + 1) right) (s.part left cur)) := by
  have hfold : ∀ (hcs : List HornConstraint) (acc : ℕ × ℕ),
      hcs.foldl (fun acc hc => let p := clausePenalty s left cur right hc
          (acc.1 + p.1, acc.2 + p.2)) acc =
        (acc.1 + cutCount s.solver.mem hcs (s.part left cur) (s.part (cur + 1) right),
          acc.2 + cutCount s.solver.mem hcs (s.part (cur + 1) right) (s.part left cur)) := by
    intro hcs
    induction hcs with
    | nil => simp [cutCount]
    | cons hc hcs ih =>
      intro acc
      rw [List.foldl_cons, ih, clausePenalty_eq hnd]
      simp only [cutCount, List.map_cons, List.sum_cons, Nat.add_assoc]
  unfold penalty
  rw [hfold, Nat.zero_add, Nat.zero_add]

/-! ## The term of the code -/

/-- The fraction of positive points as the code computes it, from the fraction of
    negative points and the number of positive ones. -/
noncomputable def codeFraction (m : Heap) (l : List Ptr) : ℝ :=
  if labelCount m l true = 0 then 0 else labelCount m l true /
    (labelFraction m l false + labelCount m l true)

/-- The penalty that the code computes. -/
noncomputable def codePenalty (m : Heap) (hcs : List HornConstraint) (l r : List Ptr) : ℝ :=
  2 * ((1 - labelFraction m l false * codeFraction m r) * cutCount m hcs l r +
      (1 - labelFraction m r false * codeFraction m l) * cutCount m hcs r l) /
    (2 * (cutCount m hcs l r + cutCount m hcs r l) +
      (labelCount m (l ++ r) false + labelCount m (l ++ r) true))

theorem numPointsWithClassification_eq (s : LearnerState F) (a b : ℕ) (label : Bool) :
    numPointsWithClassification s a b label = labelCount s.solver.mem (s.part a b) label := by
  unfold numPointsWithClassification labelCount LearnerState.part
  rw [List.filter_map, List.length_map]
  rfl

theorem labelFraction_false (m : Heap) (l : List Ptr) : labelFraction m l false =
    if (labelCount m l false : ℝ) = 0 then 0
    else (labelCount m l false : ℝ) / (labelCount m l false + labelCount m l true) := by
  unfold labelFraction
  by_cases hzero : labelCount m l false = 0
  · simp [hzero]
  · rw [if_neg (by omega), if_neg (by exact_mod_cast hzero)]

theorem penaltyVal_eq (cfg : Settings) {s : LearnerState ℝ}
    (hnd : (s.part left cur ++ s.part (cur + 1) right).Nodup) :
    penaltyVal cfg s left cur right =
      codePenalty s.solver.mem cfg.hornConstraints (s.part left cur) (s.part (cur + 1) right) := by
  unfold penaltyVal codePenalty codeFraction
  simp only [penalty_eq cfg hnd, numPointsWithClassification_eq, labelCount_append, real_ofInt,
    real_add, real_sub, real_mul, real_div, real_eq, decide_eq_true_eq, labelFraction_false]
  push_cast
  simp only [Nat.cast_eq_zero]
  congr 1
  ring

/-- Swapping the two parts does not change the penalty. -/
theorem codePenalty_swap (m : Heap) (hcs : List HornConstraint) (l r : List Ptr) :
    codePenalty m hcs r l = codePenalty m hcs l r := by
  unfold codePenalty
  rw [labelCount_append, labelCount_append, labelCount_append, labelCount_append]
  push_cast
  congr 1
  · ring
  · ring

theorem codePenalty_perm (hl : l'.Perm l) (hr : r'.Perm r) :
    codePenalty m hcs l' r' = codePenalty m hcs l r := by
  unfold codePenalty codeFraction labelFraction
  simp only [labelCount_append, labelCount_perm hl, labelCount_perm hr,
    cutCount_congr (fun _ => hl.mem_iff) fun _ => hr.mem_iff,
    cutCount_congr (fun _ => hr.mem_iff) fun _ => hl.mem_iff]

/-! ## The difference -/

theorem labelFraction_nonneg (m : Heap) (l : List Ptr) (b : Bool) : 0 ≤ labelFraction m l b := by
  unfold labelFraction
  split_ifs
  · exact le_rfl
  · positivity

theorem labelFraction_eq_zero {b : Bool} : labelFraction m l b = 0 ↔ labelCount m l b = 0 := by
  unfold labelFraction
  have hle : labelCount m l b ≤ labelCount m l false + labelCount m l true := by
    cases b with
    | false => omega
    | true => omega
  split_ifs with hzero
  · exact iff_of_true rfl (by omega)
  · have hpos : ((labelCount m l false : ℝ) + labelCount m l true) ≠ 0 := by exact_mod_cast hzero
    rw [div_eq_zero_iff, or_iff_left hpos, Nat.cast_eq_zero]

/-- The code divides by a smaller number if the part has points of both labels. -/
theorem labelFraction_lt_codeFraction (hneg : 0 < labelCount m l false)
    (hpos : 0 < labelCount m l true) : labelFraction m l true < codeFraction m l := by
  unfold codeFraction
  rw [if_neg (by omega)]
  unfold labelFraction
  rw [if_neg (by omega), if_neg (by omega)]
  have hn : (1 : ℝ) ≤ labelCount m l false := by exact_mod_cast hneg
  have hp : (1 : ℝ) ≤ labelCount m l true := by exact_mod_cast hpos
  have hsmall : (labelCount m l false : ℝ) / (labelCount m l false + labelCount m l true) <
      labelCount m l false := by
    rw [div_lt_iff₀ (by linarith)]
    nlinarith
  refine div_lt_div_of_pos_left (by linarith) ?_ (by linarith)
  have : 0 < (labelCount m l false : ℝ) / (labelCount m l false +
    labelCount m l true) := by positivity
  linarith

theorem codeFraction_eq (h : labelCount m l false = 0 ∨ labelCount m l true = 0) :
    codeFraction m l = labelFraction m l true := by
  unfold codeFraction
  by_cases hpos : labelCount m l true = 0
  · rw [if_pos hpos, labelFraction_eq_zero.mpr hpos]
  · have hneg := h.resolve_right hpos
    rw [if_neg hpos, labelFraction_eq_zero.mpr hneg, zero_add]
    unfold labelFraction
    rw [if_neg (by omega), hneg]
    push_cast
    rw [zero_add]

theorem labelFraction_le_codeFraction (m : Heap) (l : List Ptr) :
    labelFraction m l true ≤ codeFraction m l := by
  by_cases hneg : labelCount m l false = 0
  · exact (codeFraction_eq (.inl hneg)).ge
  · by_cases hpos : labelCount m l true = 0
    · exact (codeFraction_eq (.inr hpos)).ge
    · exact (labelFraction_lt_codeFraction (by omega) (by omega)).le

theorem mixed_iff : Mixed m l ↔ 0 < labelCount m l false ∧ 0 < labelCount m l true := by
  rw [labelCount_pos, labelCount_pos]
  rfl

/-- The error for one direction vanishes iff nothing is cut, the weight is 0 or the
    target has points of one label only. -/
theorem error_eq_zero :
    labelFraction m l false * (codeFraction m r - labelFraction m r true) * cutCount m hcs l r = 0 ↔
      ¬ (Crosses m hcs l r ∧ (∃ x ∈ l, (m x).isClassified = true ∧ (m x).classification = false) ∧
        Mixed m r) := by
  rw [← cutCount_pos, ← labelCount_pos, mixed_iff, mul_eq_zero, mul_eq_zero, labelFraction_eq_zero,
    Nat.cast_eq_zero]
  constructor
  · rintro ((hzero | hsame) | hzero) ⟨hcut, hneg, hmixed⟩
    · omega
    · have := labelFraction_lt_codeFraction hmixed.1 hmixed.2
      linarith
    · omega
  · intro hno
    by_cases hcut : cutCount m hcs l r = 0
    · exact .inr hcut
    · by_cases hneg : labelCount m l false = 0
      · exact .inl (.inl hneg)
      · refine .inl (.inr ?_)
        rw [codeFraction_eq (by omega), sub_self]

/-- The errors of the two directions have the same sign. -/
theorem codePenalty_eq_iff (hlabelled : 0 < labelCount m (l ++ r) false +
    labelCount m (l ++ r) true) :
    codePenalty m hcs l r = intendedPenalty m hcs l r ↔
      labelFraction m l false * (codeFraction m r - labelFraction m r true) * cutCount m hcs l r =
        0 ∧
        labelFraction m r false * (codeFraction m l - labelFraction m l true) * cutCount m hcs r l =
          0 := by
  have hdenominator : (0 : ℝ) < 2 * (cutCount m hcs l r + cutCount m hcs r l) +
      (labelCount m (l ++ r) false + labelCount m (l ++ r) true) := by
    have : (0 : ℝ) < labelCount m (l ++ r) false + labelCount m (l ++ r) true := by
      exact_mod_cast hlabelled
    positivity
  have hl : 0 ≤ labelFraction m l false * (codeFraction m r - labelFraction m r true) *
      cutCount m hcs l r := by
    have := labelFraction_nonneg m l false
    have := labelFraction_le_codeFraction m r
    have : 0 ≤ codeFraction m r - labelFraction m r true := by linarith
    positivity
  have hr : 0 ≤ labelFraction m r false * (codeFraction m l - labelFraction m l true) *
      cutCount m hcs r l := by
    have := labelFraction_nonneg m r false
    have := labelFraction_le_codeFraction m l
    have : 0 ≤ codeFraction m l - labelFraction m l true := by linarith
    positivity
  rw [← add_eq_zero_iff_of_nonneg hl hr]
  unfold codePenalty intendedPenalty
  rw [div_left_inj' hdenominator.ne']
  constructor
  · intro h
    linarith
  · intro h
    linarith

/-! ## The penalty of a cut -/

/-- The parts of the two cuts are swapped. -/
structure Mirrored (s s' : LearnerState F) (left cur right left' cur' right' : ℕ) : Prop where
  mem : s'.solver.mem = s.solver.mem
  onLeft : (s'.part left' cur').Perm (s.part (cur + 1) right)
  onRight : (s'.part (cur' + 1) right').Perm (s.part left cur)

/-- The penalty of the cut after index `cur` is the intended one, and mirrored cuts have
    the same penalty. -/
def PenaltyAsIntended (cfg : Settings) (s : LearnerState ℝ) (left cur right : ℕ) : Prop :=
  penaltyVal cfg s left cur right =
      intendedPenalty s.solver.mem cfg.hornConstraints (s.part left cur) (s.part (cur + 1) right) ∧
    ∀ (s' : LearnerState ℝ) (left' cur' right' : ℕ),
    Mirrored s s' left cur right left' cur' right' →
      penaltyVal cfg s' left' cur' right' = penaltyVal cfg s left cur right

theorem part_append {a b c : ℕ} (hab : a ≤ b) (hbc : b < c) :
    s.part a b ++ s.part (b + 1) c = s.part a c := by
  unfold LearnerState.part indices
  rw [← List.map_append]
  congr 1
  have hlen : c + 1 - a = (b + 1 - a) + (c + 1 - (b + 1)) := by omega
  rw [hlen, ← List.range'_append_1]
  congr 2
  omega

theorem part_nodup (hnd : s.datapointPtrs.Nodup) {a b : ℕ} (hb : b < s.datapointPtrs.length) :
    (s.part a b).Nodup := by
  unfold LearnerState.part
  refine List.Nodup.map_on ?_ List.nodup_range'
  intro i hi j hj heq
  unfold indices at hi hj
  rw [List.mem_range'_1] at hi hj
  unfold LearnerState.ptr at heq
  rw [List.getD_eq_getElem _ _ (by omega), List.getD_eq_getElem _ _ (by omega)] at heq
  exact hnd.getElem_inj_iff.mp heq

/-- The penalty is the intended one unless some constraint is cut towards a part with
    points of both labels and away from a part with a negative point. The pointers in
    `_datapoint_ptrs` are different, one for each data point of the sample. -/
theorem penaltyAsIntended_iff (cfg : Settings) (s : LearnerState ℝ) (hnd : s.datapointPtrs.Nodup)
    (hleft : left ≤ cur) (hcur : cur < right) (hright : right < s.datapointPtrs.length)
    (hlabelled : ∃ x ∈ s.part left right, (s.solver.mem x).isClassified = true) :
    PenaltyAsIntended cfg s left cur right ↔
      ¬ (Crosses s.solver.mem cfg.hornConstraints (s.part left cur) (s.part (cur + 1) right) ∧
        (∃ x ∈ s.part left cur, (s.solver.mem x).isClassified = true ∧
          (s.solver.mem x).classification = false) ∧ Mixed s.solver.mem (s.part (cur + 1) right)) ∧
      ¬ (Crosses s.solver.mem cfg.hornConstraints (s.part (cur + 1) right) (s.part left cur) ∧
        (∃ x ∈ s.part (cur + 1) right, (s.solver.mem x).isClassified = true ∧
          (s.solver.mem x).classification = false) ∧ Mixed s.solver.mem (s.part left cur)) := by
  have happend : s.part left cur ++ s.part (cur + 1) right = s.part left right :=
    part_append hleft hcur
  have hparts : (s.part left cur ++ s.part (cur + 1) right).Nodup := by
    rw [happend]
    exact part_nodup hnd hright
  have hcount : 0 < labelCount s.solver.mem (s.part left cur ++ s.part (cur + 1) right) false +
      labelCount s.solver.mem (s.part left cur ++ s.part (cur + 1) right) true := by
    obtain ⟨x, hx, hclass⟩ := hlabelled
    have hpos := labelCount_pos.mpr ⟨x, happend ▸ hx, hclass, rfl⟩
    cases hb : (s.solver.mem x).classification with
    | false =>
      rw [hb] at hpos
      omega
    | true =>
      rw [hb] at hpos
      omega
  have hmirror : ∀ (s' : LearnerState ℝ) (left' cur' right' : ℕ),
      Mirrored s s' left cur right left' cur' right' →
      penaltyVal cfg s' left' cur' right' = penaltyVal cfg s left cur right := by
    intro s' left' cur' right' h
    have hparts' : (s'.part left' cur' ++ s'.part (cur' + 1) right').Nodup :=
      (h.onLeft.append h.onRight).nodup_iff.mpr ((List.perm_append_comm.nodup_iff).mp hparts)
    rw [penaltyVal_eq cfg hparts, penaltyVal_eq cfg hparts', h.mem,
      codePenalty_perm h.onLeft h.onRight, codePenalty_swap]
  unfold PenaltyAsIntended
  rw [and_iff_left hmirror, penaltyVal_eq cfg hparts, codePenalty_eq_iff hcount, error_eq_zero,
    error_eq_zero]

/-! ## An example -/

/-- Five points with the values 0, …, 4 of one attribute: a negative and an open point,
    and then an open, a negative and a positive one. -/
def fivePoints : Heap
  | .point 0 => { intData := [0], isClassified := true, classification := false }
  | .point 1 => { intData := [1] }
  | .point 2 => { intData := [2] }
  | .point 3 => { intData := [3], isClassified := true, classification := false }
  | .point 4 => { intData := [4], isClassified := true, classification := true }
  | _ => {}

/-- The five points in a slice. -/
def fiveSlice : LearnerState ℝ :=
  { solver := { mem := fivePoints },
    datapointPtrs := [.point 0, .point 1, .point 2, .point 3, .point 4] }

/-- The second point implies the third one. -/
def oneImplication : Settings :=
  { hornConstraints := [⟨[.point 1], some (.point 2), false⟩], numberOfCategories := [1] }

/-- Among the first three points the penalty of the cut between 1 and 2 is as
    intended. -/
theorem penaltyAsIntended_iff_fiveSlice : PenaltyAsIntended oneImplication fiveSlice 0 1 2 := by
  have hleft : fiveSlice.part 0 1 = [.point 0, .point 1] := rfl
  have hright : fiveSlice.part (1 + 1) 2 = [.point 2] := rfl
  refine (penaltyAsIntended_iff oneImplication fiveSlice (by decide) (by decide) (by decide)
    (by decide) ⟨.point 0, by decide, rfl⟩).mpr ⟨?_, ?_⟩
  · rintro ⟨-, -, ⟨x, hx, hclass, -⟩, -⟩
    rw [hright, List.mem_singleton] at hx
    subst hx
    exact absurd hclass (by decide)
  · rintro ⟨⟨hc, hmem, -, c, hcmem, hconc, -⟩, -⟩
    obtain rfl := List.mem_singleton.mp hmem
    rw [← Option.some.inj hconc, hleft] at hcmem
    exact absurd hcmem (by decide)

/-- Among all five points the fraction of positive points on the right is taken to be
    2/3 instead of 1/2. -/
theorem penaltyVal_fiveSlice :
    penaltyVal oneImplication fiveSlice 0 1 4 = 2 / 15 ∧
      intendedPenalty fiveSlice.solver.mem oneImplication.hornConstraints (fiveSlice.part 0 1)
        (fiveSlice.part (1 + 1) 4) = 1 / 5 ∧
      ¬ PenaltyAsIntended oneImplication fiveSlice 0 1 4 := by
  have hcut : penalty oneImplication fiveSlice 0 1 4 = (1, 0) := rfl
  have hnl : numPointsWithClassification fiveSlice 0 1 false = 1 := rfl
  have hpl : numPointsWithClassification fiveSlice 0 1 true = 0 := rfl
  have hnr : numPointsWithClassification fiveSlice (1 + 1) 4 false = 1 := rfl
  have hpr : numPointsWithClassification fiveSlice (1 + 1) 4 true = 1 := rfl
  have hval : penaltyVal oneImplication fiveSlice 0 1 4 = 2 / 15 := by
    unfold penaltyVal
    simp only [hcut, hnl, hpl, hnr, hpr, real_ofInt, real_add, real_sub, real_mul, real_div,
      real_eq]
    norm_num
  have hlr : cutCount fiveSlice.solver.mem oneImplication.hornConstraints (fiveSlice.part 0 1)
      (fiveSlice.part (1 + 1) 4) = 1 := rfl
  have hrl : cutCount fiveSlice.solver.mem oneImplication.hornConstraints (fiveSlice.part (1 + 1) 4)
      (fiveSlice.part 0 1) = 0 := rfl
  have hintended : intendedPenalty fiveSlice.solver.mem oneImplication.hornConstraints
      (fiveSlice.part 0 1) (fiveSlice.part (1 + 1) 4) = 1 / 5 := by
    unfold intendedPenalty labelFraction
    simp only [hlr, hrl, labelCount_append, ← numPointsWithClassification_eq, hnl, hpl, hnr, hpr]
    norm_num
  refine ⟨hval, hintended, fun h => ?_⟩
  have heq := h.1
  rw [hval, hintended] at heq
  norm_num at heq

end HiceDt.Learner
