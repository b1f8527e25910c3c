import Mathlib.Data.List.GetD
import HiceDt.Learner.Consistent

/-!
# Constraints for bounded trees

`get_indistinguishable_datapoints` makes points that no cut within the bound can
separate equivalent. A closed sample in which one of them is true and the other
one is not does not exist.

Results:

* `isDistinguishable_eq`: `is_distinguishable` on points with the same numbers of
  attributes.
* `getIndistinguishableDatapoints_spec`: the constraints for a bound.
-/

namespace HiceDt.Learner

open HiceDt Solver Loop

variable {D : List Ptr} {m : Heap} {k : ℕ} {cats : List ℕ}

/-! ## `is_distinguishable` -/

theorem valuesDistinguishable_eq (a b t : ℤ) : valuesDistinguishable a b t =
    if a = b then false
    else if min a b ≤ 0 ∧ max a b > 0 then true
    else if max a b ≤ 0 then decide (-1 * (max a b - 1) ≤ t)
    else if min a b > 0 then decide (min a b ≤ t)
    else false := by
  have hmin : (if a < b then a else b) = min a b := by
    split_ifs <;> omega
  have hmax : (if a < b then b else a) = max a b := by
    split_ifs <;> omega
  unfold valuesDistinguishable
  simp only [hmin, hmax]

theorem valuesDistinguishable_comm (a b t : ℤ) :
    valuesDistinguishable a b t = valuesDistinguishable b a t := by
  rw [valuesDistinguishable_eq, valuesDistinguishable_eq, min_comm, max_comm]
  by_cases hab : a = b
  · rw [if_pos hab, if_pos hab.symm]
  · rw [if_neg hab, if_neg (Ne.symm hab)]

/-- The values can be separated iff there is a cut within the bound. -/
theorem valuesDistinguishable_iff (a b t : ℤ) (ht : 0 ≤ t) :
    valuesDistinguishable a b t = true ↔
      ∃ c, (min a b ≤ c ∧ c < max a b) ∧ -t ≤ c ∧ c ≤ t := by
  rw [valuesDistinguishable_eq]
  by_cases hab : a = b
  · rw [if_pos hab, hab]
    simp only [Bool.false_eq_true, min_self, max_self, false_iff]
    rintro ⟨c, h, -⟩
    omega
  · have hlt : min a b < max a b := by omega
    rw [if_neg hab]
    generalize min a b = u at hlt ⊢
    generalize max a b = v at hlt ⊢
    split_ifs with h1 h2 h3
    · exact iff_of_true rfl ⟨0, by omega⟩
    · rw [decide_eq_true_iff]
      exact ⟨fun h => ⟨v - 1, by omega⟩, fun ⟨c, h⟩ => by omega⟩
    · rw [decide_eq_true_iff]
      exact ⟨fun h => ⟨u, by omega⟩, fun ⟨c, h⟩ => by omega⟩
    · omega

/-- The points differ in their category, or an integer attribute separates them. -/
def Distinguishable (k : ℕ) (t : ℤ) (d d' : Datapoint) : Prop :=
  d.category 0 ≠ d'.category 0 ∨ ∃ attr < k, valuesDistinguishable (d.int attr) (d'.int attr) t =
  true

instance (k : ℕ) (t : ℤ) (d d' : Datapoint) : Decidable (Distinguishable k t d d') :=
  inferInstanceAs (Decidable (_ ∨ ∃ attr, attr < k ∧ _))

theorem Distinguishable.symm {t : ℤ} {d d' : Datapoint} (h : Distinguishable k t d d') :
    Distinguishable k t d' d := by
  refine h.imp Ne.symm fun ⟨attr, hk, hv⟩ => ⟨attr, hk, ?_⟩
  rw [valuesDistinguishable_comm]
  exact hv

theorem any_zip_iff {α : Type} (l l' : List α) (x : α) (hlen : l.length = l'.length)
    (p : α → α → Bool) :
    (l.zip l').any (fun q => p q.1 q.2) = true ↔
      ∃ i < l.length, p (l.getD i x) (l'.getD i x) = true := by
  rw [List.any_eq_true]
  constructor
  · rintro ⟨q, hq, hp⟩
    obtain ⟨i, hi, rfl⟩ := List.getElem_of_mem hq
    rw [List.length_zip] at hi
    refine ⟨i, by omega, ?_⟩
    rw [List.getElem_zip] at hp
    rw [List.getD_eq_getElem _ _ (by omega), List.getD_eq_getElem _ _ (by omega)]
    exact hp
  · rintro ⟨i, hi, hp⟩
    rw [List.getD_eq_getElem _ _ hi, List.getD_eq_getElem _ _ (by omega)] at hp
    refine ⟨(l[i], l'[i]), ?_, hp⟩
    rw [List.mem_iff_getElem]
    refine ⟨i, by rw [List.length_zip]; omega, ?_⟩
    rw [List.getElem_zip]

theorem isDistinguishable_eq {d d' : Datapoint} (t : ℤ)
    (hd : d.categoricalData.length = 1 ∧ d.intData.length = k)
    (hd' : d'.categoricalData.length = 1 ∧ d'.intData.length = k) :
    isDistinguishable d d' t = .ok (decide (Distinguishable k t d d')) := by
  have hc : d.categoricalData.length = d'.categoricalData.length := hd.1.trans hd'.1.symm
  have hi : d.intData.length = d'.intData.length := hd.2.trans hd'.2.symm
  have hcat : (d.categoricalData.zip d'.categoricalData).any (fun p => p.1 ≠ p.2) = true ↔
      d.category 0 ≠ d'.category 0 := by
    rw [any_zip_iff _ _ 0 hc fun a b => decide (a ≠ b), hd.1]
    simp [Datapoint.category]
  have hint : (d.intData.zip d'.intData).any (fun p => valuesDistinguishable p.1 p.2 t) = true ↔
      ∃ attr < k, valuesDistinguishable (d.int attr) (d'.int attr) t = true := by
    rw [any_zip_iff _ _ 0 hi fun a b => valuesDistinguishable a b t, hd.2]
    rfl
  unfold isDistinguishable
  rw [assert, if_pos (decide_eq_true hc)]
  by_cases hne : (d.categoricalData.zip d'.categoricalData).any (fun p => p.1 ≠ p.2) = true
  · have hdist : Distinguishable k t d d' := .inl (hcat.mp hne)
    simp only [bind, Except.bind, if_pos hne, decide_eq_true hdist]
    rfl
  · simp only [bind, Except.bind, if_neg hne, assert, decide_eq_true hi, if_true]
    have hiff : Distinguishable k t d d' ↔
        (d.intData.zip d'.intData).any (fun p => valuesDistinguishable p.1 p.2 t) = true := by
      rw [hint]
      exact or_iff_right fun h => hne (hcat.mpr h)
    show Except.ok _ = _
    congr 1
    rw [Bool.eq_iff_iff, decide_eq_true_iff, hiff]

/-! ## `get_indistinguishable_datapoints` -/

theorem indistinguishableFrom_spec {x : Ptr} (t : ℤ)
    (hx : (m x).categoricalData.length = 1 ∧ (m x).intData.length = k) :
    ∀ rest : List Ptr,
      (∀ y ∈ rest, (m y).categoricalData.length = 1 ∧ (m y).intData.length = k) →
      ∃ hcs, indistinguishableFrom m t x rest = .ok hcs ∧ ∀ hc, hc ∈ hcs ↔
        ∃ y ∈ rest, ¬ Distinguishable k t (m x) (m y) ∧
          (hc = ⟨[x], some y, false⟩ ∨ hc = ⟨[y], some x, false⟩) := by
  intro rest
  induction rest with
  | nil => exact fun _ => ⟨[], rfl, by simp⟩
  | cons y rest ih =>
    intro hall
    obtain ⟨hcs, hrun, hmem⟩ := ih fun z hz => hall z (List.mem_cons_of_mem _ hz)
    rw [indistinguishableFrom, isDistinguishable_eq t hx (hall y List.mem_cons_self), hrun]
    by_cases hd : Distinguishable k t (m x) (m y)
    · refine ⟨hcs, by simp only [bind, Except.bind, decide_eq_true hd, if_true]; rfl, fun hc => ?_⟩
      rw [hmem]
      simp [hd]
    · refine ⟨⟨[x], some y, false⟩ :: ⟨[y], some x, false⟩ :: hcs,
        by simp only [bind, Except.bind, decide_eq_false hd]; rfl, fun hc => ?_⟩
      rw [List.mem_cons, List.mem_cons, hmem]
      simp only [List.exists_mem_cons_iff, hd, not_false_eq_true, true_and, or_assoc]

/-- The constraints for a bound: both directions between any two points that are not
    distinguishable. -/
theorem getIndistinguishableDatapoints_spec (t : ℤ) : ∀ D : List Ptr,
    (∀ y ∈ D, (m y).categoricalData.length = 1 ∧ (m y).intData.length = k) →
    ∃ hcs, getIndistinguishableDatapoints m t D = .ok hcs ∧
      (∀ hc ∈ hcs, ∃ x ∈ D, ∃ y ∈ D, hc = ⟨[x], some y, false⟩) ∧
      ∀ x ∈ D, ∀ y ∈ D, x ≠ y → ¬ Distinguishable k t (m x) (m y) →
        ⟨[x], some y, false⟩ ∈ hcs := by
  intro D
  induction D with
  | nil => exact fun _ => ⟨[], rfl, by simp, by simp⟩
  | cons x D ih =>
    intro hall
    have hall' := fun z hz => hall z (List.mem_cons_of_mem x hz)
    obtain ⟨hcs, hrun, hmem⟩ := indistinguishableFrom_spec t (hall x List.mem_cons_self) D hall'
    obtain ⟨hcs', hrun', hscope, hcompl⟩ := ih hall'
    refine ⟨hcs ++ hcs', ?_, fun hc hhc => ?_, fun a ha b hb hab hd => ?_⟩
    · rw [getIndistinguishableDatapoints, hrun, hrun']
      rfl
    · rcases List.mem_append.mp hhc with h | h
      · obtain ⟨y, hy, -, rfl | rfl⟩ := (hmem hc).mp h
        · exact ⟨x, List.mem_cons_self, y, List.mem_cons_of_mem _ hy, rfl⟩
        · exact ⟨y, List.mem_cons_of_mem _ hy, x, List.mem_cons_self, rfl⟩
      · obtain ⟨y, hy, z, hz, rfl⟩ := hscope hc h
        exact ⟨y, List.mem_cons_of_mem _ hy, z, List.mem_cons_of_mem _ hz, rfl⟩
    · rw [List.mem_append]
      rcases List.mem_cons.mp ha with rfl | ha'
      · rcases List.mem_cons.mp hb with rfl | hb'
        · exact absurd rfl hab
        · exact .inl ((hmem _).mpr ⟨b, hb', hd, .inl rfl⟩)
      · rcases List.mem_cons.mp hb with rfl | hb'
        · exact .inl ((hmem _).mpr ⟨a, ha', fun h => hd h.symm, .inr rfl⟩)
        · exact .inr (hcompl a ha' b hb' hab hd)

/-! ## Settings of an attempt -/

variable {sample : Sample}

/-- The samples that `main` reads: the constraints are over the points, and the
    points have one category and `k` integers. -/
structure Sample.Ok (sample : Sample) (k : ℕ) : Prop where
  valid : ValidInput sample.mem sample.datapoints sample.hornConstraints [] []
  points : SampleOk sample.mem sample.datapoints sample.numberOfCategories k

/-- The constraints for a bound are as the solver expects them. -/
theorem Sample.Ok.validInput (h : sample.Ok k) {hcs : List HornConstraint}
    (hscope : ∀ hc ∈ hcs, ∃ x ∈ sample.datapoints, ∃ y ∈ sample.datapoints,
      hc = ⟨[x], some y, false⟩) :
    ValidInput sample.mem sample.datapoints (sample.hornConstraints ++ hcs) [] [] := by
  have hv := h.valid
  refine ⟨hv.falseDatapoint_notMem, hv.falseDatapoint_label, fun hc hhc p hp => ?_,
    fun hc hhc c hcc => ?_, fun hc hhc => ?_, by simp, by simp, by simp, hv.quiescent⟩
  · rcases List.mem_append.mp hhc with h | h
    · exact hv.premises hc h p hp
    · obtain ⟨x, hx, y, -, rfl⟩ := hscope hc h
      rw [List.mem_singleton.mp hp]
      exact hx
  · rcases List.mem_append.mp hhc with h | h
    · exact hv.conclusion hc h c hcc
    · obtain ⟨x, -, y, hy, rfl⟩ := hscope hc h
      rw [← Option.some.inj hcc]
      exact hy
  · rcases List.mem_append.mp hhc with h | h
    · exact hv.satisfiable hc h
    · obtain ⟨x, -, y, -, rfl⟩ := hscope hc h
      rfl

/-- Computing the constraints of an attempt succeeds. -/
theorem Sample.Ok.boundConstraints (h : sample.Ok k) (threshold : Option ℤ) :
    ∃ hcs, sample.boundConstraints threshold = .ok hcs ∧
      ∀ hc ∈ hcs, ∃ x ∈ sample.datapoints, ∃ y ∈ sample.datapoints, hc = ⟨[x], some y, false⟩ := by
  unfold Sample.boundConstraints
  cases threshold with
  | none => exact ⟨[], rfl, by simp⟩
  | some t =>
    obtain ⟨hcs, hrun, hscope, -⟩ := getIndistinguishableDatapoints_spec t sample.datapoints
      h.points.arity
    exact ⟨hcs, hrun, hscope⟩

end HiceDt.Learner
