import HiceDt.Lib.Machine
import HiceDt.Learner.Bounded

/-!
# `is_distinguishable` in machine arithmetic

`datapoint::is_distinguishable` (`hice-dt/src/datapoint.cpp`, lines 64–122) on
attributes of type `int` and a threshold of type `unsigned`. The smallest cut below
two values that are not positive is computed with `int` and then converted to
`unsigned`.

Results:

* `isDistinguishable32_eq`: no conversion or overflow changes the result, so the
  model over the integers is exact.
* `isDistinguishable32_exact`: two points are distinguishable iff they differ in a
  categorical attribute or a cut within the threshold lies between two values; points
  that are not distinguishable form classes.
-/

namespace HiceDt.Learner

open HiceDt Machine

/-! ## The model -/

/-- Lines 86–119 of `datapoint.cpp`. -/
def valuesDistinguishable32 (a b threshold : ℤ) : Bool :=
  if a = b then false
  else
    let val1 := if a < b then a else b
    let val2 := if a < b then b else a
    if val1 ≤ 0 ∧ val2 > 0 then true
    else if val2 ≤ 0 then unsigned32 (wrap32 (-1 * wrap32 (val2 - 1))) ≤ threshold
    else if val1 > 0 then unsigned32 val1 ≤ threshold
    else false

/-- `datapoint::is_distinguishable`. -/
def isDistinguishable32 (d other : Datapoint) (threshold : ℤ) : Except Error Bool := do
  assert (d.categoricalData.length = other.categoricalData.length)
  if (d.categoricalData.zip other.categoricalData).any fun p => p.1 ≠ p.2 then return true
  else
    assert (d.intData.length = other.intData.length)
    return (d.intData.zip other.intData).any fun p => valuesDistinguishable32 p.1 p.2 threshold

/-- A data point with `nc` categorical and `ni` integer attributes; the latter are of
    type `int`. -/
structure Point32 (nc ni : ℕ) where
  point : Datapoint
  length_categoricalData : point.categoricalData.length = nc
  length_intData : point.intData.length = ni
  isInt32 : ∀ v ∈ point.intData, IsInt32 v

/-- A categorical attribute differs, or a cut of absolute value at most `t` has exactly
    one of two values below it. -/
def Separated (nc ni : ℕ) (t : ℤ) (d d' : Datapoint) : Prop :=
  (∃ attr < nc, d.category attr ≠ d'.category attr) ∨
    ∃ attr < ni, ∃ c : ℤ, |c| ≤ t ∧ Xor (d.int attr ≤ c) (d'.int attr ≤ c)

/-! ## Machine arithmetic -/

/-- The larger of two different values is not the smallest `int`, so `val2 - 1` does
    not overflow. -/
theorem valuesDistinguishable32_eq {a b : ℤ} (ha : IsInt32 a) (hb : IsInt32 b) (t : ℤ) :
    valuesDistinguishable32 a b t = valuesDistinguishable a b t := by
  unfold IsInt32 at ha hb
  have hcut : ∀ v : ℤ, -2 ^ 31 < v → v ≤ 0 →
      unsigned32 (wrap32 (-1 * wrap32 (v - 1))) = -1 * (v - 1) := by
    intro v hlow hle
    have hsub : wrap32 (v - 1) = v - 1 := (wrap32_eq_iff _).mpr ⟨by omega, by omega⟩
    rw [hsub]
    by_cases hmin : v - 1 = -2 ^ 31
    · rw [hmin]
      rfl
    · have hneg : wrap32 (-1 * (v - 1)) = -1 * (v - 1) := (wrap32_eq_iff _).mpr ⟨by omega, by omega⟩
      rw [hneg, unsigned32_eq (by omega) (by omega)]
  unfold valuesDistinguishable32 valuesDistinguishable
  by_cases hab : a = b
  · rw [if_pos hab, if_pos hab]
  · have hlow : -2 ^ 31 < (if a < b then b else a) := by split_ifs <;> omega
    have hval : (if a < b then a else b) < 2 ^ 31 := by split_ifs <;> omega
    rw [if_neg hab, if_neg hab]
    generalize (if a < b then a else b) = val1 at hval ⊢
    generalize (if a < b then b else a) = val2 at hlow ⊢
    show (if val1 ≤ 0 ∧ val2 > 0 then true else _) = (if val1 ≤ 0 ∧ val2 > 0 then true else _)
    split_ifs with h1 h2 h3
    · rfl
    · rw [hcut val2 hlow h2]
    · rw [unsigned32_eq (by omega) (by omega)]
    · rfl

variable {nc ni : ℕ}

theorem isDistinguishable32_eq (p q : Point32 nc ni) (t : ℤ) :
    isDistinguishable32 p.point q.point t = isDistinguishable p.point q.point t := by
  have hvalues : (p.point.intData.zip q.point.intData).any
        (fun x => valuesDistinguishable32 x.1 x.2 t) =
      (p.point.intData.zip q.point.intData).any (fun x => valuesDistinguishable x.1 x.2 t) := by
    rw [Bool.eq_iff_iff, List.any_eq_true, List.any_eq_true]
    refine exists_congr fun x => and_congr_right fun hx => ?_
    have hmem := List.of_mem_zip hx
    rw [valuesDistinguishable32_eq (p.isInt32 _ hmem.1) (q.isInt32 _ hmem.2) t]
  unfold isDistinguishable32 isDistinguishable
  rw [hvalues]

/-! ## Cuts -/

/-- A cut lies between two values iff exactly one of them is below it. -/
theorem valuesDistinguishable_iff_xor (a b t : ℤ) (ht : 0 ≤ t) :
    valuesDistinguishable a b t = true ↔ ∃ c : ℤ, |c| ≤ t ∧ Xor (a ≤ c) (b ≤ c) := by
  rw [valuesDistinguishable_iff a b t ht]
  refine exists_congr fun c => ?_
  rw [abs_le, Xor]
  constructor
  · rintro ⟨hcut, hbound⟩
    exact ⟨hbound, by omega⟩
  · rintro ⟨hbound, hcut⟩
    exact ⟨by omega, hbound⟩

theorem isDistinguishable32_returns (p q : Point32 nc ni) {t : ℤ} (ht : 0 ≤ t) :
    ∃ b, isDistinguishable32 p.point q.point t = .ok b ∧
      (b = true ↔ Separated nc ni t p.point q.point) := by
  have hc := p.length_categoricalData.trans q.length_categoricalData.symm
  have hi := p.length_intData.trans q.length_intData.symm
  have hcat : (p.point.categoricalData.zip q.point.categoricalData).any (fun x => x.1 ≠ x.2) =
    true ↔
      ∃ attr < nc, p.point.category attr ≠ q.point.category attr := by
    rw [any_zip_iff _ _ 0 hc fun a b => decide (a ≠ b), p.length_categoricalData]
    simp [Datapoint.category]
  have hint : (p.point.intData.zip q.point.intData).any
        (fun x => valuesDistinguishable x.1 x.2 t) = true ↔
      ∃ attr < ni, ∃ c : ℤ, |c| ≤ t ∧ Xor (p.point.int attr ≤ c) (q.point.int attr ≤ c) := by
    rw [any_zip_iff _ _ 0 hi fun a b => valuesDistinguishable a b t, p.length_intData]
    refine exists_congr fun attr => and_congr_right fun _ => ?_
    exact valuesDistinguishable_iff_xor _ _ t ht
  rw [isDistinguishable32_eq]
  unfold isDistinguishable Separated
  simp only [hc, hi, decide_true, assert_true, bind, Except.bind]
  by_cases hne : (p.point.categoricalData.zip q.point.categoricalData).any (fun x => x.1 ≠ x.2) =
    true
  · rw [if_pos hne]
    exact ⟨true, rfl, iff_of_true rfl (.inl (hcat.mp hne))⟩
  · rw [if_neg hne]
    refine ⟨_, rfl, ?_⟩
    rw [hint, or_iff_right fun h => hne (hcat.mpr h)]

/-! ## Classes -/

theorem isDistinguishable32_eq_true (p q : Point32 nc ni) {t : ℤ} (ht : 0 ≤ t) :
    isDistinguishable32 p.point q.point t = .ok true ↔ Separated nc ni t p.point q.point := by
  obtain ⟨b, hrun, hb⟩ := isDistinguishable32_returns p q ht
  rw [hrun, ← hb]
  exact ⟨Except.ok.inj, congrArg _⟩

theorem isDistinguishable32_eq_false (p q : Point32 nc ni) {t : ℤ} (ht : 0 ≤ t) :
    isDistinguishable32 p.point q.point t = .ok false ↔ ¬ Separated nc ni t p.point q.point := by
  obtain ⟨b, hrun, hb⟩ := isDistinguishable32_returns p q ht
  rw [hrun, ← hb, Bool.not_eq_true]
  exact ⟨Except.ok.inj, congrArg _⟩

variable {t t' : ℤ} {d d' : Datapoint}

theorem Separated.symm (h : Separated nc ni t d d') : Separated nc ni t d' d := by
  refine h.imp ?_ ?_
  · rintro ⟨attr, hlt, hne⟩
    exact ⟨attr, hlt, hne.symm⟩
  · rintro ⟨attr, hlt, c, hc, hxor⟩
    exact ⟨attr, hlt, c, hc, hxor.symm⟩

theorem Separated.mono (h : Separated nc ni t d d') (hle : t ≤ t') : Separated nc ni t' d d' := by
  refine h.imp id ?_
  rintro ⟨attr, hlt, c, hc, hxor⟩
  exact ⟨attr, hlt, c, hc.trans hle, hxor⟩

/-- Points without a separation agree on every categorical attribute and every cut. -/
theorem not_separated_iff : ¬ Separated nc ni t d d' ↔
    (∀ attr < nc, d.category attr = d'.category attr) ∧
      ∀ attr < ni, ∀ c : ℤ, |c| ≤ t → (d.int attr ≤ c ↔ d'.int attr ≤ c) := by
  unfold Separated
  simp only [not_or, not_exists, not_and, not_not, xor_iff_not_iff]

/-- `is_distinguishable` is exact for every threshold `T` of type `unsigned`; it is
    symmetric and monotone in the threshold, and its negation is an equivalence. -/
theorem isDistinguishable32_exact (nc ni : ℕ) :
    (∀ (p q : Point32 nc ni) (T : Fin (2 ^ 32)),
      (∃ b, isDistinguishable32 p.point q.point T = .ok b) ∧
      (isDistinguishable32 p.point q.point T = .ok true ↔
        (∃ attr < nc, p.point.category attr ≠ q.point.category attr) ∨
          ∃ attr < ni, ∃ c : ℤ, |c| ≤ T ∧ Xor (p.point.int attr ≤ c) (q.point.int attr ≤ c)) ∧
      isDistinguishable32 p.point q.point T = isDistinguishable32 q.point p.point T) ∧
    (∀ p q : Point32 nc ni,
      Monotone fun T : Fin (2 ^ 32) => isDistinguishable32 p.point q.point T = .ok true) ∧
    ∀ T : Fin (2 ^ 32), Equivalence fun p q : Point32 nc ni =>
      isDistinguishable32 p.point q.point T = .ok false := by
  have hpos : ∀ T : Fin (2 ^ 32), (0 : ℤ) ≤ (T : ℕ) := fun T => Int.natCast_nonneg _
  refine ⟨fun p q T => ⟨?_, isDistinguishable32_eq_true p q (hpos T), ?_⟩, ?_, fun T =>
    ⟨?_, ?_, ?_⟩⟩
  · obtain ⟨b, hrun, -⟩ := isDistinguishable32_returns p q (hpos T)
    exact ⟨b, hrun⟩
  · obtain ⟨b, hrun, hb⟩ := isDistinguishable32_returns p q (hpos T)
    obtain ⟨b', hrun', hb'⟩ := isDistinguishable32_returns q p (hpos T)
    rw [hrun, hrun']
    congr 1
    rw [Bool.eq_iff_iff, hb, hb']
    exact ⟨Separated.symm, Separated.symm⟩
  · intro p q T T' hle h
    rw [isDistinguishable32_eq_true p q (hpos T)] at h
    show isDistinguishable32 p.point q.point T' = .ok true
    rw [isDistinguishable32_eq_true p q (hpos T')]
    exact h.mono (by exact_mod_cast hle)
  · intro p
    rw [isDistinguishable32_eq_false p p (hpos T), not_separated_iff]
    exact ⟨fun attr _ => rfl, fun attr _ c _ => Iff.rfl⟩
  · intro p q h
    rw [isDistinguishable32_eq_false _ _ (hpos T)] at h ⊢
    exact fun hs => h hs.symm
  · intro p q r h h'
    rw [isDistinguishable32_eq_false _ _ (hpos T), not_separated_iff] at h h' ⊢
    exact ⟨fun attr hlt => (h.1 attr hlt).trans (h'.1 attr hlt),
      fun attr hlt c hc => (h.2 attr hlt c hc).trans (h'.2 attr hlt c hc)⟩

end HiceDt.Learner
