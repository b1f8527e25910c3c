import HiceDt.Learner.Invariant

/-!
# Leaves

What a call of the solver and a call of `is_leaf` do to the state of the learner,
and what the answer of `is_leaf` means.

Results:

* `LearnerState.solve_spec`: a call of the solver returns, and what it returns.
* `isLeaf_spec`: `is_leaf` returns. If it answers that the slice is a leaf, the sets
  may be applied and label the whole slice; if not, the slice has a point labelled
  true and one that is not.
-/

namespace HiceDt.Learner

open HiceDt Solver

variable {F : Type} {D P N : List Ptr} {m₁ m m' : Heap} {hcs : List HornConstraint}
  {s s' s'' : LearnerState F} {sl : Slice} {L : List Slice}

/-! ## Changes that calls of the solver make -/

/-- Nothing has changed but the members of the solver, the counters and the sampled
    fractions. -/
structure Quiet (s s' : LearnerState F) : Prop where
  datapointPtrs : s'.datapointPtrs = s.datapointPtrs
  tree : s'.tree = s.tree
  slices : s'.slices = s.slices
  isFirstSplit : s'.isFirstSplit = s.isFirstSplit
  mem : ∀ x, x ≠ .falseDatapoint → s'.solver.mem x = s.solver.mem x
  falseLabel : label s.solver.mem .falseDatapoint ≠ some true →
    label s'.solver.mem .falseDatapoint ≠ some true

theorem Quiet.refl (s : LearnerState F) : Quiet s s :=
  ⟨rfl, rfl, rfl, rfl, fun _ _ => rfl, id⟩

theorem Quiet.trans (h : Quiet s s') (h' : Quiet s' s'') : Quiet s s'' :=
  ⟨h'.datapointPtrs.trans h.datapointPtrs, h'.tree.trans h.tree, h'.slices.trans h.slices,
    h'.isFirstSplit.trans h.isFirstSplit, fun x hx => (h'.mem x hx).trans (h.mem x hx),
    h'.falseLabel ∘ h.falseLabel⟩

theorem Quiet.ptr (h : Quiet s s') (i : ℕ) : s'.ptr i = s.ptr i := by
  unfold LearnerState.ptr
  rw [h.datapointPtrs]

/-- Consistency depends on the labels of the points only. -/
theorem consistent_congr (h : ∀ x ∈ D, label m' x = label m x) (ν : Ptr → Bool) :
    Consistent m' D hcs P N ν ↔ Consistent m D hcs P N ν := by
  unfold Consistent
  refine and_congr_left fun _ => forall₂_congr fun x hx => ?_
  rw [h x hx]

theorem SampleInv.congr (hs : SampleInv D m₁ hcs m)
    (hmem : ∀ x, x ≠ .falseDatapoint → m' x = m x)
    (hfalse : label m' .falseDatapoint ≠ some true) : SampleInv D m₁ hcs m' := by
  have hv := hs.valid
  have hlabel : ∀ x ∈ D, label m' x = label m x := by
    intro x hx
    unfold label
    rw [hmem x (hv.ne_falseDatapoint hx)]
  refine ⟨⟨hv.falseDatapoint_notMem, hfalse, hv.premises, hv.conclusion, hv.satisfiable, by simp,
    by simp, by simp, fun x hx => ?_⟩, fun x hx => ?_, fun x hx b hb => ?_, ?_, fun x hx hn => ?_⟩
  · rw [hmem x hx]
    exact hv.quiescent x hx
  · rw [hmem x hx]
    exact hs.core_eq x hx
  · rw [hlabel x hx]
    exact hs.keeps x hx b hb
  · obtain ⟨ν, hν⟩ := hs.consistent
    exact ⟨ν, (consistent_congr hlabel ν).mpr hν⟩
  · rw [hlabel x hx] at hn
    obtain ⟨ν, hν, hνx⟩ := hs.closed x hx hn
    exact ⟨ν, (consistent_congr hlabel ν).mpr hν, hνx⟩

theorem LabelsOk.congr (h : LabelsOk D hcs m P N) (hlabel : ∀ x ∈ D, label m' x = label m x) :
    LabelsOk D hcs m' P N := by
  refine ⟨fun x hx => ?_, fun x hx => ?_, ?_, fun x hx hn hP hN => ?_⟩
  · rw [hlabel x (h.positive x hx).1]
    exact h.positive x hx
  · rw [hlabel x (h.negative x hx).1]
    exact h.negative x hx
  · obtain ⟨ν, hν⟩ := h.consistent
    exact ⟨ν, (consistent_congr hlabel ν).mpr hν⟩
  · rw [hlabel x hx] at hn
    obtain ⟨ν, hν, hνx⟩ := h.closed x hx hn hP hN
    exact ⟨ν, (consistent_congr hlabel ν).mpr hν, hνx⟩

/-! ## Points of the vector -/

theorem LearnInv.ptr_mem (h : LearnInv D m₁ hcs s L) {i : ℕ} (hi : i < s.datapointPtrs.length) :
    s.ptr i ∈ D := by
  refine h.perm.subset ?_
  rw [s.ptr_eq, List.getElem?_eq_getElem hi]
  exact List.getElem_mem hi

theorem LearnInv.lt_length (h : LearnInv D m₁ hcs s L) (hsl : sl ∈ L) {i : ℕ}
    (hi : sl.Contains i) : i < s.datapointPtrs.length :=
  lt_of_le_of_lt hi.2 (h.tree.range sl hsl).2

theorem LearnInv.quiet (h : LearnInv D m₁ hcs s L) (hq : Quiet s s') :
    LearnInv D m₁ hcs s' L := by
  have hv := h.sample.valid
  have hpoint : ∀ i < s.datapointPtrs.length, s'.point i = s.point i := by
    intro i hi
    unfold LearnerState.point
    rw [hq.ptr, hq.mem _ (hv.ne_falseDatapoint (h.ptr_mem hi))]
  refine ⟨by rw [hq.datapointPtrs]; exact h.perm,
    h.sample.congr hq.mem (hq.falseLabel hv.falseDatapoint_label),
    h.tree.congr hq.datapointPtrs hq.tree (fun i hi => by rw [hpoint i hi]) fun i hi b hb => ?_⟩
  unfold LearnerState.labelAt label at hb ⊢
  rw [hq.ptr, hq.mem _ (hv.ne_falseDatapoint (h.ptr_mem hi))]
  exact hb

theorem Quiet.labelAt (hq : Quiet s s') (h : LearnInv D m₁ hcs s L) {i : ℕ}
    (hi : i < s.datapointPtrs.length) : s'.labelAt i = s.labelAt i := by
  unfold LearnerState.labelAt label
  rw [hq.ptr, hq.mem _ (h.sample.valid.ne_falseDatapoint (h.ptr_mem hi))]

theorem Quiet.label_eq (hq : Quiet s s') (h : LearnInv D m₁ hcs s L) :
    ∀ x ∈ D, label s'.solver.mem x = label s.solver.mem x := by
  intro x hx
  unfold label
  rw [hq.mem x (h.sample.valid.ne_falseDatapoint hx)]

/-! ## Calls of the solver -/

theorem solved_of_perm {D' : List Ptr} {ok : Bool} {st : SolverState}
    (h : Solved m D' hcs P N ok st) (hp : D'.Perm D) : Solved m D hcs P N ok st := by
  have hcons : ∀ ν, Consistent m D' hcs P N ν ↔ Consistent m D hcs P N ν := by
    intro ν
    unfold Consistent
    simp only [hp.mem_iff]
  have hent : ∀ b x, Entailed m D' hcs P N b x ↔ Entailed m D hcs P N b x := by
    intro b x
    unfold Entailed
    simp only [hp.mem_iff, hcons]
  refine ⟨?_, fun hok x => ?_, fun hok x => ?_, h.negative_of_false, h.restored, h.falseLabel⟩
  · rw [h.satisfiable]
    exact exists_congr hcons
  · rw [h.positive hok, hent]
  · rw [h.negative hok, hent]

theorem LearnerState.solve_spec (env : Environment) (cfg : Settings)
    (hp : s.datapointPtrs.Perm D) (hs : SampleInv D m₁ cfg.hornConstraints s.solver.mem)
    (hP : ∀ x ∈ P, x ∈ D ∧ label s.solver.mem x = none)
    (hN : ∀ x ∈ N, x ∈ D ∧ label s.solver.mem x = none) (hPN : ∀ x ∈ P, x ∉ N) :
    ∃ ok st, s.solve env cfg P N = .ok (ok, { s with solver := st }) ∧
      Quiet s { s with solver := st } ∧ Solved s.solver.mem D cfg.hornConstraints P N ok st := by
  have hv := hs.valid
  have hvalid : ValidInput s.solver.mem s.datapointPtrs cfg.hornConstraints P N := by
    refine ⟨?_, hv.falseDatapoint_label, ?_, ?_, hv.satisfiable, ?_, ?_, hPN, hv.quiescent⟩
    · rw [hp.mem_iff]
      exact hv.falseDatapoint_notMem
    · intro hc hhc p hpp
      exact hp.mem_iff.mpr (hv.premises hc hhc p hpp)
    · intro hc hhc c hcc
      exact hp.mem_iff.mpr (hv.conclusion hc hhc c hcc)
    · exact fun x hx => ⟨hp.mem_iff.mpr (hP x hx).1, (hP x hx).2⟩
    · exact fun x hx => ⟨hp.mem_iff.mpr (hN x hx).1, (hN x hx).2⟩
  obtain ⟨ok, st, hrun, hsol⟩ := Solver.solve_spec env.ord hvalid (le_refl _)
  refine ⟨ok, st, ?_, ⟨rfl, rfl, rfl, rfl, hsol.restored, fun _ => ?_⟩, solved_of_perm hsol hp⟩
  · unfold LearnerState.solve
    rw [hrun]
  · have hl : label st.mem .falseDatapoint = some false := hsol.falseLabel
    show label st.mem .falseDatapoint ≠ some true
    rw [hl]
    simp

/-! ## The scan of `is_leaf` -/

theorem mem_indices {l r i : ℕ} : i ∈ indices l r ↔ l ≤ i ∧ i ≤ r := by
  unfold indices
  rw [List.mem_range'_1]
  omega

theorem indices_pairwise (l r : ℕ) : (indices l r).Pairwise (· < ·) :=
  List.pairwise_lt_range'

theorem labelAt_eq (s : LearnerState F) (i : ℕ) : s.labelAt i =
    if (s.point i).isClassified then some (s.point i).classification else none := rfl

/-- What the loop knows after the indexes in `done`. -/
structure Seen (s : LearnerState F) (done : List ℕ) (f : Found) : Prop where
  foundTrue : f.foundTrue = true ↔ ∃ i ∈ done, s.labelAt i = some true
  foundFalse : f.foundFalse = true ↔ ∃ i ∈ done, s.labelAt i = some false
  foundUnlabeled : f.foundUnlabeled = true ↔ ∃ i ∈ done, s.labelAt i = none
  between : ∀ i ∈ done, s.labelAt i = none →
    f.indexOfFirstUnlabeled ≤ i ∧ i ≤ f.indexOfLastUnlabeled
  bounds : f.foundUnlabeled = true →
    f.indexOfFirstUnlabeled ∈ done ∧ f.indexOfLastUnlabeled ∈ done

theorem Seen.see {done : List ℕ} {f : Found} (h : Seen s done f) {i : ℕ}
    (hi : ∀ j ∈ done, j < i) : Seen s (done ++ [i]) (f.see (s.point i) i) := by
  have hl := labelAt_eq s i
  unfold Found.see
  by_cases hc : (s.point i).isClassified = true
  · rw [if_pos hc] at hl ⊢
    have hbetween : ∀ j ∈ done ++ [i], s.labelAt j = none →
        f.indexOfFirstUnlabeled ≤ j ∧ j ≤ f.indexOfLastUnlabeled := by
      intro j hj hn
      rcases List.mem_append.mp hj with hj | hj
      · exact h.between j hj hn
      · rw [List.mem_singleton.mp hj, hl] at hn
        simp at hn
    have hbounds : f.foundUnlabeled = true →
        f.indexOfFirstUnlabeled ∈ done ++ [i] ∧ f.indexOfLastUnlabeled ∈ done ++ [i] := fun hu =>
      ⟨List.mem_append_left _ (h.bounds hu).1, List.mem_append_left _ (h.bounds hu).2⟩
    by_cases hb : (s.point i).classification = true
    · rw [hb] at hl
      rw [if_pos hb]
      exact ⟨by simp [hl], by simp [hl, h.foundFalse], by simp [hl, h.foundUnlabeled], hbetween,
        hbounds⟩
    · rw [Bool.not_eq_true] at hb
      rw [hb] at hl
      rw [if_neg (by rw [hb]; simp)]
      exact ⟨by simp [hl, h.foundTrue], by simp [hl], by simp [hl, h.foundUnlabeled], hbetween,
        hbounds⟩
  · rw [if_neg hc] at hl ⊢
    by_cases hu : f.foundUnlabeled = true
    · rw [if_pos hu]
      have hb := h.bounds hu
      refine ⟨by simp [hl, h.foundTrue], by simp [hl, h.foundFalse], by simp [hl, hu], ?_,
        fun _ => ⟨List.mem_append_left _ hb.1, by simp⟩⟩
      intro j hj hn
      rcases List.mem_append.mp hj with hj | hj
      · exact ⟨(h.between j hj hn).1, le_of_lt (hi j hj)⟩
      · rw [List.mem_singleton.mp hj]
        exact ⟨le_of_lt (hi _ hb.1), le_refl _⟩
    · rw [if_neg hu]
      refine ⟨by simp [hl, h.foundTrue], by simp [hl, h.foundFalse], by simp [hl], ?_,
        fun _ => by simp⟩
      intro j hj hn
      rcases List.mem_append.mp hj with hj | hj
      · exact absurd (h.foundUnlabeled.mpr ⟨j, hj, hn⟩) hu
      · rw [List.mem_singleton.mp hj]
        exact ⟨le_refl _, le_refl _⟩

/-- The loop sees all indexes unless it finds both labels. -/
theorem scanLabels_spec (s : LearnerState F) : ∀ (rest done : List ℕ) (f : Found),
    (done ++ rest).Pairwise (· < ·) → Seen s done f →
    ∃ done', done' ⊆ done ++ rest ∧ Seen s done' (scanLabels s rest f) ∧
      (((scanLabels s rest f).foundTrue && (scanLabels s rest f).foundFalse) = false →
        done' = done ++ rest) := by
  intro rest
  induction rest with
  | nil =>
    intro done f _ h
    exact ⟨done, by simp, h, by simp⟩
  | cons i rest ih =>
    intro done f hp h
    have hlt : ∀ j ∈ done, j < i := fun j hj =>
      (List.pairwise_append.mp hp).2.2 j hj i List.mem_cons_self
    have hsee := h.see hlt
    have happ : done ++ i :: rest = (done ++ [i]) ++ rest := by simp
    unfold scanLabels
    simp only
    by_cases hb : ((f.see (s.point i) i).foundTrue && (f.see (s.point i) i).foundFalse) = true
    · rw [if_pos hb]
      refine ⟨done ++ [i], by simp, hsee, fun hc => ?_⟩
      rw [hb] at hc
      simp at hc
    · rw [if_neg hb, happ]
      exact ih _ _ (by rwa [← happ]) hsee

/-! ## The sets of `is_leaf` -/

theorem mem_foldl_insert (g : ℕ → Ptr) (skip : ℕ → Bool) (l : List ℕ) (set : List Ptr) (x : Ptr) :
    x ∈ l.foldl (fun set i => if skip i then set else set.insert (g i)) set ↔
      x ∈ set ∨ ∃ i ∈ l, skip i = false ∧ x = g i := by
  induction l generalizing set with
  | nil => simp
  | cons i l ih =>
    rw [List.foldl_cons, ih]
    by_cases hi : skip i = true
    · simp [hi]
    · rw [if_neg hi, List.mem_insert_iff]
      rw [Bool.not_eq_true] at hi
      simp only [List.exists_mem_cons_iff, hi, true_and]
      tauto

theorem mem_unlabeledPtrs {l r : ℕ} {x : Ptr} :
    x ∈ unlabeledPtrs s l r ↔ ∃ i, (l ≤ i ∧ i ≤ r) ∧ s.labelAt i = none ∧ x = s.ptr i := by
  unfold unlabeledPtrs
  rw [mem_foldl_insert s.ptr fun i => (s.point i).isClassified]
  simp [mem_indices, labelAt_eq]

theorem mem_foldl_insert_all {l r : ℕ} {set : List Ptr} {x : Ptr} :
    x ∈ (indices l r).foldl (fun set i => set.insert (s.ptr i)) set ↔
      x ∈ set ∨ ∃ i, (l ≤ i ∧ i ≤ r) ∧ x = s.ptr i := by
  have h := mem_foldl_insert s.ptr (fun _ => false) (indices l r) set x
  simpa [mem_indices] using h

/-! ## The answer of `is_leaf` -/

/-- If the slice is a leaf, applying the labels labels all its points; if not, it has
    a point labelled true and a point that is not. -/
def LeafMeaning (D : List Ptr) (hcs : List HornConstraint) (s : LearnerState F) (sl : Slice) :
    LeafAnswer → Prop
  | some (b, P, N) => LabelsOk D hcs s.solver.mem P N ∧
      ∀ i, sl.Contains i → label (labelled s.solver.mem P N) (s.ptr i) = some b
  | none => (∃ i, sl.Contains i ∧ s.labelAt i = some true) ∧
      ∃ i, sl.Contains i ∧ s.labelAt i ≠ some true

/-- The points passed to a successful call are labelled by what it returns. -/
theorem leafMeaning_of_solved {b : Bool} {st : SolverState}
    (h : Solved s.solver.mem D hcs P N true st)
    (hP : ∀ x ∈ P, x ∈ D ∧ label s.solver.mem x = none)
    (hN : ∀ x ∈ N, x ∈ D ∧ label s.solver.mem x = none)
    (hall : ∀ i, sl.Contains i → s.labelAt i = some b ∨ s.ptr i ∈ if b then P else N) :
    LeafMeaning D hcs s sl (some (b, st.positive, st.negative)) := by
  have hok := labelsOk_of_solved h
  refine ⟨hok, fun i hi => ?_⟩
  rcases hall i hi with hl | hmem
  · exact hok.label_of_label hl
  · rw [label_labelled]
    cases b with
    | false =>
      have hx : s.ptr i ∈ st.negative := (h.negative rfl _).mpr
        ⟨(hN _ hmem).1, (hN _ hmem).2, fun ν hν => hν.2.2.1 _ hmem⟩
      rw [if_pos hx]
    | true =>
      have hx : s.ptr i ∈ st.positive := (h.positive rfl _).mpr
        ⟨(hP _ hmem).1, (hP _ hmem).2, fun ν hν => hν.2.1 _ hmem⟩
      rw [if_neg (hok.disjoint _ hx), if_pos hx]

/-- Making unlabelled points false never fails. -/
theorem SampleInv.solved_negative {ok : Bool} {st : SolverState} (hs : SampleInv D m₁ hcs m)
    (hN : ∀ x ∈ N, x ∈ D ∧ label m x = none) (h : Solved m D hcs [] N ok st) : ok = true := by
  obtain ⟨ν, hν, hall⟩ := hs.exists_all_false
  refine h.satisfiable.mpr ⟨ν, hν.1, by simp, fun x hx => ?_, hν.2.2.2⟩
  exact hall x (hN x hx).1 (hN x hx).2

theorem LearnInv.unlabelled (h : LearnInv D m₁ hcs s L) (hsl : sl ∈ L) {i : ℕ}
    (hi : sl.Contains i) (hn : s.labelAt i = none) :
    s.ptr i ∈ D ∧ label s.solver.mem (s.ptr i) = none :=
  ⟨h.ptr_mem (h.lt_length hsl hi), hn⟩

/-- The unlabelled points of the slice are those between the first and the last one
    found. -/
theorem Seen.mem_unlabeledPtrs {f : Found} (hf : Seen s (indices sl.leftIndex sl.rightIndex) f)
    (hu : f.foundUnlabeled = true) {x : Ptr} :
    x ∈ unlabeledPtrs s f.indexOfFirstUnlabeled f.indexOfLastUnlabeled ↔
      ∃ i, sl.Contains i ∧ s.labelAt i = none ∧ x = s.ptr i := by
  rw [Learner.mem_unlabeledPtrs]
  obtain ⟨hb1, hb2⟩ := hf.bounds hu
  rw [mem_indices] at hb1 hb2
  refine exists_congr fun i => and_congr_left fun ⟨hn, _⟩ => ⟨fun hi => ?_, fun hi => ?_⟩
  · exact ⟨le_trans hb1.1 hi.1, le_trans hi.2 hb2.2⟩
  · exact hf.between i (mem_indices.mpr hi) hn

/-- The scan finds both labels, or it sees the whole slice. -/
theorem scanLabels_slice (s : LearnerState F) (sl : Slice) {f : Found}
    (hf : scanLabels s (indices sl.leftIndex sl.rightIndex) {} = f) :
    ((f.foundTrue && f.foundFalse) = true ∧ (∃ i, sl.Contains i ∧ s.labelAt i = some true) ∧
        ∃ i, sl.Contains i ∧ s.labelAt i = some false) ∨
      ((f.foundTrue && f.foundFalse) = false ∧ Seen s (indices sl.leftIndex sl.rightIndex) f) := by
  have hinit : Seen s [] {} := ⟨by simp, by simp, by simp, by simp, by simp⟩
  obtain ⟨done, hsub, hseen, hdone⟩ := scanLabels_spec s (indices sl.leftIndex sl.rightIndex) [] {}
    (indices_pairwise _ _) hinit
  rw [hf] at hseen hdone
  cases hb : f.foundTrue && f.foundFalse with
  | false =>
    rw [hdone hb] at hseen
    exact .inr ⟨rfl, hseen⟩
  | true =>
    rw [Bool.and_eq_true] at hb
    obtain ⟨i, hi, hli⟩ := hseen.foundTrue.mp hb.1
    obtain ⟨j, hj, hlj⟩ := hseen.foundFalse.mp hb.2
    exact .inl ⟨rfl, ⟨i, mem_indices.mp (hsub hi), hli⟩, ⟨j, mem_indices.mp (hsub hj), hlj⟩⟩

theorem Seen.found {f : Found} (hf : Seen s (indices sl.leftIndex sl.rightIndex) f) {i : ℕ}
    (hi : sl.Contains i) :
    (s.labelAt i = some true → f.foundTrue = true) ∧
      (s.labelAt i = some false → f.foundFalse = true) ∧
      (s.labelAt i = none → f.foundUnlabeled = true) :=
  ⟨fun hl => hf.foundTrue.mpr ⟨i, mem_indices.mpr hi, hl⟩,
    fun hl => hf.foundFalse.mpr ⟨i, mem_indices.mpr hi, hl⟩,
    fun hl => hf.foundUnlabeled.mpr ⟨i, mem_indices.mpr hi, hl⟩⟩

section Branches

/-! ### The branches of `is_leaf` -/

variable (env : Environment) (cfg : Settings) {f : Found}
  (h : LearnInv D m₁ cfg.hornConstraints s L) (hsl : sl ∈ L)
  (hf : Seen s (indices sl.leftIndex sl.rightIndex) f)
  (hb : (f.foundTrue && f.foundFalse) = false)
include h hf hb

/-- All points of the slice are labelled. -/
theorem leafMeaning_labelled (hu : f.foundUnlabeled = false) :
    LeafMeaning D cfg.hornConstraints s sl (some (f.foundTrue, [], [])) := by
  have hnil : LabelsOk D cfg.hornConstraints s.solver.mem [] [] :=
    ⟨by simp, by simp, h.sample.consistent, fun x hx hn _ _ => h.sample.closed x hx hn⟩
  refine ⟨hnil, fun i hi => hnil.label_of_label ?_⟩
  obtain ⟨h1, h2, h3⟩ := hf.found hi
  show s.labelAt i = some f.foundTrue
  cases hl : s.labelAt i with
  | none => simp [h3 hl] at hu
  | some b =>
    cases b with
    | true => rw [h1 hl]
    | false => simpa [h2 hl] using hb

include hsl

/-- Some point is labelled true: the unlabelled ones have to be true. -/
theorem solve_foundTrue (hu : f.foundUnlabeled = true) (hT : f.foundTrue = true) :
    ∃ ok st, s.solve env cfg (unlabeledPtrs s f.indexOfFirstUnlabeled f.indexOfLastUnlabeled) [] =
        .ok (ok, { s with solver := st }) ∧ Quiet s { s with solver := st } ∧
      LeafMeaning D cfg.hornConstraints s sl
        (if ok then some (true, st.positive, st.negative) else none) := by
  have hset : ∀ x ∈ unlabeledPtrs s f.indexOfFirstUnlabeled f.indexOfLastUnlabeled,
      x ∈ D ∧ label s.solver.mem x = none := by
    intro x hx
    obtain ⟨i, hi, hn, rfl⟩ := (hf.mem_unlabeledPtrs hu).mp hx
    exact h.unlabelled hsl hi hn
  obtain ⟨ok, st, hrun, hq, hsol⟩ := LearnerState.solve_spec env cfg h.perm h.sample hset
    (N := []) (by simp) (by simp)
  refine ⟨ok, st, hrun, hq, ?_⟩
  cases ok with
  | true =>
    refine leafMeaning_of_solved hsol hset (by simp) fun i hi => ?_
    cases hl : s.labelAt i with
    | none => exact .inr ((hf.mem_unlabeledPtrs hu).mpr ⟨i, hi, hl, rfl⟩)
    | some b =>
      cases b with
      | true => exact .inl rfl
      | false => simp [hT, (hf.found hi).2.1 hl] at hb
  | false =>
    obtain ⟨i, hi, hl⟩ := hf.foundTrue.mp hT
    obtain ⟨j, hj, hlj⟩ := hf.foundUnlabeled.mp hu
    exact ⟨⟨i, mem_indices.mp hi, hl⟩, j, mem_indices.mp hj, by rw [hlj]; simp⟩

omit hb

/-- Some point is labelled false and none true: the unlabelled ones may be false. -/
theorem solve_foundFalse (hu : f.foundUnlabeled = true) (hT : f.foundTrue = false) :
    ∃ st, s.solve env cfg [] (unlabeledPtrs s f.indexOfFirstUnlabeled f.indexOfLastUnlabeled) =
        .ok (true, { s with solver := st }) ∧ Quiet s { s with solver := st } ∧
      LeafMeaning D cfg.hornConstraints s sl (some (false, st.positive, st.negative)) := by
  have hset : ∀ x ∈ unlabeledPtrs s f.indexOfFirstUnlabeled f.indexOfLastUnlabeled,
      x ∈ D ∧ label s.solver.mem x = none := by
    intro x hx
    obtain ⟨i, hi, hn, rfl⟩ := (hf.mem_unlabeledPtrs hu).mp hx
    exact h.unlabelled hsl hi hn
  obtain ⟨ok, st, hrun, hq, hsol⟩ := LearnerState.solve_spec env cfg h.perm h.sample
    (P := []) (by simp) hset (by simp)
  have hok := h.sample.solved_negative hset hsol
  rw [hok] at hrun hsol
  refine ⟨st, hrun, hq, leafMeaning_of_solved hsol (by simp) hset fun i hi => ?_⟩
  cases hl : s.labelAt i with
  | none => exact .inr ((hf.mem_unlabeledPtrs hu).mpr ⟨i, hi, hl, rfl⟩)
  | some b =>
    cases b with
    | true => simp [(hf.found hi).1 hl] at hT
    | false => exact .inl rfl

omit hf

/-- No point is labelled: all are made true or, if that fails, false. -/
theorem solve_open (hnone : ∀ i, sl.Contains i → s.labelAt i = none) :
    ∃ ok st, s.solve env cfg (allPtrs s sl.leftIndex sl.rightIndex) [] =
        .ok (ok, { s with solver := st }) ∧ Quiet s { s with solver := st } ∧
      (ok = true →
        LeafMeaning D cfg.hornConstraints s sl (some (true, st.positive, st.negative))) ∧
      (ok = false → ∃ st', ({ s with solver := st } : LearnerState F).solve env cfg []
          ((indices sl.leftIndex sl.rightIndex).foldl
            (fun set i => set.insert (({ s with solver := st } : LearnerState F).ptr i))
            st.negative) = .ok (true, { s with solver := st' }) ∧
        Quiet s { s with solver := st' } ∧
        LeafMeaning D cfg.hornConstraints s sl (some (false, st'.positive, st'.negative))) := by
  have hall : ∀ x ∈ allPtrs s sl.leftIndex sl.rightIndex,
      x ∈ D ∧ label s.solver.mem x = none := by
    intro x hx
    obtain ⟨i, hi, rfl⟩ := (mem_foldl_insert_all.mp hx).resolve_left (by simp)
    exact h.unlabelled hsl hi (hnone i hi)
  have hin : ∀ i, sl.Contains i → s.ptr i ∈ allPtrs s sl.leftIndex sl.rightIndex := fun i hi =>
    mem_foldl_insert_all.mpr (.inr ⟨i, hi, rfl⟩)
  obtain ⟨ok, st, hrun, hq, hsol⟩ := LearnerState.solve_spec env cfg h.perm h.sample hall
    (N := []) (by simp) (by simp)
  refine ⟨ok, st, hrun, hq, fun hok => ?_, fun hok => ?_⟩
  · rw [hok] at hsol
    exact leafMeaning_of_solved hsol hall (by simp) fun i hi => .inr (hin i hi)
  -- the failed call has left `negative` empty
  rw [hsol.negative_of_false hok]
  have h₁ := h.quiet hq
  have hlabel := hq.label_eq h
  have hall₁ : ∀ x ∈ allPtrs s sl.leftIndex sl.rightIndex, x ∈ D ∧ label st.mem x = none :=
    fun x hx => ⟨(hall x hx).1, (hlabel x (hall x hx).1).trans (hall x hx).2⟩
  obtain ⟨ok', st', hrun', hq', hsol'⟩ := LearnerState.solve_spec env cfg h₁.perm h₁.sample
    (P := []) (by simp) hall₁ (by simp)
  have hok' := h₁.sample.solved_negative hall₁ hsol'
  rw [hok'] at hrun' hsol'
  have hleaf := leafMeaning_of_solved (b := false) hsol' (by simp) hall₁
    fun i hi => .inr (hin i hi)
  refine ⟨st', hrun', hq.trans hq', hleaf.1.congr fun x hx => (hlabel x hx).symm, fun i hi => ?_⟩
  have := hleaf.2 i hi
  rw [label_labelled] at this ⊢
  have hx : s.ptr i ∈ D := h.ptr_mem (h.lt_length hsl hi)
  rw [← hlabel _ hx]
  exact this

end Branches

/-- `is_leaf` returns, changes nothing that matters, and its answer is right. -/
theorem isLeaf_spec (env : Environment) (cfg : Settings)
    (h : LearnInv D m₁ cfg.hornConstraints s L) (hsl : sl ∈ L) :
    ∃ answer s', isLeaf env cfg sl s = .ok (answer, s') ∧ Quiet s s' ∧
      LeafMeaning D cfg.hornConstraints s sl answer := by
  have hrange := h.tree.range sl hsl
  unfold isLeaf
  simp only [assert, decide_eq_true hrange, if_true, bind, Except.bind, pure, Except.pure]
  generalize hf : scanLabels s (indices sl.leftIndex sl.rightIndex) {} = f
  rcases scanLabels_slice s sl hf with ⟨hb, htrue, j, hj, hlj⟩ | ⟨hb, hseen⟩
  · rw [if_pos hb]
    exact ⟨none, s, rfl, .refl s, htrue, j, hj, by rw [hlj]; simp⟩
  rw [if_neg (by rw [hb]; simp)]
  cases hu : f.foundUnlabeled with
  | false => exact ⟨_, s, rfl, .refl s, leafMeaning_labelled cfg h hseen hb hu⟩
  | true =>
    rw [if_neg (by simp)]
    cases hT : f.foundTrue with
    | true =>
      obtain ⟨ok, st, hrun, hq, hleaf⟩ := solve_foundTrue env cfg h hsl hseen hb hu hT
      rw [if_pos rfl, hrun]
      cases ok with
      | true => exact ⟨_, _, rfl, hq, hleaf⟩
      | false => exact ⟨_, _, rfl, hq, hleaf⟩
    | false =>
      rw [if_neg (by simp)]
      cases hF : f.foundFalse with
      | true =>
        obtain ⟨st, hrun, hq, hleaf⟩ := solve_foundFalse env cfg h hsl hseen hu hT
        rw [if_pos rfl, hrun]
        exact ⟨_, _, rfl, hq, hleaf⟩
      | false =>
        rw [if_neg (by simp)]
        have hnone : ∀ i, sl.Contains i → s.labelAt i = none := by
          intro i hi
          obtain ⟨h1, h2, -⟩ := hseen.found hi
          cases hl : s.labelAt i with
          | none => rfl
          | some b => cases b <;> simp_all
        obtain ⟨ok, st, hrun, hq, hpos, hneg⟩ := solve_open env cfg h hsl hnone
        rw [hrun]
        cases ok with
        | true => exact ⟨_, _, rfl, hq, hpos rfl⟩
        | false =>
          obtain ⟨st', hrun', hq', hleaf⟩ := hneg rfl
          refine ⟨some (false, st'.positive, st'.negative), { s with solver := st' }, ?_, hq',
            hleaf⟩
          simp only [Bool.false_eq_true, if_false]
          rw [hrun']
          rfl

end HiceDt.Learner
