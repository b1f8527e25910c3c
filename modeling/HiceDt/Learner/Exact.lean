import HiceDt.Learner.Consistent

/-!
# `is_leaf` is exact

In every state that a run of `learn` reaches, the labels are consistent and closed
under entailment. In such a state `is_leaf` answers that a slice is a leaf iff some
consistent labelling that extends the labels gives all points of the slice the same
label, and the sets that it returns are exactly what the leaf entails.

Results:

* `isLeaf_exact_of_closed`: the answer of `is_leaf` in a closed sample.
* `learnStep_closed`, `Reaches.closed`: the labels stay closed.
* `isLeaf_exact`: the answer of `is_leaf` in all states that are reached.
-/

namespace HiceDt.Learner

open HiceDt Solver Loop

variable {F : Type} {D P N : List Ptr} {m₁ m m' : Heap} {hcs : List HornConstraint}
  {s s' : LearnerState F} {sl : Slice} {L : List Slice}

/-! ## Closed samples -/

/-- The labels are consistent and closed under entailment: a point without a label
    may be false, and it may be true. -/
structure Closed (D : List Ptr) (hcs : List HornConstraint) (m : Heap) : Prop where
  consistent : ∃ ν, Consistent m D hcs [] [] ν
  free : ∀ x ∈ D, label m x = none → ∀ b, ∃ ν, Consistent m D hcs [] [] ν ∧ ν x = b

theorem Closed.congr (h : Closed D hcs m) (hlabel : ∀ x ∈ D, label m' x = label m x) :
    Closed D hcs m' := by
  refine ⟨?_, fun x hx hn b => ?_⟩
  · obtain ⟨ν, hν⟩ := h.consistent
    exact ⟨ν, (consistent_congr hlabel ν).mpr hν⟩
  · rw [hlabel x hx] at hn
    obtain ⟨ν, hν, hνx⟩ := h.free x hx hn b
    exact ⟨ν, (consistent_congr hlabel ν).mpr hν, hνx⟩

/-- Applying all entailed labels closes the sample. -/
theorem closed_labelled (hok : LabelsOk D hcs m P N)
    (hfree : ∀ x ∈ D, label m x = none → x ∉ P → x ∉ N → ∀ b,
      ∃ ν, Consistent m D hcs P N ν ∧ ν x = b) : Closed D hcs (labelled m P N) := by
  refine ⟨?_, fun x hx hn b => ?_⟩
  · obtain ⟨ν, hν⟩ := hok.consistent
    exact ⟨ν, (consistent_labelled hok ν).mpr hν⟩
  · rw [label_labelled] at hn
    split_ifs at hn with hN hP
    obtain ⟨ν, hν, hνx⟩ := hfree x hx hn hP hN b
    exact ⟨ν, (consistent_labelled hok ν).mpr hν, hνx⟩

/-- What the solver does not return may be true and may be false. -/
theorem Solved.free {st : SolverState} (h : Solved m D hcs P N true st) {x : Ptr} (hx : x ∈ D)
    (hn : label m x = none) (hP : x ∉ st.positive) (hN : x ∉ st.negative) (b : Bool) :
    ∃ ν, Consistent m D hcs st.positive st.negative ν ∧ ν x = b := by
  have hcons : ∀ ν, Consistent m D hcs P N ν → Consistent m D hcs st.positive st.negative ν := by
    intro ν hν
    refine ⟨hν.1, fun y hy => ?_, fun y hy => ?_, hν.2.2.2⟩
    · exact ((h.positive rfl y).mp hy).2.2 ν hν
    · exact ((h.negative rfl y).mp hy).2.2 ν hν
  by_contra hno
  have hother : ∀ ν, Consistent m D hcs P N ν → ν x = !b := by
    intro ν hν
    by_contra hνx
    exact hno ⟨ν, hcons ν hν, by simpa using hνx⟩
  cases b with
  | true => exact hN ((h.negative rfl x).mpr ⟨hx, hn, hother⟩)
  | false => exact hP ((h.positive rfl x).mpr ⟨hx, hn, hother⟩)

/-! ## Labellings of a slice -/

/-- A consistent labelling that extends the labels and gives all points of the slice
    the label `b`. -/
def SliceLabelling (D : List Ptr) (hcs : List HornConstraint) (s : LearnerState F) (sl : Slice)
    (b : Bool) (ν : Ptr → Bool) : Prop :=
  Consistent s.solver.mem D hcs [] [] ν ∧ ∀ i, sl.Contains i → ν (s.ptr i) = b

/-- The slice can be labelled `b`, and `P` and `N` are the unlabelled points that are
    true or false in all labellings that do so. -/
structure LeafSets (D : List Ptr) (hcs : List HornConstraint) (s : LearnerState F) (sl : Slice)
    (b : Bool) (P N : List Ptr) : Prop where
  satisfiable : ∃ ν, SliceLabelling D hcs s sl b ν
  positive : ∀ x, x ∈ P ↔ x ∈ D ∧ label s.solver.mem x = none ∧
    ∀ ν, SliceLabelling D hcs s sl b ν → ν x = true
  negative : ∀ x, x ∈ N ↔ x ∈ D ∧ label s.solver.mem x = none ∧
    ∀ ν, SliceLabelling D hcs s sl b ν → ν x = false

/-- The answer is exact, and label true is preferred if all points are unlabelled. -/
def LeafExact (D : List Ptr) (hcs : List HornConstraint) (s : LearnerState F) (sl : Slice) :
    LeafAnswer → Prop
  | some (b, P, N) => LeafSets D hcs s sl b P N ∧
      (b = false → (∀ i, sl.Contains i → s.labelAt i = none) →
        ¬ ∃ ν, SliceLabelling D hcs s sl true ν)
  | none => ∀ b, ¬ ∃ ν, SliceLabelling D hcs s sl b ν

/-- The labels of the slice do not contradict `b`; `Q` are its unlabelled points. -/
structure Labellable (D : List Ptr) (s : LearnerState F) (sl : Slice) (b : Bool) (Q : List Ptr) :
    Prop where
  mem : ∀ i, sl.Contains i → s.ptr i ∈ D
  labelled : ∀ i, sl.Contains i → s.labelAt i = none ∨ s.labelAt i = some b
  open_ : ∀ x, x ∈ Q ↔ ∃ i, sl.Contains i ∧ s.labelAt i = none ∧ x = s.ptr i

theorem Labellable.unlabelled {b : Bool} {Q : List Ptr} (h : Labellable D s sl b Q) :
    ∀ x ∈ Q, x ∈ D ∧ label s.solver.mem x = none := by
  intro x hx
  obtain ⟨i, hi, hn, rfl⟩ := (h.open_ x).mp hx
  exact ⟨h.mem i hi, hn⟩

/-- The call of the solver asks for a labelling of the slice. -/
theorem Labellable.iff {b : Bool} {Q : List Ptr} (h : Labellable D s sl b Q) (ν : Ptr → Bool) :
    Consistent s.solver.mem D hcs (if b then Q else []) (if b then [] else Q) ν ↔
      SliceLabelling D hcs s sl b ν := by
  have hQ : ((∀ x ∈ if b then Q else [], ν x = true) ∧ ∀ x ∈ if b then [] else Q, ν x = false) ↔
      ∀ x ∈ Q, ν x = b := by
    cases b with
    | true => simp
    | false => simp
  constructor
  · intro ⟨hl, hP, hN, hh⟩
    refine ⟨⟨hl, by simp, by simp, hh⟩, fun i hi => ?_⟩
    rcases h.labelled i hi with hn | hb
    · exact hQ.mp ⟨hP, hN⟩ _ ((h.open_ _).mpr ⟨i, hi, hn, rfl⟩)
    · exact hl _ (h.mem i hi) b hb
  · rintro ⟨⟨hl, -, -, hh⟩, hsl⟩
    have hall : ∀ x ∈ Q, ν x = b := by
      intro x hx
      obtain ⟨i, hi, -, rfl⟩ := (h.open_ x).mp hx
      exact hsl i hi
    exact ⟨hl, (hQ.mpr hall).1, (hQ.mpr hall).2, hh⟩

/-- A call of the solver on a heap with the same labels answers whether the slice can
    be labelled, and returns what this entails. -/
theorem Labellable.leafSets {b ok : Bool} {Q : List Ptr} (h : Labellable D s sl b Q)
    {st : SolverState} (hlabel : ∀ x ∈ D, label m' x = label s.solver.mem x)
    (hsol : Solved m' D hcs (if b then Q else []) (if b then [] else Q) ok st) :
    (ok = true → LeafSets D hcs s sl b st.positive st.negative) ∧
      (ok = false → ¬ ∃ ν, SliceLabelling D hcs s sl b ν) := by
  have hiff : ∀ ν, Consistent m' D hcs (if b then Q else []) (if b then [] else Q) ν ↔
      SliceLabelling D hcs s sl b ν := fun ν =>
    (consistent_congr hlabel ν).trans (h.iff ν)
  refine ⟨fun hok => ⟨?_, fun x => ?_, fun x => ?_⟩, fun hok hsat => ?_⟩
  · obtain ⟨ν, hν⟩ := hsol.satisfiable.mp hok
    exact ⟨ν, (hiff ν).mp hν⟩
  · rw [hsol.positive hok, Entailed]
    refine and_congr_right fun hx => ?_
    rw [hlabel x hx]
    exact and_congr_right fun _ => forall_congr' fun ν => by rw [hiff]
  · rw [hsol.negative hok, Entailed]
    refine and_congr_right fun hx => ?_
    rw [hlabel x hx]
    exact and_congr_right fun _ => forall_congr' fun ν => by rw [hiff]
  · obtain ⟨ν, hν⟩ := hsat
    have := hsol.satisfiable.mpr ⟨ν, (hiff ν).mpr hν⟩
    rw [hok] at this
    simp at this

/-- A labelled point excludes the other label. -/
theorem not_sliceLabelling {i : ℕ} {b c : Bool} (hmem : s.ptr i ∈ D) (hi : sl.Contains i)
    (hl : s.labelAt i = some b) (hbc : b ≠ c) : ¬ ∃ ν, SliceLabelling D hcs s sl c ν := by
  rintro ⟨ν, hν, hsl⟩
  exact hbc ((hν.1 _ hmem b hl).symm.trans (hsl i hi))

/-! ## The calls of the solver -/

theorem ptr_mem_of_perm (hp : s.datapointPtrs.Perm D) (hr : sl.InRange s) {i : ℕ}
    (hi : sl.Contains i) : s.ptr i ∈ D := by
  have hlt : i < s.datapointPtrs.length := lt_of_le_of_lt hi.2 hr.2
  refine hp.subset ?_
  rw [s.ptr_eq, List.getElem?_eq_getElem hlt]
  exact List.getElem_mem hlt

section Calls

variable (env : Environment) (cfg : Settings) (hp : s.datapointPtrs.Perm D)
  (hs : SampleInv D m₁ cfg.hornConstraints s.solver.mem)
include hp hs

/-- Asking the solver whether the slice can be labelled `b`, also after other calls
    of the solver. -/
theorem solve_labellable {b : Bool} {Q : List Ptr} (h : Labellable D s sl b Q)
    {t : LearnerState F} (hq : Quiet s t) :
    ∃ ok st, t.solve env cfg (if b then Q else []) (if b then [] else Q) =
        .ok (ok, { t with solver := st }) ∧ Quiet t { t with solver := st } ∧
      (ok = true → LeafSets D cfg.hornConstraints s sl b st.positive st.negative) ∧
      (ok = false → ¬ ∃ ν, SliceLabelling D cfg.hornConstraints s sl b ν) ∧
      (ok = false → st.negative = if b then [] else Q) := by
  have hlabel : ∀ x ∈ D, label t.solver.mem x = label s.solver.mem x := by
    intro x hx
    unfold label
    rw [hq.mem x (hs.valid.ne_falseDatapoint hx)]
  have hpt : t.datapointPtrs.Perm D := by
    rw [hq.datapointPtrs]
    exact hp
  have hst := hs.congr hq.mem (hq.falseLabel hs.valid.falseDatapoint_label)
  have hQ : ∀ x ∈ Q, x ∈ D ∧ label t.solver.mem x = none := by
    intro x hx
    obtain ⟨hD, hn⟩ := h.unlabelled x hx
    exact ⟨hD, (hlabel x hD).trans hn⟩
  have hP : ∀ x ∈ if b then Q else [], x ∈ D ∧ label t.solver.mem x = none := by
    cases b with
    | true => exact hQ
    | false => simp
  have hN : ∀ x ∈ if b then [] else Q, x ∈ D ∧ label t.solver.mem x = none := by
    cases b with
    | true => simp
    | false => exact hQ
  have hPN : ∀ x ∈ if b then Q else [], x ∉ if b then [] else Q := by
    cases b with
    | true => simp
    | false => simp
  obtain ⟨ok, st, hrun, hq', hsol⟩ := LearnerState.solve_spec env cfg hpt hst hP hN hPN
  obtain ⟨hT, hF⟩ := h.leafSets hlabel hsol
  exact ⟨ok, st, hrun, hq', hT, hF, hsol.negative_of_false⟩

omit hs in
/-- The unlabelled points among the points of the slice, if the labels do not
    contradict `b`. -/
theorem labellable_of_seen (hr : sl.InRange s) {f : Found} {b : Bool}
    (hf : Seen s (indices sl.leftIndex sl.rightIndex) f) (hu : f.foundUnlabeled = true)
    (hb : ∀ i, sl.Contains i → s.labelAt i ≠ some (!b)) :
    Labellable D s sl b (unlabeledPtrs s f.indexOfFirstUnlabeled f.indexOfLastUnlabeled) := by
  refine ⟨fun i hi => ptr_mem_of_perm hp hr hi, fun i hi => ?_, fun x => hf.mem_unlabeledPtrs hu⟩
  have hne := hb i hi
  cases hl : s.labelAt i with
  | none => exact .inl rfl
  | some c =>
    refine .inr ?_
    rw [hl, ne_eq, Option.some.injEq] at hne
    cases b <;> cases c <;> simp_all

omit hs in
/-- An unlabelled slice. -/
theorem labellable_open (hr : sl.InRange s) (b : Bool)
    (hnone : ∀ i, sl.Contains i → s.labelAt i = none) :
    Labellable D s sl b (allPtrs s sl.leftIndex sl.rightIndex) := by
  refine ⟨fun i hi => ptr_mem_of_perm hp hr hi, fun i hi => .inl (hnone i hi), fun x => ?_⟩
  unfold allPtrs
  rw [mem_foldl_insert_all]
  simp only [List.not_mem_nil, false_or]
  exact exists_congr fun i => and_congr_right fun hi => by simp [hnone i hi]

omit hs in
/-- All points of the slice are labelled `b`. -/
theorem leafExact_labelled (hr : sl.InRange s) {b : Bool}
    (hc : Closed D cfg.hornConstraints s.solver.mem)
    (hall : ∀ i, sl.Contains i → s.labelAt i = some b) :
    LeafExact D cfg.hornConstraints s sl (some (b, [], [])) := by
  have h : Labellable D s sl b [] := by
    refine ⟨fun i hi => ptr_mem_of_perm hp hr hi, fun i hi => .inr (hall i hi), fun x => ?_⟩
    refine iff_of_false (by simp) ?_
    rintro ⟨i, hi, hn, -⟩
    rw [hall i hi] at hn
    simp at hn
  have hiff : ∀ ν, Consistent s.solver.mem D cfg.hornConstraints [] [] ν ↔
      SliceLabelling D cfg.hornConstraints s sl b ν := by
    intro ν
    have hν : Consistent s.solver.mem D cfg.hornConstraints (if b then [] else [])
        (if b then [] else []) ν ↔ SliceLabelling D cfg.hornConstraints s sl b ν := h.iff ν
    rwa [ite_self] at hν
  have hfree : ∀ c x, ¬ (x ∈ D ∧ label s.solver.mem x = none ∧
      ∀ ν, SliceLabelling D cfg.hornConstraints s sl b ν → ν x = c) := by
    rintro c x ⟨hx, hn, hent⟩
    obtain ⟨ν, hν, hνx⟩ := hc.free x hx hn (!c)
    rw [hent ν ((hiff ν).mp hν)] at hνx
    simp at hνx
  refine ⟨⟨?_, fun x => ?_, fun x => ?_⟩, fun _ hnone => ?_⟩
  · obtain ⟨ν, hν⟩ := hc.consistent
    exact ⟨ν, (hiff ν).mp hν⟩
  · exact iff_of_false (by simp) (hfree true x)
  · exact iff_of_false (by simp) (hfree false x)
  · have hleft : sl.Contains sl.leftIndex := ⟨le_refl _, hr.1⟩
    have := hnone _ hleft
    rw [hall _ hleft] at this
    simp at this

omit hs in
/-- A slice with both labels is no leaf. -/
theorem leafExact_mixed (hr : sl.InRange s) {i j : ℕ} (hi : sl.Contains i)
    (hli : s.labelAt i = some true) (hj : sl.Contains j) (hlj : s.labelAt j = some false) :
    LeafExact D cfg.hornConstraints s sl none := by
  intro b
  cases b with
  | true => exact not_sliceLabelling (ptr_mem_of_perm hp hr hj) hj hlj (by simp)
  | false => exact not_sliceLabelling (ptr_mem_of_perm hp hr hi) hi hli (by simp)

/-- A slice with the label `b` and unlabelled points: the answer is the one of the solver. -/
theorem solve_partly (hr : sl.InRange s) {f : Found} {b : Bool}
    (hseen : Seen s (indices sl.leftIndex sl.rightIndex) f) (hu : f.foundUnlabeled = true)
    {i : ℕ} (hi : sl.Contains i) (hli : s.labelAt i = some b)
    (hother : ∀ j, sl.Contains j → s.labelAt j ≠ some (!b)) :
    ∃ ok st, s.solve env cfg
        (if b then unlabeledPtrs s f.indexOfFirstUnlabeled f.indexOfLastUnlabeled else [])
        (if b then [] else unlabeledPtrs s f.indexOfFirstUnlabeled f.indexOfLastUnlabeled) =
          .ok (ok, { s with solver := st }) ∧ Quiet s { s with solver := st } ∧
      LeafExact D cfg.hornConstraints s sl
        (bif ok then some (b, st.positive, st.negative) else none) := by
  have hlab := labellable_of_seen hp hr hseen hu hother
  obtain ⟨ok, st, hrun, hq, hyes, hno, -⟩ := solve_labellable env cfg hp hs hlab (.refl s)
  refine ⟨ok, st, hrun, hq, ?_⟩
  cases ok with
  | true =>
    refine ⟨hyes rfl, fun _ hnone => ?_⟩
    rw [hnone i hi] at hli
    cases hli
  | false =>
    intro c
    by_cases hbc : b = c
    · exact hbc ▸ hno rfl
    · exact not_sliceLabelling (ptr_mem_of_perm hp hr hi) hi hli hbc

/-- An unlabelled slice: the solver is asked for the label true, and if it fails, for the
    label false with what the failed call has left in `negative`. -/
theorem solve_unlabelled (hr : sl.InRange s) (hnone : ∀ i, sl.Contains i → s.labelAt i = none) :
    ∃ ok st, s.solve env cfg (allPtrs s sl.leftIndex sl.rightIndex) [] =
        .ok (ok, { s with solver := st }) ∧ Quiet s { s with solver := st } ∧
      (ok = true →
        LeafExact D cfg.hornConstraints s sl (some (true, st.positive, st.negative))) ∧
      (ok = false → ∃ ok' st', LearnerState.solve env cfg []
          ((indices sl.leftIndex sl.rightIndex).foldl
            (fun set i => set.insert (({ s with solver := st } : LearnerState F).ptr i))
            st.negative)
          { s with solver := st } = .ok (ok', { s with solver := st' }) ∧
        Quiet s { s with solver := st' } ∧ LeafExact D cfg.hornConstraints s sl
          (bif ok' then some (false, st'.positive, st'.negative) else none)) := by
  have hlab := fun b => labellable_open hp hr b hnone
  obtain ⟨ok, st, hrun, hq, hyes, hno, hleft⟩ :=
    solve_labellable env cfg hp hs (hlab true) (.refl s)
  refine ⟨ok, st, hrun, hq, fun hok => ⟨hyes hok, by simp⟩, fun hok => ?_⟩
  obtain ⟨ok', st', hrun', hq', hyes', hno', -⟩ := solve_labellable env cfg hp hs (hlab false) hq
  rw [show st.negative = [] from hleft hok]
  refine ⟨ok', st', hrun', hq.trans hq', ?_⟩
  cases ok' with
  | true => exact ⟨hyes' rfl, fun _ _ => hno hok⟩
  | false =>
    intro b
    cases b with
    | true => exact hno hok
    | false => exact hno' rfl

/-- `is_leaf` in a closed sample, for any slice of the vector. -/
theorem isLeaf_exact_of_closed (hc : Closed D cfg.hornConstraints s.solver.mem)
    (hr : sl.InRange s) :
    ∃ answer st, isLeaf env cfg sl s = .ok (answer, { s with solver := st }) ∧
      Quiet s { s with solver := st } ∧ LeafExact D cfg.hornConstraints s sl answer := by
  have hrange : sl.leftIndex ≤ sl.rightIndex ∧ sl.rightIndex < s.datapointPtrs.length := hr
  unfold isLeaf
  simp only [assert, decide_eq_true hrange, if_true, bind, Except.bind, pure, Except.pure]
  generalize hf : scanLabels s (indices sl.leftIndex sl.rightIndex) {} = f
  rcases scanLabels_slice s sl hf with ⟨hb, ⟨i, hi, hli⟩, j, hj, hlj⟩ | ⟨hb, hseen⟩
  · rw [if_pos hb]
    exact ⟨none, s.solver, rfl, .refl s, leafExact_mixed cfg hp hr hi hli hj hlj⟩
  rw [if_neg (by rw [hb]; simp)]
  cases hu : f.foundUnlabeled with
  | false =>
    refine ⟨_, s.solver, rfl, .refl s, leafExact_labelled cfg hp hr hc fun i hi => ?_⟩
    obtain ⟨h1, h2, h3⟩ := hseen.found hi
    cases hl : s.labelAt i with
    | none => simp [h3 hl] at hu
    | some b =>
      cases b with
      | true => rw [h1 hl]
      | false => simpa [h2 hl] using hb
  | true =>
    rw [if_neg (by simp)]
    cases hT : f.foundTrue with
    | true =>
      obtain ⟨i, hi, hli⟩ := hseen.foundTrue.mp hT
      have hother : ∀ j, sl.Contains j → s.labelAt j ≠ some (!true) := fun j hj hl => by
        simp [hT, (hseen.found hj).2.1 hl] at hb
      obtain ⟨ok, st, hrun, hq, hexact⟩ :=
        solve_partly env cfg hp hs hr hseen hu (mem_indices.mp hi) hli hother
      simp only [if_true] at hrun
      rw [if_pos rfl, hrun]
      cases ok with
      | true => exact ⟨_, st, rfl, hq, hexact⟩
      | false => exact ⟨_, st, rfl, hq, hexact⟩
    | false =>
      rw [if_neg (by simp)]
      have hnotTrue : ∀ j, sl.Contains j → s.labelAt j ≠ some true := fun j hj hl => by
        simp [(hseen.found hj).1 hl] at hT
      cases hF : f.foundFalse with
      | true =>
        obtain ⟨i, hi, hli⟩ := hseen.foundFalse.mp hF
        obtain ⟨ok, st, hrun, hq, hexact⟩ :=
          solve_partly env cfg hp hs hr hseen hu (mem_indices.mp hi) hli hnotTrue
        simp only [Bool.false_eq_true, if_false] at hrun
        rw [if_pos rfl, hrun]
        cases ok with
        | true => exact ⟨_, st, rfl, hq, hexact⟩
        | false => exact ⟨_, st, rfl, hq, hexact⟩
      | false =>
        rw [if_neg (by simp)]
        have hnone : ∀ i, sl.Contains i → s.labelAt i = none := by
          intro i hi
          obtain ⟨h1, h2, -⟩ := hseen.found hi
          cases hl : s.labelAt i with
          | none => rfl
          | some b => cases b <;> simp_all
        obtain ⟨ok, st, hrun, hq, hyes, hno⟩ := solve_unlabelled env cfg hp hs hr hnone
        rw [hrun]
        cases ok with
        | true => exact ⟨_, st, rfl, hq, hyes rfl⟩
        | false =>
          obtain ⟨ok', st', hrun', hq', hexact⟩ := hno rfl
          simp only [Bool.false_eq_true, if_false]
          rw [hrun']
          cases ok' with
          | true => exact ⟨_, st', rfl, hq', hexact⟩
          | false => exact ⟨_, st', rfl, hq', hexact⟩

end Calls

/-! ## The labels stay closed -/

/-- Labelling what a leaf entails closes the sample. -/
theorem LeafSets.closed {b : Bool} (h : LeafSets D hcs s sl b P N)
    (hm : LeafMeaning D hcs s sl (some (b, P, N))) (hmem : ∀ i, sl.Contains i → s.ptr i ∈ D) :
    Closed D hcs (labelled s.solver.mem P N) := by
  obtain ⟨hok, hslice⟩ := hm
  have hiff : ∀ ν, Consistent s.solver.mem D hcs P N ν ↔ SliceLabelling D hcs s sl b ν := by
    intro ν
    constructor
    · intro hν
      have hν' := (consistent_labelled hok ν).mpr hν
      exact ⟨⟨hν.1, by simp, by simp, hν.2.2.2⟩, fun i hi => hν'.1 _ (hmem i hi) b (hslice i hi)⟩
    · intro hν
      refine ⟨hν.1.1, fun x hx => ?_, fun x hx => ?_, hν.1.2.2.2⟩
      · exact ((h.positive x).mp hx).2.2 ν hν
      · exact ((h.negative x).mp hx).2.2 ν hν
  refine closed_labelled hok fun x hx hn hP hN c => ?_
  by_contra hno
  have hother : ∀ ν, SliceLabelling D hcs s sl b ν → ν x = !c := by
    intro ν hν
    by_contra hνx
    exact hno ⟨ν, (hiff ν).mpr hν, by simpa using hνx⟩
  cases c with
  | true => exact hN ((h.negative x).mpr ⟨hx, hn, hother⟩)
  | false => exact hP ((h.positive x).mpr ⟨hx, hn, hother⟩)

theorem Closed.quiet (hc : Closed D hcs s.solver.mem) (h : LearnInv D m₁ hcs s L)
    (hq : Quiet s s') : Closed D hcs s'.solver.mem :=
  hc.congr (hq.label_eq h)

/-- The initial run labels the points by what the solver returns. -/
theorem initialRun_labelled (env : Environment) (cfg : Settings)
    (hv : ValidInput s.solver.mem s.datapointPtrs cfg.hornConstraints [] [])
    (hinit : initialRun env cfg s = .ok s') :
    ∃ st, Solved s.solver.mem s.datapointPtrs cfg.hornConstraints [] [] true st ∧
      (∀ x ∈ s.datapointPtrs, label st.mem x = label s.solver.mem x) ∧
      s'.solver.mem = labelled st.mem st.positive st.negative := by
  obtain ⟨ok, st, hrun, hsol⟩ := solve_fresh_spec env cfg s hv
  unfold initialRun at hinit
  rw [hrun] at hinit
  cases ok with
  | false => simp [bind, Except.bind] at hinit
  | true =>
    refine ⟨st, hsol, fun x hx => ?_, ?_⟩
    · unfold label
      rw [hsol.restored x (hv.ne_falseDatapoint hx)]
    · rw [← Except.ok.inj hinit]
      exact applyLabels_points ..

theorem initialRun_closed (env : Environment) (cfg : Settings)
    (hv : ValidInput s.solver.mem s.datapointPtrs cfg.hornConstraints [] [])
    (hinit : initialRun env cfg s = .ok s') :
    Closed s.datapointPtrs cfg.hornConstraints s'.solver.mem := by
  obtain ⟨st, hsol, hlabel, hmem⟩ := initialRun_labelled env cfg hv hinit
  rw [hmem]
  refine closed_labelled ((labelsOk_of_solved hsol).congr hlabel) fun x hx hn hP hN b => ?_
  rw [hlabel x hx] at hn
  obtain ⟨ν, hν, hνx⟩ := Solved.free hsol hx hn hP hN b
  exact ⟨ν, (consistent_congr hlabel ν).mpr hν, hνx⟩

/-- The labels of the initial run are entailed, so that the same labellings are consistent. -/
theorem initialRun_consistent (env : Environment) (cfg : Settings)
    (hv : ValidInput s.solver.mem s.datapointPtrs cfg.hornConstraints [] [])
    (hinit : initialRun env cfg s = .ok s') {ν : Ptr → Bool}
    (hν : Consistent s.solver.mem s.datapointPtrs cfg.hornConstraints [] [] ν) :
    Consistent s'.solver.mem s.datapointPtrs cfg.hornConstraints [] [] ν := by
  obtain ⟨st, hsol, hlabel, hmem⟩ := initialRun_labelled env cfg hv hinit
  rw [hmem, consistent_labelled ((labelsOk_of_solved hsol).congr hlabel)]
  refine (consistent_congr hlabel ν).mpr ⟨hν.1, fun x hx => ?_, fun x hx => ?_, hν.2.2.2⟩
  · exact ((hsol.positive rfl x).mp hx).2.2 ν hν
  · exact ((hsol.negative rfl x).mp hx).2.2 ν hν

theorem runJob_solver {env : Environment} {cfg : Settings} {j : Job} {new : List Slice}
    (hj : j.Splits sl) (hrun : runJob env cfg s j = .ok (new, s')) : s'.solver = s.solver := by
  rcases hj with ⟨attr, rfl⟩ | ⟨attr, threshold, rfl⟩
  · have hrun' : runCategoricalSplit env cfg sl attr s = .ok (new, s') := hrun
    unfold runCategoricalSplit at hrun'
    simp only at hrun'
    split_ifs at hrun'
    rw [← (Prod.mk.inj (Except.ok.inj hrun')).2]
    rfl
  · have hrun' : runIntSplit env sl attr threshold s = .ok (new, s') := hrun
    unfold runIntSplit at hrun'
    simp only [bind_ok] at hrun'
    obtain ⟨u, -, u', -, hret⟩ := hrun'
    rw [← (Prod.mk.inj (Except.ok.inj hret)).2]
    rfl

section Step

variable [Score F] {env : Environment} {cfg : Settings}

/-- The state in which `next_job` calls `is_leaf`. -/
def CallsIsLeaf (env : Environment) (cfg : Settings) (s t : LearnerState F) : Prop :=
  ∃ i s₁, selectSlice env cfg s = .ok (i, s₁) ∧ t = { s₁ with slices := s₁.slices.eraseIdx i }

/-- One iteration of the learning loop keeps the labels closed. -/
theorem learnStep_closed (h : LearnInv D m₁ cfg.hornConstraints s s.slices)
    (hc : Closed D cfg.hornConstraints s.solver.mem) (hrun : learnStep env cfg s = .ok s') :
    Closed D cfg.hornConstraints s'.solver.mem := by
  unfold learnStep at hrun
  simp only [bind_ok] at hrun
  obtain ⟨⟨j, t⟩, hnext, ⟨new, t'⟩, hjob, hret⟩ := hrun
  rw [← Except.ok.inj hret]
  show Closed D cfg.hornConstraints t'.solver.mem
  rcases nextJob_cases hnext with ⟨-, sl, rest, -, -, rfl, rfl⟩ |
    ⟨-, i, s₁, sl, answer, s₂, hsel, hget, hleaf, hcase⟩
  · rw [runJob_solver (.inl ⟨0, rfl⟩) hjob]
    exact hc
  have hq₁ := selectSlice_quiet env cfg h hsel
  have h₁ := h.quiet hq₁
  have hc₁ := hc.quiet h hq₁
  rw [← hq₁.slices] at h₁
  have htake := h₁.take hget
  have hr := htake.tree.range sl List.mem_cons_self
  obtain ⟨answer', st, hleaf', hq₂, hexact⟩ :=
    isLeaf_exact_of_closed env cfg htake.perm htake.sample hc₁ hr
  obtain ⟨answer'', s₂', hleaf'', -, hmean⟩ := isLeaf_spec env cfg htake List.mem_cons_self
  rw [hleaf] at hleaf' hleaf''
  obtain ⟨rfl, rfl⟩ := Prod.mk.inj (Except.ok.inj hleaf')
  obtain ⟨rfl, -⟩ := Prod.mk.inj (Except.ok.inj hleaf'')
  rcases hcase with ⟨b, P, N, rfl, rfl, rfl⟩ | ⟨rfl, s₃, hprep, hbest⟩
  · -- the leaf labels what it entails
    have hrun' : runLeafCreation env sl b P N _ = .ok (new, t') := hjob
    rw [runLeafCreation_eq env b P N _ hr.1] at hrun'
    rw [← (Prod.mk.inj (Except.ok.inj hrun')).2]
    refine (hexact.1.closed hmean fun i hi => ptr_mem_of_perm htake.perm hr hi).congr fun x hx => ?_
    rw [label_labelled, label_labelled]
    have hlabel := hq₂.label_eq htake x hx
    exact if_congr Iff.rfl rfl (if_congr Iff.rfl rfl hlabel)
  · have h₂ := htake.quiet hq₂
    have hq₃ := prepareSplit_quiet env cfg h₂ hprep
    obtain ⟨hres, hsplits⟩ := findBestSplit_resorted env cfg hbest
    rw [runJob_solver hsplits hjob, hres.solver]
    exact (Closed.quiet (s := { s₁ with slices := s₁.slices.eraseIdx i }) hc₁ htake hq₂).quiet h₂
      hq₃

theorem Reaches.closed (hr : Reaches env cfg s s')
    (h : LearnInv D m₁ cfg.hornConstraints s s.slices)
    (hc : Closed D cfg.hornConstraints s.solver.mem) :
    Closed D cfg.hornConstraints s'.solver.mem := by
  induction hr with
  | refl => exact hc
  | tail hr hstep ih => exact learnStep_closed (Reaches.inv hr h) ih hstep

/-- The state `s` is at the head of the loop of `learn` in a run on the points of `s₀`,
    with the labels of a successful initial run. -/
structure Run (env : Environment) (cfg : Settings) (s₀ s : LearnerState F) : Prop where
  valid : ValidInput s₀.solver.mem s₀.datapointPtrs cfg.hornConstraints [] []
  slices : s₀.slices = []
  isFirstSplit : s₀.isFirstSplit = true
  nonempty : s₀.datapointPtrs ≠ []
  reached : ∃ s₁, initialRun env cfg s₀ = .ok s₁ ∧ Reaches env cfg (initialSlice s₁) s

/-- What holds at the head of the loop. -/
theorem Run.inv {s₀ : LearnerState F} (h : Run env cfg s₀ s) :
    LearnInv s₀.datapointPtrs s₀.solver.mem cfg.hornConstraints s s.slices ∧
      Closed s₀.datapointPtrs cfg.hornConstraints s.solver.mem := by
  obtain ⟨s₁, hinit, hreach⟩ := h.reached
  have hclosed := initialRun_closed env cfg h.valid hinit
  rcases initialRun_spec env cfg s₀ h.valid with ⟨-, st, hrun, hsample⟩ | ⟨-, hrun⟩
  · rw [hrun] at hinit
    obtain rfl := Except.ok.inj hinit
    have hstart := LearnInv.start (s := { s₀ with solver := st }) hsample h.slices h.nonempty
    exact ⟨hreach.inv hstart, hreach.closed hstart hclosed⟩
  · rw [hrun] at hinit
    simp at hinit

/-- What holds when the loop starts and is kept by every iteration holds in the whole
    run. -/
theorem Run.induction {s₀ : LearnerState F} {p : LearnerState F → Prop} (h : Run env cfg s₀ s)
    (hstart : ∀ st, p (initialSlice { s₀ with solver := st }))
    (hstep : ∀ t t', Run env cfg s₀ t → p t → learnStep env cfg t = .ok t' → p t') : p s := by
  obtain ⟨s₁, hinit, hreach⟩ := h.reached
  have hs₁ : ∃ st, s₁ = { s₀ with solver := st } := by
    rcases initialRun_spec env cfg s₀ h.valid with ⟨-, st, hrun, -⟩ | ⟨-, hrun⟩
    · rw [hrun] at hinit
      exact ⟨st, (Except.ok.inj hinit).symm⟩
    · rw [hrun] at hinit
      simp at hinit
  obtain ⟨st, rfl⟩ := hs₁
  induction hreach with
  | refl => exact hstart st
  | tail hr hlast ih =>
    have hprev : Run env cfg s₀ _ :=
      ⟨h.valid, h.slices, h.isFirstSplit, h.nonempty, _, hinit, hr⟩
    exact hstep _ _ hprev (ih hprev) hlast

/-- The same holds where `is_leaf` is called. -/
theorem Run.calls {s₀ t : LearnerState F} (h : Run env cfg s₀ s)
    (ht : t = s ∨ CallsIsLeaf env cfg s t) :
    t.datapointPtrs.Perm s₀.datapointPtrs ∧
      SampleInv s₀.datapointPtrs s₀.solver.mem cfg.hornConstraints t.solver.mem ∧
      Closed s₀.datapointPtrs cfg.hornConstraints t.solver.mem := by
  obtain ⟨hinv, hc⟩ := h.inv
  rcases ht with rfl | ⟨i, s₁, hsel, rfl⟩
  · exact ⟨hinv.perm, hinv.sample, hc⟩
  · have hq := selectSlice_quiet env cfg hinv hsel
    have h₁ := hinv.quiet hq
    have hc₁ := hc.quiet hinv hq
    exact ⟨h₁.perm, h₁.sample, hc₁⟩

/-- In every state that a run reaches, and for every slice, `is_leaf` returns; it
    answers that the slice is a leaf iff some consistent labelling gives its points one
    label, with the label and the sets that this entails. After a failed attempt to
    label an unlabelled slice true, the second call gets exactly the slice. -/
theorem isLeaf_exact (env : Environment) (cfg : Settings) (s₀ s t : LearnerState F)
    (hrun : Run env cfg s₀ s) (ht : t = s ∨ CallsIsLeaf env cfg s t) (sl : Slice)
    (hr : sl.leftIndex ≤ sl.rightIndex ∧ sl.rightIndex < t.datapointPtrs.length) :
    Closed s₀.datapointPtrs cfg.hornConstraints t.solver.mem ∧
    ∃ answer t', isLeaf env cfg sl t = .ok (answer, t') ∧
      (answer.isSome = true ↔
        ∃ b ν, SliceLabelling s₀.datapointPtrs cfg.hornConstraints t sl b ν) ∧
      (∀ b P N, answer = some (b, P, N) →
        (∃ ν, SliceLabelling s₀.datapointPtrs cfg.hornConstraints t sl b ν) ∧
        (∀ i c, sl.Contains i → t.labelAt i = some c → c = b) ∧
        ((∀ i, sl.Contains i → t.labelAt i = none) →
          (∃ ν, SliceLabelling s₀.datapointPtrs cfg.hornConstraints t sl true ν) → b = true) ∧
        (∀ x, x ∈ P ↔ x ∈ s₀.datapointPtrs ∧ label t.solver.mem x = none ∧
          ∀ ν, SliceLabelling s₀.datapointPtrs cfg.hornConstraints t sl b ν → ν x = true) ∧
        ∀ x, x ∈ N ↔ x ∈ s₀.datapointPtrs ∧ label t.solver.mem x = none ∧
          ∀ ν, SliceLabelling s₀.datapointPtrs cfg.hornConstraints t sl b ν → ν x = false) ∧
      ((∀ i, sl.Contains i → t.labelAt i = none) → ∀ t₁,
        t.solve env cfg (allPtrs t sl.leftIndex sl.rightIndex) [] = .ok (false, t₁) →
        ∀ x, x ∈ (indices sl.leftIndex sl.rightIndex).foldl
            (fun set i => set.insert (t₁.ptr i)) t₁.solver.negative ↔
          ∃ i, sl.Contains i ∧ x = t.ptr i) := by
  obtain ⟨hp, hs, hc⟩ := hrun.calls ht
  have hmem : ∀ i, sl.Contains i → t.ptr i ∈ s₀.datapointPtrs := fun i hi =>
    ptr_mem_of_perm hp hr hi
  obtain ⟨answer, st, hleaf, -, hexact⟩ := isLeaf_exact_of_closed env cfg hp hs hc hr
  refine ⟨hc, answer, _, hleaf, ?_, fun b P N hans => ?_, fun hnone t₁ hfail x => ?_⟩
  · cases answer with
    | none =>
      refine iff_of_false (by simp) ?_
      rintro ⟨b, hν⟩
      exact hexact b hν
    | some a => exact iff_of_true rfl ⟨a.1, hexact.1.satisfiable⟩
  · rw [hans] at hexact
    obtain ⟨hsets, hpref⟩ := hexact
    refine ⟨hsets.satisfiable, fun i c hi hl => ?_, fun hnone hsat => ?_, hsets.positive,
      hsets.negative⟩
    · by_contra hcb
      exact not_sliceLabelling (hmem i hi) hi hl hcb hsets.satisfiable
    · by_contra hb
      exact hpref (by simpa using hb) hnone hsat
  · have hlab := labellable_open hp hr true hnone
    obtain ⟨ok, st', hsolve, -, -, -, hneg⟩ := solve_labellable env cfg hp hs hlab (.refl t)
    simp only [if_true] at hsolve hneg
    rw [hfail] at hsolve
    obtain ⟨rfl, rfl⟩ := Prod.mk.inj (Except.ok.inj hsolve)
    rw [mem_foldl_insert_all, hneg rfl]
    simp only [List.not_mem_nil, false_or]
    rfl

end Step

/-- The run on a satisfiable sample. -/
theorem Sample.exists_run (sample : Sample)
    (hv : ValidInput sample.mem sample.datapoints (sample.settings [] none).hornConstraints [] [])
    (hne : sample.datapoints ≠ []) {ν : Ptr → Bool} (hν : Consistent sample.mem
      sample.datapoints (sample.settings [] none).hornConstraints [] [] ν) :
    ∃ st : SolverState, initialRun .stable (sample.settings [] none) sample.fresh =
        .ok { (sample.fresh : LearnerState ℝ) with solver := st } ∧
      Run .stable (sample.settings [] none) sample.fresh
        (initialSlice { (sample.fresh : LearnerState ℝ) with solver := st }) := by
  obtain ⟨-, st, hinit, -⟩ | ⟨hno, -⟩ := initialRun_spec .stable (sample.settings [] none)
    (sample.fresh : LearnerState ℝ) hv
  · exact ⟨st, hinit, hv, rfl, rfl, hne, _, hinit, .refl⟩
  · exact absurd ⟨ν, hν⟩ hno

/-- The run on the sample of two points that exclude each other. -/
theorem exclusive_run : ∃ st : SolverState,
    initialRun .stable (exclusive.settings [] none) exclusive.fresh =
        .ok { (exclusive.fresh : LearnerState ℝ) with solver := st } ∧
      Run .stable (exclusive.settings [] none) exclusive.fresh
        (initialSlice { (exclusive.fresh : LearnerState ℝ) with solver := st }) :=
  exclusive.exists_run exclusive_validInput (by simp [exclusive]) exclusive_consistent

/-- Three unlabelled points, of which the first two exclude each other. -/
def openThree : Sample where
  mem _ := { categoricalData := [0] }
  datapoints := [.point 0, .point 1, .point 2]
  hornConstraints := [⟨[.point 0, .point 1], none, false⟩]
  numberOfCategories := [1]

theorem openThree_validInput :
    ValidInput openThree.mem openThree.datapoints openThree.hornConstraints [] [] := by
  refine ⟨by simp [openThree], by simp [openThree, label, Datapoint.label], by simp [openThree],
    by simp [openThree], by simp [openThree], by simp, by simp, by simp, fun x _ => ⟨rfl, rfl⟩⟩

theorem mem_openThree {x : Ptr} : x ∈ openThree.datapoints ↔ ∃ k ≤ 2, x = .point k := by
  constructor
  · intro hx
    simp only [openThree, List.mem_cons, List.not_mem_nil, or_false] at hx
    rcases hx with rfl | rfl | rfl
    · exact ⟨0, by omega, rfl⟩
    · exact ⟨1, by omega, rfl⟩
    · exact ⟨2, by omega, rfl⟩
  · rintro ⟨k, hk, rfl⟩
    obtain rfl | rfl | rfl : k = 0 ∨ k = 1 ∨ k = 2 := by omega
    · simp [openThree]
    · simp [openThree]
    · simp [openThree]

/-- At most one of the points may be true. -/
theorem openThree_consistent (k : ℕ) :
    Consistent openThree.mem openThree.datapoints openThree.hornConstraints [] []
      fun x => decide (x = .point k) := by
  simp only [Consistent, openThree, label, Datapoint.label, HornConstraint.Holds]
  simp
  omega

/-- The three points cannot be labelled true, so that the slice is a leaf with the label
    false, which all of them get. -/
theorem isLeaf_exact_openThree :
    ∃ (s₁ : LearnerState ℝ) (P N : List Ptr) (t' : LearnerState ℝ),
      initialRun .stable (openThree.settings [] none) openThree.fresh = .ok s₁ ∧
      isLeaf .stable (openThree.settings [] none) ⟨0, 2, []⟩ (initialSlice s₁) =
        .ok (some (false, P, N), t') ∧
      (∀ x, x ∉ P) ∧ ∀ x, x ∈ N ↔ x ∈ openThree.datapoints := by
  obtain ⟨st, hinit, hrun⟩ := openThree.exists_run openThree_validInput (by simp [openThree])
    (openThree_consistent 0)
  set s₁ : LearnerState ℝ := { (openThree.fresh : LearnerState ℝ) with solver := st } with hs₁
  have hconsistent := fun k => initialRun_consistent .stable (openThree.settings [] none)
    openThree_validInput hinit (openThree_consistent k)
  obtain ⟨hc, answer, t', hleaf, hiff, hexact, -⟩ := isLeaf_exact .stable
    (openThree.settings [] none) openThree.fresh (initialSlice s₁) (initialSlice s₁) hrun (.inl rfl)
    ⟨0, 2, []⟩ ⟨Nat.zero_le 2, (by decide : 2 < openThree.datapoints.length)⟩
  have hptr : ∀ i ≤ 2, (initialSlice s₁).ptr i = .point i := by
    intro i hi
    obtain rfl | rfl | rfl : i = 0 ∨ i = 1 ∨ i = 2 := by omega
    · rfl
    · rfl
    · rfl
  -- a labelling that makes only point 3 true makes the slice false
  have hfalse : SliceLabelling openThree.datapoints (openThree.settings [] none).hornConstraints
      (initialSlice s₁) ⟨0, 2, []⟩ false fun x => decide (x = .point 3) := by
    refine ⟨hconsistent 3, fun i hi => ?_⟩
    have hle : i ≤ 2 := hi.2
    rw [hptr i hle, decide_eq_false_iff_not, Ptr.point.injEq]
    omega
  have hopen : ∀ x ∈ openThree.datapoints, label (initialSlice s₁).solver.mem x = none := by
    intro x hx
    obtain ⟨k, hk, rfl⟩ := mem_openThree.mp hx
    cases hl : label (initialSlice s₁).solver.mem (.point k) with
    | none => rfl
    | some b =>
      have htrue : decide (Ptr.point k = .point k) = b := (hconsistent k).1 _ hx b hl
      have hno : decide (Ptr.point k = .point 3) = b := (hconsistent 3).1 _ hx b hl
      rw [← htrue, decide_eq_decide, Ptr.point.injEq] at hno
      have := hno.mpr rfl
      omega
  obtain ⟨⟨b, P, N⟩, rfl⟩ := Option.isSome_iff_exists.mp (hiff.mpr ⟨false, _, hfalse⟩)
  obtain ⟨⟨ν, hν⟩, -, -, hP, hN⟩ := hexact b P N rfl
  obtain rfl : b = false := by
    -- not both of the first two points are true
    by_contra hb
    obtain ⟨_, hconclusion, -⟩ := hν.1.2.2.2 _ (List.mem_singleton_self _) fun x hx => by
      obtain ⟨k, hk, rfl⟩ := mem_openThree.mp (openThree_validInput.premises _
        (List.mem_singleton_self _) x hx)
      rw [← hptr k hk, hν.2 k ⟨Nat.zero_le k, hk⟩]
      exact Bool.eq_true_of_not_eq_false hb
    cases hconclusion
  refine ⟨s₁, P, N, t', hinit, hleaf, fun x hx => ?_, fun x => ⟨fun hx => ((hN x).mp hx).1, ?_⟩⟩
  · obtain ⟨hmem, -, hentails⟩ := (hP x).mp hx
    obtain ⟨k, hk, rfl⟩ := mem_openThree.mp hmem
    have hthree := of_decide_eq_true (hentails _ hfalse)
    rw [Ptr.point.injEq] at hthree
    omega
  · intro hx
    obtain ⟨k, hk, rfl⟩ := mem_openThree.mp hx
    refine (hN _).mpr ⟨hx, hopen _ hx, fun ν hν => ?_⟩
    rw [← hptr k hk]
    exact hν.2 k ⟨Nat.zero_le k, hk⟩

end HiceDt.Learner
