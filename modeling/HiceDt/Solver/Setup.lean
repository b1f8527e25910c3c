import HiceDt.Solver.Backup

/-!
# Filling the worklist

After `keep_backup`, `populate_meta_data` fills the markings and the clause lists
of the points, and `fill_worklist` labels and pushes the points that are known to
be negative and positive, in this order.

Results:

* `populateMetaData_spec`: every point marks itself and lists the clauses that
  mention it.
* `fillWorklist_truePhase`: the state in which propagation starts satisfies
  `TruePhase`.
-/

namespace HiceDt.Solver

open HiceDt Horn SolverState

variable {D : List Ptr} {m₀ : Heap} {hcs : List HornConstraint} {P N : List Ptr}
  {st st' : SolverState}

/-! ## Markings and clause lists -/

/-- What `populate_meta_data` leaves as it was: everything but markings and clause
    lists of points in scope. -/
structure Populating (D : List Ptr) (m₀ : Heap) (st st' : SolverState) : Prop where
  eq : st' = { st with mem := st'.mem }
  label : ∀ x, st'.label x = st.label x
  frame : Frame D m₀ st.mem → Frame D m₀ st'.mem

theorem Populating.refl : Populating D m₀ st st := ⟨rfl, fun _ => rfl, id⟩

theorem Populating.trans {st'' : SolverState} (h : Populating D m₀ st st')
    (h' : Populating D m₀ st' st'') : Populating D m₀ st st'' := by
  refine ⟨?_, fun x => (h'.label x).trans (h.label x), fun hf => h'.frame (h.frame hf)⟩
  rw [h'.eq, h.eq]

theorem Populating.clause (h : Populating D m₀ st st') (k : ℕ) : st'.clause k = st.clause k := by
  rw [h.eq]
  rfl

theorem Populating.insertHornConstraint {x : Ptr} (hx : InScope D x) (k : ℕ) :
    Populating D m₀ st (st.insertHornConstraint x k) :=
  ⟨rfl, fun y => label_insertHornConstraint st x y k, fun hf => hf.update hx rfl⟩

theorem Populating.insertMarking {x : Ptr} (hx : InScope D x) (m : Ptr) :
    Populating D m₀ st (st.insertMarking x m) := by
  refine ⟨rfl, fun y => ?_, fun hf => hf.update hx rfl⟩
  rw [insertMarking_eq]
  rfl

theorem foldl_insertMarking (m₀ : Heap) : ∀ (l : List Ptr) (st : SolverState), (∀ x ∈ l, x ∈ D) →
    (∀ x, st.marking x = [] ∨ st.marking x = [x]) →
    Populating D m₀ st (l.foldl (fun s x => s.insertMarking x x) st) ∧
      (∀ x, (l.foldl (fun s x => s.insertMarking x x) st).marking x =
        if x ∈ l then [x] else st.marking x) := by
  intro l
  induction l with
  | nil => intro st _ _; exact ⟨.refl, fun x => by simp⟩
  | cons y l ih =>
    intro st hl hm
    rw [List.foldl_cons]
    have hmark : ∀ x, (st.insertMarking y y).marking x = if x = y then [x] else st.marking x := by
      intro x
      rw [insertMarking_eq, marking_setMarkings]
      by_cases hx : x = y
      · subst hx
        rw [Function.update_self, if_pos rfl]
        rcases hm x with e | e <;> rw [e] <;> simp
      · rw [Function.update_of_ne hx, if_neg hx]
    obtain ⟨h1, h2⟩ := ih (st.insertMarking y y) (fun x hx => hl x (List.mem_cons_of_mem _ hx))
      (fun x => by
        rw [hmark]
        split_ifs
        · exact .inr rfl
        · exact hm x)
    refine ⟨(Populating.insertMarking (.inl (hl y (by simp))) y).trans h1, fun x => ?_⟩
    rw [h2, hmark]
    by_cases hx : x = y
    · simp [hx]
    · simp [hx]

theorem foldl_insertHornConstraint (m₀ : Heap) (k : ℕ) : ∀ (l : List Ptr) (st : SolverState),
    (∀ x ∈ l, InScope D x) →
    Populating D m₀ st (l.foldl (fun s p => s.insertHornConstraint p k) st) ∧
      (∀ x, (l.foldl (fun s p => s.insertHornConstraint p k) st).marking x = st.marking x) ∧
      ∀ x j, j ∈ (l.foldl (fun s p => s.insertHornConstraint p k) st).clausesOf x ↔
        x ∈ l ∧ j = k ∨ j ∈ st.clausesOf x := by
  intro l
  induction l with
  | nil => intro st _; exact ⟨.refl, fun _ => rfl, fun x j => by simp⟩
  | cons y l ih =>
    intro st hl
    rw [List.foldl_cons]
    obtain ⟨h1, h2, h3⟩ := ih (st.insertHornConstraint y k)
      fun x hx => hl x (List.mem_cons_of_mem _ hx)
    refine ⟨(Populating.insertHornConstraint (hl y (by simp)) k).trans h1, fun x => ?_,
      fun x j => ?_⟩
    · rw [h2, marking_insertHornConstraint]
    · rw [h3, mem_clausesOf_insertHornConstraint, List.mem_cons]
      tauto

/-- The loop of `populate_meta_data` over the first `done` clauses. -/
theorem foldl_listClauses {s₀ : SolverState} (hpop : Populating D m₀ st s₀)
    (hscope : ∀ k, st.Live k → InScope D (st.clause k).conclusion ∧
      ∀ p ∈ (st.clause k).premises, InScope D p) (done : ℕ) :
    let s := (List.range done).foldl (fun s k =>
      let c := s.clause k
      if c.satisfiable = false then
        c.premises.foldl (fun s p => s.insertHornConstraint p k)
          (s.insertHornConstraint c.conclusion k)
      else s) s₀
    Populating D m₀ st s ∧ (∀ x, s.marking x = s₀.marking x) ∧
      ∀ k, k < done → st.Live k → ∀ x, Occurs st x k → k ∈ s.clausesOf x := by
  induction done with
  | zero => exact ⟨hpop, fun _ => rfl, fun k hk => absurd hk (Nat.not_lt_zero k)⟩
  | succ done ih =>
    rw [List.range_succ, List.foldl_append, List.foldl_cons, List.foldl_nil]
    obtain ⟨h1, h2, h3⟩ := ih
    set s := (List.range done).foldl _ s₀ with hs
    have hclause := h1.clause done
    by_cases hk : (st.clause done).satisfiable = false
    · simp only [hclause]
      rw [if_pos hk]
      obtain ⟨g1, g2, g3⟩ := foldl_insertHornConstraint m₀ done
        (st.clause done).premises (s.insertHornConstraint (st.clause done).conclusion done)
        (hscope done hk).2
      refine ⟨h1.trans ((Populating.insertHornConstraint (hscope done hk).1 done).trans g1),
        fun x => ?_, fun k hkd hkl x ho => ?_⟩
      · rw [g2, marking_insertHornConstraint]
        exact h2 x
      · rw [g3, mem_clausesOf_insertHornConstraint]
        rcases Nat.lt_succ_iff_lt_or_eq.mp hkd with hlt | rfl
        · exact .inr (.inr (h3 k hlt hkl x ho))
        · rcases ho with ho | ho
          · exact .inl ⟨ho, rfl⟩
          · exact .inr (.inl ⟨ho.symm, rfl⟩)
    · simp only [hclause]
      rw [if_neg hk]
      refine ⟨h1, h2, fun k hkd hkl x ho => ?_⟩
      rcases Nat.lt_succ_iff_lt_or_eq.mp hkd with hlt | rfl
      · exact h3 k hlt hkl x ho
      · exact absurd hkl hk

/-- `populate_meta_data`: every point marks itself, and every live clause is
    listed at the points it mentions. -/
theorem populateMetaData_spec (m₀ : Heap) (hmark : ∀ x, st.marking x = [])
    (hscope : ∀ k, st.Live k → InScope D (st.clause k).conclusion ∧
      ∀ p ∈ (st.clause k).premises, InScope D p) :
    Populating D m₀ st (populateMetaData D st) ∧ SelfMarked D (populateMetaData D st) ∧
      ∀ k, st.Live k → ∀ x, Occurs st x k → k ∈ (populateMetaData D st).clausesOf x := by
  unfold populateMetaData
  obtain ⟨hpop, hself⟩ := foldl_insertMarking m₀ D st (fun _ hx => hx)
    (fun x => .inl (hmark x))
  set s₀ := D.foldl (fun s x => s.insertMarking x x) st with hs₀
  have hlen : s₀.copyOfHornConstraints = st.copyOfHornConstraints := by rw [hpop.eq]
  obtain ⟨h1, h2, h3⟩ := foldl_listClauses hpop hscope s₀.copyOfHornConstraints.length
  refine ⟨h1, ⟨fun x hx => ?_, fun x hx => ?_⟩, fun k hk x ho => h3 k ?_ hk x ho⟩
  · rw [h2, hself, if_pos hx]
  · rw [h2, hself, if_neg hx]
    exact hmark x
  · rw [hlen]
    exact hk.lt

/-! ## The initial worklist -/

/-- What `fill_worklist` leaves as it was: everything but the labels, the worklist and the
    clock. -/
structure Filling (D : List Ptr) (m₀ : Heap) (st st' : SolverState) : Prop where
  clauses : st'.copyOfHornConstraints = st.copyOfHornConstraints
  positive : st'.positive = st.positive
  negative : st'.negative = st.negative
  flag : st'.computeCurrentMarking = st.computeCurrentMarking
  copies : st'.copyOfDatapoints = st.copyOfDatapoints
  marking : ∀ x, st'.marking x = st.marking x
  clausesOf : ∀ x, st'.clausesOf x = st.clausesOf x
  frame : Frame D m₀ st.mem → Frame D m₀ st'.mem

theorem Filling.refl : Filling D m₀ st st :=
  ⟨rfl, rfl, rfl, rfl, rfl, fun _ => rfl, fun _ => rfl, id⟩

theorem Filling.trans {st'' : SolverState} (h : Filling D m₀ st st')
    (h' : Filling D m₀ st' st'') : Filling D m₀ st st'' where
  clauses := h'.clauses.trans h.clauses
  positive := h'.positive.trans h.positive
  negative := h'.negative.trans h.negative
  flag := h'.flag.trans h.flag
  copies := h'.copies.trans h.copies
  marking x := (h'.marking x).trans (h.marking x)
  clausesOf x := (h'.clausesOf x).trans (h.clausesOf x)
  frame hf := h'.frame (h.frame hf)

theorem Filling.tick : Filling D m₀ st st.tick :=
  ⟨rfl, rfl, rfl, rfl, rfl, fun _ => rfl, fun _ => rfl, id⟩

theorem Filling.push (x : Ptr) : Filling D m₀ st (st.push x) :=
  ⟨rfl, rfl, rfl, rfl, rfl, fun _ => rfl, fun _ => rfl, id⟩

theorem Filling.classifyAndPush {x : Ptr} (hx : x ∈ D) (b : Bool) :
    Filling D m₀ st (classifyAndPush b st x) := by
  refine ⟨rfl, rfl, rfl, rfl, rfl, fun y => ?_, fun y => ?_, fun hf => ?_⟩
  · exact listOfMarking_setClassification ..
  · exact listOfHornConstraints_setClassification ..
  · exact hf.setClassification (.inl hx) b

/-- Labelling and pushing a list of points none of which has the other label. -/
theorem foldl_classifyAndPush (m₀ : Heap) (b : Bool) : ∀ (l : List Ptr) (st : SolverState),
    (∀ x ∈ l, x ∈ D) → (∀ x ∈ l, st.label x ≠ some !b) →
    Filling D m₀ st (l.foldl (classifyAndPush b) st) ∧
      (∀ x, (l.foldl (classifyAndPush b) st).label x = if x ∈ l then some b else st.label x) ∧
      (l.foldl (classifyAndPush b) st).worklist = l.reverse ++ st.worklist := by
  intro l
  induction l with
  | nil => intro st _ _; exact ⟨.refl, by simp, rfl⟩
  | cons y l ih =>
    intro st hD hl
    rw [List.foldl_cons]
    have hlabel : ∀ x, (classifyAndPush b st y).label x = if x = y then some b else st.label x :=
      label_setClassification (hl y List.mem_cons_self)
    obtain ⟨hfill, hl', hwork⟩ := ih (classifyAndPush b st y)
      (fun x hx => hD x (List.mem_cons_of_mem _ hx)) (fun x hx => by
        rw [hlabel]
        split_ifs
        · cases b <;> simp
        · exact hl x (List.mem_cons_of_mem _ hx))
    refine ⟨(Filling.classifyAndPush (hD y List.mem_cons_self) b).trans hfill, fun x => ?_, ?_⟩
    · rw [hl', hlabel]
      by_cases hx : x = y
      · simp [hx]
      · simp [hx]
    · rw [hwork]
      simp [classifyAndPush, SolverState.push]

/-- The first statement of `fill_worklist` pushes at most the false point. -/
theorem filling_falseDatapoint (D : List Ptr) (m₀ : Heap) (st : SolverState) :
    let s := if st.hornConstraintsWithoutConclusion then st.push .falseDatapoint else st
    Filling D m₀ st s ∧ (∀ x, s.label x = st.label x) ∧
      ∃ C, s.worklist = C ++ st.worklist ∧ (∀ x ∈ C, x = .falseDatapoint) ∧ C.length ≤ 1 := by
  intro s
  by_cases hc : st.hornConstraintsWithoutConclusion = true
  · have hs : s = st.push .falseDatapoint := if_pos hc
    rw [hs]
    exact ⟨.push _, fun _ => rfl, [.falseDatapoint], rfl, by simp, by simp⟩
  · have hs : s = st := if_neg hc
    rw [hs]
    exact ⟨.refl, fun _ => rfl, [], rfl, by simp, by simp⟩

/-- `fill_worklist`: the negative points become false, the positive ones true, and both are
    pushed, the positive ones last. -/
theorem fillWorklist_spec (ord : HashOrder) (m₀ : Heap)
    (hN : ∀ x ∈ st.negative, x ∈ D ∧ st.label x = none)
    (hP : ∀ x ∈ st.positive, x ∈ D ∧ x ∉ st.negative ∧ st.label x ≠ some false) :
    Filling D m₀ st (fillWorklist ord st) ∧
      (∀ x, (fillWorklist ord st).label x = if x ∈ st.positive then some true
        else if x ∈ st.negative then some false else st.label x) ∧
      ∃ A B C, (fillWorklist ord st).worklist = A ++ (B ++ (C ++ st.worklist)) ∧
        (∀ x, x ∈ A ↔ x ∈ st.positive) ∧ (∀ x, x ∈ B ↔ x ∈ st.negative) ∧
        (∀ x ∈ C, x = .falseDatapoint) ∧ A.length = st.positive.length ∧
        B.length = st.negative.length ∧ C.length ≤ 1 := by
  obtain ⟨hfill, hlabel, C, hC, hCbot, hClen⟩ := filling_falseDatapoint D m₀ st
  unfold fillWorklist
  set s := if st.hornConstraintsWithoutConclusion then st.push .falseDatapoint else st
  simp only [hfill.negative]
  -- the loop over the negative points
  set B := ord.points s.clock st.negative with hB
  obtain ⟨hfill', hlabel', hwork'⟩ := foldl_classifyAndPush m₀ false B s.tick
    (D := D) (fun x hx => (hN x (by simpa [hB] using hx)).1) (fun x hx => by
      have hx' : s.tick.label x = none := (hlabel x).trans (hN x (by simpa [hB] using hx)).2
      rw [hx']
      simp)
  set s' := B.foldl (classifyAndPush false) s.tick
  have hkept := (hfill.trans .tick).trans hfill'
  simp only [hkept.positive]
  have hlabels : ∀ x, s'.tick.label x = if x ∈ st.negative then some false else st.label x := by
    intro x
    show s'.label x = _
    rw [hlabel', show s.tick.label x = st.label x from hlabel x]
    simp only [hB, HashOrder.mem_points]
  -- the loop over the positive points
  set A := ord.points s'.clock st.positive with hA
  obtain ⟨hfill₂, hlabel₂, hwork₂⟩ := foldl_classifyAndPush m₀ true A s'.tick
    (D := D) (fun x hx => (hP x (by simpa [hA] using hx)).1) (fun x hx => by
      obtain ⟨-, hxN, hx'⟩ := hP x (by simpa [hA] using hx)
      rw [hlabels, if_neg hxN]
      exact hx')
  refine ⟨(hkept.trans .tick).trans hfill₂, fun x => ?_, A.reverse, B.reverse, C, ?_, by simp [hA],
    by simp [hB], hCbot, by simp [hA], by simp [hB], hClen⟩
  · rw [hlabel₂, hlabels]
    simp only [hA, HashOrder.mem_points]
  · rw [hwork₂, show s'.tick.worklist = s'.worklist from rfl, hwork',
      show s.tick.worklist = s.worklist from rfl, hC]

theorem Backup.positive_scope {done : List HornConstraint} (hv : ValidInput m₀ D hcs P N)
    (h : Backup D m₀ P N done st) {x : Ptr} (hx : x ∈ st.positive) :
    x ∈ D ∧ label m₀ x = none ∧ x ∉ N ∧ (st.label x = none ∨ st.label x = some true) := by
  rcases (h.mem_positive x).mp hx with hP | ⟨hne, hn, ht⟩
  · obtain ⟨hD, hn⟩ := hv.positive x hP
    refine ⟨hD, hn, hv.disjoint x hP, ?_⟩
    rcases h.labels x (hv.ne_falseDatapoint hD) with e | e
    · exact .inl (e.trans hn)
    · exact .inr e.2.2.2
  · rcases h.labels x hne with e | e
    · rw [e, hn] at ht
      simp at ht
    · exact ⟨e.1, hn, e.2.1, .inr ht⟩

theorem Backup.negative_label {done : List HornConstraint} (hv : ValidInput m₀ D hcs P N)
    (h : Backup D m₀ P N done st) {x : Ptr} (hx : x ∈ N) : st.label x = none := by
  obtain ⟨hD, hn⟩ := hv.negative x hx
  rcases h.labels x (hv.ne_falseDatapoint hD) with e | e
  · exact e.trans hn
  · exact absurd hx e.2.1

/-- The state on which propagation starts. -/
structure Filled (D : List Ptr) (m₀ : Heap) (N : List Ptr) (s st : SolverState) : Prop where
  label : ∀ x, st.label x =
    if x ∈ s.positive then some true else if x ∈ N then some false else s.label x
  clause : ∀ k, st.clause k = s.clause k
  clauses : st.copyOfHornConstraints = s.copyOfHornConstraints
  positive_eq : st.positive = s.positive
  negative_eq : st.negative = N
  flag : st.computeCurrentMarking = s.computeCurrentMarking
  copies : st.copyOfDatapoints = s.copyOfDatapoints
  selfMarked : SelfMarked D st
  listed : ∀ k, s.Live k → ∀ x, Occurs s x k → k ∈ st.clausesOf x
  frame : Frame D m₀ st.mem
  worklist : ∃ A B C, st.worklist = A ++ (B ++ (C ++ s.worklist)) ∧ (∀ x, x ∈ A ↔ x ∈ s.positive) ∧
    (∀ x, x ∈ B ↔ x ∈ N) ∧ (∀ x ∈ C, x = .falseDatapoint) ∧ A.length = s.positive.length ∧
    B.length = N.length ∧ C.length ≤ 1

theorem fillWorklist_filled (ord : HashOrder) (hv : ValidInput m₀ D hcs P N)
    (h : Backup D m₀ P N hcs st) :
    Filled D m₀ N st (fillWorklist ord (populateMetaData D st)) := by
  obtain ⟨hpop, hself, hlisted⟩ := populateMetaData_spec m₀ h.marking
    (fun k hk => ⟨(h.stored k hk).scope, fun p hp => .inl ((h.stored k hk).premise p hp).1⟩)
  set s := populateMetaData D st
  have hneg : s.negative = N := by rw [hpop.eq]; exact h.negative_eq
  have hpos : s.positive = st.positive := by rw [hpop.eq]
  have hclauses : s.copyOfHornConstraints = st.copyOfHornConstraints := by rw [hpop.eq]
  have hworklist : s.worklist = st.worklist := by rw [hpop.eq]
  have hnegative : ∀ x ∈ s.negative, x ∈ D ∧ s.label x = none := by
    intro x hx
    rw [hneg] at hx
    exact ⟨(hv.negative x hx).1, (hpop.label x).trans (h.negative_label hv hx)⟩
  have hpositive : ∀ x ∈ s.positive, x ∈ D ∧ x ∉ s.negative ∧ s.label x ≠ some false := by
    intro x hx
    rw [hpos] at hx
    obtain ⟨hD, -, hN, hl⟩ := h.positive_scope hv hx
    refine ⟨hD, hneg ▸ hN, ?_⟩
    rw [hpop.label]
    rcases hl with e | e <;> rw [e] <;> simp
  obtain ⟨hfill, hlabel, hwork⟩ := fillWorklist_spec ord m₀ hnegative hpositive
  simp only [hneg, hpos, hpop.label, hworklist] at hlabel hwork
  refine ⟨hlabel, fun k => ?_, hfill.clauses.trans hclauses, hfill.positive.trans hpos,
    hfill.negative.trans hneg, ?_, ?_, ?_, fun k hk x ho => ?_, hfill.frame (hpop.frame h.frame),
    hwork⟩
  · unfold clause
    rw [hfill.clauses, hclauses]
  · rw [hfill.flag, hpop.eq]
  · rw [hfill.copies, hpop.eq]
  · unfold SelfMarked
    simp only [hfill.marking]
    exact hself
  · rw [hfill.clausesOf]
    exact hlisted k hk x ho

theorem Filled.label_of_positive {s : SolverState} (hf : Filled D m₀ N s st) {x : Ptr}
    (hx : x ∈ s.positive) : st.label x = some true := by
  rw [hf.label, if_pos hx]

theorem Filled.label_of_negative {s : SolverState} (hf : Filled D m₀ N s st) {x : Ptr}
    (hx : x ∉ s.positive) (hN : x ∈ N) : st.label x = some false := by
  rw [hf.label, if_neg hx, if_pos hN]

theorem Filled.label_of_other {s : SolverState} (hf : Filled D m₀ N s st) {x : Ptr}
    (hx : x ∉ s.positive) (hN : x ∉ N) : st.label x = s.label x := by
  rw [hf.label, if_neg hx, if_neg hN]

/-! ## The invariant on which propagation starts -/

section filled

variable {s : SolverState}

theorem Filled.live (hf : Filled D m₀ N s st) (k : ℕ) : st.Live k ↔ s.Live k := by
  unfold Live
  rw [hf.clause]

theorem Filled.rule (hf : Filled D m₀ N s st) (k : ℕ) : st.rule k = s.rule k := by
  unfold SolverState.rule
  rw [hf.clause]

theorem Filled.occurs (hf : Filled D m₀ N s st) {x : Ptr} {k : ℕ} (h : Occurs st x k) :
    Occurs s x k := by
  unfold Occurs at h ⊢
  rwa [hf.clause] at h

theorem Filled.falseLabel (hf : Filled D m₀ N s st) (hv : ValidInput m₀ D hcs P N)
    (h : Backup D m₀ P N hcs s) : st.label .falseDatapoint = some false := by
  have hpos : Ptr.falseDatapoint ∉ s.positive :=
    fun hx => hv.falseDatapoint_notMem (h.positive_scope hv hx).1
  have hneg : Ptr.falseDatapoint ∉ N :=
    fun hx => hv.falseDatapoint_notMem (hv.negative _ hx).1
  rw [hf.label_of_other hpos hneg]
  exact h.falseLabel

theorem Filled.negative_false (hf : Filled D m₀ N s st) (hv : ValidInput m₀ D hcs P N)
    (h : Backup D m₀ P N hcs s) {x : Ptr} (hx : x ∈ N) : st.label x = some false :=
  hf.label_of_negative (fun hp => (h.positive_scope hv hp).2.2.1 hx) hx

/-- The labels of the filled state are the labels and the sets of the backup. -/
theorem Filled.agrees_iff (hf : Filled D m₀ N s st) (hv : ValidInput m₀ D hcs P N)
    (h : Backup D m₀ P N hcs s) (ν : Ptr → Bool) : Agrees D st ν ↔
      (∀ x ∈ P, ν x = true) ∧ (∀ x ∈ N, ν x = false) ∧ Agrees D s ν := by
  constructor
  · intro ha
    have hpos : ∀ x ∈ s.positive, ν x = true := fun x hx =>
      ha x (h.positive_scope hv hx).1 true (hf.label_of_positive hx)
    have hneg : ∀ x ∈ N, ν x = false := fun x hx =>
      ha x (hv.negative x hx).1 false (hf.negative_false hv h hx)
    refine ⟨fun x hx => hpos x ((h.mem_positive x).mpr (.inl hx)), hneg, fun x hx b hb => ?_⟩
    by_cases hp : x ∈ s.positive
    · rw [hpos x hp]
      rcases (h.positive_scope hv hp).2.2.2 with e | e
      · rw [hb] at e
        simp at e
      · rw [hb] at e
        exact (Option.some.inj e).symm
    · by_cases hN : x ∈ N
      · rw [h.negative_label hv hN] at hb
        simp at hb
      · exact ha x hx b ((hf.label_of_other hp hN).trans hb)
  · intro ⟨hP, hN, ha⟩ x hx b hb
    by_cases hp : x ∈ s.positive
    · rw [hf.label_of_positive hp] at hb
      rw [← Option.some.inj hb]
      rcases (h.mem_positive x).mp hp with hxP | hxt
      · exact hP x hxP
      · exact ha x hx true hxt.2.2
    · by_cases hxN : x ∈ N
      · rw [hf.label_of_negative hp hxN] at hb
        rw [← Option.some.inj hb]
        exact hN x hxN
      · exact ha x hx b ((hf.label_of_other hp hxN).symm.trans hb)

/-- The labels given at the start are kept. -/
theorem Filled.keeps (hf : Filled D m₀ N s st) (hv : ValidInput m₀ D hcs P N)
    (h : Backup D m₀ P N hcs s) {x : Ptr} (hx : x ∈ D) {b : Bool}
    (hb : HiceDt.label m₀ x = some b) : st.label x = some b := by
  have hp : x ∉ s.positive := by
    intro hp
    rw [(h.positive_scope hv hp).2.1] at hb
    simp at hb
  have hN : x ∉ N := by
    intro hN
    rw [(hv.negative x hN).2] at hb
    simp at hb
  rw [hf.label_of_other hp hN]
  exact h.keeps (hv.ne_falseDatapoint hx) hb

theorem Filled.mem_positive (hf : Filled D m₀ N s st) (hv : ValidInput m₀ D hcs P N)
    (h : Backup D m₀ P N hcs s) (x : Ptr) :
    x ∈ st.positive ↔ x ∈ D ∧ HiceDt.label m₀ x = none ∧ st.label x = some true := by
  rw [hf.positive_eq]
  constructor
  · intro hp
    exact ⟨(h.positive_scope hv hp).1, (h.positive_scope hv hp).2.1, hf.label_of_positive hp⟩
  · intro ⟨hD, hn, ht⟩
    by_contra hp
    by_cases hN : x ∈ N
    · rw [hf.label_of_negative hp hN] at ht
      simp at ht
    · rw [hf.label_of_other hp hN] at ht
      exact hp ((h.mem_positive x).mpr (.inr ⟨hv.ne_falseDatapoint hD, hn, ht⟩))

theorem Filled.mem_negative (hf : Filled D m₀ N s st) (hv : ValidInput m₀ D hcs P N)
    (h : Backup D m₀ P N hcs s) (x : Ptr) :
    x ∈ st.negative ↔ x ∈ D ∧ HiceDt.label m₀ x = none ∧ st.label x = some false := by
  rw [hf.negative_eq]
  constructor
  · intro hN
    exact ⟨(hv.negative x hN).1, (hv.negative x hN).2, hf.negative_false hv h hN⟩
  · intro ⟨hD, hn, hx⟩
    by_contra hN
    have hp : x ∉ s.positive := by
      intro hp
      rw [hf.label_of_positive hp] at hx
      simp at hx
    rw [hf.label_of_other hp hN] at hx
    rcases h.labels x (hv.ne_falseDatapoint hD) with e | e
    · rw [e, hn] at hx
      simp at hx
    · rw [e.2.2.2] at hx
      simp at hx

theorem Filled.wellFormed (hf : Filled D m₀ N s st) (h : Backup D m₀ P N hcs s) {k : ℕ}
    (hk : st.Live k) : WellFormed D m₀ st k := by
  have hk' := (hf.live k).mp hk
  obtain ⟨-, hsize, hprem, hscope, hconcl, -⟩ := h.stored k hk'
  constructor
  · rw [hf.clause]; exact hsize
  · rw [hf.clause]
    exact fun p hp => ⟨(hprem p hp).1, (hprem p hp).2, hf.listed k hk' p (.inl hp)⟩
  · rw [hf.clause]; exact hscope
  · rw [hf.clause]; exact hconcl
  · rw [hf.clause]; exact hf.listed k hk' _ (.inr rfl)

/-- The invariant holds when propagation starts. -/
theorem Filled.inv (hf : Filled D m₀ N s st) (hv : ValidInput m₀ D hcs P N)
    (h : Backup D m₀ P N hcs s) : Inv D m₀ (Consistent m₀ D hcs P N) st where
  models ν hν := by
    rw [h.models ν hν, hf.agrees_iff hv h]
    simp only [hf.live, hf.rule]
    tauto
  falseLabel := hf.falseLabel hv h
  keeps _ hx _ hb := hf.keeps hv h hx hb
  mem_positive := hf.mem_positive hv h
  mem_negative := hf.mem_negative hv h
  wellFormed _ hk := hf.wellFormed h hk
  frame := hf.frame
  copies := hf.copies.trans h.copies

/-- A false point that `fill_worklist` did not make false was so after `keep_backup`. -/
theorem Filled.false_before (hf : Filled D m₀ N s st) {x : Ptr} (hN : x ∉ N)
    (hx : st.label x = some false) : s.label x = some false := by
  have hp : x ∉ s.positive := by
    intro hp
    rw [hf.label_of_positive hp] at hx
    simp at hx
  rwa [hf.label_of_other hp hN] at hx

theorem Filled.true_before (hf : Filled D m₀ N s st) {x : Ptr} (hp : x ∉ s.positive)
    (hx : st.label x = some true) : s.label x = some true := by
  have hN : x ∉ N := by
    intro hN
    rw [hf.label_of_negative hp hN] at hx
    simp at hx
  rwa [hf.label_of_other hp hN] at hx

/-- What was on the worklist after `keep_backup` is false still. -/
theorem Filled.worklist_false (hf : Filled D m₀ N s st) (hv : ValidInput m₀ D hcs P N)
    (h : Backup D m₀ P N hcs s) {x : Ptr} (hx : x ∈ s.worklist) :
    InScope D x ∧ st.label x = some false := by
  obtain ⟨hscope, hl⟩ := h.worklist x hx
  refine ⟨hscope, ?_⟩
  have hp : x ∉ s.positive := by
    intro hp
    rcases (h.positive_scope hv hp).2.2.2 with e | e <;> rw [hl] at e <;> simp at e
  have hN : x ∉ N := by
    intro hN
    rw [h.negative_label hv hN] at hl
    simp at hl
  rw [hf.label_of_other hp hN, hl]

/-- A false point is on the worklist unless no live clause mentions it: the given labels make
    it a conclusion at most, and such a conclusion was pushed. -/
theorem Filled.false_settled (hf : Filled D m₀ N s st) (hv : ValidInput m₀ D hcs P N)
    (h : Backup D m₀ P N hcs s) {x : Ptr} {k : ℕ} (hk : st.Live k) (hN : x ∉ N)
    (hx : st.label x = some false) (ho : Occurs st x k) : x ∈ s.worklist := by
  have hst := h.stored k ((hf.live k).mp hk)
  have hx' := hf.false_before hN hx
  rcases hf.occurs ho with hm | hc
  · obtain ⟨hD, hn⟩ := hst.premise x hm
    rcases h.labels x (hv.ne_falseDatapoint hD) with e | e
    · rw [e, hn] at hx'
      simp at hx'
    · rw [e.2.2.2] at hx'
      simp at hx'
  · rw [← hc] at hx' ⊢
    exact hst.pushed hx'

/-- A true point that is not in `positive` was labelled at the start, so that no live clause
    mentions it. -/
theorem Filled.true_settled (hf : Filled D m₀ N s st) (hv : ValidInput m₀ D hcs P N)
    (h : Backup D m₀ P N hcs s) {x : Ptr} {k : ℕ} (hk : st.Live k) (hp : x ∉ s.positive)
    (hx : st.label x = some true) : ¬ Occurs st x k := by
  intro ho
  have hst := h.stored k ((hf.live k).mp hk)
  have hx' := hf.true_before hp hx
  have hgiven : x ≠ .falseDatapoint → HiceDt.label m₀ x = some true := by
    intro hne
    rcases h.labels x hne with e | e
    · rw [← e, hx']
    · exact absurd ((h.mem_positive x).mpr (.inr ⟨hne, e.2.2.1, hx'⟩)) hp
  rcases hf.occurs ho with hm | hc
  · obtain ⟨hD, hn⟩ := hst.premise x hm
    rw [hgiven (hv.ne_falseDatapoint hD)] at hn
    simp at hn
  · have hne : x ≠ .falseDatapoint := by
      intro e
      rw [e, h.falseLabel] at hx'
      simp at hx'
    exact hst.conclusion (hc ▸ hgiven hne)

end filled

/-- Propagation starts in the phase of the true points. -/
theorem fillWorklist_truePhase (ord : HashOrder) (hv : ValidInput m₀ D hcs P N)
    (h : Backup D m₀ P N hcs st) :
    TruePhase D m₀ (Consistent m₀ D hcs P N) N (fun _ _ => False)
      (fillWorklist ord (populateMetaData D st)) := by
  have hf := fillWorklist_filled ord hv h
  set s := fillWorklist ord (populateMetaData D st) with hs
  obtain ⟨A, B, C, hwl, hA, hB, hC, -, -, -⟩ := hf.worklist
  have hrest : ∀ x ∈ B ++ (C ++ st.worklist), InScope D x ∧ s.label x = some false := by
    intro x hx
    simp only [List.mem_append] at hx
    rcases hx with hx | hx | hx
    · have hN := (hB x).mp hx
      exact ⟨.inl (hv.negative x hN).1, hf.negative_false hv h hN⟩
    · rw [hC x hx]
      exact ⟨.inr rfl, hf.falseLabel hv h⟩
    · exact hf.worklist_false hv h hx
  refine ⟨hf.inv hv h, hf.flag.trans h.flag, hf.selfMarked, hf.negative_eq, ?_, ?_, ?_, ?_, ?_⟩
  · intro k hk
    rw [hf.clause]
    exact (h.stored k ((hf.live k).mp hk)).nonempty
  · intro x hx
    rw [hwl] at hx
    rcases List.mem_append.mp hx with hx | hx
    · exact .inl (h.positive_scope hv ((hA x).mp hx)).1
    · exact (hrest x hx).1
  · exact ⟨A, B ++ (C ++ st.worklist), hwl, fun x hx => hf.label_of_positive ((hA x).mp hx),
      fun x hx => (hrest x hx).2⟩
  · intro x k hk hx
    rw [hwl]
    by_cases hN : x ∈ N
    · exact .inl (List.mem_append_right _ (List.mem_append_left _ ((hB x).mpr hN)))
    · by_cases ho : Occurs s x k
      · have hw := hf.false_settled hv h hk hN hx ho
        exact .inl (List.mem_append_right _ (List.mem_append_right _ (List.mem_append_right _ hw)))
      · exact .inr ho
  · intro x k hk hx
    rw [hwl]
    by_cases hp : x ∈ st.positive
    · exact .inl (List.mem_append_left _ ((hA x).mpr hp))
    · exact .inr (.inr (hf.true_settled hv h hk hp hx))

/-- The number of iterations that the loop may take. -/
theorem fillWorklist_workLeft (ord : HashOrder) (hv : ValidInput m₀ D hcs P N)
    (h : Backup D m₀ P N hcs st) :
    workLeft D (fillWorklist ord (populateMetaData D st)) ≤
      D.length + 3 * hcs.length + P.length + N.length + 1 := by
  have hf := fillWorklist_filled ord hv h
  set s := fillWorklist ord (populateMetaData D st) with hs
  obtain ⟨A, B, C, hwl, -, -, -, hA, hB, hC⟩ := hf.worklist
  have h1 : s.worklist.length = A.length + (B.length + (C.length + st.worklist.length)) := by
    rw [hwl]
    simp only [List.length_append]
  have h2 : s.liveCount ≤ st.copyOfHornConstraints.length := by
    rw [← hf.clauses]
    exact s.liveCount_le
  have h3 : unlabelled D s ≤ D.length :=
    (Finset.card_filter_le _ _).trans (List.toFinset_card_le D)
  have h4 := h.worklist_length
  have h5 := h.clauses_length
  have h6 := h.positive_length
  unfold workLeft
  omega

end HiceDt.Solver
