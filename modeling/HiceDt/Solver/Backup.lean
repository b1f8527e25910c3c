import HiceDt.Solver.PropagateTrue

/-!
# Copying the constraints

`keep_backup` copies the constraints, drops the premises that are labelled true
and the clauses that are satisfied, and applies the unit clauses.

Results:

* `backupConstraint_spec`: one constraint is translated faithfully, or the
  constraints are refuted.
* `keepBackup_spec`: so is the whole list.
-/

namespace HiceDt.Solver

open HiceDt Horn SolverState

/-! ## The input of a call -/

/-- The total labelling `ν` extends the labels in `m₀`, makes the points in `P`
    true and those in `N` false, and satisfies the constraints. -/
def Consistent (m₀ : Heap) (D : List Ptr) (hcs : List HornConstraint) (P N : List Ptr)
    (ν : Ptr → Bool) : Prop :=
  (∀ x ∈ D, ∀ b, label m₀ x = some b → ν x = b) ∧ (∀ x ∈ P, ν x = true) ∧
    (∀ x ∈ N, ν x = false) ∧ ∀ hc ∈ hcs, hc.Holds ν

/-- The points and constraints that callers pass: the constraints are over the
    points `D`, the points in `P` and `N` are unlabelled, and the lists that the
    solver keeps at the points are empty. -/
structure ValidInput (m₀ : Heap) (D : List Ptr) (hcs : List HornConstraint) (P N : List Ptr) :
    Prop where
  falseDatapoint_notMem : .falseDatapoint ∉ D
  falseDatapoint_label : label m₀ .falseDatapoint ≠ some true
  premises : ∀ hc ∈ hcs, ∀ p ∈ hc.premises, p ∈ D
  conclusion : ∀ hc ∈ hcs, ∀ c, hc.conclusion = some c → c ∈ D
  satisfiable : ∀ hc ∈ hcs, hc.satisfiable = false
  positive : ∀ x ∈ P, x ∈ D ∧ label m₀ x = none
  negative : ∀ x ∈ N, x ∈ D ∧ label m₀ x = none
  disjoint : ∀ x ∈ P, x ∉ N
  quiescent : ∀ x, x ≠ .falseDatapoint →
    (m₀ x).listOfMarking = [] ∧ (m₀ x).listOfHornConstraints = []

variable {D : List Ptr} {m₀ : Heap} {hcs : List HornConstraint} {P N : List Ptr}
  {st st' : SolverState}

theorem ValidInput.ne_falseDatapoint (hv : ValidInput m₀ D hcs P N) {x : Ptr} (hx : x ∈ D) :
    x ≠ .falseDatapoint := by
  intro e
  rw [e] at hx
  exact hv.falseDatapoint_notMem hx

/-- An input over the data points `D`, whose own lists are empty; their labels and those of
    the points in `P` and `N` are arbitrary. -/
structure ScopedInput (m₀ : Heap) (D : List Ptr) (hcs : List HornConstraint) (P N : List Ptr) :
    Prop where
  falseDatapoint_notMem : .falseDatapoint ∉ D
  premises : ∀ hc ∈ hcs, ∀ p ∈ hc.premises, p ∈ D
  conclusion : ∀ hc ∈ hcs, ∀ c, hc.conclusion = some c → c ∈ D
  positive : ∀ x ∈ P, x ∈ D
  negative : ∀ x ∈ N, x ∈ D
  quiescent : ∀ x ∈ D, (m₀ x).listOfMarking = [] ∧ (m₀ x).listOfHornConstraints = []

theorem ValidInput.scoped (hv : ValidInput m₀ D hcs P N) : ScopedInput m₀ D hcs P N where
  falseDatapoint_notMem := hv.falseDatapoint_notMem
  premises := hv.premises
  conclusion := hv.conclusion
  positive x hx := (hv.positive x hx).1
  negative x hx := (hv.negative x hx).1
  quiescent x hx := hv.quiescent x (hv.ne_falseDatapoint hx)

theorem consistent_append {hc : HornConstraint} {ν : Ptr → Bool} :
    Consistent m₀ D (hcs ++ [hc]) P N ν ↔ Consistent m₀ D hcs P N ν ∧ hc.Holds ν := by
  unfold Consistent
  simp only [List.mem_append, List.mem_singleton, or_imp, forall_and, forall_eq]
  tauto

/-! ## The invariant of `keep_backup` -/

/-- A stored clause over points that are not labelled in a way that would satisfy
    or shrink it. -/
structure Stored (D : List Ptr) (m₀ : Heap) (st : SolverState) (c : HornCopy) : Prop where
  nonempty : c.premises ≠ []
  size : c.sizeOfPremises = c.premises.length
  premise : ∀ p ∈ c.premises, p ∈ D ∧ label m₀ p = none
  scope : InScope D c.conclusion
  conclusion : label m₀ c.conclusion ≠ some true
  pushed : st.label c.conclusion = some false → c.conclusion ∈ st.worklist

/-- What `keep_backup` has established after the constraints in `done`. -/
structure Backup (D : List Ptr) (m₀ : Heap) (P N : List Ptr) (done : List HornConstraint)
    (st : SolverState) : Prop where
  satisfiability : st.hornConstraintsSatisfiability = true
  models : ∀ ν : Ptr → Bool, ν .falseDatapoint = false →
    (Consistent m₀ D done P N ν ↔ (∀ x ∈ P, ν x = true) ∧ (∀ x ∈ N, ν x = false) ∧
      Agrees D st ν ∧ ∀ k, st.Live k → (st.rule k).Holds ν)
  falseLabel : st.label .falseDatapoint = some false
  labels : ∀ x, x ≠ .falseDatapoint → st.label x = label m₀ x ∨
    x ∈ D ∧ x ∉ N ∧ label m₀ x = none ∧ st.label x = some true
  mem_positive : ∀ x, x ∈ st.positive ↔ x ∈ P ∨
    x ≠ .falseDatapoint ∧ label m₀ x = none ∧ st.label x = some true
  negative_eq : st.negative = N
  stored : ∀ k, st.Live k → Stored D m₀ st (st.clause k)
  worklist : ∀ x ∈ st.worklist, InScope D x ∧ st.label x = some false
  marking : ∀ x, st.marking x = []
  flag : st.computeCurrentMarking = true
  frame : Frame D m₀ st.mem
  copies : st.copyOfDatapoints = D.map fun x => ((m₀ x).classification, (m₀ x).isClassified)
  worklist_length : st.worklist.length ≤ done.length
  clauses_length : st.copyOfHornConstraints.length ≤ done.length
  positive_length : st.positive.length ≤ P.length + done.length

theorem isLabelled_iff {m : Heap} {x : Ptr} {b : Bool} :
    isLabelled m x b = true ↔ label m x = some b := by
  unfold isLabelled label Datapoint.label
  cases (m x).isClassified <;> cases (m x).classification <;> cases b <;> simp

/-- Given labels that agree with `ν`, the copy of a constraint says what the
    constraint says. -/
theorem holds_copyConstraint {hc : HornConstraint} {ν : Ptr → Bool}
    (hν : ν .falseDatapoint = false) (ha : Agrees D st ν) (hp : ∀ p ∈ hc.premises, p ∈ D) :
    hc.Holds ν ↔
      Rule.Holds ν ⟨(copyConstraint st.mem hc).premises,
        (copyConstraint st.mem hc).conclusion⟩ := by
  rw [hc.holds_iff_toRule hν]
  unfold Rule.Holds HornConstraint.toRule copyConstraint
  simp only [List.mem_filter, Bool.not_eq_true']
  refine imp_congr_left ⟨fun h p hpm => h p hpm.1, fun h p hpm => ?_⟩
  by_cases hl : isLabelled st.mem p true = true
  · exact ha p (hp p hpm) true (isLabelled_iff.mp hl)
  · exact h p ⟨hpm, by simpa using hl⟩

/-- A copy that is satisfied from the start holds anyway. -/
theorem holds_of_satisfiable {hc : HornConstraint} {ν : Ptr → Bool} (ha : Agrees D st ν)
    (hp : ∀ p ∈ hc.premises, p ∈ D)
    (hc' : ∀ c, hc.conclusion = some c → c ∈ D) (hsat : hc.satisfiable = false)
    (hfalse : st.label .falseDatapoint = some false)
    (h : (copyConstraint st.mem hc).satisfiable = true) : hc.Holds ν := by
  unfold copyConstraint at h
  simp only [hsat, Bool.false_or, Bool.or_eq_true, List.any_eq_true] at h
  rcases h with h | ⟨p, hpm, hl⟩
  · rw [isLabelled_iff] at h
    cases hconc : hc.conclusion with
    | none =>
      rw [hconc] at h
      change st.label .falseDatapoint = some true at h
      rw [hfalse] at h
      simp at h
    | some c =>
      rw [hconc] at h
      exact fun _ => ⟨c, hconc, ha c (hc' c hconc) true h⟩
  · intro hall
    have h1 := hall p hpm
    rw [ha p (hp p hpm) false (isLabelled_iff.mp hl)] at h1
    simp at h1

/-! ## The step as an equation -/

/-- The loop that looks for the conclusion among the negative points. -/
theorem foldl_negative (c : Ptr) (l : List Ptr) (st : SolverState) :
    l.foldl (fun s n => if n = c then { s with mem := (setClassification s.mem c false).2 }
      else s) st =
    if c ∈ l then { st with mem := (setClassification st.mem c false).2 } else st := by
  induction l generalizing st with
  | nil => rfl
  | cons n l ih =>
    rw [List.foldl_cons, ih]
    by_cases hn : n = c
    · subst hn
      rw [if_pos rfl, if_pos (List.mem_cons_self)]
      split_ifs
      · -- the second call finds the point labelled
        have hlab : ∃ b, label (setClassification st.mem n false).2 n = some b := by
          by_cases hl : label st.mem n = some true
          · rw [setClassification_of_label hl]
            exact ⟨true, hl⟩
          · exact ⟨false, by rw [label_setClassification (by simpa using hl), if_pos rfl]⟩
        obtain ⟨b, hb⟩ := hlab
        simp only [setClassification_of_label hb]
      · rfl
    · rw [if_neg hn]
      have hiff : c ∈ n :: l ↔ c ∈ l := by
        rw [List.mem_cons]
        exact ⟨fun h => h.resolve_left fun e => hn e.symm, .inr⟩
      simp only [hiff]

/-- The state after that loop, in which the conclusion `c` of a unit clause is
    about to be labelled true. -/
def unitState (st : SolverState) (c : Ptr) (b : Bool) : SolverState :=
  { st with
    hornConstraintsWithoutConclusion := b
    clock := st.clock + 1
    mem := if c ∈ st.negative then (setClassification st.mem c false).2 else st.mem }

theorem backupConstraint_eq (ord : HashOrder) (st : SolverState) (hc : HornConstraint)
    (hst : st.hornConstraintsSatisfiability = true) :
    ∃ b, backupConstraint ord st hc =
      (let s := { st with hornConstraintsWithoutConclusion := b }
      let c := copyConstraint st.mem hc
      if c.sizeOfPremises = 0 ∧ c.satisfiable = false then
        if ((unitState st c.conclusion b).classify c.conclusion
            true).hornConstraintsSatisfiability = false then
          (unitState st c.conclusion b).classify c.conclusion true
        else { ((unitState st c.conclusion b).classify c.conclusion true) with
          positive := st.positive.insert c.conclusion }
      else if c.satisfiable = false then
        let s := if isLabelled st.mem c.conclusion false then s.push c.conclusion else s
        let s := { s with copyOfHornConstraints := s.copyOfHornConstraints ++ [c] }
        if hc.conclusion.isNone then
          s.insertHornConstraint .falseDatapoint (s.copyOfHornConstraints.length - 1)
        else s
      else s) := by
  refine ⟨if hc.conclusion.isNone then true else st.hornConstraintsWithoutConclusion, ?_⟩
  unfold backupConstraint
  rw [if_neg (by simp [hst])]
  have hs : (if hc.conclusion.isNone = true then
      { st with hornConstraintsWithoutConclusion := true } else st) =
      { st with hornConstraintsWithoutConclusion :=
        if hc.conclusion.isNone then true else st.hornConstraintsWithoutConclusion } := by
    split_ifs <;> rfl
  simp only [hs, foldl_negative, HashOrder.mem_points]
  by_cases h1 : (copyConstraint st.mem hc).sizeOfPremises = 0 ∧
      (copyConstraint st.mem hc).satisfiable = false
  · rw [if_pos h1, if_pos h1]
    unfold unitState
    by_cases hN : (copyConstraint st.mem hc).conclusion ∈ st.negative
    · simp only [if_pos hN]
      rfl
    · simp only [if_neg hN]
      rfl
  · rw [if_neg h1, if_neg h1]
    by_cases h2 : (copyConstraint st.mem hc).satisfiable = false
    · simp only [h2, and_true, if_true]
    · rw [Bool.not_eq_false] at h2
      simp only [h2, Bool.true_eq_false, and_false, if_false]

/-! ## One constraint -/

theorem copyConstraint_scope {hc : HornConstraint} (m : Heap)
    (hc' : ∀ c, hc.conclusion = some c → c ∈ D) : InScope D (copyConstraint m hc).conclusion := by
  unfold copyConstraint
  cases h : hc.conclusion with
  | none => exact .inr rfl
  | some c => exact .inl (hc' c h)

/-- A premise of an unsatisfied copy is unlabelled, its conclusion is not true. -/
theorem copyConstraint_live {hc : HornConstraint} {m : Heap}
    (h : (copyConstraint m hc).satisfiable = false) :
    (∀ p ∈ (copyConstraint m hc).premises, p ∈ hc.premises ∧ label m p = none) ∧
      label m (copyConstraint m hc).conclusion ≠ some true := by
  unfold copyConstraint at h ⊢
  simp only [Bool.or_eq_false_iff, List.any_eq_false] at h
  obtain ⟨⟨-, hconcl⟩, hprem⟩ := h
  constructor
  · intro p hp
    obtain ⟨hp, hnt⟩ := List.mem_filter.mp hp
    refine ⟨hp, ?_⟩
    have hnf := hprem p hp
    rw [isLabelled_iff] at hnf
    have hnt' : ¬ isLabelled m p true = true := by simpa using hnt
    rw [isLabelled_iff] at hnt'
    cases hl : label m p with
    | none => rfl
    | some b => cases b <;> simp_all
  · intro hl
    rw [← isLabelled_iff] at hl
    rw [hl] at hconcl
    simp at hconcl

/-- The labels at the start of the call persist in `keep_backup`. -/
theorem Backup.keeps {done : List HornConstraint} (h : Backup D m₀ P N done st) {x : Ptr}
    (hx : x ≠ .falseDatapoint) {b : Bool} (hb : label m₀ x = some b) : st.label x = some b := by
  rcases h.labels x hx with hl | ⟨-, -, hn, -⟩
  · rw [hl, hb]
  · rw [hb] at hn
    simp at hn

theorem Backup.satisfied {done : List HornConstraint} {hc : HornConstraint} {b : Bool}
    (h : Backup D m₀ P N done st) (hhc : ∀ ν : Ptr → Bool, Agrees D st ν → hc.Holds ν) :
    Backup D m₀ P N (done ++ [hc]) { st with hornConstraintsWithoutConclusion := b } := by
  obtain ⟨h1, h2, h3, h4, h5, h6, h7, h8, h9, h10, h11, h12, h13, h14, h15⟩ := h
  refine ⟨h1, ?_, h3, h4, h5, h6, fun k hk => ?_, h8, h9, h10, h11, h12, ?_, ?_, ?_⟩
  · intro ν hν
    rw [consistent_append, h2 ν hν]
    exact ⟨fun hh => hh.1, fun hh => ⟨hh, hhc ν hh.2.2.1⟩⟩
  · obtain ⟨s1, s2, s3, s4, s5, s6⟩ := h7 k hk
    exact ⟨s1, s2, s3, s4, s5, s6⟩
  · rw [List.length_append]; exact h13.trans (Nat.le_add_right _ _)
  · rw [List.length_append]; exact h14.trans (Nat.le_add_right _ _)
  · rw [List.length_append]; exact h15.trans (by omega)

/-- `st'` is `st` with the copy of the constraint `hc` among its clauses; the conclusion is
    pushed if it is labelled false. -/
structure Stores (D : List Ptr) (m₀ : Heap) (hc : HornConstraint) (st st' : SolverState) : Prop
    where
  satisfiability : st'.hornConstraintsSatisfiability = st.hornConstraintsSatisfiability
  label : ∀ x, st'.label x = st.label x
  marking : ∀ x, st'.marking x = st.marking x
  positive : st'.positive = st.positive
  negative : st'.negative = st.negative
  flag : st'.computeCurrentMarking = st.computeCurrentMarking
  copies : st'.copyOfDatapoints = st.copyOfDatapoints
  frame : Frame D m₀ st'.mem
  clauses : st'.copyOfHornConstraints = st.copyOfHornConstraints ++ [copyConstraint st.mem hc]
  worklist : st'.worklist =
    if isLabelled st.mem (copyConstraint st.mem hc).conclusion false then
      (copyConstraint st.mem hc).conclusion :: st.worklist else st.worklist

section store

variable {done : List HornConstraint} {hc : HornConstraint}

theorem Stores.agrees (hs : Stores D m₀ hc st st') (ν : Ptr → Bool) :
    Agrees D st' ν ↔ Agrees D st ν := by
  unfold Agrees
  simp only [hs.label]

/-- The stored clause is the last one, and the others stay in place. -/
theorem Stores.live (hs : Stores D m₀ hc st st')
    (hlive : (copyConstraint st.mem hc).satisfiable = false) (k : ℕ) :
    st'.Live k ↔
      k = st.copyOfHornConstraints.length ∨ k ≠ st.copyOfHornConstraints.length ∧ st.Live k := by
  unfold Live
  rw [clause_append hs.clauses]
  split_ifs with hk
  · simp [hk, hlive]
  · simp [hk]

theorem Stores.rule_last (hs : Stores D m₀ hc st st') :
    st'.rule st.copyOfHornConstraints.length =
      ⟨(copyConstraint st.mem hc).premises, (copyConstraint st.mem hc).conclusion⟩ := by
  unfold rule
  rw [clause_append hs.clauses, if_pos rfl]

theorem Stores.rule_of_ne (hs : Stores D m₀ hc st st') {k : ℕ}
    (hk : k ≠ st.copyOfHornConstraints.length) : st'.rule k = st.rule k := by
  unfold rule
  rw [clause_append hs.clauses, if_neg hk]

theorem Stores.mem_worklist (hs : Stores D m₀ hc st st') {x : Ptr} (hx : x ∈ st.worklist) :
    x ∈ st'.worklist := by
  rw [hs.worklist]
  split_ifs
  · exact List.mem_cons_of_mem _ hx
  · exact hx

/-- The clauses of `st'` hold if and only if those of `st` and the new constraint do. -/
theorem Stores.holds_iff (hs : Stores D m₀ hc st st') (hp : ∀ p ∈ hc.premises, p ∈ D)
    (hlive : (copyConstraint st.mem hc).satisfiable = false) {ν : Ptr → Bool}
    (hν : ν .falseDatapoint = false) (ha : Agrees D st ν) :
    (∀ k, st'.Live k → (st'.rule k).Holds ν) ↔
      (∀ k, st.Live k → (st.rule k).Holds ν) ∧ hc.Holds ν := by
  rw [holds_copyConstraint hν ha hp, ← hs.rule_last]
  constructor
  · intro hr
    refine ⟨fun k hk => ?_, hr _ ((hs.live hlive _).mpr (.inl rfl))⟩
    have hkl : k ≠ st.copyOfHornConstraints.length := hk.lt.ne
    rw [← hs.rule_of_ne hkl]
    exact hr k ((hs.live hlive k).mpr (.inr ⟨hkl, hk⟩))
  · intro ⟨hr, hnew⟩ k hk
    rcases (hs.live hlive k).mp hk with rfl | ⟨hkl, hk'⟩
    · exact hnew
    · rw [hs.rule_of_ne hkl]
      exact hr k hk'

/-- What is unlabelled after a part of the constraints was so at the start. -/
theorem Backup.label_start (h : Backup D m₀ P N done st) {x : Ptr} (hx : x ≠ .falseDatapoint)
    (hl : st.label x = none) : label m₀ x = none := by
  cases hm : HiceDt.label m₀ x with
  | none => rfl
  | some b =>
    rw [h.keeps hx hm] at hl
    simp at hl

/-- The copy of an unsatisfied constraint with a premise left is a clause that may be stored. -/
theorem Backup.stored_last (h : Backup D m₀ P N done st) (hs : Stores D m₀ hc st st')
    (hv : ValidInput m₀ D hcs P N) (hhc : hc ∈ hcs)
    (hlive : (copyConstraint st.mem hc).satisfiable = false)
    (hne : (copyConstraint st.mem hc).premises ≠ []) :
    Stored D m₀ st' (copyConstraint st.mem hc) := by
  obtain ⟨hprem, hconcl⟩ := copyConstraint_live hlive
  refine ⟨hne, rfl, ?_, copyConstraint_scope st.mem (hv.conclusion hc hhc), ?_, ?_⟩
  · intro p hpc
    obtain ⟨hpm, hpl⟩ := hprem p hpc
    have hpD := hv.premises hc hhc p hpm
    exact ⟨hpD, h.label_start (hv.ne_falseDatapoint hpD) hpl⟩
  · intro hl
    by_cases e : (copyConstraint st.mem hc).conclusion = .falseDatapoint
    · rw [e] at hl
      exact hv.falseDatapoint_label hl
    · exact hconcl (h.keeps e hl)
  · intro hl
    rw [hs.label] at hl
    rw [hs.worklist, if_pos (isLabelled_iff.mpr hl)]
    exact List.mem_cons_self

theorem Backup.worklist_store (h : Backup D m₀ P N done st) (hs : Stores D m₀ hc st st')
    (hscope : InScope D (copyConstraint st.mem hc).conclusion) :
    (∀ x ∈ st'.worklist, InScope D x ∧ st'.label x = some false) ∧
      st'.worklist.length ≤ (done ++ [hc]).length := by
  have hlen := h.worklist_length
  rw [hs.worklist, List.length_append]
  simp only [hs.label]
  split_ifs with hl
  · refine ⟨fun x hx => ?_, by simpa using hlen⟩
    rcases List.mem_cons.mp hx with rfl | hx
    · exact ⟨hscope, isLabelled_iff.mp hl⟩
    · exact h.worklist x hx
  · exact ⟨h.worklist, hlen.trans (Nat.le_add_right _ _)⟩

/-- A constraint that is stored. -/
theorem Backup.store (h : Backup D m₀ P N done st) (hs : Stores D m₀ hc st st')
    (hv : ValidInput m₀ D hcs P N) (hhc : hc ∈ hcs)
    (hlive : (copyConstraint st.mem hc).satisfiable = false)
    (hne : (copyConstraint st.mem hc).premises ≠ []) :
    Backup D m₀ P N (done ++ [hc]) st' := by
  obtain ⟨hwork, hlen⟩ := h.worklist_store hs (copyConstraint_scope _ (hv.conclusion hc hhc))
  refine ⟨hs.satisfiability.trans h.satisfiability, ?_, ?_, ?_, ?_, hs.negative.trans h.negative_eq,
    ?_, hwork, ?_, hs.flag.trans h.flag, hs.frame, hs.copies.trans h.copies, hlen, ?_, ?_⟩
  · intro ν hν
    rw [consistent_append, h.models ν hν, hs.agrees]
    constructor
    · intro ⟨⟨hP, hN, ha, hr⟩, hholds⟩
      exact ⟨hP, hN, ha, (hs.holds_iff (hv.premises hc hhc) hlive hν ha).mpr ⟨hr, hholds⟩⟩
    · intro ⟨hP, hN, ha, hr⟩
      obtain ⟨hr, hholds⟩ := (hs.holds_iff (hv.premises hc hhc) hlive hν ha).mp hr
      exact ⟨⟨hP, hN, ha, hr⟩, hholds⟩
  · rw [hs.label]; exact h.falseLabel
  · intro x hx
    rw [hs.label]; exact h.labels x hx
  · intro x
    rw [hs.positive, hs.label]; exact h.mem_positive x
  · intro k hk
    rw [clause_append hs.clauses]
    split_ifs with hkl
    · exact h.stored_last hs hv hhc hlive hne
    · rcases (hs.live hlive k).mp hk with hk' | ⟨-, hk'⟩
      · exact absurd hk' hkl
      · obtain ⟨s1, s2, s3, s4, s5, s6⟩ := h.stored k hk'
        exact ⟨s1, s2, s3, s4, s5, fun hl => hs.mem_worklist (s6 (by rwa [hs.label] at hl))⟩
  · intro x
    rw [hs.marking]; exact h.marking x
  · rw [hs.clauses, List.length_append, List.length_append]
    simpa using h.clauses_length
  · rw [hs.positive, List.length_append]
    exact h.positive_length.trans (by omega)

end store

/-! ## Unit clauses -/

/-- Labelling an unlabelled point true adds one condition on the labellings. -/
theorem agrees_classify {c : Ptr} {ν : Ptr → Bool} (hcD : c ∈ D) (hlab : st.label c = none) :
    Agrees D (st.classify c true) ν ↔ Agrees D st ν ∧ ν c = true := by
  have hlab' : st.label c ≠ some !true := by rw [hlab]; simp
  have hl : ∀ x, (st.classify c true).label x = if x = c then some true else st.label x :=
    label_classify hlab'
  constructor
  · intro ha
    refine ⟨fun x hx d hd => ha x hx d ?_, ha c hcD true (by rw [hl, if_pos rfl])⟩
    rw [hl]
    split_ifs with hxc
    · rw [hxc, hlab] at hd
      simp at hd
    · exact hd
  · intro ⟨ha, ht⟩ x hx d hd
    rw [hl] at hd
    split_ifs at hd with hxc
    · rw [hxc, ht]
      exact Option.some.inj hd
    · exact ha x hx d hd

/-- A unit clause whose conclusion becomes true. -/
theorem Backup.unit {done : List HornConstraint} {hc : HornConstraint} {c : Ptr} {b : Bool}
    {n : ℕ} (h : Backup D m₀ P N done st) (hcD : c ∈ D) (hne : c ≠ .falseDatapoint)
    (hcN : c ∉ N) (hlab : st.label c = none)
    (hhc : ∀ ν : Ptr → Bool, ν .falseDatapoint = false → Agrees D st ν →
      (hc.Holds ν ↔ ν c = true)) :
    Backup D m₀ P N (done ++ [hc])
      { (st.classify c true) with
        hornConstraintsWithoutConclusion := b, clock := n, positive := st.positive.insert c } := by
  have hlab' : st.label c ≠ some !true := by rw [hlab]; simp
  set s := st.classify c true with hs
  have hl : ∀ x, s.label x = if x = c then some true else st.label x := label_classify hlab'
  have hgiven := h.label_start hne hlab
  refine ⟨?_, ?_, ?_, ?_, ?_, h.negative_eq, ?_, ?_, ?_, h.flag, ?_, h.copies, ?_, ?_, ?_⟩
  · exact classify_satisfiability.mpr hlab'
  · intro ν hν
    have ha : Agrees D s ν ↔ _ := agrees_classify hcD hlab
    show _ ↔ _ ∧ _ ∧ Agrees D s ν ∧ ∀ k, st.Live k → (st.rule k).Holds ν
    rw [consistent_append, h.models ν hν, ha]
    constructor
    · intro ⟨⟨hP, hN, ha, hr⟩, hholds⟩
      exact ⟨hP, hN, ⟨ha, (hhc ν hν ha).mp hholds⟩, hr⟩
    · intro ⟨hP, hN, ⟨ha, ht⟩, hr⟩
      exact ⟨⟨hP, hN, ha, hr⟩, (hhc ν hν ha).mpr ht⟩
  · show s.label _ = _
    rw [hl, if_neg hne.symm]
    exact h.falseLabel
  · intro x hx
    show s.label x = _ ∨ _ ∧ _ ∧ _ ∧ s.label x = _
    rw [hl]
    split_ifs with hxc
    · subst hxc
      exact .inr ⟨hcD, hcN, hgiven, rfl⟩
    · exact h.labels x hx
  · intro x
    show x ∈ st.positive.insert c ↔ _ ∨ _ ∧ _ ∧ s.label x = _
    rw [List.mem_insert_iff, h.mem_positive, hl]
    split_ifs with hxc
    · subst hxc
      simp [hne, hgiven]
    · simp [hxc]
  · intro k hk
    obtain ⟨s1, s2, s3, s4, s5, s6⟩ := h.stored k hk
    refine ⟨s1, s2, s3, s4, s5, fun hf => s6 ?_⟩
    change s.label (st.clause k).conclusion = some false at hf
    rw [hl] at hf
    split_ifs at hf with hkc
    · simp at hf
    · exact hf
  · intro x hx
    obtain ⟨hscope, hf⟩ := h.worklist x hx
    refine ⟨hscope, ?_⟩
    show s.label x = some false
    rw [hl]
    split_ifs with hxc
    · rw [hxc, hlab] at hf
      simp at hf
    · exact hf
  · exact fun x => (marking_classify st c x true).trans (h.marking x)
  · exact h.frame.setClassification (.inl hcD) true
  · rw [List.length_append]; exact h.worklist_length.trans (Nat.le_add_right _ _)
  · rw [List.length_append]; exact h.clauses_length.trans (Nat.le_add_right _ _)
  · show (st.positive.insert c).length ≤ _
    have h1 : (st.positive.insert c).length ≤ st.positive.length + 1 := by
      rw [List.length_insert]
      split_ifs <;> omega
    have h2 := h.positive_length
    rw [List.length_append, List.length_singleton]
    omega

section unit

variable {done : List HornConstraint} {hc : HornConstraint} {b : Bool}

/-- A clause without open premises says that its conclusion is true. -/
theorem holds_unit {ν : Ptr → Bool} (hp : ∀ p ∈ hc.premises, p ∈ D)
    (hnil : (copyConstraint st.mem hc).premises = []) (hν : ν .falseDatapoint = false)
    (ha : Agrees D st ν) : hc.Holds ν ↔ ν (copyConstraint st.mem hc).conclusion = true := by
  rw [holds_copyConstraint hν ha hp]
  unfold Rule.Holds
  rw [hnil]
  simp

/-- What is consistent with all constraints agrees with the labels after a part of them. -/
theorem Backup.agrees (h : Backup D m₀ P N done st) (hsub : ∀ d ∈ done, d ∈ hcs)
    {ν : Ptr → Bool} (hν : ν .falseDatapoint = false) (hcons : Consistent m₀ D hcs P N ν) :
    Agrees D st ν := by
  have hdone : Consistent m₀ D done P N ν :=
    ⟨hcons.1, hcons.2.1, hcons.2.2.1, fun d hd => hcons.2.2.2 d (hsub d hd)⟩
  exact ((h.models ν hν).mp hdone).2.2.1

/-- Nothing is consistent if a point that a unit clause makes true has to be false. -/
theorem Backup.not_consistent (h : Backup D m₀ P N done st) (hsub : ∀ d ∈ done, d ∈ hcs)
    (hp : ∀ p ∈ hc.premises, p ∈ D) (hhc : hc ∈ hcs)
    (hnil : (copyConstraint st.mem hc).premises = [])
    (hfalse : ∀ ν : Ptr → Bool, ν .falseDatapoint = false → Consistent m₀ D hcs P N ν →
      ν (copyConstraint st.mem hc).conclusion = false) {ν : Ptr → Bool}
    (hν : ν .falseDatapoint = false) : ¬ Consistent m₀ D hcs P N ν := by
  intro hcons
  have ht := (holds_unit hp hnil hν (h.agrees hsub hν hcons)).mp (hcons.2.2.2 hc hhc)
  rw [hfalse ν hν hcons] at ht
  simp at ht

/-- Labelling a false point true fails and leaves the heap as it is. -/
theorem classify_of_label_false {c : Ptr} (hl : st.label c = some false) :
    (st.classify c true).hornConstraintsSatisfiability = false ∧
      (st.classify c true).mem = st.mem := by
  refine ⟨?_, setClassification_of_label hl true⟩
  rw [← Bool.not_eq_true, classify_satisfiability]
  exact fun e => e hl

/-- A negative point that a unit clause makes true: it is labelled false first, and the
    labelling true then fails. -/
theorem Backup.unit_negative (h : Backup D m₀ P N done st) (hv : ValidInput m₀ D hcs P N)
    (hsub : ∀ d ∈ done, d ∈ hcs) (hhc : hc ∈ hcs)
    (hnil : (copyConstraint st.mem hc).premises = [])
    (hN : (copyConstraint st.mem hc).conclusion ∈ st.negative) :
    ((unitState st (copyConstraint st.mem hc).conclusion b).classify
        (copyConstraint st.mem hc).conclusion true).hornConstraintsSatisfiability = false ∧
      Refuted D m₀ (Consistent m₀ D hcs P N) N
        ((unitState st (copyConstraint st.mem hc).conclusion b).classify
          (copyConstraint st.mem hc).conclusion true) := by
  have hnone := h.not_consistent hsub (hv.premises hc hhc) hhc hnil
  set c := (copyConstraint st.mem hc).conclusion with hc₀
  set s := unitState st c b with hs
  have hN' : c ∈ N := h.negative_eq ▸ hN
  obtain ⟨hcD, hgiven⟩ := hv.negative c hN'
  have hne : c ≠ .falseDatapoint := hv.ne_falseDatapoint hcD
  have hlab : st.label c = none := by
    rcases h.labels c hne with e | e
    · exact e.trans hgiven
    · exact absurd hN' e.2.1
  have hlab' : HiceDt.label st.mem c ≠ some !false := by
    rw [show HiceDt.label st.mem c = none from hlab]; simp
  have hl := label_setClassification hlab'
  have hsmem : s.mem = (setClassification st.mem c false).2 := if_pos hN
  have hsl : s.label c = some false := by
    unfold SolverState.label
    rw [hsmem, hl, if_pos rfl]
  obtain ⟨hfail, hmem⟩ := classify_of_label_false hsl
  refine ⟨hfail, fun ν hν => hnone (fun μ _ hcons => hcons.2.2.1 c hN') hν, ?_, h.negative_eq, ?_,
    h.copies⟩
  · unfold SolverState.label
    rw [hmem, hsmem, hl, if_neg hne.symm]
    exact h.falseLabel
  · rw [hmem, hsmem]
    exact h.frame.setClassification (.inl hcD) false

/-- A point labelled false that a unit clause makes true. -/
theorem Backup.unit_false (h : Backup D m₀ P N done st) (hv : ValidInput m₀ D hcs P N)
    (hsub : ∀ d ∈ done, d ∈ hcs) (hhc : hc ∈ hcs)
    (hnil : (copyConstraint st.mem hc).premises = [])
    (hN : (copyConstraint st.mem hc).conclusion ∉ st.negative)
    (hf : st.label (copyConstraint st.mem hc).conclusion = some false) :
    ((unitState st (copyConstraint st.mem hc).conclusion b).classify
        (copyConstraint st.mem hc).conclusion true).hornConstraintsSatisfiability = false ∧
      Refuted D m₀ (Consistent m₀ D hcs P N) N
        ((unitState st (copyConstraint st.mem hc).conclusion b).classify
          (copyConstraint st.mem hc).conclusion true) := by
  have hnone := h.not_consistent hsub (hv.premises hc hhc) hhc hnil
  have hscope := copyConstraint_scope st.mem (hv.conclusion hc hhc)
  set c := (copyConstraint st.mem hc).conclusion with hc₀
  set s := unitState st c b with hs
  have hsmem : s.mem = st.mem := if_neg hN
  have hsf : s.label c = some false := by
    unfold SolverState.label
    rw [hsmem]
    exact hf
  obtain ⟨hfail, hmem⟩ := classify_of_label_false hsf
  refine ⟨hfail, fun ν hν => hnone (fun μ hμ hcons => ?_) hν, ?_, h.negative_eq, ?_, h.copies⟩
  · rcases hscope with hD | e
    · exact h.agrees hsub hμ hcons c hD false hf
    · rw [e, hμ]
  · unfold SolverState.label
    rw [hmem, hsmem]
    exact h.falseLabel
  · rw [hmem, hsmem]
    exact h.frame

/-- An unlabelled point that a unit clause makes true. -/
theorem Backup.unit_open (h : Backup D m₀ P N done st) (hv : ValidInput m₀ D hcs P N)
    (hhc : hc ∈ hcs) (hlive : (copyConstraint st.mem hc).satisfiable = false)
    (hnil : (copyConstraint st.mem hc).premises = [])
    (hN : (copyConstraint st.mem hc).conclusion ∉ st.negative)
    (hf : st.label (copyConstraint st.mem hc).conclusion ≠ some false) :
    let c := (copyConstraint st.mem hc).conclusion
    ((unitState st c b).classify c true).hornConstraintsSatisfiability = true ∧
      Backup D m₀ P N (done ++ [hc])
        { ((unitState st c b).classify c true) with positive := st.positive.insert c } := by
  obtain ⟨-, hconcl⟩ := copyConstraint_live hlive
  have hscope := copyConstraint_scope st.mem (hv.conclusion hc hhc)
  intro c
  have hlab : st.label c = none := by
    cases hl : st.label c with
    | none => rfl
    | some d =>
      cases d with
      | true => exact absurd hl hconcl
      | false => exact absurd hl hf
  have hne : c ≠ .falseDatapoint := by
    intro e
    exact hf ((congrArg st.label e).trans h.falseLabel)
  have hs : unitState st c b = { st with
      hornConstraintsWithoutConclusion := b, clock := st.clock + 1 } := by
    rw [unitState, if_neg hN]
  rw [hs]
  refine ⟨?_, h.unit (hscope.resolve_right hne) hne (h.negative_eq ▸ hN) hlab fun _ hν ha =>
    holds_unit (hv.premises hc hhc) hnil hν ha⟩
  have hok : st.label c ≠ some !true := by rw [hlab]; simp
  exact classify_satisfiability.mpr hok

end unit

/-- The state in which a clause with open premises is stored. -/
theorem Backup.stores {done : List HornConstraint} {hc : HornConstraint} {b : Bool}
    (h : Backup D m₀ P N done st) :
    Stores D m₀ hc st
      (let s := { st with hornConstraintsWithoutConclusion := b }
      let c := copyConstraint st.mem hc
      let s := if isLabelled st.mem c.conclusion false then s.push c.conclusion else s
      let s := { s with copyOfHornConstraints := s.copyOfHornConstraints ++ [c] }
      if hc.conclusion.isNone then
        s.insertHornConstraint .falseDatapoint (s.copyOfHornConstraints.length - 1)
      else s) := by
  simp only
  constructor
  · split_ifs <;> rfl
  · intro x
    split_ifs <;> first | rfl | exact label_insertHornConstraint ..
  · intro x
    split_ifs <;> first | rfl | exact marking_insertHornConstraint ..
  · split_ifs <;> rfl
  · split_ifs <;> rfl
  · split_ifs <;> rfl
  · split_ifs <;> rfl
  · split_ifs <;> first | exact h.frame | exact h.frame.update (.inr rfl) rfl
  · split_ifs <;> rfl
  · split_ifs <;> rfl

/-- The body of the loop of `keep_backup`. -/
theorem backupConstraint_spec (ord : HashOrder) {hcs : List HornConstraint}
    {done : List HornConstraint} {hc : HornConstraint} (hv : ValidInput m₀ D hcs P N)
    (h : Backup D m₀ P N done st) (hhc : hc ∈ hcs) (hsub : ∀ d ∈ done, d ∈ hcs) :
    Backup D m₀ P N (done ++ [hc]) (backupConstraint ord st hc) ∨
      (backupConstraint ord st hc).hornConstraintsSatisfiability = false ∧
      Refuted D m₀ (Consistent m₀ D hcs P N) N (backupConstraint ord st hc) := by
  obtain ⟨b, heq⟩ := backupConstraint_eq ord st hc h.satisfiability
  rw [heq]
  simp only
  by_cases hlive : (copyConstraint st.mem hc).satisfiable = false
  · by_cases hsize : (copyConstraint st.mem hc).sizeOfPremises = 0
    · -- a unit clause
      rw [if_pos ⟨hsize, hlive⟩]
      have hnil : (copyConstraint st.mem hc).premises = [] := List.length_eq_zero_iff.mp hsize
      by_cases hN : (copyConstraint st.mem hc).conclusion ∈ st.negative
      · have hr := h.unit_negative (b := b) hv hsub hhc hnil hN
        rw [if_pos hr.1]
        exact .inr hr
      · by_cases hf : st.label (copyConstraint st.mem hc).conclusion = some false
        · have hr := h.unit_false (b := b) hv hsub hhc hnil hN hf
          rw [if_pos hr.1]
          exact .inr hr
        · obtain ⟨hok, hbackup⟩ := h.unit_open (b := b) hv hhc hlive hnil hN hf
          rw [if_neg (by rw [hok]; simp)]
          exact .inl hbackup
    · -- a clause with open premises
      rw [if_neg fun e => hsize e.1, if_pos hlive]
      exact .inl (h.store h.stores hv hhc hlive fun e => hsize (List.length_eq_zero_iff.mpr e))
  · -- the clause is satisfied already
    rw [if_neg fun e => hlive e.2, if_neg hlive]
    refine .inl (h.satisfied fun ν ha => ?_)
    exact holds_of_satisfiable ha (hv.premises hc hhc) (hv.conclusion hc hhc)
      (hv.satisfiable hc hhc) h.falseLabel (by simpa using hlive)

/-! ## All constraints -/

theorem foldl_backupConstraint (ord : HashOrder) {hcs : List HornConstraint}
    (hv : ValidInput m₀ D hcs P N) : ∀ (rest done : List HornConstraint) (st : SolverState),
      hcs = done ++ rest → (Backup D m₀ P N done st ∨ st.hornConstraintsSatisfiability = false ∧
        Refuted D m₀ (Consistent m₀ D hcs P N) N st) →
      Backup D m₀ P N hcs (rest.foldl (backupConstraint ord) st) ∨
        (rest.foldl (backupConstraint ord) st).hornConstraintsSatisfiability = false ∧
        Refuted D m₀ (Consistent m₀ D hcs P N) N (rest.foldl (backupConstraint ord) st) := by
  intro rest
  induction rest with
  | nil =>
    intro done st hl h
    rw [List.append_nil] at hl
    rw [hl]
    rw [hl] at h
    exact h
  | cons hc rest ih =>
    intro done st hl h
    rw [List.foldl_cons]
    refine ih (done ++ [hc]) _ (by rw [hl]; simp) ?_
    rcases h with h | ⟨hf, h⟩
    · exact backupConstraint_spec ord hv h (by rw [hl]; simp) fun d hd => by rw [hl]; simp [hd]
    · -- the loop has been left
      have hskip : backupConstraint ord st hc = st := by
        unfold backupConstraint
        rw [if_pos hf]
      rw [hskip]
      exact .inr ⟨hf, h⟩

/-- The data points after `keep_backup` has cleared the false point. -/
def clearedHeap (m : Heap) : Heap :=
  let mem := (setClassification (Function.update m .falseDatapoint
    { m .falseDatapoint with listOfMarking := [] }) .falseDatapoint false).2
  Function.update mem .falseDatapoint { mem .falseDatapoint with listOfHornConstraints := [] }

theorem clearedHeap_of_ne (m : Heap) {x : Ptr} (hx : x ≠ .falseDatapoint) :
    clearedHeap m x = m x := by
  rw [clearedHeap, Function.update_of_ne hx, setClassification_of_ne _ _ hx,
    Function.update_of_ne hx]

theorem clearedHeap_falseDatapoint {m : Heap} (h : label m .falseDatapoint ≠ some true) :
    clearedHeap m .falseDatapoint =
      { m .falseDatapoint with
        classification := false, isClassified := true
        listOfMarking := [], listOfHornConstraints := [] } := by
  unfold label Datapoint.label at h
  unfold clearedHeap setClassification
  cases hc : (m .falseDatapoint).isClassified <;> cases hb : (m .falseDatapoint).classification <;>
    simp_all

theorem frame_clearedHeap (D : List Ptr) (m : Heap) : Frame D m (clearedHeap m) := by
  refine Frame.update ?_ (.inr rfl) rfl
  refine Frame.setClassification ?_ (.inr rfl) false
  exact (Frame.refl D m).update (.inr rfl) rfl

/-- `keep_backup` at the start of a call. -/
theorem keepBackup_spec (ord : HashOrder) (hv : ValidInput st.mem D hcs P N) :
    Backup D st.mem P N hcs (keepBackup ord D hcs (resetMembers P N st)) ∨
      (keepBackup ord D hcs (resetMembers P N st)).hornConstraintsSatisfiability = false ∧
      Refuted D st.mem (Consistent st.mem D hcs P N) N
        (keepBackup ord D hcs (resetMembers P N st)) := by
  unfold keepBackup
  refine foldl_backupConstraint ord hv hcs [] _ rfl (.inl ?_)
  set mem₂ := clearedHeap st.mem with hmem₂
  have hframe : Frame D st.mem mem₂ := frame_clearedHeap D st.mem
  have hcleared := clearedHeap_falseDatapoint hv.falseDatapoint_label
  have hbot : label mem₂ .falseDatapoint = some false := by
    rw [label, hmem₂, hcleared]
    rfl
  have hother : ∀ x, x ≠ .falseDatapoint → mem₂ x = st.mem x :=
    fun x hx => clearedHeap_of_ne st.mem hx
  have hlabel : ∀ x, x ≠ .falseDatapoint → label mem₂ x = label st.mem x := by
    intro x hx
    unfold label
    rw [hother x hx]
  have hnolive : ∀ k, ¬ SolverState.Live
      { resetMembers P N st with mem := mem₂, copyOfHornConstraints := [],
                                 copyOfDatapoints := D.map fun x =>
                                   ((mem₂ x).classification, (mem₂ x).isClassified) } k := by
    intro k hk
    have := hk.lt
    simp at this
  have hD : ∀ x ∈ D, x ≠ .falseDatapoint := fun x hx => hv.ne_falseDatapoint hx
  refine ⟨rfl, ?_, hbot, fun x hx => .inl (hlabel x hx), ?_, rfl, fun k hk => absurd hk (hnolive k),
    by simp [resetMembers], ?_, rfl, hframe, ?_, by simp [resetMembers], by simp, ?_⟩
  · intro ν _
    unfold Consistent Agrees
    have hag : (∀ x ∈ D, ∀ b, label mem₂ x = some b → ν x = b) ↔
        ∀ x ∈ D, ∀ b, label st.mem x = some b → ν x = b :=
      forall₂_congr fun x hx => by rw [hlabel x (hD x hx)]
    constructor
    · rintro ⟨h1, h2, h3, _⟩
      exact ⟨h2, h3, hag.mpr h1, fun k hk => absurd hk (hnolive k)⟩
    · rintro ⟨h2, h3, h1, _⟩
      exact ⟨hag.mp h1, h2, h3, by simp⟩
  · intro x
    show x ∈ P ↔ x ∈ P ∨ x ≠ .falseDatapoint ∧ label st.mem x = none ∧ label mem₂ x = some true
    constructor
    · exact .inl
    · intro h
      rcases h with h | ⟨hx, hn, ht⟩
      · exact h
      · rw [hlabel x hx, hn] at ht
        simp at ht
  · intro x
    show (mem₂ x).listOfMarking = []
    by_cases hx : x = .falseDatapoint
    · rw [hx, hmem₂, hcleared]
    · rw [hother x hx]
      exact (hv.quiescent x hx).1
  · show (D.map fun x => ((mem₂ x).classification, (mem₂ x).isClassified)) = _
    refine List.map_congr_left fun x hx => ?_
    rw [hother x (hD x hx)]
  · show P.length ≤ _
    simp

end HiceDt.Solver
