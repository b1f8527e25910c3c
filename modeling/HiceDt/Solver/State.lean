import HiceDt.Solver.HornSolver

/-!
# Reading the solver state

Projections of `SolverState` that the proofs speak about (labels, markings,
clause lists, live clauses) and how the state operations act on them.

A clause is *live* while its flag `_satisfiable` is false; the live clauses are
the rules that still constrain the unlabelled points.
-/

namespace HiceDt.Solver

open HiceDt Horn

namespace SolverState

/-- The label of `x`. -/
def label (st : SolverState) (x : Ptr) : Option Bool := HiceDt.label st.mem x

/-- `x->_list_of_marking`. -/
def marking (st : SolverState) (x : Ptr) : List Ptr := (st.mem x).listOfMarking

/-- `x->_list_of_horn_constraints`. -/
def clausesOf (st : SolverState) (x : Ptr) : List ℕ := (st.mem x).listOfHornConstraints

/-- Clause `k` is not yet satisfied. -/
def Live (st : SolverState) (k : ℕ) : Prop := (st.clause k).satisfiable = false

/-- Clause `k` as a rule. -/
def rule (st : SolverState) (k : ℕ) : Rule Ptr :=
  ⟨(st.clause k).premises, (st.clause k).conclusion⟩

/-- The rules that the live clauses stand for. -/
def Rules (st : SolverState) (r : Rule Ptr) : Prop := ∃ k, st.Live k ∧ r = st.rule k

theorem Live.lt {st : SolverState} {k : ℕ} (h : st.Live k) :
    k < st.copyOfHornConstraints.length := by
  by_contra hk
  have : st.copyOfHornConstraints[k]? = none := by simpa using hk
  simp [Live, clause, List.getD, this] at h

/-! ## Clauses -/

theorem clause_setClause {st : SolverState} {k : ℕ} (hk : k < st.copyOfHornConstraints.length)
    (c : HornCopy) (j : ℕ) : (st.setClause k c).clause j = if j = k then c else st.clause j := by
  by_cases h : j = k
  · subst h
    simp [setClause, clause, List.getD, hk]
  · have h' : ¬ k = j := fun e => h e.symm
    simp [setClause, clause, List.getD, h, h']

theorem clause_satisfy (st : SolverState) (k j : ℕ) :
    (st.satisfy k).clause j =
      if j = k then { st.clause k with satisfiable := true } else st.clause j := by
  by_cases hk : k < st.copyOfHornConstraints.length
  · exact clause_setClause hk _ _
  · -- the default clause is satisfied already
    have hset : st.satisfy k = st := by
      simp [satisfy, setClause, List.set_eq_of_length_le (Nat.le_of_not_lt hk)]
    have hnone : st.copyOfHornConstraints[k]? = none := by simpa using hk
    rw [hset]
    split_ifs with h
    · subst h
      simp [clause, List.getD, hnone]
    · rfl

theorem live_satisfy {st : SolverState} {k j : ℕ} :
    (st.satisfy k).Live j ↔ j ≠ k ∧ st.Live j := by
  unfold Live
  rw [clause_satisfy]
  by_cases h : j = k <;> simp [h]

theorem clause_satisfy_of_live {st : SolverState} {k j : ℕ} (h : (st.satisfy k).Live j) :
    (st.satisfy k).clause j = st.clause j := by
  rw [clause_satisfy, if_neg (live_satisfy.mp h).1]

theorem clause_append {st st' : SolverState} {c : HornCopy}
    (h : st'.copyOfHornConstraints = st.copyOfHornConstraints ++ [c]) (k : ℕ) :
    st'.clause k = if k = st.copyOfHornConstraints.length then c else st.clause k := by
  unfold clause
  rw [h]
  simp only [List.getD, List.getElem?_append]
  rcases Nat.lt_trichotomy k st.copyOfHornConstraints.length with hk | hk | hk
  · rw [if_pos hk, if_neg (by omega)]
  · simp [hk]
  · have h1 : ([c] : List HornCopy)[k - st.copyOfHornConstraints.length]? = none := by
      rw [List.getElem?_eq_none_iff, List.length_singleton]
      omega
    have h2 : st.copyOfHornConstraints[k]? = none := by
      rw [List.getElem?_eq_none_iff]
      omega
    rw [if_neg (by omega), if_neg (by omega), h1, h2]

/-- The number of live clauses. -/
def liveCount (st : SolverState) : ℕ :=
  (st.copyOfHornConstraints.filter fun c => c.satisfiable = false).length

theorem liveCount_satisfy {st : SolverState} {k : ℕ} (h : st.Live k) :
    (st.satisfy k).liveCount + 1 = st.liveCount := by
  have hk := h.lt
  have hget : st.copyOfHornConstraints[k] = st.clause k := by
    simp [clause, List.getD, hk]
  unfold liveCount satisfy setClause
  simp only
  rw [List.set_eq_take_append_cons_drop, if_pos hk]
  conv_rhs => rw [← List.take_append_drop k st.copyOfHornConstraints,
    List.drop_eq_getElem_cons hk, hget]
  have h' : (st.clause k).satisfiable = false := h
  simp [List.filter_append, h']
  omega

theorem liveCount_setClause {st : SolverState} {k : ℕ} {c : HornCopy} (h : st.Live k)
    (hc : c.satisfiable = false) : (st.setClause k c).liveCount = st.liveCount := by
  have hk := h.lt
  have hget : st.copyOfHornConstraints[k] = st.clause k := by
    simp [clause, List.getD, hk]
  unfold liveCount setClause
  simp only
  rw [List.set_eq_take_append_cons_drop, if_pos hk]
  conv_rhs => rw [← List.take_append_drop k st.copyOfHornConstraints,
    List.drop_eq_getElem_cons hk, hget]
  have h' : (st.clause k).satisfiable = false := h
  simp [List.filter_append, h', hc]

theorem liveCount_le (st : SolverState) : st.liveCount ≤ st.copyOfHornConstraints.length :=
  List.length_filter_le _ _

/-! ## Labels -/

theorem classify_satisfiability {st : SolverState} {x : Ptr} {b : Bool} :
    (st.classify x b).hornConstraintsSatisfiability = true ↔ st.label x ≠ some !b :=
  setClassification_fst

theorem label_classify {st : SolverState} {x : Ptr} {b : Bool} (h : st.label x ≠ some !b)
    (y : Ptr) : (st.classify x b).label y = if y = x then some b else st.label y :=
  label_setClassification h y

@[simp] theorem marking_classify (st : SolverState) (x y : Ptr) (b : Bool) :
    (st.classify x b).marking y = st.marking y := listOfMarking_setClassification ..

@[simp] theorem clausesOf_classify (st : SolverState) (x y : Ptr) (b : Bool) :
    (st.classify x b).clausesOf y = st.clausesOf y := listOfHornConstraints_setClassification ..

/-! ## Clause lists -/

section InsertHornConstraint

variable (st : SolverState) (x y : Ptr) (k : ℕ)

theorem label_insertHornConstraint : (st.insertHornConstraint x k).label y = st.label y := by
  by_cases hy : y = x
  · subst hy
    simp [insertHornConstraint, label, HiceDt.label, Datapoint.label]
  · simp [insertHornConstraint, label, HiceDt.label, hy]

theorem marking_insertHornConstraint :
    (st.insertHornConstraint x k).marking y = st.marking y := by
  by_cases hy : y = x
  · subst hy
    simp [insertHornConstraint, marking]
  · simp [insertHornConstraint, marking, hy]

theorem mem_clausesOf_insertHornConstraint {j : ℕ} :
    j ∈ (st.insertHornConstraint x k).clausesOf y ↔ y = x ∧ j = k ∨ j ∈ st.clausesOf y := by
  by_cases hy : y = x
  · subst hy
    simp [insertHornConstraint, clausesOf]
  · simp [insertHornConstraint, clausesOf, hy]

end InsertHornConstraint

/-! ## Markings -/

/-- The state with other markings; everything the marking computation does is of
    this form. -/
def setMarkings (st : SolverState) (M : Ptr → List Ptr) (clock : ℕ) : SolverState :=
  { st with mem := fun x => { st.mem x with listOfMarking := M x }, clock := clock }

@[simp] theorem marking_setMarkings (st : SolverState) (M : Ptr → List Ptr) (n : ℕ) (x : Ptr) :
    (st.setMarkings M n).marking x = M x := rfl

@[simp] theorem clause_setMarkings (st : SolverState) (M : Ptr → List Ptr) (n k : ℕ) :
    (st.setMarkings M n).clause k = st.clause k := rfl

@[simp] theorem clausesOf_setMarkings (st : SolverState) (M : Ptr → List Ptr) (n : ℕ) (x : Ptr) :
    (st.setMarkings M n).clausesOf x = st.clausesOf x := rfl

@[simp] theorem label_setMarkings (st : SolverState) (M : Ptr → List Ptr) (n : ℕ) (x : Ptr) :
    (st.setMarkings M n).label x = st.label x := rfl

@[simp] theorem live_setMarkings (st : SolverState) (M : Ptr → List Ptr) (n k : ℕ) :
    (st.setMarkings M n).Live k ↔ st.Live k := Iff.rfl

@[simp] theorem rules_setMarkings (st : SolverState) (M : Ptr → List Ptr) (n : ℕ) :
    (st.setMarkings M n).Rules = st.Rules := rfl

@[simp] theorem setMarkings_setMarkings (st : SolverState) (M M' : Ptr → List Ptr) (n n' : ℕ) :
    (st.setMarkings M n).setMarkings M' n' = st.setMarkings M' n' := rfl

theorem insertMarking_eq (st : SolverState) (x m : Ptr) :
    st.insertMarking x m =
      st.setMarkings (Function.update st.marking x ((st.marking x).insert m)) st.clock := by
  have : Function.update st.mem x
      { st.mem x with listOfMarking := (st.mem x).listOfMarking.insert m } =
      fun y => { st.mem y with
        listOfMarking := Function.update st.marking x ((st.marking x).insert m) y } := by
    funext y
    by_cases hy : y = x
    · subst hy; simp [marking]
    · simp [Function.update_of_ne hy, marking]
  simp only [insertMarking, setMarkings, this]

end SolverState

end HiceDt.Solver
