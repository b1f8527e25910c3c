import Mathlib.Data.List.Basic
import Mathlib.Logic.Function.Basic
import Mathlib.Data.Finset.Card
import HiceDt.Lib.Horn

/-!
# Data points and Horn constraints

Models of `hice-dt/include/datapoint.h`, `hice-dt/src/datapoint.cpp` and
`hice-dt/include/horn_constraint.h`.

The data points of a sample are objects that the learner and the solver share
through pointers. A pointer is a value of `Ptr`; the objects live in a `Heap`.
An `std::unordered_set` is a list without repetitions (`List.insert` and
`List.erase` are its operations). The order in which a loop visits such a set is
not determined by the language: it is given by a `HashOrder`, which may answer
differently at every loop.

Results:

* `label_setClassification`: `set_classification` succeeds iff the point does
  not carry the other label, and then labels it.
* `mem_removeSatisfiedHornClauses`: `remove_satisfied_horn_clauses` keeps every
  clause that is not satisfied and adds none.
* `removeSatisfiedHornClauses_exact_iff`: when it removes every satisfied clause.
-/

namespace HiceDt

/-! ## Pointers, data points and constraints -/

/-- A `datapoint<bool> *`: a point of the sample, given by its position in the
    vector that stores the points, or the solver's own `_false_datapoint`. -/
inductive Ptr where
  | point (index : ℕ)
  | falseDatapoint
deriving DecidableEq, Repr

/-- `datapoint<bool>` (`datapoint.h`, lines 22–153). A `horn_constraint *` in
    `_list_of_horn_constraints` points into `_copy_of_horn_constraints` and is
    the position in that vector. -/
@[ext]
structure Datapoint where
  categoricalData : List ℕ := []
  intData : List ℤ := []
  isClassified : Bool := false
  classification : Bool := false
  identifier : ℕ := 0
  listOfMarking : List Ptr := []
  listOfHornConstraints : List ℕ := []
deriving DecidableEq, Repr

/-- The objects that pointers refer to. -/
abbrev Heap := Ptr → Datapoint

/-- The partial label of a data point: `_classification` if `_is_classified`. -/
def Datapoint.label (d : Datapoint) : Option Bool :=
  if d.isClassified then some d.classification else none

/-- The partial labelling stored in a heap. -/
def label (m : Heap) (x : Ptr) : Option Bool := (m x).label

/-- A `horn_constraint<bool>` as the callers of the solver build it
    (`horn_constraint.h`); `conclusion = none` is `NULL`, i.e. false. -/
structure HornConstraint where
  premises : List Ptr
  conclusion : Option Ptr
  satisfiable : Bool := false
deriving DecidableEq, Repr

/-- The total labelling `ν` satisfies the constraint. -/
def HornConstraint.Holds (ν : Ptr → Bool) (hc : HornConstraint) : Prop :=
  (∀ p ∈ hc.premises, ν p = true) → ∃ c, hc.conclusion = some c ∧ ν c = true

/-- The constraint as a definite rule; a missing conclusion is the
    `_false_datapoint`. -/
def HornConstraint.toRule (hc : HornConstraint) : Horn.Rule Ptr :=
  ⟨hc.premises, hc.conclusion.getD .falseDatapoint⟩

theorem HornConstraint.holds_iff_toRule {ν : Ptr → Bool} (hν : ν .falseDatapoint = false)
    (hc : HornConstraint) : hc.Holds ν ↔ hc.toRule.Holds ν := by
  unfold HornConstraint.Holds Horn.Rule.Holds HornConstraint.toRule
  cases hc.conclusion <;> simp [hν]

/-! ## Iteration order -/

/-- The order in which the `n`-th loop over an `std::unordered_set` visits the
    elements of the set. -/
structure HashOrder where
  points : ℕ → List Ptr → List Ptr
  clauses : ℕ → List ℕ → List ℕ
  points_perm : ∀ n s, (points n s).Perm s
  clauses_perm : ∀ n s, (clauses n s).Perm s

@[simp] theorem HashOrder.mem_points (ord : HashOrder) {n : ℕ} {s : List Ptr} {x : Ptr} :
    x ∈ ord.points n s ↔ x ∈ s := (ord.points_perm n s).mem_iff

@[simp] theorem HashOrder.mem_clauses (ord : HashOrder) {n : ℕ} {s : List ℕ} {k : ℕ} :
    k ∈ ord.clauses n s ↔ k ∈ s := (ord.clauses_perm n s).mem_iff

@[simp] theorem HashOrder.length_points (ord : HashOrder) {n : ℕ} {s : List Ptr} :
    (ord.points n s).length = s.length := (ord.points_perm n s).length_eq

/-- Sets are visited in the order in which they are stored. -/
def HashOrder.stored : HashOrder where
  points _ s := s
  clauses _ s := s
  points_perm _ _ := .refl _
  clauses_perm _ _ := .refl _

/-! ## `set_classification` -/

/-- `datapoint::set_classification` (`datapoint.cpp`, lines 36–47), together
    with its answer. -/
def setClassification (m : Heap) (x : Ptr) (classification : Bool) : Bool × Heap :=
  if (m x).isClassified then
    if classification ≠ (m x).classification then (false, m) else (true, m)
  else
    (true, Function.update m x
      { m x with classification := classification, isClassified := true })

theorem setClassification_fst {m : Heap} {x : Ptr} {b : Bool} :
    (setClassification m x b).1 = true ↔ label m x ≠ some !b := by
  unfold setClassification label Datapoint.label
  cases (m x).isClassified <;> cases (m x).classification <;> cases b <;> simp

theorem label_setClassification {m : Heap} {x : Ptr} {b : Bool} (h : label m x ≠ some !b)
    (y : Ptr) :
    label (setClassification m x b).2 y = if y = x then some b else label m y := by
  by_cases hy : y = x
  · subst hy
    revert h
    unfold setClassification label Datapoint.label
    cases hc : (m y).isClassified <;> cases hv : (m y).classification <;> cases b <;>
      simp [hc, hv]
  · unfold setClassification label
    split_ifs <;> simp [hy]

theorem setClassification_of_label {m : Heap} {x : Ptr} {c : Bool} (h : label m x = some c)
    (b : Bool) : (setClassification m x b).2 = m := by
  have hx : (m x).isClassified = true := by
    by_contra hn
    simp [label, Datapoint.label, hn] at h
  unfold setClassification
  rw [if_pos hx]
  split_ifs <;> rfl

theorem setClassification_of_ne (m : Heap) {x y : Ptr} (b : Bool) (h : y ≠ x) :
    (setClassification m x b).2 y = m y := by
  unfold setClassification
  split_ifs
  · rfl
  · rfl
  · exact Function.update_of_ne h _ _

@[simp] theorem listOfMarking_setClassification (m : Heap) (x y : Ptr) (b : Bool) :
    ((setClassification m x b).2 y).listOfMarking = (m y).listOfMarking := by
  unfold setClassification
  by_cases hy : y = x
  · subst hy; split_ifs <;> simp
  · split_ifs <;> simp [Function.update_of_ne hy]

@[simp] theorem listOfHornConstraints_setClassification (m : Heap) (x y : Ptr) (b : Bool) :
    ((setClassification m x b).2 y).listOfHornConstraints = (m y).listOfHornConstraints := by
  unfold setClassification
  by_cases hy : y = x
  · subst hy; split_ifs <;> simp
  · split_ifs <;> simp [Function.update_of_ne hy]

/-! ## `remove_satisfied_horn_clauses` -/

/-- The loop of `remove_satisfied_horn_clauses` (`datapoint.cpp`, lines 50–62) on
    the elements of the set in iteration order; the iterator stands on element
    `pos`. After an erasure the iterator is set to `begin()` and then
    incremented by the loop header. -/
def removeSatisfiedLoop (sat : ℕ → Bool) (l : List ℕ) (pos : ℕ) : List ℕ :=
  if h : pos < l.length then
    if sat (l.get ⟨pos, h⟩) then
      if (l.eraseIdx pos).isEmpty then []
      else removeSatisfiedLoop sat (l.eraseIdx pos) 1
    else removeSatisfiedLoop sat l (pos + 1)
  else l
termination_by (l.length, l.length - pos)
decreasing_by
  · exact Prod.Lex.left _ _ (by rw [List.length_eraseIdx_of_lt h]; omega)
  · exact Prod.Lex.right _ (by omega)

/-- `datapoint::remove_satisfied_horn_clauses` on the set `s`, visited in the
    order `ord.clauses n s`. -/
def removeSatisfiedHornClauses (ord : HashOrder) (n : ℕ) (sat : ℕ → Bool) (s : List ℕ) :
    List ℕ :=
  removeSatisfiedLoop sat (ord.clauses n s) 0

theorem removeSatisfiedLoop_subset (sat : ℕ → Bool) (l : List ℕ) (pos : ℕ) :
    ∀ k ∈ removeSatisfiedLoop sat l pos, k ∈ l := by
  induction l, pos using removeSatisfiedLoop.induct sat with
  | case1 l pos h hs he =>
    rw [removeSatisfiedLoop, dif_pos h, if_pos hs, if_pos he]
    simp
  | case2 l pos h hs he ih =>
    rw [removeSatisfiedLoop, dif_pos h, if_pos hs, if_neg he]
    exact fun k hk => List.mem_of_mem_eraseIdx (ih k hk)
  | case3 l pos h hs ih =>
    rw [removeSatisfiedLoop, dif_pos h, if_neg hs]
    exact ih
  | case4 l pos h =>
    rw [removeSatisfiedLoop, dif_neg h]
    exact fun k hk => hk

theorem mem_removeSatisfiedLoop (sat : ℕ → Bool) (l : List ℕ) (pos : ℕ) {k : ℕ}
    (hk : sat k = false) (hl : k ∈ l) : k ∈ removeSatisfiedLoop sat l pos := by
  -- an erased element is satisfied, so `k` survives every erasure
  have hsurv : ∀ (l : List ℕ) (pos : ℕ) (h : pos < l.length), sat (l.get ⟨pos, h⟩) = true →
      k ∈ l → k ∈ l.eraseIdx pos := by
    intro l pos h hs hl
    rw [List.mem_eraseIdx_iff_getElem]
    obtain ⟨i, hi, rfl⟩ := List.getElem_of_mem hl
    refine ⟨i, hi, ?_, rfl⟩
    rintro rfl
    simp_all
  induction l, pos using removeSatisfiedLoop.induct sat with
  | case1 l pos h hs he =>
    have := hsurv l pos h hs hl
    rw [List.isEmpty_iff.mp he] at this
    simp at this
  | case2 l pos h hs he ih =>
    rw [removeSatisfiedLoop, dif_pos h, if_pos hs, if_neg he]
    exact ih (hsurv l pos h hs hl)
  | case3 l pos h hs ih =>
    rw [removeSatisfiedLoop, dif_pos h, if_neg hs]
    exact ih hl
  | case4 l pos h =>
    rw [removeSatisfiedLoop, dif_neg h]
    exact hl

/-- Unsatisfied clauses stay, and no clause is added. -/
theorem mem_removeSatisfiedHornClauses (ord : HashOrder) (n : ℕ) (sat : ℕ → Bool) (s : List ℕ)
    {k : ℕ} :
    (k ∈ removeSatisfiedHornClauses ord n sat s → k ∈ s) ∧
      (sat k = false → k ∈ s → k ∈ removeSatisfiedHornClauses ord n sat s) := by
  constructor
  · intro h
    simpa using removeSatisfiedLoop_subset sat _ 0 k h
  · intro hk hs
    exact mem_removeSatisfiedLoop sat _ 0 hk (by simpa using hs)

/-- Erasing a satisfied element does not change the unsatisfied ones. -/
theorem filter_eraseIdx_of_sat {sat : ℕ → Bool} {l : List ℕ} {i : ℕ} (h : i < l.length)
    (hs : sat l[i] = true) : (l.eraseIdx i).filter (!sat ·) = l.filter (!sat ·) := by
  have hsplit : l = l.take i ++ l[i] :: l.drop (i + 1) := by simp
  rw [List.eraseIdx_eq_take_drop_succ, List.filter_append]
  conv_rhs => rw [hsplit, List.filter_append, List.filter_cons_of_neg (by simp [hs])]

/-- From a later position on, the first element is not looked at again. -/
theorem removeSatisfiedLoop_eq (sat : ℕ → Bool) (l : List ℕ) (pos : ℕ) (hpos : 1 ≤ pos)
    (hdone : ∀ i (h : i < l.length), 1 ≤ i → i < pos → sat l[i] = false) :
    removeSatisfiedLoop sat l pos = l.take 1 ++ (l.drop 1).filter (!sat ·) := by
  induction l, pos using removeSatisfiedLoop.induct sat with
  | case1 l pos h hs he =>
    have hlen : (l.eraseIdx pos).length = 0 := by rw [List.isEmpty_iff.mp he, List.length_nil]
    rw [List.length_eraseIdx_of_lt h] at hlen
    omega
  | case2 l pos h hs he ih =>
    rw [removeSatisfiedLoop, dif_pos h, if_pos hs, if_neg he,
      ih le_rfl fun i _ h₁ h₂ => absurd h₁ (by omega)]
    obtain ⟨p, rfl⟩ := Nat.exists_eq_add_of_le' hpos
    cases l with
    | nil => exact absurd h (Nat.not_lt_zero _)
    | cons a l =>
      have hp : p < l.length := Nat.lt_of_succ_lt_succ h
      show [a] ++ (l.eraseIdx p).filter (!sat ·) = [a] ++ l.filter (!sat ·)
      rw [filter_eraseIdx_of_sat hp hs]
  | case3 l pos h hs ih =>
    rw [removeSatisfiedLoop, dif_pos h, if_neg hs]
    refine ih (by omega) fun i hi h₁ h₂ => ?_
    rcases Nat.lt_succ_iff_lt_or_eq.mp h₂ with hlt | rfl
    · exact hdone i hi h₁ hlt
    · exact Bool.eq_false_iff.mpr hs
  | case4 l pos h =>
    rw [removeSatisfiedLoop, dif_neg h, List.filter_eq_self.mpr, List.take_append_drop]
    intro k hk
    obtain ⟨i, hi, rfl⟩ := List.getElem_of_mem hk
    rw [List.length_drop] at hi
    rw [List.getElem_drop, hdone (1 + i) (by omega) (by omega) (by omega)]
    rfl

/-- An erased first element exempts the second one. -/
theorem removeSatisfiedLoop_cons (sat : ℕ → Bool) (a : ℕ) (l : List ℕ) :
    removeSatisfiedLoop sat (a :: l) 0 =
      if sat a then l.take 1 ++ (l.drop 1).filter (!sat ·) else a :: l.filter (!sat ·) := by
  have hpos : 0 < (a :: l).length := Nat.succ_pos _
  rw [removeSatisfiedLoop, dif_pos hpos]
  show (if sat a = true then if l.isEmpty then [] else removeSatisfiedLoop sat l 1
    else removeSatisfiedLoop sat (a :: l) 1) = _
  split_ifs with hs he
  · rw [List.isEmpty_iff.mp he]
    rfl
  · exact removeSatisfiedLoop_eq sat l 1 le_rfl fun i _ h₁ h₂ => absurd h₁ (by omega)
  · exact removeSatisfiedLoop_eq sat (a :: l) 1 le_rfl fun i _ h₁ h₂ => absurd h₁ (by omega)

/-- The first two elements of a list are satisfied. -/
def FirstTwoSatisfied (sat : ℕ → Bool) : List ℕ → Prop
  | a :: b :: _ => sat a = true ∧ sat b = true
  | _ => False

theorem removeSatisfiedLoop_eq_filter {sat : ℕ → Bool} {l : List ℕ}
    (h : ¬ FirstTwoSatisfied sat l) :
    removeSatisfiedLoop sat l 0 = l.filter (!sat ·) := by
  match l with
  | [] =>
    rw [removeSatisfiedLoop]
    rfl
  | [a] =>
    rw [removeSatisfiedLoop_cons]
    cases hs : sat a <;> simp [hs]
  | a :: b :: l =>
    rw [removeSatisfiedLoop_cons]
    cases hs : sat a with
    | false => simp [hs]
    | true =>
      have hs' : sat b = false := Bool.eq_false_iff.mpr fun hb => h ⟨hs, hb⟩
      simp [hs, hs']

/-- For every set of clauses and every order in which it is visited,
    `remove_satisfied_horn_clauses` removes exactly the satisfied clauses iff the first two
    clauses are not both satisfied. -/
theorem removeSatisfiedHornClauses_exact_iff (ord : HashOrder) (n : ℕ) (sat : ℕ → Bool)
    (s : List ℕ) :
    (∀ k, k ∈ removeSatisfiedHornClauses ord n sat s ↔ k ∈ s ∧ sat k = false) ↔
      ¬ FirstTwoSatisfied sat (ord.clauses n s) := by
  constructor
  · intro h htwo
    unfold removeSatisfiedHornClauses at h
    match hl : ord.clauses n s with
    | [] => simp [hl, FirstTwoSatisfied] at htwo
    | [a] => simp [hl, FirstTwoSatisfied] at htwo
    | a :: b :: l =>
      rw [hl] at htwo h
      obtain ⟨hs, hs'⟩ := htwo
      -- the second clause is left
      rw [removeSatisfiedLoop_cons, if_pos hs] at h
      have hb := ((h b).mp List.mem_cons_self).2
      rw [hs'] at hb
      cases hb
  · intro h k
    rw [removeSatisfiedHornClauses, removeSatisfiedLoop_eq_filter h, List.mem_filter,
      ord.mem_clauses, Bool.not_eq_true']

/-- Two satisfied clauses: one of them stays. -/
theorem removeSatisfiedHornClauses_keeps_second :
    1 ∈ removeSatisfiedHornClauses .stored 0 (fun _ => true) [0, 1] ∧
      ¬ ∀ k, k ∈ removeSatisfiedHornClauses .stored 0 (fun _ => true) [0, 1] ↔
        k ∈ [0, 1] ∧ (fun _ : ℕ => true) k = false := by
  have hresult : removeSatisfiedHornClauses .stored 0 (fun _ => true) [0, 1] = [1] :=
    removeSatisfiedLoop_cons _ 0 [1]
  rw [hresult]
  refine ⟨List.mem_singleton_self 1, fun h => ?_⟩
  cases ((h 1).mp (List.mem_singleton_self 1)).2

end HiceDt
