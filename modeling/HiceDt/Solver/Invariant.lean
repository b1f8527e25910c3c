import HiceDt.Solver.State

/-!
# What propagation preserves

A call of `solve` is about the points `D`, the heap `m₀` it found and a set
`Cons` of total labellings. Throughout the call the labels set so far and the
live clauses describe exactly the labellings in `Cons`; `positive` and
`negative` are the points labelled since the call started; and outside labels,
markings and clause lists the heap is the one the call found.

Results:

* `Inv.satisfy`, `Inv.shrink`, `Inv.assign`: the three ways in which propagation
  changes the state keep the invariant.
-/

namespace HiceDt.Solver

open HiceDt Horn SolverState

/-! ## The part of the heap that the solver does not touch -/

/-- A data point without the members that the solver writes to. -/
def core (d : Datapoint) : Datapoint :=
  { d with
    isClassified := false, classification := false
    listOfMarking := [], listOfHornConstraints := [] }

/-- A point that a clause may mention. -/
def InScope (D : List Ptr) (x : Ptr) : Prop := x ∈ D ∨ x = .falseDatapoint

/-- The heap `m` differs from `m₀` in labels, markings and clause lists of points
    in scope only. -/
structure Frame (D : List Ptr) (m₀ m : Heap) : Prop where
  core_eq : ∀ x, core (m x) = core (m₀ x)
  other : ∀ x, ¬ InScope D x → m x = m₀ x

theorem Frame.refl (D : List Ptr) (m : Heap) : Frame D m m := ⟨fun _ => rfl, fun _ _ => rfl⟩

theorem Frame.update {D : List Ptr} {m₀ m : Heap} (h : Frame D m₀ m) {x : Ptr}
    (hx : InScope D x) {d : Datapoint} (hd : core d = core (m x)) :
    Frame D m₀ (Function.update m x d) := by
  constructor
  · intro y
    by_cases hy : y = x
    · rw [hy, Function.update_self, hd, h.core_eq]
    · rw [Function.update_of_ne hy, h.core_eq]
  · intro y hy
    have hyx : y ≠ x := by
      intro e
      exact hy (e ▸ hx)
    rw [Function.update_of_ne hyx, h.other y hy]

theorem Frame.setClassification {D : List Ptr} {m₀ m : Heap} (h : Frame D m₀ m) {x : Ptr}
    (hx : InScope D x) (b : Bool) : Frame D m₀ (setClassification m x b).2 := by
  unfold HiceDt.setClassification
  split_ifs
  · exact h
  · exact h
  · exact h.update hx rfl

/-! ## Assigning a label -/

namespace SolverState

/-- What the solver does with a forced label: classify, push, and record the
    point in `positive` or `negative`. -/
def assign (st : SolverState) (y : Ptr) (b : Bool) : SolverState :=
  let st := (st.classify y b).push y
  if b then { st with positive := st.positive.insert y }
  else { st with negative := st.negative.insert y }

variable (st : SolverState) (x y : Ptr) (b : Bool)

theorem label_assign {st : SolverState} {y : Ptr} {b : Bool} (h : st.label y ≠ some !b)
    (x : Ptr) : (st.assign y b).label x = if x = y then some b else st.label x := by
  rw [← label_classify h x]
  cases b <;> rfl

@[simp] theorem mem_assign : (st.assign y b).mem = (setClassification st.mem y b).2 := by
  cases b <;> rfl

@[simp] theorem clause_assign (k : ℕ) : (st.assign y b).clause k = st.clause k := by
  cases b <;> rfl

@[simp] theorem live_assign (k : ℕ) : (st.assign y b).Live k ↔ st.Live k := by
  cases b <;> rfl

@[simp] theorem rule_assign (k : ℕ) : (st.assign y b).rule k = st.rule k := by
  cases b <;> rfl

@[simp] theorem liveCount_assign : (st.assign y b).liveCount = st.liveCount := by
  cases b <;> rfl

@[simp] theorem clausesOf_assign : (st.assign y b).clausesOf x = st.clausesOf x := by
  cases b <;> exact clausesOf_classify ..

@[simp] theorem marking_assign : (st.assign y b).marking x = st.marking x := by
  cases b <;> exact marking_classify ..

@[simp] theorem worklist_assign : (st.assign y b).worklist = y :: st.worklist := by
  cases b <;> rfl

@[simp] theorem computeCurrentMarking_assign :
    (st.assign y b).computeCurrentMarking = st.computeCurrentMarking := by
  cases b <;> rfl

@[simp] theorem copyOfDatapoints_assign :
    (st.assign y b).copyOfDatapoints = st.copyOfDatapoints := by
  cases b <;> rfl

theorem positive_assign :
    (st.assign y b).positive = if b then st.positive.insert y else st.positive := by
  cases b <;> rfl

theorem negative_assign :
    (st.assign y b).negative = if b then st.negative else st.negative.insert y := by
  cases b <;> rfl

end SolverState

/-! ## The invariant -/

variable {D : List Ptr} {m₀ : Heap} {Cons : (Ptr → Bool) → Prop} {st : SolverState}

/-- The labelling `ν` agrees with the labels of the points. -/
def Agrees (D : List Ptr) (st : SolverState) (ν : Ptr → Bool) : Prop :=
  ∀ x ∈ D, ∀ b, st.label x = some b → ν x = b

/-- Clause `k` mentions points in scope only, is listed at each of them, and none
    of them was labelled in `m₀` in a way that satisfies or shrinks the clause. -/
structure WellFormed (D : List Ptr) (m₀ : Heap) (st : SolverState) (k : ℕ) : Prop where
  size : (st.clause k).sizeOfPremises = (st.clause k).premises.length
  premise : ∀ p ∈ (st.clause k).premises,
    p ∈ D ∧ label m₀ p = none ∧ k ∈ st.clausesOf p
  conclusion_scope : InScope D (st.clause k).conclusion
  conclusion_label : label m₀ (st.clause k).conclusion ≠ some true
  conclusion_listed : k ∈ st.clausesOf (st.clause k).conclusion

theorem WellFormed.congr {st' : SolverState} {k : ℕ} (h : WellFormed D m₀ st k)
    (hc : st'.clause k = st.clause k)
    (hlisted : ∀ x, k ∈ st.clausesOf x → k ∈ st'.clausesOf x) : WellFormed D m₀ st' k := by
  obtain ⟨h1, h2, h3, h4, h5⟩ := h
  rw [← hc] at h1 h2 h3 h4 h5
  exact ⟨h1, fun p hp => ⟨(h2 p hp).1, (h2 p hp).2.1, hlisted p (h2 p hp).2.2⟩, h3, h4,
    hlisted _ h5⟩

/-- The invariant of a call of `solve`. -/
structure Inv (D : List Ptr) (m₀ : Heap) (Cons : (Ptr → Bool) → Prop) (st : SolverState) :
    Prop where
  models : ∀ ν : Ptr → Bool, ν .falseDatapoint = false →
    (Cons ν ↔ Agrees D st ν ∧ ∀ k, st.Live k → (st.rule k).Holds ν)
  falseLabel : st.label .falseDatapoint = some false
  keeps : ∀ x ∈ D, ∀ b, label m₀ x = some b → st.label x = some b
  mem_positive : ∀ x, x ∈ st.positive ↔ x ∈ D ∧ label m₀ x = none ∧ st.label x = some true
  mem_negative : ∀ x, x ∈ st.negative ↔ x ∈ D ∧ label m₀ x = none ∧ st.label x = some false
  wellFormed : ∀ k, st.Live k → WellFormed D m₀ st k
  frame : Frame D m₀ st.mem
  copies : st.copyOfDatapoints = D.map fun x => ((m₀ x).classification, (m₀ x).isClassified)

theorem Inv.agrees (h : Inv D m₀ Cons st) {ν : Ptr → Bool} (hν : ν .falseDatapoint = false)
    (hc : Cons ν) {x : Ptr} (hx : InScope D x) {b : Bool} (hb : st.label x = some b) :
    ν x = b := by
  rcases hx with hx | rfl
  · exact ((h.models ν hν).mp hc).1 x hx b hb
  · rw [h.falseLabel, Option.some.injEq] at hb
    rw [hν, hb]

theorem Inv.holds (h : Inv D m₀ Cons st) {ν : Ptr → Bool} (hν : ν .falseDatapoint = false)
    (hc : Cons ν) {k : ℕ} (hk : st.Live k) : (st.rule k).Holds ν :=
  ((h.models ν hν).mp hc).2 k hk

/-- State changes that no field of the invariant sees. -/
theorem Inv.congr {st' : SolverState} (h : Inv D m₀ Cons st)
    (hlabel : ∀ x, st'.label x = st.label x) (hclause : ∀ k, st'.clause k = st.clause k)
    (hlisted : ∀ x k, st.Live k → k ∈ st.clausesOf x → k ∈ st'.clausesOf x)
    (hpos : st'.positive = st.positive) (hneg : st'.negative = st.negative)
    (hcopies : st'.copyOfDatapoints = st.copyOfDatapoints) (hframe : Frame D m₀ st'.mem) :
    Inv D m₀ Cons st' := by
  have hlive : ∀ k, st'.Live k ↔ st.Live k := by
    intro k
    unfold Live
    rw [hclause]
  have hrule : ∀ k, st'.rule k = st.rule k := by
    intro k
    unfold rule
    rw [hclause]
  refine ⟨?_, ?_, ?_, ?_, ?_, ?_, hframe, hcopies.trans h.copies⟩
  · intro ν hν
    rw [h.models ν hν]
    unfold Agrees
    simp only [hlabel, hlive, hrule]
  · rw [hlabel]; exact h.falseLabel
  · intro x hx b hb
    rw [hlabel]; exact h.keeps x hx b hb
  · intro x
    rw [hpos, hlabel]; exact h.mem_positive x
  · intro x
    rw [hneg, hlabel]; exact h.mem_negative x
  · intro k hk
    have hk' := (hlive k).mp hk
    exact (h.wellFormed k hk').congr (hclause k) fun x => hlisted x k hk'

theorem Inv.tick (h : Inv D m₀ Cons st) : Inv D m₀ Cons st.tick :=
  h.congr (fun _ => rfl) (fun _ => rfl) (fun _ _ _ hk => hk) rfl rfl rfl h.frame

theorem Inv.setMarkings (h : Inv D m₀ Cons st) {M : Ptr → List Ptr}
    (hM : ∀ x, ¬ InScope D x → M x = st.marking x) (n : ℕ) :
    Inv D m₀ Cons (st.setMarkings M n) := by
  refine h.congr (fun _ => rfl) (fun _ => rfl) (fun _ _ _ hk => hk) rfl rfl rfl ⟨?_, ?_⟩
  · exact fun x => (h.frame.core_eq x)
  · intro x hx
    rw [← h.frame.other x hx]
    unfold SolverState.setMarkings
    simp only [hM x hx]
    rfl

/-- A clause that the labels satisfy may be switched off. -/
theorem Inv.satisfy (h : Inv D m₀ Cons st) {k : ℕ}
    (hk : ∀ ν : Ptr → Bool, ν .falseDatapoint = false → Agrees D st ν → (st.rule k).Holds ν) :
    Inv D m₀ Cons (st.satisfy k) := by
  have hrule : ∀ j, (st.satisfy k).Live j → (st.satisfy k).rule j = st.rule j := by
    intro j hj
    unfold rule
    rw [clause_satisfy_of_live hj]
  refine ⟨?_, h.falseLabel, h.keeps, h.mem_positive, h.mem_negative, ?_, h.frame, h.copies⟩
  · intro ν hν
    rw [h.models ν hν]
    constructor
    · intro ⟨ha, hr⟩
      refine ⟨ha, fun j hj => ?_⟩
      rw [hrule j hj]
      exact hr j (live_satisfy.mp hj).2
    · intro ⟨ha, hr⟩
      refine ⟨ha, fun j hj => ?_⟩
      by_cases hjk : j = k
      · rw [hjk]; exact hk ν hν ha
      · have hj' : (st.satisfy k).Live j := live_satisfy.mpr ⟨hjk, hj⟩
        have := hr j hj'
        rwa [hrule j hj'] at this
  · intro j hj
    exact (h.wellFormed j (live_satisfy.mp hj).2).congr (clause_satisfy_of_live hj)
      fun _ hx => hx

/-- The clause `c` without the premise `x` (`remove_from_vector`). -/
def HornCopy.without (c : HornCopy) (x : Ptr) : HornCopy :=
  { c with
    premises := removeFromVector c.premises x
    sizeOfPremises := (removeFromVector c.premises x).length }

theorem mem_removeFromVector {v : List Ptr} {x p : Ptr} :
    p ∈ removeFromVector v x ↔ p ∈ v ∧ p ≠ x := by
  simp [removeFromVector]

/-- A premise that is labelled true may be removed. -/
theorem Inv.shrink (h : Inv D m₀ Cons st) {k : ℕ} (hk : st.Live k) {x : Ptr}
    (hx : st.label x = some true) : Inv D m₀ Cons (st.setClause k ((st.clause k).without x)) := by
  have hclause := clause_setClause hk.lt ((st.clause k).without x)
  have hlive : ∀ j, (st.setClause k ((st.clause k).without x)).Live j ↔ st.Live j := by
    intro j
    unfold Live
    rw [hclause]
    split_ifs with hj
    · rw [hj]; rfl
    · rfl
  have hwf := h.wellFormed k hk
  refine ⟨?_, h.falseLabel, h.keeps, h.mem_positive, h.mem_negative, ?_, h.frame, h.copies⟩
  · intro ν hν
    rw [h.models ν hν]
    refine and_congr_right fun ha => forall_congr' fun j => ?_
    rw [hlive]
    refine imp_congr_right fun _ => ?_
    unfold rule
    rw [hclause]
    split_ifs with hj
    · subst hj
      unfold Rule.Holds
      simp only [HornCopy.without, mem_removeFromVector]
      constructor
      · intro hr hp
        refine hr fun p hpk => ?_
        by_cases hpx : p = x
        · subst hpx
          exact ha p (hwf.premise p hpk).1 true hx
        · exact hp p ⟨hpk, hpx⟩
      · intro hr hp
        exact hr fun p hpk => hp p hpk.1
    · rfl
  · intro j hj
    have hc := hclause j
    by_cases hjk : j = k
    · rw [if_pos hjk] at hc
      subst hjk
      constructor
      · rw [hc]; rfl
      · rw [hc]
        intro p hp
        exact hwf.premise p (mem_removeFromVector.mp hp).1
      · rw [hc]; exact hwf.conclusion_scope
      · rw [hc]; exact hwf.conclusion_label
      · rw [hc]; exact hwf.conclusion_listed
    · rw [if_neg hjk] at hc
      exact (h.wellFormed j ((hlive j).mp hj)).congr hc fun _ hx => hx

/-- A label that all labellings in `Cons` share may be assigned. -/
theorem Inv.assign (h : Inv D m₀ Cons st) {y : Ptr} {b : Bool} (hy : y ∈ D)
    (hne : y ≠ .falseDatapoint) (hgiven : label m₀ y = none) (hlab : st.label y ≠ some !b)
    (hforced : ∀ ν : Ptr → Bool, ν .falseDatapoint = false → Cons ν → ν y = b) :
    Inv D m₀ Cons (st.assign y b) := by
  have hl := label_assign hlab
  refine ⟨?_, ?_, ?_, ?_, ?_, ?_, ?_, ?_⟩
  · intro ν hν
    simp only [live_assign, rule_assign]
    constructor
    · intro hc
      refine ⟨fun x hx c hxc => ?_, ((h.models ν hν).mp hc).2⟩
      rw [hl] at hxc
      split_ifs at hxc with hxy
      · rw [hxy, hforced ν hν hc]
        exact Option.some.inj hxc
      · exact ((h.models ν hν).mp hc).1 x hx c hxc
    · intro ⟨ha, hr⟩
      refine (h.models ν hν).mpr ⟨fun x hx c hxc => ?_, hr⟩
      apply ha x hx c
      rw [hl]
      split_ifs with hxy
      · -- the old label of `y`, if any, is the new one
        rw [hxy] at hxc
        rw [hxc] at hlab
        cases b <;> cases c <;> simp_all
      · exact hxc
  · rw [hl, if_neg hne.symm]
    exact h.falseLabel
  · intro x hx c hxc
    rw [hl]
    split_ifs with hxy
    · rw [hxy, hgiven] at hxc
      simp at hxc
    · exact h.keeps x hx c hxc
  · intro x
    rw [positive_assign, hl]
    by_cases hxy : x = y
    · subst hxy
      cases b with
      | true => simp [hy, hgiven]
      | false =>
        simp only [Bool.false_eq_true, if_false, if_true, Option.some.injEq, and_false, iff_false]
        intro hp
        exact hlab ((h.mem_positive x).mp hp).2.2
    · rw [if_neg hxy]
      cases b <;> simp [hxy, h.mem_positive]
  · intro x
    rw [negative_assign, hl]
    by_cases hxy : x = y
    · subst hxy
      cases b with
      | false => simp [hy, hgiven]
      | true =>
        simp only [if_true, Option.some.injEq, and_false, iff_false, Bool.true_eq_false]
        intro hp
        exact hlab ((h.mem_negative x).mp hp).2.2
    · rw [if_neg hxy]
      cases b <;> simp [hxy, h.mem_negative]
  · intro k hk
    refine (h.wellFormed k ((live_assign ..).mp hk)).congr (clause_assign ..) fun x hx => ?_
    rw [clausesOf_assign]
    exact hx
  · rw [mem_assign]
    exact h.frame.setClassification (.inl hy) b
  · rw [copyOfDatapoints_assign]
    exact h.copies

end HiceDt.Solver
