import HiceDt.Solver.Invariant
import HiceDt.Solver.Marking

/-!
# Propagation of true labels

The worklist is a stack that starts with the negative points below the positive
ones. Points labelled true are therefore propagated first, and while they are,
only points labelled true are pushed. A conflict can only be found here.

Results:

* `propagateTrueClassification_spec`: the body of the loop over the clauses of a
  true point keeps `TruePhase` or refutes the constraints.
* `processVariable_true`: so does the whole iteration, which decreases
  `workLeft`.
-/

namespace HiceDt.Solver

open HiceDt Horn SolverState

variable {D : List Ptr} {m₀ : Heap} {Cons : (Ptr → Bool) → Prop} {st st' : SolverState}

/-- Clause `k` mentions `x`. -/
def Occurs (st : SolverState) (x : Ptr) (k : ℕ) : Prop :=
  x ∈ (st.clause k).premises ∨ (st.clause k).conclusion = x

theorem Inv.listed (h : Inv D m₀ Cons st) {x : Ptr} {k : ℕ} (hk : st.Live k)
    (hx : Occurs st x k) : k ∈ st.clausesOf x := by
  rcases hx with hx | rfl
  · exact ((h.wellFormed k hk).premise x hx).2.2
  · exact (h.wellFormed k hk).conclusion_listed

theorem Inv.scope (h : Inv D m₀ Cons st) {x : Ptr} {k : ℕ} (hk : st.Live k)
    (hx : Occurs st x k) : InScope D x := by
  rcases hx with hx | rfl
  · exact .inl ((h.wellFormed k hk).premise x hx).1
  · exact (h.wellFormed k hk).conclusion_scope

theorem occurs_satisfy {k j : ℕ} {y : Ptr} (hj : (st.satisfy k).Live j)
    (h : Occurs (st.satisfy k) y j) : Occurs st y j := by
  unfold Occurs at h
  rwa [clause_satisfy_of_live hj] at h

/-! ## The amount of work left -/

/-- The number of unlabelled points. -/
def unlabelled (D : List Ptr) (st : SolverState) : ℕ :=
  (D.toFinset.filter fun x => st.label x = none).card

/-- Every iteration of the loop decreases this number. -/
def workLeft (D : List Ptr) (st : SolverState) : ℕ :=
  st.worklist.length + st.liveCount + unlabelled D st

theorem unlabelled_assign_le {y : Ptr} {b : Bool} (h : st.label y ≠ some !b) :
    unlabelled D (st.assign y b) ≤ unlabelled D st := by
  apply Finset.card_le_card
  intro x hx
  rw [Finset.mem_filter, label_assign h] at hx
  rw [Finset.mem_filter]
  refine ⟨hx.1, ?_⟩
  split_ifs at hx with hxy
  · simp at hx
  · exact hx.2

theorem unlabelled_assign_lt {y : Ptr} {b : Bool} (hy : y ∈ D) (h : st.label y = none) :
    unlabelled D (st.assign y b) < unlabelled D st := by
  have hne : st.label y ≠ some !b := by rw [h]; simp
  apply Finset.card_lt_card
  refine ⟨fun x hx => ?_, fun hsub => ?_⟩
  · rw [Finset.mem_filter, label_assign hne] at hx
    rw [Finset.mem_filter]
    refine ⟨hx.1, ?_⟩
    split_ifs at hx with hxy
    · simp at hx
    · exact hx.2
  · have hin : y ∈ D.toFinset.filter fun x => st.label x = none := by
      simp [hy, h]
    have := hsub hin
    rw [Finset.mem_filter, label_assign hne] at this
    simp at this

theorem workLeft_satisfy {k : ℕ} (hk : st.Live k) :
    workLeft D (st.satisfy k) + 1 = workLeft D st := by
  have h := liveCount_satisfy hk
  have hu : unlabelled D (st.satisfy k) = unlabelled D st := rfl
  have hw : (st.satisfy k).worklist = st.worklist := rfl
  unfold workLeft
  rw [hu, hw]
  omega

/-! ## The phase of the true points -/

/-- The invariant while points labelled true are propagated. `pending x k` says
    that `x` has been popped and clause `k` has not yet been visited. -/
structure TruePhase (D : List Ptr) (m₀ : Heap) (Cons : (Ptr → Bool) → Prop) (N : List Ptr)
    (pending : Ptr → ℕ → Prop) (st : SolverState) : Prop where
  inv : Inv D m₀ Cons st
  flag : st.computeCurrentMarking = true
  selfMarked : SelfMarked D st
  negative_eq : st.negative = N
  nonempty : ∀ k, st.Live k → (st.clause k).premises ≠ []
  scope : ∀ x ∈ st.worklist, InScope D x
  worklist : ∃ A B, st.worklist = A ++ B ∧ (∀ x ∈ A, st.label x = some true) ∧
    ∀ x ∈ B, st.label x = some false
  false_settled : ∀ x k, st.Live k → st.label x = some false →
    x ∈ st.worklist ∨ ¬ Occurs st x k
  true_settled : ∀ x k, st.Live k → st.label x = some true →
    x ∈ st.worklist ∨ pending x k ∨ ¬ Occurs st x k

/-- What is left when a conflict has been found. -/
structure Refuted (D : List Ptr) (m₀ : Heap) (Cons : (Ptr → Bool) → Prop) (N : List Ptr)
    (st : SolverState) : Prop where
  unsatisfiable : ∀ ν : Ptr → Bool, ν .falseDatapoint = false → ¬ Cons ν
  falseLabel : st.label .falseDatapoint = some false
  negative_eq : st.negative = N
  frame : Frame D m₀ st.mem
  copies : st.copyOfDatapoints = D.map fun x => ((m₀ x).classification, (m₀ x).isClassified)

/-- A step that pushes the newly true points `new` and lets clauses shrink. -/
theorem TruePhase.step {N : List Ptr} {pending pending' : Ptr → ℕ → Prop}
    (h : TruePhase D m₀ Cons N pending st) (new : List Ptr) (hinv : Inv D m₀ Cons st')
    (hflag : st'.computeCurrentMarking = st.computeCurrentMarking)
    (hmark : ∀ x, st'.marking x = st.marking x) (hneg : st'.negative = st.negative)
    (hlive : ∀ j, st'.Live j → st.Live j)
    (hnonempty : ∀ j, st'.Live j → (st'.clause j).premises ≠ [])
    (hoccurs : ∀ j y, st'.Live j → Occurs st' y j → Occurs st y j)
    (hfalse : ∀ y, st'.label y = some false ↔ st.label y = some false)
    (htrue : ∀ y, st'.label y = some true ↔ st.label y = some true ∨ y ∈ new)
    (hwork : st'.worklist = new ++ st.worklist) (hscope : ∀ y ∈ new, InScope D y)
    (hpend : ∀ y j, st'.Live j → pending y j → pending' y j ∨ ¬ Occurs st' y j) :
    TruePhase D m₀ Cons N pending' st' := by
  refine ⟨hinv, hflag.trans h.flag, ?_, hneg.trans h.negative_eq, hnonempty, ?_, ?_, ?_, ?_⟩
  · unfold SelfMarked
    simp only [hmark]
    exact h.selfMarked
  · intro x hx
    rw [hwork] at hx
    rcases List.mem_append.mp hx with hx | hx
    · exact hscope x hx
    · exact h.scope x hx
  · obtain ⟨A, B, hAB, hA, hB⟩ := h.worklist
    refine ⟨new ++ A, B, ?_, ?_, ?_⟩
    · rw [hwork, hAB, List.append_assoc]
    · intro x hx
      rcases List.mem_append.mp hx with hx | hx
      · exact (htrue x).mpr (.inr hx)
      · exact (htrue x).mpr (.inl (hA x hx))
    · exact fun x hx => (hfalse x).mpr (hB x hx)
  · intro x k hk hx
    rcases h.false_settled x k (hlive k hk) ((hfalse x).mp hx) with hw | hno
    · exact .inl (by rw [hwork]; exact List.mem_append_right _ hw)
    · exact .inr fun ho => hno (hoccurs k x hk ho)
  · intro x k hk hx
    rcases (htrue x).mp hx with hx | hx
    · rcases h.true_settled x k (hlive k hk) hx with hw | hp | hno
      · exact .inl (by rw [hwork]; exact List.mem_append_right _ hw)
      · exact .inr (hpend x k hk hp)
      · exact .inr (.inr fun ho => hno (hoccurs k x hk ho))
    · exact .inl (by rw [hwork]; exact List.mem_append_left _ hx)

/-- A step that changes neither clauses nor labels nor the worklist. -/
theorem TruePhase.pass {N : List Ptr} {pending pending' : Ptr → ℕ → Prop}
    (h : TruePhase D m₀ Cons N pending st) (hinv : Inv D m₀ Cons st')
    (hflag : st'.computeCurrentMarking = st.computeCurrentMarking)
    (hmark : ∀ x, st'.marking x = st.marking x) (hneg : st'.negative = st.negative)
    (hclause : ∀ j, st'.clause j = st.clause j) (hlabel : ∀ y, st'.label y = st.label y)
    (hwork : st'.worklist = st.worklist)
    (hpend : ∀ y j, st'.Live j → pending y j → pending' y j ∨ ¬ Occurs st' y j) :
    TruePhase D m₀ Cons N pending' st' := by
  have hlive : ∀ j, st'.Live j → st.Live j := by
    intro j hj
    unfold Live at hj ⊢
    rwa [hclause] at hj
  refine h.step [] hinv hflag hmark hneg hlive ?_ ?_ (fun y => by rw [hlabel])
    (fun y => by simp [hlabel]) hwork (by simp) hpend
  · intro j hj
    rw [hclause]
    exact h.nonempty j (hlive j hj)
  · intro j y hj ho
    unfold Occurs at ho
    rwa [hclause] at ho

/-- A step that only changes what is pending. -/
theorem TruePhase.weaken {N : List Ptr} {pending pending' : Ptr → ℕ → Prop}
    (h : TruePhase D m₀ Cons N pending st)
    (hpend : ∀ y j, st.Live j → pending y j → pending' y j ∨ ¬ Occurs st y j) :
    TruePhase D m₀ Cons N pending' st :=
  h.pass h.inv rfl (fun _ => rfl) rfl (fun _ => rfl) (fun _ => rfl) rfl hpend

/-- What a visit of clause `k` by the point `x`, labelled `b`, leaves as it was. -/
structure Visited (D : List Ptr) (x : Ptr) (b : Bool) (st st' : SolverState) : Prop where
  label : st'.label x = some b
  clausesOf : ∀ y, st'.clausesOf y = st.clausesOf y
  work : workLeft D st' ≤ workLeft D st

theorem TruePhase.conclusion_unlabelled {N : List Ptr} {pending : Ptr → ℕ → Prop} {k : ℕ}
    (h : TruePhase D m₀ Cons N pending st) (hk : st.Live k)
    (hc : st.label (st.clause k).conclusion ≠ some false) :
    (st.clause k).conclusion ∈ D ∧ (st.clause k).conclusion ≠ .falseDatapoint ∧
      HiceDt.label m₀ (st.clause k).conclusion = none := by
  have hne : (st.clause k).conclusion ≠ .falseDatapoint := by
    intro e
    rw [e] at hc
    exact hc h.inv.falseLabel
  have hwf := h.inv.wellFormed k hk
  have hD : (st.clause k).conclusion ∈ D := hwf.conclusion_scope.resolve_right hne
  refine ⟨hD, hne, ?_⟩
  cases hl : HiceDt.label m₀ (st.clause k).conclusion with
  | none => rfl
  | some b =>
    cases b with
    | true => exact absurd hl hwf.conclusion_label
    | false => exact absurd (h.inv.keeps _ hD _ hl) hc

theorem propagateTrueClassification_eq (x : Ptr) (k : ℕ) (st : SolverState) :
    propagateTrueClassification x k st =
      if (st.clause k).conclusion = x then some (true, st.satisfy k)
      else if (removeFromVector (st.clause k).premises x).length = 0 then
        if ((st.setClause k ((st.clause k).without x)).classify (st.clause k).conclusion
            true).hornConstraintsSatisfiability = true then
          some (true, ((st.setClause k ((st.clause k).without x)).assign (st.clause k).conclusion
            true).satisfy k)
        else some (false, (st.setClause k ((st.clause k).without x)).classify
          (st.clause k).conclusion true)
      else some (true, st.setClause k ((st.clause k).without x)) := rfl

/-! ## One visit of a clause -/

/-- The clause loses a premise, and all clauses stay live. -/
theorem live_without {x : Ptr} {k j : ℕ} (hk : st.Live k) :
    (st.setClause k ((st.clause k).without x)).Live j ↔ st.Live j := by
  unfold Live
  rw [clause_setClause hk.lt]
  split_ifs with hj
  · rw [hj]
    rfl
  · rfl

theorem occurs_without {x y : Ptr} {k j : ℕ} (hk : st.Live k)
    (ho : Occurs (st.setClause k ((st.clause k).without x)) y j) : Occurs st y j := by
  unfold Occurs at ho ⊢
  rw [clause_setClause hk.lt] at ho
  split_ifs at ho with hj
  · subst hj
    exact ho.imp (fun hm => (mem_removeFromVector.mp hm).1) id
  · exact ho

/-- If the last premise is true, then so is the conclusion. -/
theorem Inv.forced (h : Inv D m₀ Cons st) {x : Ptr} {k : ℕ} (hk : st.Live k)
    (hx : st.label x = some true) (hempty : (removeFromVector (st.clause k).premises x).length = 0)
    {ν : Ptr → Bool} (hν : ν .falseDatapoint = false) (hc : Cons ν) :
    ν (st.clause k).conclusion = true := by
  have hprem : ((st.setClause k ((st.clause k).without x)).clause k).premises = [] := by
    rw [clause_setClause hk.lt, if_pos rfl]
    exact List.length_eq_zero_iff.mp hempty
  have hconcl : ((st.setClause k ((st.clause k).without x)).clause k).conclusion =
      (st.clause k).conclusion := by
    rw [clause_setClause hk.lt, if_pos rfl]
    rfl
  rw [← hconcl]
  refine (h.shrink hk hx).holds hν hc ((live_without hk).mpr hk) fun p hp => ?_
  have hp' : p ∈ ((st.setClause k ((st.clause k).without x)).clause k).premises := hp
  rw [hprem] at hp'
  cases hp'

section Visit

variable {N : List Ptr} {pending : Ptr → ℕ → Prop} {x : Ptr} {k : ℕ}

/-- The conclusion is the point: the clause is satisfied. -/
theorem TruePhase.satisfied (h : TruePhase D m₀ Cons N pending st) (hk : st.Live k)
    (hx : st.label x = some true) (hconcl : (st.clause k).conclusion = x) :
    TruePhase D m₀ Cons N (fun y j => pending y j ∧ ¬ (y = x ∧ j = k)) (st.satisfy k) ∧
      Visited D x true st (st.satisfy k) := by
  constructor
  · refine h.step [] (h.inv.satisfy ?_) rfl (fun _ => rfl) rfl
      (fun j hj => (live_satisfy.mp hj).2) ?_ (fun j y hj ho => occurs_satisfy hj ho)
      (fun _ => Iff.rfl) (fun y => by simp [SolverState.label, SolverState.satisfy,
        SolverState.setClause]) rfl (by simp) ?_
    · intro ν hν ha _
      have hD : x ∈ D := by
        rcases h.inv.scope hk (.inr hconcl) with hD | rfl
        · exact hD
        · rw [h.inv.falseLabel] at hx
          cases hx
      show ν (st.clause k).conclusion = true
      rw [hconcl]
      exact ha x hD true hx
    · intro j hj
      rw [clause_satisfy_of_live hj]
      exact h.nonempty j (live_satisfy.mp hj).2
    · intro y j hj hp
      exact .inl ⟨hp, fun e => (live_satisfy.mp hj).1 e.2⟩
  · refine ⟨hx, fun _ => rfl, ?_⟩
    have := workLeft_satisfy (D := D) hk
    omega

/-- All premises are true and the conclusion is labelled false. -/
theorem TruePhase.conflict (h : TruePhase D m₀ Cons N pending st) (hk : st.Live k)
    (hx : st.label x = some true) (hempty : (removeFromVector (st.clause k).premises x).length = 0)
    (hlab : st.label (st.clause k).conclusion = some false) :
    Refuted D m₀ Cons N ((st.setClause k ((st.clause k).without x)).classify
      (st.clause k).conclusion true) := by
  have hmem : ((st.setClause k ((st.clause k).without x)).classify
      (st.clause k).conclusion true).mem = st.mem := setClassification_of_label hlab true
  refine ⟨fun ν hν hc => ?_, ?_, h.negative_eq, ?_, h.inv.copies⟩
  · have hfalse := h.inv.agrees hν hc (h.inv.scope hk (.inr rfl)) hlab
    rw [h.inv.forced hk hx hempty hν hc] at hfalse
    cases hfalse
  · unfold SolverState.label
    rw [hmem]
    exact h.inv.falseLabel
  · rw [hmem]
    exact h.inv.frame

/-- Labelling the conclusion and satisfying the clause is a step of the visit of `x`. -/
theorem visited_derives (hk : st.Live k) (hx : st.label x = some true)
    (hlab : st.label (st.clause k).conclusion ≠ some false) {s₂ : SolverState}
    (hs₂ : s₂ = (st.setClause k ((st.clause k).without x)).assign (st.clause k).conclusion true) :
    Visited D x true st (s₂.satisfy k) := by
  set s₁ := st.setClause k ((st.clause k).without x) with hs₁
  have hlab₁ : s₁.label (st.clause k).conclusion ≠ some !true := hlab
  have hk₂ : s₂.Live k := hs₂ ▸ (live_assign ..).mpr ((live_without hk).mpr hk)
  refine ⟨?_, ?_, ?_⟩
  · show s₂.label x = some true
    rw [hs₂, label_assign hlab₁]
    split_ifs
    · rfl
    · exact hx
  · rw [hs₂]
    exact fun y => clausesOf_assign s₁ y _ true
  · have h1 := workLeft_satisfy (D := D) hk₂
    have h2 : unlabelled D s₂ ≤ unlabelled D s₁ := hs₂ ▸ unlabelled_assign_le hlab₁
    have h3 : s₂.worklist.length = st.worklist.length + 1 := by
      rw [hs₂, worklist_assign]
      rfl
    have h4 : s₂.liveCount = st.liveCount := by
      rw [hs₂, liveCount_assign]
      exact liveCount_setClause hk hk
    have h5 : unlabelled D s₁ = unlabelled D st := rfl
    unfold workLeft at h1 ⊢
    omega

/-- All premises are true: the conclusion is labelled, and the clause is satisfied. -/
theorem TruePhase.derives (h : TruePhase D m₀ Cons N pending st) (hk : st.Live k)
    (hx : st.label x = some true) (hempty : (removeFromVector (st.clause k).premises x).length = 0)
    (hlab : st.label (st.clause k).conclusion ≠ some false) {s₂ : SolverState}
    (hs₂ : s₂ = (st.setClause k ((st.clause k).without x)).assign (st.clause k).conclusion true) :
    TruePhase D m₀ Cons N (fun y j => pending y j ∧ ¬ (y = x ∧ j = k)) (s₂.satisfy k) := by
  obtain ⟨hD, hne, hgiven⟩ := h.conclusion_unlabelled hk hlab
  set s₁ := st.setClause k ((st.clause k).without x) with hs₁
  set c := (st.clause k).conclusion with hc
  have hlab₁ : s₁.label c ≠ some !true := hlab
  have hinv₂ : Inv D m₀ Cons s₂ :=
    hs₂ ▸ (h.inv.shrink hk hx).assign hD hne hgiven hlab₁ fun ν => h.inv.forced hk hx hempty
  have hl₂ : ∀ y, s₂.label y = if y = c then some true else s₁.label y := by
    rw [hs₂]
    exact label_assign hlab₁
  have hconcl₂ : (s₂.clause k).conclusion = c := by
    rw [hs₂, clause_assign, hs₁, clause_setClause hk.lt, if_pos rfl]
    rfl
  have hlive₂ : ∀ j, (s₂.satisfy k).Live j → j ≠ k ∧ st.Live j := by
    intro j hj
    obtain ⟨hjk, hj⟩ := live_satisfy.mp hj
    rw [hs₂] at hj
    exact ⟨hjk, (live_without hk).mp ((live_assign ..).mp hj)⟩
  have hclause₂ : ∀ j, (s₂.satisfy k).Live j → (s₂.satisfy k).clause j = st.clause j := by
    intro j hj
    rw [clause_satisfy_of_live hj, hs₂, clause_assign, hs₁, clause_setClause hk.lt,
      if_neg (hlive₂ j hj).1]
  refine h.step [c] (hinv₂.satisfy ?_) ?_ ?_ ?_ (fun j hj => (hlive₂ j hj).2) ?_ ?_ ?_ ?_ ?_ ?_ ?_
  · intro ν _ ha _
    show ν (s₂.clause k).conclusion = true
    rw [hconcl₂]
    exact ha c hD true (by rw [hl₂, if_pos rfl])
  · rw [hs₂]
    exact computeCurrentMarking_assign ..
  · rw [hs₂]
    exact fun y => marking_assign s₁ y c true
  · rw [hs₂]
    exact negative_assign s₁ c true
  · intro j hj
    rw [hclause₂ j hj]
    exact h.nonempty j (hlive₂ j hj).2
  · intro j y hj ho
    unfold Occurs at ho
    rwa [hclause₂ j hj] at ho
  · intro y
    show s₂.label y = some false ↔ _
    rw [hl₂]
    split_ifs with hy
    · rw [hy]
      exact ⟨fun e => (by cases e), fun e => absurd e hlab⟩
    · rfl
  · intro y
    show s₂.label y = some true ↔ _
    rw [hl₂, List.mem_singleton]
    split_ifs with hy
    · simp [hy]
    · simp only [hy, or_false]
      rfl
  · rw [hs₂]
    exact worklist_assign s₁ c true
  · intro y hy
    rw [List.mem_singleton.mp hy]
    exact .inl hD
  · intro y j hj hp
    exact .inl ⟨hp, fun e => (hlive₂ j hj).1 e.2⟩

/-- Other premises are left: the point is removed from the premises. -/
theorem TruePhase.shrinks (h : TruePhase D m₀ Cons N pending st) (hk : st.Live k)
    (hx : st.label x = some true) (hconcl : (st.clause k).conclusion ≠ x)
    (hne : (removeFromVector (st.clause k).premises x).length ≠ 0) {s₁ : SolverState}
    (hs₁ : s₁ = st.setClause k ((st.clause k).without x)) :
    TruePhase D m₀ Cons N (fun y j => pending y j ∧ ¬ (y = x ∧ j = k)) s₁ ∧
      Visited D x true st s₁ := by
  subst hs₁
  constructor
  · refine h.step [] (h.inv.shrink hk hx) rfl (fun _ => rfl) rfl
      (fun j hj => (live_without hk).mp hj) ?_ (fun j y _ ho => occurs_without hk ho)
      (fun _ => Iff.rfl) (fun y => by simp [SolverState.label, SolverState.setClause]) rfl
      (by simp) ?_
    · intro j hj
      rw [clause_setClause hk.lt]
      split_ifs with hjk
      · exact fun e => hne (List.length_eq_zero_iff.mpr e)
      · exact h.nonempty j ((live_without hk).mp hj)
    · intro y j hj hp
      by_cases e : y = x ∧ j = k
      · refine .inr ?_
        obtain ⟨rfl, rfl⟩ := e
        unfold Occurs
        rw [clause_setClause hk.lt, if_pos rfl]
        rintro (ho | ho)
        · exact (mem_removeFromVector.mp ho).2 rfl
        · exact hconcl ho
      · exact .inl ⟨hp, e⟩
  · refine ⟨hx, fun _ => rfl, ?_⟩
    have h1 := liveCount_setClause (c := (st.clause k).without x) hk hk
    have h2 : (st.setClause k ((st.clause k).without x)).worklist = st.worklist := rfl
    have h3 : unlabelled D (st.setClause k ((st.clause k).without x)) = unlabelled D st := rfl
    unfold workLeft
    rw [h1, h2, h3]

/-- `propagate_true_classification` on a live clause. -/
theorem propagateTrueClassification_spec (h : TruePhase D m₀ Cons N pending st)
    (hk : st.Live k) (hx : st.label x = some true) :
    ∃ r s', propagateTrueClassification x k st = some (r, s') ∧
      (r = true → TruePhase D m₀ Cons N (fun y j => pending y j ∧ ¬ (y = x ∧ j = k)) s' ∧
        Visited D x true st s') ∧
      (r = false → Refuted D m₀ Cons N s') := by
  rw [propagateTrueClassification_eq]
  by_cases hconcl : (st.clause k).conclusion = x
  · rw [if_pos hconcl]
    exact ⟨true, _, rfl, fun _ => h.satisfied hk hx hconcl, by simp⟩
  rw [if_neg hconcl]
  by_cases hempty : (removeFromVector (st.clause k).premises x).length = 0
  · rw [if_pos hempty]
    by_cases hlab : st.label (st.clause k).conclusion = some false
    · rw [if_neg fun hok => classify_satisfiability.mp hok hlab]
      exact ⟨false, _, rfl, by simp, fun _ => h.conflict hk hx hempty hlab⟩
    · rw [if_pos (classify_satisfiability.mpr hlab)]
      exact ⟨true, _, rfl, fun _ => ⟨h.derives hk hx hempty hlab rfl,
        visited_derives hk hx hlab rfl⟩, by simp⟩
  · rw [if_neg hempty]
    exact ⟨true, _, rfl, fun _ => h.shrinks hk hx hconcl hempty rfl, by simp⟩

end Visit

/-! ## One iteration of the loop -/

/-- `x` keeps the clauses in `kept` only (`remove_satisfied_horn_clauses`), and the
    loop over them is about to start. -/
def relist (st : SolverState) (x : Ptr) (kept : List ℕ) : SolverState :=
  { st with
    mem := Function.update st.mem x { st.mem x with listOfHornConstraints := kept }
    clock := st.clock + 2 }

theorem label_relist (x y : Ptr) (kept : List ℕ) : (relist st x kept).label y = st.label y := by
  by_cases hy : y = x
  · subst hy
    simp [relist, SolverState.label, HiceDt.label, Datapoint.label]
  · simp [relist, SolverState.label, HiceDt.label, Function.update_of_ne hy]

theorem marking_relist (x y : Ptr) (kept : List ℕ) :
    (relist st x kept).marking y = st.marking y := by
  by_cases hy : y = x
  · subst hy
    simp [relist, SolverState.marking]
  · simp [relist, SolverState.marking, Function.update_of_ne hy]

theorem clausesOf_relist (x y : Ptr) (kept : List ℕ) :
    (relist st x kept).clausesOf y = if y = x then kept else st.clausesOf y := by
  by_cases hy : y = x
  · subst hy
    simp [relist, SolverState.clausesOf]
  · simp [relist, SolverState.clausesOf, hy]

theorem workLeft_relist (x : Ptr) (kept : List ℕ) :
    workLeft D (relist st x kept) = workLeft D st := by
  have hu : unlabelled D (relist st x kept) = unlabelled D st := by
    unfold unlabelled
    simp only [label_relist]
  unfold workLeft
  rw [hu]
  rfl

theorem Inv.relist (h : Inv D m₀ Cons st) {x : Ptr} (hx : InScope D x) {kept : List ℕ}
    (hkept : ∀ k, st.Live k → k ∈ st.clausesOf x → k ∈ kept) :
    Inv D m₀ Cons (relist st x kept) := by
  refine h.congr (fun y => label_relist x y kept) (fun _ => rfl) ?_ rfl rfl rfl
    (h.frame.update hx rfl)
  intro y k hk hy
  rw [clausesOf_relist]
  split_ifs with e
  · rw [e] at hy
    exact hkept k hk hy
  · exact hy

/-- The clauses that `x` keeps. -/
def keptClauses (ord : HashOrder) (st : SolverState) (x : Ptr) : List ℕ :=
  removeSatisfiedHornClauses ord st.clock (fun k => (st.clause k).satisfiable) (st.clausesOf x)

theorem mem_keptClauses (ord : HashOrder) {x : Ptr} {k : ℕ} (hk : st.Live k)
    (hx : k ∈ st.clausesOf x) : k ∈ keptClauses ord st x :=
  (mem_removeSatisfiedHornClauses ord _ _ _).2 hk hx

theorem processVariable_eq (ord : HashOrder) (fuel : ℕ) {x : Ptr} {b : Bool}
    (hx : st.label x = some b) :
    processVariable ord fuel x st =
      if (st.clausesOf x).isEmpty then some (true, st)
      else Loop.forEach (unlessSatisfied (if b then propagateTrueClassification x
          else propagateFalseClassification ord fuel x))
        (ord.clauses (st.clock + 1) (keptClauses ord st x))
        (relist st x (keptClauses ord st x)) := by
  have hb : (st.mem x).classification = b := by
    unfold SolverState.label HiceDt.label Datapoint.label at hx
    split_ifs at hx
    exact Option.some.inj hx
  have hb' : ((relist st x (keptClauses ord st x)).mem x).classification = b := by
    simpa [relist] using hb
  show (if (st.clausesOf x).isEmpty = true then some (true, st)
    else if ((relist st x (keptClauses ord st x)).mem x).classification = true then
      Loop.forEach (unlessSatisfied (propagateTrueClassification x))
        (ord.clauses (st.clock + 1) (keptClauses ord st x)) (relist st x (keptClauses ord st x))
    else Loop.forEach (unlessSatisfied (propagateFalseClassification ord fuel x))
        (ord.clauses (st.clock + 1) (keptClauses ord st x))
        (relist st x (keptClauses ord st x))) = _
  rw [hb']
  cases b <;> rfl

/-- A popped point that has visited all its clauses is done. -/
theorem Inv.not_occurs (h : Inv D m₀ Cons st) {x : Ptr} {k : ℕ} (hk : st.Live k)
    (hx : k ∉ st.clausesOf x) : ¬ Occurs st x k := fun ho => hx (h.listed hk ho)

theorem processVariable_true {N : List Ptr} (ord : HashOrder) (fuel : ℕ) {x : Ptr}
    (h : TruePhase D m₀ Cons N (fun y _ => y = x) st) (hscope : InScope D x)
    (hx : st.label x = some true) :
    ∃ r s', processVariable ord fuel x st = some (r, s') ∧
      (r = true → TruePhase D m₀ Cons N (fun _ _ => False) s' ∧ workLeft D s' ≤ workLeft D st) ∧
      (r = false → Refuted D m₀ Cons N s') := by
  rw [processVariable_eq ord fuel hx]
  by_cases hempty : (st.clausesOf x).isEmpty = true
  · rw [if_pos hempty]
    refine ⟨true, st, rfl, fun _ => ⟨?_, le_refl _⟩, by simp⟩
    refine h.weaken ?_
    intro y j hj hy
    refine .inr (h.inv.not_occurs hj ?_)
    rw [show y = x from hy, List.isEmpty_iff.mp hempty]
    simp
  · rw [if_neg hempty, if_pos rfl]
    set kept := keptClauses ord st x with hkept
    have hstart : TruePhase D m₀ Cons N (fun y _ => y = x) (relist st x kept) :=
      h.pass (h.inv.relist hscope fun k hk hl => mem_keptClauses ord hk hl) rfl
        (fun y => marking_relist x y kept) rfl (fun _ => rfl) (fun y => label_relist x y kept) rfl
        (fun _ _ _ hp => .inl hp)
    obtain ⟨r, s', hrun, hT, hF⟩ := Loop.forEach_spec
      (f := unlessSatisfied (propagateTrueClassification x))
      (l := ord.clauses (st.clock + 1) kept)
      (I := fun done s => TruePhase D m₀ Cons N (fun y j => y = x ∧ j ∉ done) s ∧
        Visited D x true (relist st x kept) s)
      (Q := Refuted D m₀ Cons N) (s := relist st x kept) (by
        intro done k rest s _ hI
        obtain ⟨hphase, hvis⟩ := hI
        unfold unlessSatisfied
        by_cases hk : (s.clause k).satisfiable = false
        · rw [if_pos hk]
          obtain ⟨r, s', hrun, hT, hF⟩ := propagateTrueClassification_spec hphase hk hvis.label
          refine ⟨r, s', hrun, fun hr => ?_, hF⟩
          obtain ⟨hphase', hvis'⟩ := hT hr
          refine ⟨hphase'.weaken ?_, hvis'.label,
            fun y => (hvis'.clausesOf y).trans (hvis.clausesOf y), hvis'.work.trans hvis.work⟩
          intro y j _ hp
          obtain ⟨⟨hy, hj⟩, hne⟩ := hp
          refine .inl ⟨hy, fun hmem => ?_⟩
          rcases List.mem_append.mp hmem with hmem | hmem
          · exact hj hmem
          · exact hne ⟨hy, List.mem_singleton.mp hmem⟩
        · rw [if_neg hk]
          refine ⟨true, s, rfl, fun _ => ⟨hphase.weaken ?_, hvis⟩, by simp⟩
          intro y j hj hp
          refine .inl ⟨hp.1, fun hmem => ?_⟩
          rcases List.mem_append.mp hmem with hmem | hmem
          · exact hp.2 hmem
          · rw [List.mem_singleton.mp hmem] at hj
            exact hk hj)
      ⟨hstart.weaken fun y j _ hp => .inl ⟨hp, by simp⟩, (label_relist x x kept).trans hx,
        fun _ => rfl, le_refl _⟩
    refine ⟨r, s', hrun, fun hr => ?_, hF⟩
    obtain ⟨hphase, hvis⟩ := hT hr
    refine ⟨hphase.weaken ?_, hvis.work.trans (workLeft_relist x kept).le⟩
    intro y j hj hp
    obtain ⟨rfl, hjl⟩ := hp
    refine .inr (hphase.inv.not_occurs hj ?_)
    rw [hvis.clausesOf, clausesOf_relist, if_pos rfl]
    rwa [HashOrder.mem_clauses] at hjl

end HiceDt.Solver
