import Mathlib.Data.List.GetD
import HiceDt.Solver.Correct

/-!
# A call of the solver leaves no trace

The solver writes trial labels, markings and clause lists into the data points and
keeps a dozen members between calls. This module follows what a call may write to, for
every input over the given data points, whatever their labels are.

Results:

* `Contained`: what holds at every moment of a call.
* `solve_contained`: a call gives the data points back.
* `solve_constructed`: a call does not depend on what earlier calls left in the members.
* `solve_orderFree`: the iteration orders do not matter for the verdict.
* `solve_memoryless`: all this for every solver that has been used before.
-/

namespace HiceDt.Solver

open HiceDt Loop SolverState

variable {D : List Ptr} {m₀ : Heap} {hcs : List HornConstraint} {P N : List Ptr}
  {st : SolverState}

/-! ## Rules for the recursions of the solver -/

/-- What every marked list of clauses keeps, `computeMarking` keeps. -/
theorem computeMarking_keeps (ord : HashOrder) {I : SolverState → Prop}
    (htick : ∀ {st : SolverState}, I st → I st.tick)
    (hmarked : ∀ {st : SolverState} {k : ℕ} {master : Ptr} {rest : List Ptr}, I st →
      (st.clause k).premises = master :: rest →
      I ((ord.points st.clock (st.mem master).listOfMarking).foldl
        (markConclusion rest (st.clause k).conclusion) (st.tick, false)).1) {fuel : ℕ} :
    ∀ {st st' : SolverState} {k : ℕ}, I st → computeMarking ord fuel k st = some st' → I st' := by
  induction fuel with
  | zero =>
    intro st st' k _ hrun
    cases hrun
  | succ fuel ih =>
    intro st st' k h hrun
    rw [computeMarking] at hrun
    cases hps : (st.clause k).premises with
    | nil =>
      simp only [hps, Option.some.injEq] at hrun
      rw [← hrun]
      exact h
    | cons master rest =>
      simp only [hps] at hrun
      have hacc := hmarked h hps
      split_ifs at hrun
      · refine foldlM_keeps (I := I) (fun s d _ s' hs hd => ?_) (htick hacc) hrun
        split_ifs at hd
        · exact ih hs hd
        · rw [← Option.some.inj hd]
          exact hs
      · rw [← Option.some.inj hrun]
        exact hacc

/-- What every processed variable keeps, `verifyConstraintsSatisfiability` keeps. -/
theorem verifyConstraintsSatisfiability_keeps (ord : HashOrder) {I : SolverState → Prop} {fuel : ℕ}
    (hprocess : ∀ {st s : SolverState} {x : Ptr} {rest : List Ptr} {r : Bool}, I st →
      st.worklist = x :: rest →
      processVariable ord fuel x { st with worklist := rest } = some (r, s) → I s) {steps : ℕ} :
    ∀ {st st' : SolverState} {r : Bool}, I st →
      verifyConstraintsSatisfiability ord fuel steps st = some (r, st') → I st' := by
  induction steps with
  | zero =>
    intro st st' r _ hrun
    cases hrun
  | succ steps ih =>
    intro st st' r h hrun
    rw [verifyConstraintsSatisfiability] at hrun
    cases hwork : st.worklist with
    | nil =>
      simp only [hwork, Option.some.injEq, Prod.mk.injEq] at hrun
      rw [← hrun.2]
      exact h
    | cons x rest =>
      simp only [hwork] at hrun
      cases hstep : processVariable ord fuel x { st with worklist := rest } with
      | none =>
        rw [hstep] at hrun
        cases hrun
      | some answer =>
        obtain ⟨satisfiable, s⟩ := answer
        have hs : I s := hprocess h hwork hstep
        rw [hstep] at hrun
        cases satisfiable with
        | false =>
          simp only [Option.some.injEq, Prod.mk.injEq] at hrun
          rw [← hrun.2]
          exact hs
        | true => exact ih hs hrun

/-! ## The points that a call may write to -/

/-- The clause is over the given points. -/
def HornCopy.InScope (D : List Ptr) (c : HornCopy) : Prop :=
  (∀ p ∈ c.premises, Solver.InScope D p) ∧ Solver.InScope D c.conclusion

/-- What holds at every moment of a call on the heap `m₀`: only points in scope have been
    written to, the solver will visit only such points, and the copies are intact. -/
structure Contained (D : List Ptr) (m₀ : Heap) (st : SolverState) : Prop where
  frame : Frame D m₀ st.mem
  clauses : ∀ c ∈ st.copyOfHornConstraints, c.InScope D
  worklist : ∀ x ∈ st.worklist, InScope D x
  positive : ∀ x ∈ st.positive, InScope D x
  negative : ∀ x ∈ st.negative, InScope D x
  marking : ∀ x, InScope D x → ∀ y ∈ st.marking x, InScope D y
  falseLabel : st.label .falseDatapoint = some false
  copies : st.copyOfDatapoints = D.map fun x => ((m₀ x).classification, (m₀ x).isClassified)

namespace Contained

/-- Only some of the members matter. -/
theorem congr {st' : SolverState} (h : Contained D m₀ st) (hmem : st'.mem = st.mem)
    (hclauses : st'.copyOfHornConstraints = st.copyOfHornConstraints)
    (hwork : st'.worklist = st.worklist) (hpos : st'.positive = st.positive)
    (hneg : st'.negative = st.negative) (hcopies : st'.copyOfDatapoints = st.copyOfDatapoints) :
    Contained D m₀ st' := by
  refine ⟨?_, ?_, ?_, ?_, ?_, ?_, ?_, ?_⟩
  · exact hmem ▸ h.frame
  · exact hclauses ▸ h.clauses
  · exact hwork ▸ h.worklist
  · exact hpos ▸ h.positive
  · exact hneg ▸ h.negative
  · unfold SolverState.marking
    rw [hmem]
    exact h.marking
  · unfold SolverState.label
    rw [hmem]
    exact h.falseLabel
  · exact hcopies.trans h.copies

theorem tick (h : Contained D m₀ st) : Contained D m₀ st.tick := h.congr rfl rfl rfl rfl rfl rfl

theorem clause (h : Contained D m₀ st) (k : ℕ) : (st.clause k).InScope D := by
  unfold SolverState.clause
  by_cases hk : k < st.copyOfHornConstraints.length
  · rw [List.getD_eq_getElem _ _ hk]
    exact h.clauses _ (List.getElem_mem hk)
  · rw [List.getD_eq_default _ _ (Nat.le_of_not_lt hk)]
    exact ⟨by simp, .inr rfl⟩

theorem setClause (h : Contained D m₀ st) (k : ℕ) {c : HornCopy} (hc : c.InScope D) :
    Contained D m₀ (st.setClause k c) := by
  refine ⟨h.frame, fun d hd => ?_, h.worklist, h.positive, h.negative, h.marking, h.falseLabel,
    h.copies⟩
  rcases List.mem_or_eq_of_mem_set hd with hd | rfl
  · exact h.clauses d hd
  · exact hc

theorem satisfy (h : Contained D m₀ st) (k : ℕ) : Contained D m₀ (st.satisfy k) :=
  h.setClause k (h.clause k)

theorem push (h : Contained D m₀ st) {x : Ptr} (hx : InScope D x) : Contained D m₀ (st.push x) :=
  ⟨h.frame, h.clauses, List.forall_mem_cons.mpr ⟨hx, h.worklist⟩, h.positive, h.negative,
    h.marking, h.falseLabel, h.copies⟩

/-- One more clause. -/
theorem append (h : Contained D m₀ st) {c : HornCopy} (hc : c.InScope D) :
    Contained D m₀ { st with copyOfHornConstraints := st.copyOfHornConstraints ++ [c] } := by
  refine ⟨h.frame, fun d hd => ?_, h.worklist, h.positive, h.negative, h.marking, h.falseLabel,
    h.copies⟩
  rcases List.mem_append.mp hd with hd | hd
  · exact h.clauses d hd
  · exact List.mem_singleton.mp hd ▸ hc

theorem insertPositive (h : Contained D m₀ st) {x : Ptr} (hx : InScope D x) :
    Contained D m₀ { st with positive := st.positive.insert x } := by
  refine ⟨h.frame, h.clauses, h.worklist, fun y hy => ?_, h.negative, h.marking, h.falseLabel,
    h.copies⟩
  rcases List.mem_insert_iff.mp hy with rfl | hy
  · exact hx
  · exact h.positive y hy

theorem insertNegative (h : Contained D m₀ st) {x : Ptr} (hx : InScope D x) :
    Contained D m₀ { st with negative := st.negative.insert x } := by
  refine ⟨h.frame, h.clauses, h.worklist, h.positive, fun y hy => ?_, h.marking, h.falseLabel,
    h.copies⟩
  rcases List.mem_insert_iff.mp hy with rfl | hy
  · exact hx
  · exact h.negative y hy

theorem setClassification (h : Contained D m₀ st) {x : Ptr} (hx : InScope D x) (b : Bool) :
    Contained D m₀ { st with mem := (setClassification st.mem x b).2 } := by
  refine ⟨h.frame.setClassification hx b, h.clauses, h.worklist, h.positive, h.negative,
    fun y hy z hz => ?_, ?_, h.copies⟩
  · refine h.marking y hy z ?_
    have heq := listOfMarking_setClassification st.mem x y b
    rw [SolverState.marking, ← heq]
    exact hz
  · -- the false point has a label, which is not changed
    show label (HiceDt.setClassification st.mem x b).2 .falseDatapoint = some false
    by_cases hfalse : x = .falseDatapoint
    · rw [hfalse, setClassification_of_label h.falseLabel]
      exact h.falseLabel
    · rw [label, setClassification_of_ne st.mem b fun e => hfalse e.symm]
      exact h.falseLabel

theorem classify (h : Contained D m₀ st) {x : Ptr} (hx : InScope D x) (b : Bool) :
    Contained D m₀ (st.classify x b) := by
  exact (h.setClassification hx b).congr rfl rfl rfl rfl rfl rfl

theorem insertMarking (h : Contained D m₀ st) {x m : Ptr} (hx : InScope D x) (hm : InScope D m) :
    Contained D m₀ (st.insertMarking x m) := by
  refine ⟨h.frame.update hx rfl, h.clauses, h.worklist, h.positive, h.negative,
    fun y hy z hz => ?_, ?_, h.copies⟩
  · rw [insertMarking_eq, marking_setMarkings] at hz
    by_cases hyx : y = x
    · rw [hyx, Function.update_self] at hz
      rcases List.mem_insert_iff.mp hz with rfl | hz
      · exact hm
      · exact h.marking x hx z hz
    · rw [Function.update_of_ne hyx] at hz
      exact h.marking y hy z hz
  · rw [insertMarking_eq, label_setMarkings]
    exact h.falseLabel

theorem insertHornConstraint (h : Contained D m₀ st) {x : Ptr} (hx : InScope D x) (k : ℕ) :
    Contained D m₀ (st.insertHornConstraint x k) := by
  refine ⟨h.frame.update hx rfl, h.clauses, h.worklist, h.positive, h.negative,
    fun y hy z hz => ?_, ?_, h.copies⟩
  · rw [marking_insertHornConstraint] at hz
    exact h.marking y hy z hz
  · rw [label_insertHornConstraint]
    exact h.falseLabel

theorem relist (h : Contained D m₀ st) {x : Ptr} (hx : InScope D x) (kept : List ℕ) :
    Contained D m₀ (relist st x kept) := by
  refine ⟨h.frame.update hx rfl, h.clauses, h.worklist, h.positive, h.negative,
    fun y hy z hz => ?_, ?_, h.copies⟩
  · rw [marking_relist] at hz
    exact h.marking y hy z hz
  · rw [label_relist]
    exact h.falseLabel

/-! ## Markings -/

theorem markConclusion_foldl (h : Contained D m₀ st) (rest : List Ptr) {c : Ptr}
    (hc : InScope D c) {l : List Ptr} (hl : ∀ m ∈ l, InScope D m) (b : Bool) :
    Contained D m₀ (l.foldl (markConclusion rest c) (st, b)).1 := by
  refine List.foldlRecOn (motive := fun acc : SolverState × Bool => Contained D m₀ acc.1) l _ h ?_
  intro acc hacc m hm
  unfold markConclusion
  simp only
  split_ifs
  · exact hacc
  · exact hacc.insertMarking hc (hl m hm)
  · exact hacc

theorem computeMarking (h : Contained D m₀ st) (ord : HashOrder) {fuel k : ℕ} {st' : SolverState}
    (hrun : computeMarking ord fuel k st = some st') : Contained D m₀ st' := by
  refine computeMarking_keeps ord (fun hs => hs.tick) (fun {s k master rest} hs hps => ?_) h hrun
  obtain ⟨hprem, hconcl⟩ := hs.clause k
  have hmaster : InScope D master := hprem master (by rw [hps]; exact List.mem_cons_self)
  have hmarkings : ∀ m ∈ ord.points s.clock (s.mem master).listOfMarking, InScope D m :=
    fun m hm => hs.marking master hmaster m (ord.mem_points.mp hm)
  exact hs.tick.markConclusion_foldl rest hconcl hmarkings false

theorem computeCurrentMarking (h : Contained D m₀ st) (ord : HashOrder) {fuel : ℕ}
    {st' : SolverState} (hrun : computeCurrentMarking ord fuel st = some st') :
    Contained D m₀ st' := by
  refine foldlM_keeps (I := Contained D m₀) (fun s k _ s' hs hk => ?_) h hrun
  split_ifs at hk
  · exact hs.computeMarking ord hk
  · rw [← Option.some.inj hk]
    exact hs

/-! ## Propagation -/

theorem falsifyMarking (h : Contained D m₀ st) {x m : Ptr} (hm : InScope D m) {r : Bool}
    {st' : SolverState} (hrun : falsifyMarking x m st = some (r, st')) : Contained D m₀ st' := by
  unfold Solver.falsifyMarking at hrun
  dsimp only at hrun
  have hclass := h.classify hm false
  split_ifs at hrun
  · rw [Option.some.injEq, Prod.mk.injEq] at hrun
    rw [← hrun.2]
    exact (hclass.push hm).insertNegative hm
  · rw [Option.some.injEq, Prod.mk.injEq] at hrun
    rw [← hrun.2]
    exact hclass
  · rw [Option.some.injEq, Prod.mk.injEq] at hrun
    rw [← hrun.2]
    exact h

theorem assign (h : Contained D m₀ st) {x : Ptr} (hx : InScope D x) (b : Bool) :
    Contained D m₀ (st.assign x b) := by
  have hpush := (h.classify hx b).push hx
  cases b with
  | true => exact hpush.insertPositive hx
  | false => exact hpush.insertNegative hx

theorem propagateTrueClassification (h : Contained D m₀ st) {x : Ptr} {k : ℕ} {r : Bool}
    {st' : SolverState} (hrun : propagateTrueClassification x k st = some (r, st')) :
    Contained D m₀ st' := by
  obtain ⟨hprem, hconcl⟩ := h.clause k
  have hwithout : ((st.clause k).without x).InScope D :=
    ⟨fun p hp => hprem p (mem_removeFromVector.mp hp).1, hconcl⟩
  have hshrunk := h.setClause k hwithout
  rw [propagateTrueClassification_eq] at hrun
  split_ifs at hrun
  all_goals
    rw [Option.some.injEq, Prod.mk.injEq] at hrun
    rw [← hrun.2]
  · exact h.satisfy k
  · exact (hshrunk.assign hconcl true).satisfy k
  · exact hshrunk.classify hconcl true
  · exact hshrunk

theorem propagateFalseClassification (h : Contained D m₀ st) (ord : HashOrder) {fuel : ℕ} {x : Ptr}
    (hx : InScope D x) {k : ℕ} {r : Bool} {st' : SolverState}
    (hrun : propagateFalseClassification ord fuel x k st = some (r, st')) :
    Contained D m₀ st' := by
  have hhead : InScope D ((st.clause k).premises.headD .falseDatapoint) := by
    match hps : (st.clause k).premises with
    | [] => exact .inr rfl
    | p :: ps => exact (h.clause k).1 p (by rw [hps]; exact List.mem_cons_self)
  have hloop : ∀ s : SolverState, Contained D m₀ s →
      forEach (Solver.falsifyMarking x) (ord.points s.clock (s.marking x)) s.tick =
        some (r, st') → Contained D m₀ st' := by
    intro s hs hrun
    refine forEach_keeps (I := Contained D m₀) (fun m hm t r t' ht hstep => ?_) hs.tick hrun
    exact ht.falsifyMarking (hs.marking x hx m (ord.mem_points.mp hm)) hstep
  rw [propagateFalseClassification_eq] at hrun
  split_ifs at hrun
  · rw [Option.some.injEq, Prod.mk.injEq] at hrun
    rw [← hrun.2]
    exact h.satisfy k
  · rw [Option.some.injEq, Prod.mk.injEq] at hrun
    rw [← hrun.2]
    exact (h.assign hhead false).satisfy k
  · rw [Option.some.injEq, Prod.mk.injEq] at hrun
    rw [← hrun.2]
    exact h.classify hhead false
  · -- the markings are computed first
    match hmarked : Solver.computeCurrentMarking ord fuel st with
    | none =>
      rw [hmarked] at hrun
      cases hrun
    | some s =>
      rw [hmarked] at hrun
      exact hloop { s with computeCurrentMarking := false }
        ((h.computeCurrentMarking ord hmarked).congr rfl rfl rfl rfl rfl rfl) hrun
  · exact hloop st h hrun
  · rw [Option.some.injEq, Prod.mk.injEq] at hrun
    rw [← hrun.2]
    exact h

theorem unlessSatisfied (h : Contained D m₀ st)
    {body : ℕ → SolverState → Option (Bool × SolverState)} {k : ℕ} {r : Bool} {st' : SolverState}
    (hbody : body k st = some (r, st') → Contained D m₀ st')
    (hrun : unlessSatisfied body k st = some (r, st')) : Contained D m₀ st' := by
  unfold Solver.unlessSatisfied at hrun
  split_ifs at hrun
  · exact hbody hrun
  · rw [Option.some.injEq, Prod.mk.injEq] at hrun
    rw [← hrun.2]
    exact h

theorem processVariable (h : Contained D m₀ st) (ord : HashOrder) {fuel : ℕ} {x : Ptr}
    (hx : InScope D x) {r : Bool} {st' : SolverState}
    (hrun : processVariable ord fuel x st = some (r, st')) : Contained D m₀ st' := by
  unfold Solver.processVariable at hrun
  dsimp only at hrun
  have hkept := h.relist hx (keptClauses ord st x)
  split_ifs at hrun
  · rw [Option.some.injEq, Prod.mk.injEq] at hrun
    rw [← hrun.2]
    exact h
  · refine forEach_keeps (I := Contained D m₀) (fun k _ s r s' hs hstep => ?_) hkept hrun
    exact hs.unlessSatisfied (fun hbody => hs.propagateTrueClassification hbody) hstep
  · refine forEach_keeps (I := Contained D m₀) (fun k _ s r s' hs hstep => ?_) hkept hrun
    exact hs.unlessSatisfied (fun hbody => hs.propagateFalseClassification ord hx hbody) hstep

theorem verifyConstraintsSatisfiability (h : Contained D m₀ st) (ord : HashOrder) {fuel steps : ℕ}
    {r : Bool} {st' : SolverState}
    (hrun : verifyConstraintsSatisfiability ord fuel steps st = some (r, st')) :
    Contained D m₀ st' := by
  refine verifyConstraintsSatisfiability_keeps ord (fun {s s' x rest r} hs hwork hstep => ?_) h hrun
  have hscope := List.forall_mem_cons.mp (hwork ▸ hs.worklist)
  have hpopped : Contained D m₀ { s with worklist := rest } :=
    ⟨hs.frame, hs.clauses, hscope.2, hs.positive, hs.negative, hs.marking, hs.falseLabel, hs.copies⟩
  exact hpopped.processVariable ord hscope.1 hstep

/-! ## Setting up -/

theorem backupConstraint (h : Contained D m₀ st) (ord : HashOrder) {hc : HornConstraint}
    (hp : ∀ p ∈ hc.premises, p ∈ D) (hc' : ∀ c, hc.conclusion = some c → c ∈ D) :
    Contained D m₀ (backupConstraint ord st hc) := by
  by_cases hst : st.hornConstraintsSatisfiability = true
  · obtain ⟨b, heq⟩ := backupConstraint_eq ord st hc hst
    rw [heq]
    set c := copyConstraint st.mem hc with hcdef
    have hscope : c.InScope D := by
      refine ⟨fun p hpc => .inl (hp p (List.mem_of_mem_filter hpc)), ?_⟩
      exact copyConstraint_scope st.mem hc'
    have hunit : Contained D m₀ ((unitState st c.conclusion b).classify c.conclusion true) := by
      refine Contained.classify ?_ hscope.2 true
      by_cases hneg : c.conclusion ∈ st.negative
      · refine (h.setClassification hscope.2 false).congr ?_ rfl rfl rfl rfl rfl
        exact if_pos hneg
      · refine h.congr ?_ rfl rfl rfl rfl rfl
        exact if_neg hneg
    have hflag : Contained D m₀ { st with hornConstraintsWithoutConclusion := b } :=
      h.congr rfl rfl rfl rfl rfl rfl
    dsimp only
    split_ifs
    · exact hunit
    · exact hunit.insertPositive hscope.2
    · exact ((hflag.push hscope.2).append hscope).insertHornConstraint (.inr rfl) _
    · exact (hflag.append hscope).insertHornConstraint (.inr rfl) _
    · exact (hflag.push hscope.2).append hscope
    · exact hflag.append hscope
    · exact hflag
  · -- the loop has been left
    unfold Solver.backupConstraint
    rw [if_pos (Bool.eq_false_iff.mpr hst)]
    exact h

theorem populateMetaData (h : Contained D m₀ st) : Contained D m₀ (populateMetaData D st) := by
  unfold Solver.populateMetaData
  dsimp only
  refine List.foldlRecOn (motive := Contained D m₀) _ _ ?_ ?_
  · refine List.foldlRecOn (motive := Contained D m₀) _ _ h ?_
    exact fun s hs x hx => hs.insertMarking (.inl hx) (.inl hx)
  · intro s hs k _
    obtain ⟨hprem, hconcl⟩ := hs.clause k
    split_ifs
    · refine List.foldlRecOn (motive := Contained D m₀) _ _ (hs.insertHornConstraint hconcl k) ?_
      exact fun t ht p hp => ht.insertHornConstraint (hprem p hp) k
    · exact hs

theorem classifyAndPush_foldl (h : Contained D m₀ st) (b : Bool) {l : List Ptr}
    (hl : ∀ x ∈ l, InScope D x) : Contained D m₀ (l.foldl (classifyAndPush b) st) := by
  refine List.foldlRecOn (motive := Contained D m₀) _ _ h ?_
  exact fun s hs x hx => (hs.setClassification (hl x hx) b).push (hl x hx)

theorem fillWorklist (h : Contained D m₀ st) (ord : HashOrder) :
    Contained D m₀ (fillWorklist ord st) := by
  have hfalse : Contained D m₀
      (if st.hornConstraintsWithoutConclusion then st.push .falseDatapoint else st) := by
    split_ifs
    · exact h.push (.inr rfl)
    · exact h
  unfold Solver.fillWorklist
  dsimp only
  set s := if st.hornConstraintsWithoutConclusion then st.push .falseDatapoint else st
  have hnegative : Contained D m₀
      ((ord.points s.clock s.negative).foldl (classifyAndPush false) s.tick) :=
    hfalse.tick.classifyAndPush_foldl false fun x hx => hfalse.negative x (ord.mem_points.mp hx)
  exact hnegative.tick.classifyAndPush_foldl true
    fun x hx => hnegative.positive x (ord.mem_points.mp hx)

end Contained

/-! ## A whole call -/

theorem keepBackup_contained (ord : HashOrder) (hs : ScopedInput st.mem D hcs P N)
    (hfalse : label st.mem .falseDatapoint ≠ some true) :
    Contained D st.mem (keepBackup ord D hcs (resetMembers P N st)) := by
  have hcleared := clearedHeap_falseDatapoint hfalse
  have hD : ∀ x ∈ D, clearedHeap st.mem x = st.mem x := fun x hx =>
    clearedHeap_of_ne st.mem fun e => hs.falseDatapoint_notMem (e ▸ hx)
  refine List.foldlRecOn (motive := Contained D st.mem) _ _ ?_ ?_
  · refine ⟨frame_clearedHeap D st.mem, by simp, by simp [resetMembers],
      fun x hx => .inl (hs.positive x hx), fun x hx => .inl (hs.negative x hx), ?_, ?_, ?_⟩
    · intro x hx y hy
      have hy' : y ∈ (clearedHeap st.mem x).listOfMarking := hy
      rcases hx with hx | rfl
      · rw [hD x hx, (hs.quiescent x hx).1] at hy'
        simp at hy'
      · rw [hcleared] at hy'
        simp at hy'
    · show label (clearedHeap st.mem) .falseDatapoint = some false
      rw [label, hcleared]
      rfl
    · show D.map (fun x => ((clearedHeap st.mem x).classification,
        (clearedHeap st.mem x).isClassified)) = _
      exact List.map_congr_left fun x hx => by rw [hD x hx]
  · exact fun s h hc hhc => h.backupConstraint ord (hs.premises hc hhc) (hs.conclusion hc hhc)

/-- A call that returns gives the data points back, and the false point stays false. -/
theorem solve_contained (ord : HashOrder) (hs : ScopedInput st.mem D hcs P N)
    (hfalse : label st.mem .falseDatapoint ≠ some true) {fuel : ℕ} {ok : Bool} {s : SolverState}
    (hrun : solve ord fuel D hcs P N st = some (ok, s)) :
    (∀ x, x ≠ .falseDatapoint → s.mem x = st.mem x) ∧ s.label .falseDatapoint = some false ∧
      core (s.mem .falseDatapoint) = core (st.mem .falseDatapoint) := by
  have hend : ∀ t b, Contained D st.mem t →
      s = { clearMembers (rollBackDatapoints D t) with hornConstraintsSatisfiability := b } →
      (∀ x, x ≠ .falseDatapoint → s.mem x = st.mem x) ∧ s.label .falseDatapoint = some false ∧
        core (s.mem .falseDatapoint) = core (st.mem .falseDatapoint) := by
    intro t b ht heq
    rw [heq]
    refine ⟨fun x hx => mem_clearMembers_rollBack hs ht.frame ht.copies hx,
      label_clearMembers_rollBack hs ht.copies ht.falseLabel, ?_⟩
    rw [← ht.frame.core_eq .falseDatapoint, ← mem_rollBackDatapoints_falseDatapoint hs ht.copies]
    show core (Function.update (rollBackDatapoints D t).mem .falseDatapoint _ .falseDatapoint) = _
    rw [Function.update_self]
    rfl
  have hbackup := keepBackup_contained ord hs hfalse
  unfold solve at hrun
  dsimp only at hrun
  by_cases hsat : (keepBackup ord D hcs (resetMembers P N st)).hornConstraintsSatisfiability = false
  · rw [if_pos hsat, Option.some.injEq, Prod.mk.injEq] at hrun
    exact hend _ false hbackup (by rw [← hrun.2, ← hsat]; rfl)
  · rw [if_neg hsat] at hrun
    match hverify : verifyConstraintsSatisfiability ord fuel fuel (fillWorklist ord
        (populateMetaData D (keepBackup ord D hcs (resetMembers P N st)))) with
    | none =>
      rw [hverify] at hrun
      cases hrun
    | some (r, t) =>
      rw [hverify, Option.some.injEq, Prod.mk.injEq] at hrun
      have ht := (hbackup.populateMetaData.fillWorklist ord).verifyConstraintsSatisfiability ord
        hverify
      exact hend t r ht hrun.2.symm

/-! ## Sequences of calls -/

/-- A solver as its constructor leaves it, next to the data points of `m`; the label of its
    false point is not initialised. -/
def constructed (m : Heap) (clock : ℕ) (garbage : Bool) : SolverState where
  mem := Function.update m .falseDatapoint { classification := garbage }
  clock := clock

theorem clearedHeap_congr {m m' : Heap} (h : ∀ x, x ≠ .falseDatapoint → m x = m' x)
    (hlabel : label m .falseDatapoint ≠ some true) (hlabel' : label m' .falseDatapoint ≠ some true)
    (hcore : core (m .falseDatapoint) = core (m' .falseDatapoint)) :
    clearedHeap m = clearedHeap m' := by
  funext x
  by_cases hx : x = .falseDatapoint
  · unfold core at hcore
    rw [Datapoint.mk.injEq] at hcore
    rw [hx, clearedHeap_falseDatapoint hlabel, clearedHeap_falseDatapoint hlabel',
      Datapoint.mk.injEq]
    exact ⟨hcore.1, hcore.2.1, rfl, rfl, hcore.2.2.2.2.1, rfl, rfl⟩
  · rw [clearedHeap_of_ne m hx, clearedHeap_of_ne m' hx, h x hx]

/-- Every member is reset at the start of a call, the false point in `keep_backup`. -/
theorem solve_constructed (ord : HashOrder) (D : List Ptr) (hcs : List HornConstraint)
    (P N : List Ptr) (fuel : ℕ) (garbage : Bool)
    (hlabel : label st.mem .falseDatapoint ≠ some true)
    (hcore : core (st.mem .falseDatapoint) = core {}) :
    solve ord fuel D hcs P N st =
      solve ord fuel D hcs P N (constructed st.mem st.clock garbage) := by
  have hheap : clearedHeap st.mem = clearedHeap (constructed st.mem st.clock garbage).mem := by
    refine clearedHeap_congr (fun x hx => (Function.update_of_ne hx _ _).symm) hlabel ?_ ?_
    · simp [constructed, label, Datapoint.label]
    · rw [hcore]
      simp [constructed, core]
  have hbackup : keepBackup ord D hcs (resetMembers P N st) =
      keepBackup ord D hcs (resetMembers P N (constructed st.mem st.clock garbage)) := by
    show hcs.foldl (backupConstraint ord) _ = hcs.foldl (backupConstraint ord) _
    congr 1
    show SolverState.mk (clearedHeap st.mem) [] (D.map fun x =>
        ((clearedHeap st.mem x).classification, (clearedHeap st.mem x).isClassified)) [] true false
        true P N st.clock = _
    rw [hheap]
    rfl
  unfold solve
  rw [hbackup]

/-- The solvers that calls of `solve` lead to. Between two calls the owner of the data
    points may change everything but the solver's own point. -/
inductive Used (ord : HashOrder) : SolverState → Prop
  | constructed (m : Heap) (clock : ℕ) (garbage : Bool) : Used ord (constructed m clock garbage)
  | solve {st s : SolverState} {D : List Ptr} {hcs : List HornConstraint} {P N : List Ptr}
      {fuel : ℕ} {ok : Bool} (h : Used ord st) (hs : ScopedInput st.mem D hcs P N)
      (hrun : solve ord fuel D hcs P N st = some (ok, s)) : Used ord s
  | outside {st : SolverState} (h : Used ord st) (m : Heap) (clock : ℕ)
      (hm : m .falseDatapoint = st.mem .falseDatapoint) :
      Used ord { st with mem := m, clock := clock }

theorem Used.falseDatapoint {ord : HashOrder} (h : Used ord st) :
    label st.mem .falseDatapoint ≠ some true ∧ core (st.mem .falseDatapoint) = core {} := by
  induction h with
  | constructed m clock garbage =>
    simp [Solver.constructed, label, Datapoint.label, core]
  | @solve st s D hcs P N fuel ok _ hs hrun ih =>
    obtain ⟨_, hlabel, hcore⟩ := solve_contained ord hs ih.1 hrun
    refine ⟨?_, hcore.trans ih.2⟩
    rw [show label s.mem .falseDatapoint = some false from hlabel]
    simp
  | outside h m clock hm ih =>
    unfold label at ih ⊢
    dsimp only
    rw [hm]
    exact ih

/-- Entailment depends on the labels of the given points. -/
theorem consistent_congr {m : Heap} (h : ∀ x ∈ D, label m₀ x = label m x) {ν : Ptr → Bool} :
    Consistent m₀ D hcs P N ν ↔ Consistent m D hcs P N ν := by
  unfold Consistent
  refine and_congr_left fun _ => forall₂_congr fun x hx => ?_
  rw [h x hx]

theorem entailed_congr {m : Heap} (h : ∀ x ∈ D, label m₀ x = label m x) {b : Bool} {x : Ptr} :
    Entailed m₀ D hcs P N b x ↔ Entailed m D hcs P N b x := by
  unfold Entailed
  refine and_congr_right fun hx => ?_
  rw [h x hx]
  exact and_congr_right fun _ => forall_congr' fun ν => imp_congr_left (consistent_congr h)

/-- The call of `solve` on the solver `st` leaves no trace and depends on no earlier call:
    the data points come back as they were, and a constructed solver answers the same. -/
structure Memoryless (ord : HashOrder) (D : List Ptr) (hcs : List HornConstraint) (P N : List Ptr)
    (st : SolverState) : Prop where
  restored : ∀ fuel ok s, solve ord fuel D hcs P N st = some (ok, s) →
    ∀ x, x ≠ .falseDatapoint → s.mem x = st.mem x
  lists : ∀ fuel ok s, solve ord fuel D hcs P N st = some (ok, s) →
    ∀ x ∈ D, (s.mem x).listOfMarking = [] ∧ (s.mem x).listOfHornConstraints = []
  fresh : ∀ fuel garbage, solve ord fuel D hcs P N st =
    solve ord fuel D hcs P N (constructed st.mem st.clock garbage)

/-- With other iteration orders a constructed solver gives the same verdict, and the same
    sets with a positive verdict. -/
def OrderFree (ord : HashOrder) (D : List Ptr) (hcs : List HornConstraint) (P N : List Ptr)
    (st : SolverState) : Prop :=
  ∀ fuel, solveFuel D hcs P N ≤ fuel → ∀ (ord' : HashOrder) (clock : ℕ) (garbage : Bool),
    ∃ ok s s', solve ord fuel D hcs P N st = some (ok, s) ∧
      solve ord' fuel D hcs P N (constructed st.mem clock garbage) = some (ok, s') ∧
      (ok = true → ∀ x, (x ∈ s.positive ↔ x ∈ s'.positive) ∧ (x ∈ s.negative ↔ x ∈ s'.negative))

theorem validInput_constructed (hv : ValidInput m₀ D hcs P N) (clock : ℕ) (garbage : Bool) :
    ValidInput (constructed m₀ clock garbage).mem D hcs P N := by
  have hother : ∀ x, x ≠ .falseDatapoint → (constructed m₀ clock garbage).mem x = m₀ x :=
    fun x hx => Function.update_of_ne hx _ _
  have hlabel : ∀ x ∈ D, label (constructed m₀ clock garbage).mem x = label m₀ x := by
    intro x hx
    unfold label
    rw [hother x (hv.ne_falseDatapoint hx)]
  refine ⟨hv.falseDatapoint_notMem, ?_, hv.premises, hv.conclusion, hv.satisfiable, ?_, ?_,
    hv.disjoint, ?_⟩
  · simp [constructed, label, Datapoint.label]
  · intro x hx
    rw [hlabel x (hv.positive x hx).1]
    exact hv.positive x hx
  · intro x hx
    rw [hlabel x (hv.negative x hx).1]
    exact hv.negative x hx
  · intro x hx
    rw [hother x hx]
    exact hv.quiescent x hx

theorem solve_orderFree (ord : HashOrder) (hv : ValidInput st.mem D hcs P N) :
    OrderFree ord D hcs P N st := by
  intro fuel hfuel ord' clock garbage
  have hlabel : ∀ x ∈ D, label st.mem x = label (constructed st.mem clock garbage).mem x := by
    intro x hx
    unfold label
    exact congrArg Datapoint.label (Function.update_of_ne (hv.ne_falseDatapoint hx) _ _).symm
  obtain ⟨ok, s, hrun, hs⟩ := solve_spec ord hv hfuel
  obtain ⟨ok', s', hrun', hs'⟩ := solve_spec ord' (validInput_constructed hv clock garbage) hfuel
  have hok : ok' = ok := by
    rw [Bool.eq_iff_iff, hs.satisfiable, hs'.satisfiable]
    exact exists_congr fun ν => (consistent_congr hlabel).symm
  subst hok
  refine ⟨ok', s, s', hrun, hrun', fun htrue x => ⟨?_, ?_⟩⟩
  · rw [hs.positive htrue, hs'.positive htrue, entailed_congr hlabel]
  · rw [hs.negative htrue, hs'.negative htrue, entailed_congr hlabel]

/-- In every sequence of calls each call is without side effects and answers as a
    constructed solver does. -/
theorem solve_memoryless (ord : HashOrder) (st : SolverState) (hused : Used ord st) (D : List Ptr)
    (hcs : List HornConstraint) (P N : List Ptr) (hs : ScopedInput st.mem D hcs P N) :
    Memoryless ord D hcs P N st ∧ (ValidInput st.mem D hcs P N → OrderFree ord D hcs P N st) := by
  obtain ⟨hlabel, hcore⟩ := hused.falseDatapoint
  have hrestored : ∀ fuel ok s, solve ord fuel D hcs P N st = some (ok, s) →
      ∀ x, x ≠ .falseDatapoint → s.mem x = st.mem x :=
    fun fuel ok s hrun => (solve_contained ord hs hlabel hrun).1
  refine ⟨⟨hrestored, fun fuel ok s hrun x hx => ?_, fun fuel garbage => ?_⟩, fun hv => ?_⟩
  · rw [hrestored fuel ok s hrun x fun e => hs.falseDatapoint_notMem (e ▸ hx)]
    exact hs.quiescent x hx
  · exact solve_constructed ord D hcs P N fuel garbage hlabel hcore
  · exact solve_orderFree ord hv

theorem solve_memoryless_sample :
    Memoryless .stored samplePoints sampleConstraints [] [] (constructed sampleState.mem 0 true) ∧
      (ValidInput (constructed sampleState.mem 0 true).mem samplePoints sampleConstraints [] [] →
        OrderFree .stored samplePoints sampleConstraints [] []
          (constructed sampleState.mem 0 true)) :=
  solve_memoryless .stored _ (.constructed sampleState.mem 0 true) samplePoints sampleConstraints
    [] [] (validInput_constructed sample_validInput 0 true).scoped

end HiceDt.Solver
