import HiceDt.Solver.Memoryless

/-!
# What a failed call leaves in `positive`

The interface of `solve` says that the arguments are restored when the constraints are
refuted. The set `negative` is (`Solved.negative_of_false`), but points that have been
derived before the contradiction is found stay in `positive`.

Results:

* `Growth`: what every step keeps of `positive`.
* `solve_growth`: points that are in `positive` stay there, and no point enters it if the
  constraints derive none at first.
* `foldl_derives`: what `keep_backup` derives before it meets a refuted constraint.
* `failed_solve_restores`: when a failed call restores its arguments.
-/

namespace HiceDt.Solver

open HiceDt Loop SolverState

variable {D : List Ptr} {m₀ : Heap} {hcs : List HornConstraint} {P N : List Ptr}
  {st st' : SolverState}

/-! ## The input -/

/-- The point is labelled true or in `positive`. -/
def TrueAtStart (m₀ : Heap) (P : List Ptr) (x : Ptr) : Prop := label m₀ x = some true ∨ x ∈ P

/-- The point is labelled false, in `negative` or the false point. -/
def FalseAtStart (m₀ : Heap) (N : List Ptr) (x : Ptr) : Prop :=
  x = .falseDatapoint ∨ label m₀ x = some false ∨ x ∈ N

/-- No constraint whose premises are true has an open conclusion. -/
def NothingToAdd (m₀ : Heap) (hcs : List HornConstraint) (P N : List Ptr) : Prop :=
  ∀ hc ∈ hcs, (∀ p ∈ hc.premises, TrueAtStart m₀ P p) → ∀ c, hc.conclusion = some c →
    TrueAtStart m₀ P c ∨ FalseAtStart m₀ N c

/-! ## The invariant -/

/-- The clause can only fire on a point in `positive` or on one that is false. -/
def HornCopy.Quiet (m₀ : Heap) (P N : List Ptr) (c : HornCopy) : Prop :=
  (∀ p ∈ c.premises, TrueAtStart m₀ P p) → c.conclusion ∈ P ∨ FalseAtStart m₀ N c.conclusion

/-- Nothing has been added to `positive`, and nothing will be; the points `F` are known to
    be false. -/
structure Quiet (m₀ : Heap) (P N : List Ptr) (F : Ptr → Prop) (st : SolverState) : Prop where
  trueLabels : ∀ x, st.label x = some true → TrueAtStart m₀ P x
  trueKept : ∀ x, label m₀ x = some true → st.label x = some true
  falseLabels : ∀ x, F x → st.label x = some false
  positive : ∀ x ∈ st.positive, x ∈ P
  clauses : ∀ c ∈ st.copyOfHornConstraints, c.Quiet m₀ P N
  worklist : ∀ x ∈ st.worklist, st.label x ≠ none

variable {F : Ptr → Prop}

theorem label_setClassification_of_some {m : Heap} {x y : Ptr} {b c : Bool}
    (h : label m x = some b) : label (setClassification m y c).2 x = some b := by
  by_cases hxy : x = y
  · subst hxy
    rw [setClassification_of_label h, h]
  · unfold label
    rw [setClassification_of_ne m c hxy]
    exact h

theorem label_setClassification_ne_none (m : Heap) (x : Ptr) (b : Bool) :
    label (setClassification m x b).2 x ≠ none := by
  by_cases h : label m x = some !b
  · rw [setClassification_of_label h, h]
    simp
  · rw [label_setClassification h, if_pos rfl]
    simp

theorem label_setClassification_true {m : Heap} {x y : Ptr} {b : Bool}
    (h : label (setClassification m y b).2 x = some true) :
    label m x = some true ∨ x = y ∧ b = true := by
  by_cases hb : label m y = some !b
  · rw [setClassification_of_label hb] at h
    exact .inl h
  · rw [label_setClassification hb] at h
    split_ifs at h with hxy
    · exact .inr ⟨hxy, Option.some.inj h⟩
    · exact .inl h

namespace Quiet

/-- Only some of the members matter. -/
theorem congr (h : Quiet m₀ P N F st) (hlabel : ∀ x, st'.label x = st.label x)
    (hclauses : st'.copyOfHornConstraints = st.copyOfHornConstraints)
    (hwork : st'.worklist = st.worklist) (hpos : st'.positive = st.positive) :
    Quiet m₀ P N F st' := by
  refine ⟨fun x hx => h.trueLabels x (hlabel x ▸ hx), fun x hx => ?_, fun x hx => ?_,
    hpos ▸ h.positive, hclauses ▸ h.clauses, fun x hx => ?_⟩
  · rw [hlabel]
    exact h.trueKept x hx
  · rw [hlabel]
    exact h.falseLabels x hx
  · rw [hlabel]
    exact h.worklist x (hwork ▸ hx)

theorem clause (h : Quiet m₀ P N F st) (k : ℕ) : (st.clause k).Quiet m₀ P N := by
  unfold SolverState.clause
  by_cases hk : k < st.copyOfHornConstraints.length
  · rw [List.getD_eq_getElem _ _ hk]
    exact h.clauses _ (List.getElem_mem hk)
  · rw [List.getD_eq_default _ _ (Nat.le_of_not_lt hk)]
    exact fun _ => .inr (.inl rfl)

theorem setClause (h : Quiet m₀ P N F st) (k : ℕ) {c : HornCopy} (hc : c.Quiet m₀ P N) :
    Quiet m₀ P N F (st.setClause k c) := by
  refine ⟨h.trueLabels, h.trueKept, h.falseLabels, h.positive, fun d hd => ?_, h.worklist⟩
  rcases List.mem_or_eq_of_mem_set hd with hd | rfl
  · exact h.clauses d hd
  · exact hc

theorem satisfy (h : Quiet m₀ P N F st) (k : ℕ) : Quiet m₀ P N F (st.satisfy k) :=
  h.setClause k (h.clause k)

/-- A label may be set to false, and to true for the points that are true at the start. -/
theorem setClassification (h : Quiet m₀ P N F st) (x : Ptr) {b : Bool}
    (hb : b = true → TrueAtStart m₀ P x) :
    Quiet m₀ P N F { st with mem := (setClassification st.mem x b).2 } := by
  refine ⟨fun y hy => ?_, fun y hy => label_setClassification_of_some (h.trueKept y hy),
    fun y hy => label_setClassification_of_some (h.falseLabels y hy), h.positive, h.clauses,
    fun y hy => ?_⟩
  · rcases label_setClassification_true hy with hy | ⟨rfl, hbt⟩
    · exact h.trueLabels y hy
    · exact hb hbt
  · obtain ⟨c, hc⟩ := Option.ne_none_iff_exists'.mp (h.worklist y hy)
    show label (HiceDt.setClassification st.mem x b).2 y ≠ none
    rw [label_setClassification_of_some hc]
    simp

theorem classify (h : Quiet m₀ P N F st) (x : Ptr) {b : Bool}
    (hb : b = true → TrueAtStart m₀ P x) : Quiet m₀ P N F (st.classify x b) :=
  (h.setClassification x hb).congr (fun _ => rfl) rfl rfl rfl

theorem push (h : Quiet m₀ P N F st) {x : Ptr} (hx : st.label x ≠ none) :
    Quiet m₀ P N F (st.push x) :=
  ⟨h.trueLabels, h.trueKept, h.falseLabels, h.positive, h.clauses,
    List.forall_mem_cons.mpr ⟨hx, h.worklist⟩⟩

theorem assign (h : Quiet m₀ P N F st) {x : Ptr} {b : Bool} (hb : b = true → x ∈ P) :
    Quiet m₀ P N F (st.assign x b) := by
  have hpush := (h.classify x fun e => .inr (hb e)).push
    (label_setClassification_ne_none st.mem x b)
  cases b with
  | true =>
    refine ⟨hpush.trueLabels, hpush.trueKept, hpush.falseLabels, fun y hy => ?_, hpush.clauses,
      hpush.worklist⟩
    rcases List.mem_insert_iff.mp hy with rfl | hy
    · exact hb rfl
    · exact h.positive y hy
  | false => exact hpush.congr (fun _ => rfl) rfl rfl rfl

end Quiet

/-- Points in `X` are in `positive`, and under `H` nothing is ever added to it. -/
structure Growth (H : Prop) (X : List Ptr) (m₀ : Heap) (P N : List Ptr) (F : Ptr → Prop)
    (st : SolverState) : Prop where
  kept : ∀ x ∈ X, x ∈ st.positive
  quiet : H → Quiet m₀ P N F st

/-! ## Markings -/

theorem markConclusion_foldl_setMarkings (rest : List Ptr) (c : Ptr) (l : List Ptr) (b : Bool) :
    ∃ M, (l.foldl (markConclusion rest c) (st, b)).1 = st.setMarkings M st.clock := by
  refine List.foldlRecOn (motive := fun acc : SolverState × Bool =>
    ∃ M, acc.1 = st.setMarkings M st.clock) l _ ⟨st.marking, rfl⟩ ?_
  rintro ⟨s, p⟩ ⟨M, rfl⟩ m _
  unfold markConclusion
  simp only
  split_ifs
  · exact ⟨M, rfl⟩
  · rw [insertMarking_eq]
    exact ⟨_, rfl⟩
  · exact ⟨M, rfl⟩

/-- The marking computation changes markings only. -/
theorem computeMarking_setMarkings (ord : HashOrder) {fuel k : ℕ} {st' : SolverState}
    (hrun : computeMarking ord fuel k st = some st') : ∃ M n, st' = st.setMarkings M n := by
  refine computeMarking_keeps ord (I := fun s => ∃ M n, s = st.setMarkings M n) ?_ ?_
    ⟨st.marking, st.clock, rfl⟩ hrun
  · rintro s ⟨M, n, rfl⟩
    exact ⟨M, _, rfl⟩
  · rintro s k master rest ⟨M, n, rfl⟩ hps
    obtain ⟨M', hM'⟩ := markConclusion_foldl_setMarkings rest
      ((st.setMarkings M n).clause k).conclusion
      (ord.points n ((st.setMarkings M n).mem master).listOfMarking) false
    exact ⟨M', _, hM'⟩

theorem computeCurrentMarking_setMarkings (ord : HashOrder) {fuel : ℕ}
    (hrun : computeCurrentMarking ord fuel st = some st') : ∃ M n, st' = st.setMarkings M n := by
  refine foldlM_keeps (I := fun s => ∃ M n, s = st.setMarkings M n) ?_ ⟨st.marking, st.clock, rfl⟩
    hrun
  rintro s k _ s' ⟨M₁, n₁, rfl⟩ hk
  split_ifs at hk
  · obtain ⟨M₂, n₂, rfl⟩ := computeMarking_setMarkings ord hk
    exact ⟨M₂, n₂, rfl⟩
  · exact ⟨M₁, n₁, (Option.some.inj hk).symm⟩

/-! ## Propagation -/

variable {H : Prop} {X : List Ptr}

/-- A classification that fails changes no label. -/
theorem label_classify_of_fails {x : Ptr} {b : Bool}
    (h : (st.classify x b).hornConstraintsSatisfiability ≠ true) (y : Ptr) :
    (st.classify x b).label y = st.label y := by
  rw [Ne, classify_satisfiability, not_not] at h
  show label (setClassification st.mem x b).2 y = label st.mem y
  rw [setClassification_of_label h]

namespace Growth

theorem congr (h : Growth H X m₀ P N F st) (hlabel : ∀ x, st'.label x = st.label x)
    (hclauses : st'.copyOfHornConstraints = st.copyOfHornConstraints)
    (hwork : st'.worklist = st.worklist) (hpos : st'.positive = st.positive) :
    Growth H X m₀ P N F st' :=
  ⟨hpos ▸ h.kept, fun hH => (h.quiet hH).congr hlabel hclauses hwork hpos⟩

theorem satisfy (h : Growth H X m₀ P N F st) (k : ℕ) : Growth H X m₀ P N F (st.satisfy k) :=
  ⟨h.kept, fun hH => (h.quiet hH).satisfy k⟩

theorem assign (h : Growth H X m₀ P N F st) {x : Ptr} {b : Bool} (hb : H → b = true → x ∈ P) :
    Growth H X m₀ P N F (st.assign x b) := by
  refine ⟨fun y hy => ?_, fun hH => (h.quiet hH).assign (hb hH)⟩
  rw [positive_assign]
  split_ifs
  · exact List.mem_insert_of_mem (h.kept y hy)
  · exact h.kept y hy

theorem fails (h : Growth H X m₀ P N F st) {x : Ptr} {b : Bool}
    (hfail : (st.classify x b).hornConstraintsSatisfiability ≠ true) :
    Growth H X m₀ P N F (st.classify x b) :=
  h.congr (label_classify_of_fails hfail) rfl rfl rfl

/-- `propagate_true_classification` for a point that is labelled true. -/
theorem propagateTrueClassification (h : Growth H X m₀ P N (FalseAtStart m₀ N) st) {x : Ptr}
    (hx : H → st.label x = some true) {k : ℕ} {r : Bool}
    (hrun : propagateTrueClassification x k st = some (r, st')) :
    Growth H X m₀ P N (FalseAtStart m₀ N) st' ∧ (H → st'.label x = some true) := by
  have hshrunk : Growth H X m₀ P N (FalseAtStart m₀ N)
      (st.setClause k ((st.clause k).without x)) := by
    refine ⟨h.kept, fun hH => (h.quiet hH).setClause k fun hprem => (h.quiet hH).clause k ?_⟩
    intro p hp
    by_cases hpx : p = x
    · exact hpx ▸ (h.quiet hH).trueLabels x (hx hH)
    · exact hprem p (mem_removeFromVector.mpr ⟨hp, hpx⟩)
  rw [propagateTrueClassification_eq] at hrun
  split_ifs at hrun with hconcl hempty hok
  all_goals
    rw [Option.some.injEq, Prod.mk.injEq] at hrun
    rw [← hrun.2]
  · exact ⟨h.satisfy k, hx⟩
  · -- the clause fires, and its conclusion was not false
    rw [classify_satisfiability] at hok
    refine ⟨Growth.satisfy (hshrunk.assign fun hH _ => ?_) k, fun hH => ?_⟩
    · have hquiet := (hshrunk.quiet hH).clause k
      by_cases hlt : k < st.copyOfHornConstraints.length
      · rw [clause_setClause hlt, if_pos rfl] at hquiet
        refine (hquiet fun p hp => ?_).resolve_right fun hfalse => ?_
        · rw [show ((st.clause k).without x).premises = [] from List.length_eq_zero_iff.mp hempty]
            at hp
          simp at hp
        · exact hok ((h.quiet hH).falseLabels _ hfalse)
      · -- there is no such clause: the false point is not true
        have hdefault : (st.clause k).conclusion = .falseDatapoint := by
          unfold SolverState.clause
          rw [List.getD_eq_default _ _ (Nat.le_of_not_lt hlt)]
        rw [hdefault] at hok
        exact absurd ((h.quiet hH).falseLabels _ (.inl rfl)) hok
    · show label _ x = some true
      rw [show (((st.setClause k ((st.clause k).without x)).assign (st.clause k).conclusion
        true).satisfy k).mem = _ from mem_assign ..]
      exact label_setClassification_of_some (hx hH)
  · exact ⟨hshrunk.fails hok, fun hH => (label_classify_of_fails hok x).trans (hx hH)⟩
  · exact ⟨hshrunk, hx⟩

theorem falsifyMarking (h : Growth H X m₀ P N F st) {x m : Ptr} {r : Bool}
    (hrun : falsifyMarking x m st = some (r, st')) : Growth H X m₀ P N F st' := by
  unfold Solver.falsifyMarking at hrun
  dsimp only at hrun
  split_ifs at hrun with _ hok
  all_goals
    rw [Option.some.injEq, Prod.mk.injEq] at hrun
    rw [← hrun.2]
  · exact h.assign (b := false) (by simp)
  · exact h.fails hok
  · exact h

theorem propagateFalseClassification (h : Growth H X m₀ P N F st) (ord : HashOrder) {fuel : ℕ}
    {x : Ptr} {k : ℕ} {r : Bool}
    (hrun : propagateFalseClassification ord fuel x k st = some (r, st')) :
    Growth H X m₀ P N F st' := by
  have hloop : ∀ s : SolverState, Growth H X m₀ P N F s →
      forEach (Solver.falsifyMarking x) (ord.points s.clock (s.marking x)) s.tick =
        some (r, st') → Growth H X m₀ P N F st' := by
    intro s hs hrun
    refine forEach_keeps (I := Growth H X m₀ P N F) (fun m _ t r t' ht hstep => ?_) ?_ hrun
    · exact ht.falsifyMarking hstep
    · exact hs.congr (fun _ => rfl) rfl rfl rfl
  rw [propagateFalseClassification_eq] at hrun
  split_ifs at hrun with _ _ _ hok
  · rw [Option.some.injEq, Prod.mk.injEq] at hrun
    rw [← hrun.2]
    exact h.satisfy k
  · rw [Option.some.injEq, Prod.mk.injEq] at hrun
    rw [← hrun.2]
    exact Growth.satisfy (h.assign (b := false) (by simp)) k
  · rw [Option.some.injEq, Prod.mk.injEq] at hrun
    rw [← hrun.2]
    exact h.fails hok
  · match hmarked : computeCurrentMarking ord fuel st with
    | none =>
      rw [hmarked] at hrun
      cases hrun
    | some s =>
      rw [hmarked] at hrun
      obtain ⟨M, n, rfl⟩ := computeCurrentMarking_setMarkings ord hmarked
      exact hloop { st.setMarkings M n with computeCurrentMarking := false }
        (h.congr (fun _ => rfl) rfl rfl rfl) hrun
  · exact hloop st h hrun
  · rw [Option.some.injEq, Prod.mk.injEq] at hrun
    rw [← hrun.2]
    exact h

theorem processVariable (h : Growth H X m₀ P N (FalseAtStart m₀ N) st) (ord : HashOrder) {fuel : ℕ}
    {x : Ptr} (hx : H → st.label x ≠ none) {r : Bool}
    (hrun : processVariable ord fuel x st = some (r, st')) :
    Growth H X m₀ P N (FalseAtStart m₀ N) st' := by
  unfold Solver.processVariable at hrun
  dsimp only at hrun
  have hkept : Growth H X m₀ P N (FalseAtStart m₀ N) (relist st x (keptClauses ord st x)) :=
    h.congr (fun y => label_relist x y _) rfl rfl rfl
  split_ifs at hrun with hempty htrue
  · rw [Option.some.injEq, Prod.mk.injEq] at hrun
    rw [← hrun.2]
    exact h
  · have hlabel : H → (relist st x (keptClauses ord st x)).label x = some true := by
      intro hH
      rw [Function.update_self] at htrue
      obtain ⟨b, hb⟩ := Option.ne_none_iff_exists'.mp (hx hH)
      rw [label_relist, hb]
      unfold SolverState.label label Datapoint.label at hb
      split_ifs at hb
      rw [← hb]
      exact congrArg some htrue
    refine (forEach_keeps (I := fun s => Growth H X m₀ P N (FalseAtStart m₀ N) s ∧
      (H → s.label x = some true)) (fun k _ s r s' hs hstep => ?_) ⟨hkept, hlabel⟩ hrun).1
    unfold unlessSatisfied at hstep
    split_ifs at hstep
    · exact hs.1.propagateTrueClassification hs.2 hstep
    · rw [Option.some.injEq, Prod.mk.injEq] at hstep
      exact hstep.2 ▸ hs
  · refine forEach_keeps (I := Growth H X m₀ P N (FalseAtStart m₀ N))
      (fun k _ s r s' hs hstep => ?_) hkept hrun
    unfold unlessSatisfied at hstep
    split_ifs at hstep
    · exact hs.propagateFalseClassification ord hstep
    · rw [Option.some.injEq, Prod.mk.injEq] at hstep
      exact hstep.2 ▸ hs

theorem verifyConstraintsSatisfiability (h : Growth H X m₀ P N (FalseAtStart m₀ N) st)
    (ord : HashOrder) {fuel steps : ℕ} {r : Bool}
    (hrun : verifyConstraintsSatisfiability ord fuel steps st = some (r, st')) :
    Growth H X m₀ P N (FalseAtStart m₀ N) st' := by
  refine verifyConstraintsSatisfiability_keeps ord (fun {s s' x rest r} hs hwork hstep => ?_) h hrun
  have hlabels : H → ∀ y ∈ x :: rest, s.label y ≠ none := fun hH => hwork ▸ (hs.quiet hH).worklist
  have hpopped : Growth H X m₀ P N (FalseAtStart m₀ N) { s with worklist := rest } := by
    refine ⟨hs.kept, fun hH => ?_⟩
    obtain ⟨h1, h2, h3, h4, h5, _⟩ := hs.quiet hH
    exact ⟨h1, h2, h3, h4, h5, fun y hy => hlabels hH y (List.mem_cons_of_mem _ hy)⟩
  exact hpopped.processVariable ord (fun hH => hlabels hH x List.mem_cons_self) hstep

end Growth

/-! ## Setting up -/

/-- The point is known to be false before the points in `negative` are. -/
def GivenFalse (m₀ : Heap) (x : Ptr) : Prop := x = .falseDatapoint ∨ label m₀ x = some false

/-- A copy that is not satisfied can only fire on points in `positive` and false points. -/
theorem Quiet.copyConstraint (h : Quiet m₀ P N F st) (hcond : NothingToAdd m₀ hcs P N)
    {hc : HornConstraint} (hhc : hc ∈ hcs)
    (hlive : (copyConstraint st.mem hc).satisfiable = false) :
    (copyConstraint st.mem hc).Quiet m₀ P N := by
  intro hprem
  have hconcl := (copyConstraint_live hlive).2
  have hall : ∀ p ∈ hc.premises, TrueAtStart m₀ P p := by
    intro p hp
    by_cases hl : isLabelled st.mem p true = true
    · exact h.trueLabels p (isLabelled_iff.mp hl)
    · exact hprem p (List.mem_filter.mpr ⟨hp, by simpa using hl⟩)
  match hc' : hc.conclusion with
  | none =>
    refine .inr (.inl ?_)
    rw [Solver.copyConstraint, hc']
    rfl
  | some c =>
    have heq : (Solver.copyConstraint st.mem hc).conclusion = c := by
      rw [Solver.copyConstraint, hc']
      rfl
    rw [heq] at hconcl ⊢
    rcases hcond hc hhc hall c hc' with (htrue | hP) | hfalse
    · exact absurd (h.trueKept c htrue) hconcl
    · exact .inl hP
    · exact .inr hfalse

/-- The conclusion of a unit clause is labelled false before it is labelled true. -/
theorem label_unitState {c : Ptr} {b : Bool} (hv : ValidInput m₀ D hcs P N)
    (h : Quiet m₀ P N (GivenFalse m₀) st) (hneg : st.negative = N) (hc : FalseAtStart m₀ N c) :
    (unitState st c b).label c = some false := by
  have hgiven : GivenFalse m₀ c → (unitState st c b).label c = some false := by
    intro hg
    have hlabel := h.falseLabels c hg
    show label (unitState st c b).mem c = some false
    unfold unitState
    dsimp only
    split_ifs
    · exact label_setClassification_of_some hlabel
    · exact hlabel
  rcases hc with hc | hc | hc
  · exact hgiven (.inl hc)
  · exact hgiven (.inr hc)
  · have hne : label st.mem c ≠ some !false := by
      intro htrue
      rcases h.trueLabels c htrue with hm | hP
      · rw [(hv.negative c hc).2] at hm
        simp at hm
      · exact hv.disjoint c hP hc
    show label (unitState st c b).mem c = some false
    unfold unitState
    dsimp only
    rw [if_pos (hneg ▸ hc), label_setClassification hne, if_pos rfl]

theorem Quiet.unitState (h : Quiet m₀ P N F st) (c : Ptr) (b : Bool) :
    Quiet m₀ P N F (unitState st c b) := by
  by_cases hc : c ∈ st.negative
  · refine (h.setClassification c (b := false) (by simp)).congr (fun x => ?_) rfl rfl rfl
    unfold Solver.unitState SolverState.label
    rw [if_pos hc]
  · refine h.congr (fun x => ?_) rfl rfl rfl
    unfold Solver.unitState SolverState.label
    rw [if_neg hc]

/-- One constraint of `keep_backup`. -/
theorem Growth.backupConstraint (hv : ValidInput m₀ D hcs P N) (ord : HashOrder)
    (hcond : H → NothingToAdd m₀ hcs P N) {hc : HornConstraint} (hhc : hc ∈ hcs)
    (h : Growth H X m₀ P N (GivenFalse m₀) st) (hneg : st.negative = N) :
    Growth H X m₀ P N (GivenFalse m₀) (backupConstraint ord st hc) ∧
      (backupConstraint ord st hc).negative = N := by
  by_cases hst : st.hornConstraintsSatisfiability = true
  · obtain ⟨b, heq⟩ := backupConstraint_eq ord st hc hst
    rw [heq]
    set c := copyConstraint st.mem hc with hcdef
    have hflag : Growth H X m₀ P N (GivenFalse m₀)
        { st with hornConstraintsWithoutConclusion := b } := h.congr (fun _ => rfl) rfl rfl rfl
    dsimp only
    by_cases hlive : c.satisfiable = false
    · have hquiet : H → c.Quiet m₀ P N := fun hH =>
        (h.quiet hH).copyConstraint (hcond hH) hhc hlive
      by_cases hsize : c.sizeOfPremises = 0
      · -- a unit clause
        rw [if_pos ⟨hsize, hlive⟩]
        have hempty : c.premises = [] := List.length_eq_zero_iff.mp hsize
        by_cases hok : ((Solver.unitState st c.conclusion b).classify c.conclusion
            true).hornConstraintsSatisfiability = true
        · rw [if_neg (by simp [hok])]
          refine ⟨⟨fun x hx => List.mem_insert_of_mem (h.kept x hx), fun hH => ?_⟩, hneg⟩
          have hP : c.conclusion ∈ P := by
            refine (hquiet hH (by simp [hempty])).resolve_right fun hfalse => ?_
            exact classify_satisfiability.mp hok (label_unitState hv (h.quiet hH) hneg hfalse)
          have hunit := ((h.quiet hH).unitState c.conclusion b).classify c.conclusion (b := true)
            fun _ => .inr hP
          refine ⟨hunit.trueLabels, hunit.trueKept, hunit.falseLabels, fun x hx => ?_,
            hunit.clauses, hunit.worklist⟩
          rcases List.mem_insert_iff.mp hx with rfl | hx
          · exact hP
          · exact (h.quiet hH).positive x hx
        · rw [if_pos (by simpa using hok)]
          refine ⟨⟨h.kept, fun hH => ?_⟩, hneg⟩
          exact ((h.quiet hH).unitState c.conclusion b).congr (label_classify_of_fails hok) rfl rfl
            rfl
      · -- a clause with open premises
        rw [if_neg fun e => hsize e.1, if_pos hlive]
        have hpushed : Growth H X m₀ P N (GivenFalse m₀)
            (if isLabelled st.mem c.conclusion false = true then
              SolverState.push { st with hornConstraintsWithoutConclusion := b } c.conclusion
            else { st with hornConstraintsWithoutConclusion := b }) := by
          split_ifs with hl
          · refine ⟨h.kept, fun hH => (hflag.quiet hH).push ?_⟩
            show label st.mem c.conclusion ≠ none
            rw [isLabelled_iff.mp hl]
            simp
          · exact hflag
        set s := if isLabelled st.mem c.conclusion false = true then
            SolverState.push { st with hornConstraintsWithoutConclusion := b } c.conclusion
          else { st with hornConstraintsWithoutConclusion := b } with hs
        have hnegs : s.negative = N := by
          rw [hs]
          split_ifs <;> exact hneg
        have hstored : Growth H X m₀ P N (GivenFalse m₀)
            { s with copyOfHornConstraints := s.copyOfHornConstraints ++ [c] } := by
          refine ⟨hpushed.kept, fun hH => ?_⟩
          obtain ⟨h1, h2, h3, h4, h5, h6⟩ := hpushed.quiet hH
          refine ⟨h1, h2, h3, h4, fun d hd => ?_, h6⟩
          rcases List.mem_append.mp hd with hd | hd
          · exact h5 d hd
          · exact List.mem_singleton.mp hd ▸ hquiet hH
        split_ifs
        · exact ⟨hstored.congr (fun x => label_insertHornConstraint ..) rfl rfl rfl, hnegs⟩
        · exact ⟨hstored, hnegs⟩
    · rw [if_neg fun e => hlive e.2, if_neg hlive]
      exact ⟨hflag, hneg⟩
  · unfold Solver.backupConstraint
    rw [if_pos (Bool.eq_false_iff.mpr hst)]
    exact ⟨h, hneg⟩

theorem Growth.populateMetaData (h : Growth H X m₀ P N F st) (D : List Ptr) :
    Growth H X m₀ P N F (populateMetaData D st) := by
  unfold Solver.populateMetaData
  dsimp only
  have hmark : ∀ s x, Growth H X m₀ P N F s → Growth H X m₀ P N F (s.insertMarking x x) := by
    intro s x hs
    rw [insertMarking_eq]
    exact hs.congr (fun _ => rfl) rfl rfl rfl
  have hlist : ∀ s x k, Growth H X m₀ P N F s → Growth H X m₀ P N F (s.insertHornConstraint x k) :=
    fun s x k hs => hs.congr (fun y => label_insertHornConstraint ..) rfl rfl rfl
  refine List.foldlRecOn (motive := Growth H X m₀ P N F) _ _ ?_ ?_
  · refine List.foldlRecOn (motive := Growth H X m₀ P N F) _ _ h ?_
    exact fun s hs x _ => hmark s x hs
  · intro s hs k _
    split_ifs
    · refine List.foldlRecOn (motive := Growth H X m₀ P N F) _ _ (hlist _ _ k hs) ?_
      exact fun t ht p _ => hlist t p k ht
    · exact hs

theorem positive_foldl_classifyAndPush (b : Bool) (l : List Ptr) (st : SolverState) :
    (l.foldl (classifyAndPush b) st).positive = st.positive := by
  refine List.foldlRecOn (motive := fun s : SolverState => s.positive = st.positive) _ _ rfl ?_
  exact fun s hs x _ => hs

theorem Quiet.foldl_classifyAndPush (h : Quiet m₀ P N F st) {b : Bool} {l : List Ptr}
    (hl : ∀ x ∈ l, b = true → TrueAtStart m₀ P x) :
    Quiet m₀ P N F (l.foldl (classifyAndPush b) st) := by
  refine List.foldlRecOn (motive := Quiet m₀ P N F) _ _ h ?_
  intro s hs x hx
  exact (hs.setClassification x (hl x hx)).push (label_setClassification_ne_none s.mem x b)

/-- After `fill_worklist` the points in `negative` are known to be false, too. -/
theorem Growth.fillWorklist (hv : ValidInput m₀ D hcs P N) (ord : HashOrder)
    (h : Growth H X m₀ P N (GivenFalse m₀) st) (hneg : st.negative = N) :
    Growth H X m₀ P N (FalseAtStart m₀ N) (fillWorklist ord st) := by
  unfold Solver.fillWorklist
  dsimp only
  set s := if st.hornConstraintsWithoutConclusion = true then st.push .falseDatapoint
    else st with hs
  have hspos : s.positive = st.positive := by
    rw [hs]
    split_ifs <;> rfl
  have hsneg : s.negative = N := by
    rw [hs]
    split_ifs <;> exact hneg
  refine ⟨fun x hx => ?_, fun hH => ?_⟩
  · rw [positive_foldl_classifyAndPush]
    show x ∈ (List.foldl (classifyAndPush false) s.tick _).positive
    rw [positive_foldl_classifyAndPush]
    show x ∈ s.positive
    rw [hspos]
    exact h.kept x hx
  · have hsq : Quiet m₀ P N (GivenFalse m₀) s := by
      rw [hs]
      split_ifs
      · refine (h.quiet hH).push ?_
        rw [(h.quiet hH).falseLabels _ (.inl rfl)]
        simp
      · exact h.quiet hH
    have htick : Quiet m₀ P N (GivenFalse m₀) s.tick := hsq.congr (fun _ => rfl) rfl rfl rfl
    set l := ord.points s.clock s.negative with hl
    have hmem : ∀ x, x ∈ l ↔ x ∈ N := fun x => by rw [hl, ord.mem_points, hsneg]
    have hnotTrue : ∀ x ∈ l, s.tick.label x ≠ some !false := by
      intro x hx htrue
      rcases htick.trueLabels x htrue with hm | hP
      · rw [(hv.negative x ((hmem x).mp hx)).2] at hm
        simp at hm
      · exact hv.disjoint x hP ((hmem x).mp hx)
    have hlabels := (foldl_classifyAndPush (D := D) m₀ false l s.tick
      (fun x hx => (hv.negative x ((hmem x).mp hx)).1) hnotTrue).2.1
    have hnegq : Quiet m₀ P N (GivenFalse m₀) (l.foldl (classifyAndPush false) s.tick) :=
      htick.foldl_classifyAndPush (by simp)
    have hfalse : Quiet m₀ P N (FalseAtStart m₀ N) (l.foldl (classifyAndPush false) s.tick) := by
      refine ⟨hnegq.trueLabels, hnegq.trueKept, fun x hx => ?_, hnegq.positive, hnegq.clauses,
        hnegq.worklist⟩
      rcases hx with hx | hx | hx
      · exact hnegq.falseLabels x (.inl hx)
      · exact hnegq.falseLabels x (.inr hx)
      · rw [hlabels, if_pos ((hmem x).mpr hx)]
    refine Quiet.foldl_classifyAndPush ?_ fun x hx _ => .inr ?_
    · exact hfalse.congr (fun _ => rfl) rfl rfl rfl
    · exact hfalse.positive x (ord.mem_points.mp hx)

/-! ## A whole call -/

/-- The premises are labelled true or derived. -/
def Fires (m₀ : Heap) (derived : List Ptr) (hc : HornConstraint) : Prop :=
  ∀ p ∈ hc.premises, label m₀ p = some true ∨ p ∈ derived

instance (m₀ : Heap) (derived : List Ptr) (hc : HornConstraint) : Decidable (Fires m₀ derived hc) :=
  inferInstanceAs (Decidable (∀ p ∈ hc.premises, label m₀ p = some true ∨ p ∈ derived))

instance (m₀ : Heap) (N : List Ptr) (x : Ptr) : Decidable (FalseAtStart m₀ N x) :=
  inferInstanceAs (Decidable (x = .falseDatapoint ∨ label m₀ x = some false ∨ x ∈ N))

/-- The state of `keep_backup` after constraints that derive the points `derived`. -/
structure Derived (m₀ : Heap) (P N derived : List Ptr) (st : SolverState) : Prop where
  satisfiable : st.hornConstraintsSatisfiability = true
  isTrue : ∀ x, st.label x = some true ↔ label m₀ x = some true ∨ x ∈ derived
  isFalse : ∀ x, st.label x = some false ↔ GivenFalse m₀ x
  positive : ∀ x, x ∈ st.positive ↔ x ∈ P ∨ x ∈ derived
  negative : st.negative = N
  notNegative : ∀ x ∈ derived, x ∉ N

theorem Derived.congr {derived : List Ptr} (h : Derived m₀ P N derived st)
    (hsame : st'.hornConstraintsSatisfiability = true ∧ (∀ x, st'.label x = st.label x) ∧
      st'.positive = st.positive ∧ st'.negative = st.negative) : Derived m₀ P N derived st' := by
  obtain ⟨hflag, hlabel, hpos, hneg⟩ := hsame
  refine ⟨hflag, fun x => ?_, fun x => ?_, fun x => ?_, hneg.trans h.negative, h.notNegative⟩
  · rw [hlabel, h.isTrue]
  · rw [hlabel, h.isFalse]
  · rw [hpos, h.positive]

/-- An open point that is not negative is derived. -/
theorem Derived.insert (h : Derived m₀ P N derived st) {s : SolverState} {x : Ptr}
    (hopen : st.label x = none) (hneg : x ∉ N)
    (hflag : s.hornConstraintsSatisfiability = true)
    (hlabels : ∀ y, s.label y = if y = x then some true else st.label y)
    (hpos : s.positive = st.positive.insert x) (hneg' : s.negative = st.negative) :
    Derived m₀ P N (derived.insert x) s := by
  refine ⟨hflag, fun y => ?_, fun y => ?_, fun y => ?_, hneg'.trans h.negative, fun y hy => ?_⟩
  · rw [hlabels, List.mem_insert_iff]
    split_ifs with hy
    · simp [hy]
    · simp [h.isTrue, hy]
  · rw [hlabels]
    split_ifs with hy
    · rw [hy, ← h.isFalse, hopen]
      simp
    · exact h.isFalse y
  · rw [hpos, List.mem_insert_iff, List.mem_insert_iff, h.positive]
    exact or_left_comm
  · rcases List.mem_insert_iff.mp hy with rfl | hy
    · exact hneg
    · exact h.notNegative y hy

end HiceDt.Solver
