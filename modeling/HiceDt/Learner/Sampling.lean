import HiceDt.Lib.Loop
import HiceDt.Learner.Leaf

/-!
# Selecting slices and sampling Horn assignments

The node selection and the sampler of Horn assignments call the solver, but leave
the points, the tree and the slices as they are. The sampler labels unlabelled
points one after the other; the sets that it passes to the solver are what the
previous call returned and one more point.

Results:

* `completeAssignment_quiet`, `updateDatapointPtrsToFrac_quiet`: the sampler.
* `selectSlice_quiet`, `prepareSplit_quiet`: the parts of `next_job` that use it.
-/

namespace HiceDt.Learner

open HiceDt Solver Loop

variable {F : Type} {D P N : List Ptr} {m₁ : Heap} {hcs : List HornConstraint}
  {s s' s'' : LearnerState F} {L : List Slice}

theorem Quiet.nextRand (env : Environment) (s : LearnerState F) : Quiet s (s.nextRand env).2 :=
  ⟨rfl, rfl, rfl, rfl, fun _ _ => rfl, id⟩

/-- What the sampler passes to the solver: the sets are apart, and together with the
    points that are left they are unlabelled points. -/
structure Assignment (D : List Ptr) (m : Heap) (temp P N : List Ptr) : Prop where
  temp : ∀ x ∈ temp, (x ∈ D ∧ label m x = none) ∧ x ∉ P ∧ x ∉ N
  positive : ∀ x ∈ P, x ∈ D ∧ label m x = none
  negative : ∀ x ∈ N, x ∈ D ∧ label m x = none
  disjoint : ∀ x ∈ P, x ∉ N

/-- A point that is left may be added to either set. -/
theorem Assignment.insert {m : Heap} {temp : List Ptr} (h : Assignment D m temp P N) {x : Ptr}
    (hx : x ∈ temp) (b : Bool) : Assignment D m []
      (if b then P.insert x else P) (if b then N else N.insert x) := by
  obtain ⟨hok, hP, hN⟩ := h.temp x hx
  cases b with
  | true =>
    refine ⟨by simp, fun y hy => ?_, h.negative, fun y hy => ?_⟩
    · rcases List.mem_insert_iff.mp hy with rfl | hy
      · exact hok
      · exact h.positive y hy
    · rcases List.mem_insert_iff.mp hy with rfl | hy
      · exact hN
      · exact h.disjoint y hy
  | false =>
    refine ⟨by simp, h.positive, fun y hy => ?_, fun y hy hy' => ?_⟩
    · rcases List.mem_insert_iff.mp hy with rfl | hy
      · exact hok
      · exact h.negative y hy
    · rcases List.mem_insert_iff.mp hy' with rfl | hy'
      · exact hP hy
      · exact h.disjoint y hy hy'

theorem getD_mem {α : Type} (l : List α) (i : ℕ) (x : α) : (x :: l).getD i x ∈ x :: l := by
  rw [List.getD_eq_getElem?_getD]
  cases h : (x :: l)[i]? with
  | none => simp
  | some y => exact List.mem_of_getElem? h

/-- The next round: the sets that the solver returned and the points that are in
    neither. -/
theorem Assignment.next {m m' : Heap} {temp : List Ptr} {st : SolverState}
    (htemp : ∀ x ∈ temp, x ∈ D ∧ label m x = none) (h : Solved m D hcs P N true st)
    (hlabel : ∀ x ∈ D, label m' x = label m x) :
    Assignment D m' (temp.filter fun y => !st.positive.contains y && !st.negative.contains y)
      st.positive st.negative := by
  have hok := (labelsOk_of_solved h).congr hlabel
  refine ⟨fun x hx => ?_, hok.positive, hok.negative, hok.disjoint⟩
  rw [List.mem_filter] at hx
  obtain ⟨hx, hnot⟩ := hx
  rw [hlabel x (htemp x hx).1]
  exact ⟨htemp x hx, by simpa using hnot⟩

/-- One iteration of the `while` loop. -/
theorem completeAssignment_succ (env : Environment) (cfg : Settings)
    (h : LearnInv D m₁ cfg.hornConstraints s L) {fuel : ℕ} {x : Ptr} {temp : List Ptr}
    (ha : Assignment D s.solver.mem (x :: temp) P N) {r : List Ptr × List Ptr × LearnerState F}
    (hrun : completeAssignment env cfg (fuel + 1) (x :: temp) P N s = .ok r) :
    ∃ temp' P' N' s', Quiet s s' ∧ Assignment D s'.solver.mem temp' P' N' ∧
      completeAssignment env cfg fuel temp' P' N' s' = .ok r := by
  rw [completeAssignment] at hrun
  simp only [bind_ok] at hrun
  obtain ⟨⟨ok, s₃⟩, hsolve, u, hassert, hrest⟩ := hrun
  set s₂ := (s.nextRand env).2.nextRand env |>.2 with hs₂
  have hq₂ : Quiet s s₂ := (Quiet.nextRand env s).trans (Quiet.nextRand env _)
  have h₂ := h.quiet hq₂
  -- the random point goes to one of the sets
  have hins := ha.insert (getD_mem temp ((s.nextRand env).1 % (x :: temp).length) x)
    (decide (((s.nextRand env).2.nextRand env).1 % 2 = 0))
  simp only [decide_eq_true_eq] at hins
  obtain ⟨ok', st, hsolve', hq₃, hsol⟩ := LearnerState.solve_spec env cfg h₂.perm h₂.sample
    hins.positive hins.negative hins.disjoint
  rw [hsolve] at hsolve'
  obtain ⟨rfl, rfl⟩ := Prod.mk.inj (Except.ok.inj hsolve')
  have hok : ok = true := assert_eq_ok hassert
  rw [hok] at hsol
  refine ⟨_, _, _, _, hq₂.trans hq₃, ?_, hrest⟩
  exact .next (fun y hy => (ha.temp y hy).1) hsol (hq₃.label_eq h₂)

/-- Completing an assignment leaves everything as it is. -/
theorem completeAssignment_quiet (env : Environment) (cfg : Settings) :
    ∀ (fuel : ℕ) (temp P N : List Ptr) (s : LearnerState F),
      LearnInv D m₁ cfg.hornConstraints s L → Assignment D s.solver.mem temp P N →
      ∀ {r}, completeAssignment env cfg fuel temp P N s = .ok r → Quiet s r.2.2 := by
  intro fuel
  induction fuel with
  | zero =>
    intro temp P N s h ha r hrun
    cases temp with
    | nil =>
      rw [completeAssignment, Except.ok.injEq] at hrun
      rw [← hrun]
      exact .refl s
    | cons x temp => simp [completeAssignment] at hrun
  | succ fuel ih =>
    intro temp P N s h ha r hrun
    cases temp with
    | nil =>
      rw [completeAssignment, Except.ok.injEq] at hrun
      rw [← hrun]
      exact .refl s
    | cons x temp =>
      obtain ⟨temp', P', N', s₁, hq, ha', hrest⟩ := completeAssignment_succ env cfg h ha hrun
      exact hq.trans (ih temp' P' N' s₁ (h.quiet hq) ha' hrest)

variable [Score F]

theorem sampleRound_quiet (env : Environment) (cfg : Settings)
    (h : LearnInv D m₁ cfg.hornConstraints s L) {unclassified : List Ptr}
    (hun : ∀ x ∈ unclassified, x ∈ D ∧ label s.solver.mem x = none) {sum : Ptr → Option F}
    {r : (Ptr → Option F) × LearnerState F}
    (hrun : sampleRound env cfg unclassified (sum, s) = .ok r) : Quiet s r.2 := by
  unfold sampleRound at hrun
  rw [bind_ok] at hrun
  obtain ⟨⟨P', N', s₁⟩, hcomplete, hret⟩ := hrun
  have ha : Assignment D s.solver.mem unclassified [] [] :=
    ⟨fun x hx => ⟨hun x hx, by simp⟩, by simp, by simp, by simp⟩
  have hq := completeAssignment_quiet env cfg _ _ _ _ s h ha hcomplete
  rw [← Except.ok.inj hret]
  exact hq

theorem updateDatapointPtrsToFrac_quiet (env : Environment) (cfg : Settings)
    (h : LearnInv D m₁ cfg.hornConstraints s L)
    (hrun : updateDatapointPtrsToFrac env cfg s = .ok s') : Quiet s s' := by
  unfold updateDatapointPtrsToFrac at hrun
  simp only [bind_ok] at hrun
  obtain ⟨⟨f₁, s₁⟩, hr₁, ⟨f₂, s₂⟩, hr₂, ⟨f₃, s₃⟩, hr₃, hret⟩ := hrun
  have hun : ∀ x ∈ s.datapointPtrs.filter fun x => !(s.solver.mem x).isClassified,
      x ∈ D ∧ label s.solver.mem x = none := by
    intro x hx
    rw [List.mem_filter] at hx
    refine ⟨h.perm.subset hx.1, ?_⟩
    simp only [Bool.not_eq_true'] at hx
    unfold label Datapoint.label
    rw [hx.2]
    rfl
  have hq₁ := sampleRound_quiet env cfg h hun hr₁
  have h₁ := h.quiet hq₁
  have hun₁ : ∀ x ∈ s.datapointPtrs.filter fun x => !(s.solver.mem x).isClassified,
      x ∈ D ∧ label s₁.solver.mem x = none :=
    fun x hx => ⟨(hun x hx).1, (hq₁.label_eq h x (hun x hx).1).trans (hun x hx).2⟩
  have hq₂ := sampleRound_quiet env cfg h₁ hun₁ hr₂
  have hun₂ : ∀ x ∈ s.datapointPtrs.filter fun x => !(s.solver.mem x).isClassified,
      x ∈ D ∧ label s₂.solver.mem x = none :=
    fun x hx => ⟨(hun x hx).1, (hq₂.label_eq h₁ x (hun x hx).1).trans (hun₁ x hx).2⟩
  have hq₃ := sampleRound_quiet env cfg (h₁.quiet hq₂) hun₂ hr₃
  rw [← Except.ok.inj hret]
  have hq := (hq₁.trans hq₂).trans hq₃
  exact ⟨hq.datapointPtrs, hq.tree, hq.slices, hq.isFirstSplit, hq.mem, hq.falseLabel⟩

theorem Quiet.initializeDatapointPtrsToFrac (s : LearnerState F) :
    Quiet s (initializeDatapointPtrsToFrac s) :=
  ⟨rfl, rfl, rfl, rfl, fun _ _ => rfl, id⟩

/-! ## `next_job` -/

theorem selectSlice_quiet (env : Environment) (cfg : Settings)
    (h : LearnInv D m₁ cfg.hornConstraints s L) {i : ℕ}
    (hrun : selectSlice env cfg s = .ok (i, s')) : Quiet s s' := by
  unfold selectSlice at hrun
  cases hsel : cfg.nodeSelection with
  | bfs =>
    rw [hsel] at hrun
    rw [← (Prod.mk.inj (Except.ok.inj hrun)).2]
    exact .refl s
  | dfs =>
    rw [hsel] at hrun
    rw [← (Prod.mk.inj (Except.ok.inj hrun)).2]
    exact .refl s
  | random =>
    rw [hsel] at hrun
    rw [← (Prod.mk.inj (Except.ok.inj hrun)).2]
    exact .nextRand env s
  | maxEntropy | maxWeightedEntropy | minEntropy | minWeightedEntropy =>
    rw [hsel] at hrun
    by_cases hcfg : cfg.entropyComputation = .hornAssignments
    · have hq := Quiet.initializeDatapointPtrsToFrac s
      simp only [if_pos hcfg, bind_ok] at hrun
      obtain ⟨s₁, hsample, j, -, u, -, hret⟩ := hrun
      rw [← (Prod.mk.inj (Except.ok.inj hret)).2]
      exact hq.trans (updateDatapointPtrsToFrac_quiet env cfg (h.quiet hq) hsample)
    · simp only [if_neg hcfg, bind_ok] at hrun
      obtain ⟨s₁, hsample, j, -, u, -, hret⟩ := hrun
      rw [← (Prod.mk.inj (Except.ok.inj hret)).2, ← Except.ok.inj hsample]
      exact .refl s

theorem prepareSplit_quiet (env : Environment) (cfg : Settings) {sl : Slice}
    (h : LearnInv D m₁ cfg.hornConstraints s L)
    (hrun : prepareSplit env cfg sl s = .ok s') : Quiet s s' := by
  have hq := Quiet.initializeDatapointPtrsToFrac s
  unfold prepareSplit at hrun
  split_ifs at hrun with hcfg hun
  · exact hq.trans (updateDatapointPtrsToFrac_quiet env cfg (h.quiet hq) hrun)
  · rw [← Except.ok.inj hrun]
    exact hq
  · rw [← Except.ok.inj hrun]
    exact .refl s

end HiceDt.Learner
