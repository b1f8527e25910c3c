import HiceDt.Learner.Consistent

/-!
# Split jobs partition their slice

The slices that `categorical_split_job::run` and `int_split_job::run` return
(`hice-dt/src/job.cpp`, lines 18–94) beside the walk of the `output_visitor` at the new node
(`output_visitor.cpp`, lines 27–45).

Results:

* `sendsTo_iff`: the child to which the visitor goes.
* `SplitInto.partitions`: slices that fit the new node partition the slice along it.
* `splitJobs_partition`: both jobs partition their slice, and an integer split makes it smaller.
-/

namespace HiceDt

/-! ## The visitor at a node -/

/-- The node with the given trees in its slots. -/
def Tree.fill : Tree → (ℕ → Tree) → Tree
  | .int attr threshold _ _, children => .int attr threshold (children 0) (children 1)
  | .categorical attr n _, children => .categorical attr n children
  | t, _ => t

/-- At the node `t` the `output_visitor` goes on with child `c`, whatever the children are. -/
def Tree.SendsTo (t : Tree) (d : Datapoint) (c : ℕ) : Prop :=
  ∀ children : ℕ → Tree, (∀ i, (children i).isNull = false) →
    (t.fill children).output d = (children c).output d

/-- The slot of the visitor is the one of the branch. -/
theorem sendsTo_iff {t : Tree} {d : Datapoint} {c : ℕ} (hinner : t.branch d ≠ none) :
    t.SendsTo d c ↔ t.branch d = some c ∧ (t.child c).isSome = true := by
  -- a tree whose only leaf with output `true` is in slot `c`
  have htest : t.SendsTo d c → (t.fill fun i => .leaf (decide (i = c))).output d = .ok true := by
    intro h
    rw [h (fun i => .leaf (decide (i = c))) fun _ => rfl, Tree.output, decide_eq_true rfl]
  cases t with
  | null => exact absurd rfl hinner
  | leaf b => exact absurd rfl hinner
  | int attr threshold left right =>
    constructor
    · intro h
      have hrun := htest h
      simp only [Tree.fill, Tree.output, Tree.branch] at hrun ⊢
      split_ifs at hrun ⊢
      · obtain rfl := of_decide_eq_true (Except.ok.inj hrun)
        exact ⟨rfl, rfl⟩
      · obtain rfl := of_decide_eq_true (Except.ok.inj hrun)
        exact ⟨rfl, rfl⟩
    · rintro ⟨hbranch, -⟩ children -
      simp only [Tree.fill, Tree.output, Tree.branch, Option.some.injEq] at hbranch ⊢
      split_ifs at hbranch ⊢
      · rw [hbranch]
      · rw [hbranch]
  | categorical attr n slots =>
    constructor
    · intro h
      have hrun := htest h
      simp only [Tree.fill, Tree.output, Tree.isNull, Tree.branch, Tree.child] at hrun ⊢
      split_ifs at hrun with hlt
      have hc := of_decide_eq_true (Except.ok.inj hrun)
      rw [← hc, if_pos hlt]
      exact ⟨rfl, rfl⟩
    · rintro ⟨hbranch, hchild⟩ children hnull
      simp only [Tree.branch, Option.some.injEq] at hbranch
      subst hbranch
      have hlt : d.category attr < n := by
        by_contra hge
        rw [Tree.child, if_neg hge] at hchild
        cases hchild
      rw [Tree.fill, Tree.output, if_pos hlt, hnull, if_neg Bool.false_ne_true]

namespace Learner

open Solver Loop

/-! ## Partitions -/

variable {F : Type} {s s' : LearnerState F} {sl : Slice} {slices : List Slice} {new : Tree}

/-- From `s` to `s'` only positions of the slice have been permuted, the node `new` has been
    put into its slot, and the slices partition it along this node. -/
structure Partitions (sl : Slice) (s s' : LearnerState F) (new : Tree) (slices : List Slice) :
    Prop where
  rearranged : Rearranged sl.leftIndex sl.rightIndex s.datapointPtrs s'.datapointPtrs
  outside : ∀ i, ¬ sl.Contains i → s'.datapointPtrs[i]? = s.datapointPtrs[i]?
  points : s'.solver.mem = s.solver.mem
  tree : s'.tree = s.tree.setAt sl.node new
  nonempty : ∀ ns ∈ slices, ns.leftIndex ≤ ns.rightIndex
  inside : ∀ ns ∈ slices, ∀ i, ns.Contains i → sl.Contains i
  disjoint : slices.Pairwise fun a b => ∀ i, ¬ (a.Contains i ∧ b.Contains i)
  covered : ∀ i, sl.Contains i → ∃ ns ∈ slices, ns.Contains i
  children : ∀ ns ∈ slices, ∃ c, ns.node = sl.node ++ [c] ∧ new.child c = some .null
  different : slices.Pairwise fun a b => a.node ≠ b.node
  sent : ∀ i, sl.Contains i → ∀ c, (∃ ns ∈ slices, ns.node = sl.node ++ [c] ∧ ns.Contains i) ↔
    new.SendsTo (s'.point i) c

/-- Slices that fit the new node of a sorted slice. -/
theorem SplitInto.partitions (h : SplitInto s' sl new slices) (hr : sl.InRange s)
    (hrearranged : Rearranged sl.leftIndex sl.rightIndex s.datapointPtrs s'.datapointPtrs)
    (hpoints : s'.solver.mem = s.solver.mem) (htree : s'.tree = s.tree.setAt sl.node new) :
    Partitions sl s s' new slices := by
  refine ⟨hrearranged, fun i hi => ?_, hpoints, htree, fun ns hns => (h.range ns hns).2.1, ?_, ?_,
    h.covered, ?_, h.nodes, fun i hi c => ?_⟩
  · refine hrearranged.outside hr.1 ?_
    unfold Slice.Contains at hi
    omega
  · intro ns hns i hi
    obtain ⟨hleft, -, hright⟩ := h.range ns hns
    exact ⟨hleft.trans hi.1, hi.2.trans hright⟩
  · refine h.apart.imp ?_
    rintro a b hapart i ⟨ha, hb⟩
    unfold Slice.Apart at hapart
    unfold Slice.Contains at ha hb
    omega
  · intro ns hns
    obtain ⟨c, hnode, hnull, -⟩ := h.child ns hns
    exact ⟨c, hnode, hnull⟩
  · obtain ⟨ns, hns, hmem⟩ := h.covered i hi
    obtain ⟨c', hnode, hnull, hbranch⟩ := h.child ns hns
    have hinner : new.branch (s'.point i) ≠ none := by
      rw [hbranch i hmem]
      exact Option.some_ne_none c'
    rw [sendsTo_iff hinner]
    constructor
    · rintro ⟨ns', hns', hnode', hmem'⟩
      obtain ⟨c'', hnode'', hnull', hbranch'⟩ := h.child ns' hns'
      rw [hnode', List.append_cancel_left_eq, List.cons.injEq] at hnode''
      rw [hnode''.1, hbranch' i hmem', hnull']
      exact ⟨rfl, rfl⟩
    · rintro ⟨hc, -⟩
      obtain rfl := Option.some.inj ((hbranch i hmem).symm.trans hc)
      exact ⟨ns, hns, hnode, hmem⟩

/-! ## The jobs -/

/-- `categorical_split_job::run`. -/
theorem runCategoricalSplit_partitions (env : Environment) (cfg : Settings) {attr : ℕ}
    (hr : sl.InRange s) (hrun : runCategoricalSplit env cfg sl attr s = .ok (slices, s')) :
    Partitions sl s s' (.categorical attr (cfg.numberOfCategories.getD attr 0) fun _ => .null)
      slices := by
  have hres := sortSlice_resorted env (fun d => (d.category attr : ℤ)) hr
  unfold runCategoricalSplit at hrun
  dsimp only at hrun
  split_ifs at hrun with hall
  obtain ⟨rfl, rfl⟩ := Prod.mk.inj (Except.ok.inj hrun)
  have hsplit := splitInto_category (s.sortSlice env (fun d => (d.category attr : ℤ)) sl) sl attr
    (cfg.numberOfCategories.getD attr 0)
    (fun i j hi hij hj => Int.ofNat_le.mp
      (sortSlice_sorted env (fun d => (d.category attr : ℤ)) hr hi hij hj))
    (fun i hi => by simpa using List.all_eq_true.mp hall i (mem_indices.mpr hi))
  exact SplitInto.partitions ⟨hsplit.range, hsplit.apart, hsplit.nodes, hsplit.child,
    hsplit.covered⟩ hr hres.rearranged rfl rfl

/-- A point of the sorted slice was in the slice before. -/
theorem sortSlice_point (env : Environment) (key : Datapoint → ℤ) (hr : sl.InRange s) {i : ℕ}
    (hi : sl.Contains i) : ∃ j, sl.Contains j ∧ (s.sortSlice env key sl).point i = s.point j := by
  obtain ⟨j, hleft, hright, hget⟩ := (sortSlice_resorted env key hr).rearranged.inside hi.1 hi.2
  refine ⟨j, ⟨hleft, hright⟩, ?_⟩
  rw [LearnerState.point, LearnerState.point, LearnerState.ptr_eq, LearnerState.ptr_eq, hget]
  rfl

/-- `categorical_split_job::run` returns if the categories are in range. -/
theorem runCategoricalSplit_returns (env : Environment) (cfg : Settings) {attr : ℕ}
    (hr : sl.InRange s)
    (hcategory : ∀ i, sl.Contains i → (s.point i).category attr < cfg.numberOfCategories.getD attr
      0) :
    ∃ slices s', runCategoricalSplit env cfg sl attr s = .ok (slices, s') := by
  have hall : (indices sl.leftIndex sl.rightIndex).all (fun i =>
      ((s.sortSlice env (fun d => (d.category attr : ℤ)) sl).point i).category attr <
        cfg.numberOfCategories.getD attr 0) = true := by
    rw [List.all_eq_true]
    intro i hi
    obtain ⟨j, hj, hpoint⟩ := sortSlice_point env (fun d => (d.category attr : ℤ)) hr
      (mem_indices.mp hi)
    rw [decide_eq_true_eq, hpoint]
    exact hcategory j hj
  unfold runCategoricalSplit
  rw [if_pos hall]
  exact ⟨_, _, rfl⟩

/-- `int_split_job::run`. -/
theorem runIntSplit_partitions (env : Environment) {attr : ℕ} {threshold : ℤ}
    (hr : sl.InRange s) (hrun : runIntSplit env sl attr threshold s = .ok (slices, s')) :
    Partitions sl s s' (.int attr threshold .null .null) slices ∧ slices.length = 2 ∧
      ∀ ns ∈ slices, ns.rightIndex - ns.leftIndex < sl.rightIndex - sl.leftIndex := by
  have hres := sortSlice_resorted env (fun d => d.int attr) hr
  unfold runIntSplit at hrun
  simp only [bind_ok] at hrun
  obtain ⟨u, -, u', hassert, hret⟩ := hrun
  have hbounds := assert_eq_ok hassert
  simp only [decide_eq_true_eq, gt_iff_lt] at hbounds
  obtain ⟨rfl, rfl⟩ := Prod.mk.inj (Except.ok.inj hret)
  have hsplit := splitInto_int (s.sortSlice env (fun d => d.int attr) sl)
    (fun i j hi hij hj => sortSlice_sorted env (fun d => d.int attr) hr hi hij hj)
    hr.1 hbounds.1 hbounds.2
  refine ⟨SplitInto.partitions ⟨hsplit.range, hsplit.apart, hsplit.nodes, hsplit.child,
    hsplit.covered⟩ hr hres.rearranged rfl rfl, rfl, fun ns hns => ?_⟩
  -- each of the two slices leaves positions to the other one
  have hleft := hsplit.range _ List.mem_cons_self
  have hright := hsplit.range _ (List.mem_cons_of_mem _ List.mem_cons_self)
  dsimp only at hleft hright
  simp only [List.mem_cons, List.not_mem_nil, or_false] at hns
  obtain rfl | rfl := hns
  · dsimp only
    omega
  · dsimp only
    omega

/-- The assertions of `int_split_job::run` hold if the threshold is between two values. -/
theorem runIntSplit_returns (env : Environment) {attr : ℕ} {threshold : ℤ} (hr : sl.InRange s)
    {i j : ℕ} (hi : sl.Contains i) (hj : sl.Contains j) (hle : (s.point i).int attr ≤ threshold)
    (hlt : threshold < (s.point j).int attr) :
    ∃ slices s', runIntSplit env sl attr threshold s = .ok (slices, s') := by
  have hres := sortSlice_resorted env (fun d => d.int attr) hr
  have hsorted := fun i j (hi : sl.leftIndex ≤ i) (hij : i ≤ j) (hj : j ≤ sl.rightIndex) =>
    sortSlice_sorted env (fun d => d.int attr) hr hi hij hj
  have hne : sl.leftIndex < sl.rightIndex := by
    rcases Nat.eq_or_lt_of_le hr.1 with heq | hne
    · have hij : i = j := by
        unfold Slice.Contains at hi hj
        omega
      rw [hij] at hle
      omega
    · exact hne
  obtain ⟨i', hi', hptr⟩ := hres.point_inside hi
  obtain ⟨j', hj', hptr'⟩ := hres.point_inside hj
  unfold runIntSplit
  generalize hs₁ : s.sortSlice env (fun d => d.int attr) sl = s₁ at hsorted hptr hptr'
  have hpoint : ∀ k k', s₁.ptr k' = s.ptr k → s₁.point k' = s.point k := by
    intro k k' h
    rw [LearnerState.point, LearnerState.point, h, ← hs₁]
    rfl
  have hmin : (s₁.point sl.leftIndex).int attr ≤ threshold := by
    refine (hsorted _ i' (le_refl _) hi'.1 hi'.2).trans ?_
    rw [hpoint i i' hptr]
    exact hle
  have hmax : threshold < (s₁.point sl.rightIndex).int attr := by
    refine lt_of_lt_of_le ?_ (hsorted j' _ hj'.1 hj'.2 (le_refl _))
    rw [hpoint j j' hptr']
    exact hlt
  simp only [assert, decide_eq_true hne, decide_eq_true (And.intro hmin hmax), gt_iff_lt, if_true,
    bind, Except.bind]
  exact ⟨_, _, rfl⟩

/-- Both jobs partition their slice along the new node. The categorical job runs if the
    categories are in range, the integer job if there are points on both sides of the threshold;
    it leaves two slices that are smaller than the given one. -/
theorem splitJobs_partition (env : Environment) (cfg : Settings) (attr : ℕ) (hr : sl.InRange s) :
    (∀ slices s', runCategoricalSplit env cfg sl attr s = .ok (slices, s') →
      Partitions sl s s' (.categorical attr (cfg.numberOfCategories.getD attr 0) fun _ => .null)
        slices) ∧
    ((∀ i, sl.Contains i → (s.point i).category attr < cfg.numberOfCategories.getD attr 0) →
      ∃ slices s', runCategoricalSplit env cfg sl attr s = .ok (slices, s')) ∧
    ∀ threshold : ℤ,
      (∀ slices s', runIntSplit env sl attr threshold s = .ok (slices, s') →
        Partitions sl s s' (.int attr threshold .null .null) slices ∧ slices.length = 2 ∧
          ∀ ns ∈ slices, ns.rightIndex - ns.leftIndex < sl.rightIndex - sl.leftIndex) ∧
      ((∃ i j, sl.Contains i ∧ sl.Contains j ∧ (s.point i).int attr ≤ threshold ∧
          threshold < (s.point j).int attr) →
        ∃ slices s', runIntSplit env sl attr threshold s = .ok (slices, s')) := by
  refine ⟨fun _ _ hrun => runCategoricalSplit_partitions env cfg hr hrun,
    runCategoricalSplit_returns env cfg hr, fun threshold => ⟨fun _ _ hrun =>
    runIntSplit_partitions env hr hrun, ?_⟩⟩
  rintro ⟨i, j, hi, hj, hle, hlt⟩
  exact runIntSplit_returns env hr hi hj hle hlt

/-- Three points with the values 5, 0 and 5 and the categories 1, 0 and 1. -/
def unsorted : LearnerState ℕ where
  datapointPtrs := [.point 0, .point 1, .point 2]
  solver := { mem := fun x => if x = .point 1 then { categoricalData := [0], intData := [0] }
    else { categoricalData := [1], intData := [5] } }

theorem splitJobs_partition_unsorted :
    (∃ slices s', runCategoricalSplit .stable
      ⟨[], [2], none, .bfs, .penalty, .noPreferenceForConjuncts⟩
        ⟨0, 2, []⟩ 0 unsorted = .ok (slices, s') ∧
      Partitions ⟨0, 2, []⟩ unsorted s' (.categorical 0 2 fun _ => .null) slices) ∧
    ∃ slices s', runIntSplit .stable ⟨0, 2, []⟩ 0 3 unsorted = .ok (slices, s') ∧
      Partitions ⟨0, 2, []⟩ unsorted s' (.int 0 3 .null .null) slices ∧ slices.length = 2 := by
  have hr : Slice.InRange ⟨0, 2, []⟩ unsorted := ⟨by decide, by decide⟩
  obtain ⟨hcat, hcatOk, hint⟩ := splitJobs_partition .stable
    ⟨[], [2], none, .bfs, .penalty, .noPreferenceForConjuncts⟩ 0 hr
  obtain ⟨hsplit, hsplitOk⟩ := hint 3
  have hcategory : ∀ i, Slice.Contains ⟨0, 2, []⟩ i → (unsorted.point i).category 0 < 2 := by
    rintro i ⟨-, hi⟩
    obtain rfl | rfl | rfl : i = 0 ∨ i = 1 ∨ i = 2 := by
      have hle : i ≤ 2 := hi
      omega
    · decide
    · decide
    · decide
  obtain ⟨slices, s', hrun⟩ := hcatOk hcategory
  obtain ⟨slices', t', hrun'⟩ := hsplitOk ⟨1, 0, by unfold Slice.Contains; decide,
    by unfold Slice.Contains; decide, by decide, by decide⟩
  exact ⟨⟨slices, s', hrun, hcat slices s' hrun⟩, slices', t', hrun', (hsplit slices' t' hrun').1,
    (hsplit slices' t' hrun').2.1⟩

end Learner

end HiceDt
