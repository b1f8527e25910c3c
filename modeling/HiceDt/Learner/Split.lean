import HiceDt.Lib.Loop
import HiceDt.Learner.Leaf

/-!
# Splits

Looking for the best split sorts the slice once per attribute and changes nothing
else. The two split jobs sort the slice once more and cut it into segments whose
points take the same branch at the new node.

Results:

* `findBestSplit_resorted`: the effect of `find_best_split`; the job it returns is a
  split of the slice.
* `categorySlices_spec`, `splitAtIndex_spec`: where the slice is cut.
* `splitInto_category`, `splitInto_int`: the new slices fit the new node.
-/

namespace HiceDt.Learner

open HiceDt Solver Loop

variable {F : Type} {D : List Ptr} {m₁ : Heap} {hcs : List HornConstraint}
  {s s' s'' : LearnerState F} {sl : Slice} {L : List Slice}

/-! ## Sorting -/

/-- Nothing has changed but the order of the points in the slice. -/
structure Resorted (sl : Slice) (s s' : LearnerState F) : Prop where
  rearranged : Rearranged sl.leftIndex sl.rightIndex s.datapointPtrs s'.datapointPtrs
  tree : s'.tree = s.tree
  slices : s'.slices = s.slices
  isFirstSplit : s'.isFirstSplit = s.isFirstSplit
  solver : s'.solver = s.solver

/-- The slice is within the vector. -/
def Slice.InRange (sl : Slice) (s : LearnerState F) : Prop :=
  sl.leftIndex ≤ sl.rightIndex ∧ sl.rightIndex < s.datapointPtrs.length

theorem Resorted.refl (hr : sl.InRange s) : Resorted sl s s :=
  ⟨.refl hr.1 hr.2, rfl, rfl, rfl, rfl⟩

theorem Resorted.trans (h : Resorted sl s s') (h' : Resorted sl s' s'') : Resorted sl s s'' :=
  ⟨h.rearranged.trans h'.rearranged, h'.tree.trans h.tree, h'.slices.trans h.slices,
    h'.isFirstSplit.trans h.isFirstSplit, h'.solver.trans h.solver⟩

theorem Resorted.inRange (h : Resorted sl s s') (hr : sl.InRange s) : sl.InRange s' := by
  unfold Slice.InRange
  rw [h.rearranged.length_eq]
  exact hr

theorem sortSlice_resorted (env : Environment) (key : Datapoint → ℤ) (hr : sl.InRange s) :
    Resorted sl s (s.sortSlice env key sl) :=
  ⟨rearranged_segment hr.1 hr.2 (env.sort_perm ..), rfl, rfl, rfl, rfl⟩

theorem sortSlice_sorted (env : Environment) (key : Datapoint → ℤ) (hr : sl.InRange s) {i j : ℕ}
    (hi : sl.leftIndex ≤ i) (hij : i ≤ j) (hj : j ≤ sl.rightIndex) :
    key ((s.sortSlice env key sl).point i) ≤ key ((s.sortSlice env key sl).point j) := by
  rcases Nat.eq_or_lt_of_le hij with rfl | hlt
  · exact le_refl _
  have hlen : (s.sortSlice env key sl).datapointPtrs.length = s.datapointPtrs.length :=
    (sortSlice_resorted env key hr).rearranged.length_eq
  have hsome : ∀ k, k ≤ sl.rightIndex → (s.sortSlice env key sl).datapointPtrs[k]? =
      some ((s.sortSlice env key sl).ptr k) := by
    intro k hk
    have hk' : k < (s.sortSlice env key sl).datapointPtrs.length := by
      rw [hlen]
      exact lt_of_le_of_lt hk hr.2
    rw [LearnerState.ptr_eq, List.getElem?_eq_getElem hk']
    rfl
  refine pairwise_segment (R := fun a b => key (s.solver.mem a) ≤ key (s.solver.mem b)) hr.2 ?_
    (env.sort_sorted s.sorts (fun x => key (s.solver.mem x)) _) hi hlt hj (hsome i (by omega))
    (hsome j hj)
  rw [(env.sort_perm ..).length_eq, List.length_take, List.length_drop]
  have := hr.1
  have := hr.2
  omega

theorem LearnInv.resort (h : LearnInv D m₁ hcs s (sl :: L)) (hr : Resorted sl s s') :
    LearnInv D m₁ hcs s' (sl :: L) := by
  refine ⟨hr.rearranged.perm.trans h.perm, ?_,
    h.tree.rearrange hr.rearranged hr.tree (by rw [hr.solver])⟩
  rw [hr.solver]
  exact h.sample

/-- A point of the slice is still in the slice. -/
theorem Resorted.point_inside (h : Resorted sl s s') {i : ℕ} (hi : sl.Contains i) :
    ∃ j, sl.Contains j ∧ s'.ptr j = s.ptr i := by
  obtain ⟨j, h1, h2, h3⟩ := h.rearranged.inside_symm hi.1 hi.2
  exact ⟨j, ⟨h1, h2⟩, by rw [s'.ptr_eq, s.ptr_eq, h3]⟩

/-! ## `find_best_split` -/

/-- The job is a split of the slice. -/
def Job.Splits (sl : Slice) (j : Job) : Prop :=
  (∃ attr, j = .categoricalSplit sl attr) ∨ ∃ attr threshold, j = .intSplit sl attr threshold

variable [Score F]

theorem categoricalAttribute_resorted (env : Environment) (cfg : Settings) {attr : ℕ}
    {best : CategoricalBest F} {r : LearnerState F × CategoricalBest F} (hr : sl.InRange s)
    (hrun : categoricalAttribute env cfg sl (s, best) attr = .ok r) : Resorted sl s r.1 := by
  have hsort := sortSlice_resorted env (fun d => (d.category attr : ℤ)) hr
  unfold categoricalAttribute at hrun
  rw [bind_ok] at hrun
  obtain ⟨loop, -, hrest⟩ := hrun
  cases loop with
  | none =>
    rw [← Except.ok.inj hrest]
    exact hsort
  | some e =>
    simp only [bind_ok] at hrest
    obtain ⟨e, -, u, -, hret⟩ := hrest
    split_ifs at hret
    all_goals
      rw [← Except.ok.inj hret]
      exact hsort

theorem intAttribute_resorted (env : Environment) (cfg : Settings) {attr : ℕ} {acc r : IntState F}
    (hr : sl.InRange acc.state) (hrun : intAttribute env cfg sl acc attr = .ok r) :
    Resorted sl acc.state r.state := by
  have hsort := sortSlice_resorted env (fun d => d.int attr) hr
  unfold intAttribute at hrun
  by_cases hcfg : cfg.conjunctiveSetting = .preferenceForConjuncts
  · simp only [if_pos hcfg, bind_ok] at hrun
    obtain ⟨cs, -, conj, -, best, -, hret⟩ := hrun
    rw [← Except.ok.inj hret]
    exact hsort
  · simp only [if_neg hcfg, bind_ok] at hrun
    obtain ⟨cs, -, conj, -, best, -, hret⟩ := hrun
    rw [← Except.ok.inj hret]
    exact hsort

theorem chooseSplit_splits (cfg : Settings) {cat : CategoricalBest F} {best conj : IntBest F}
    {j : Job} (hrun : chooseSplit cfg sl cat best conj = .ok j) : j.Splits sl := by
  unfold chooseSplit at hrun
  simp only at hrun
  split_ifs at hrun
  all_goals
    first
    | exact .inr ⟨_, _, (Except.ok.inj hrun).symm⟩
    | exact .inl ⟨_, (Except.ok.inj hrun).symm⟩
    | (obtain ⟨u, -, hret⟩ := bind_ok.mp hrun
       first
       | exact .inl ⟨_, (Except.ok.inj hret).symm⟩
       | simp at hret)

theorem findBestSplit_resorted (env : Environment) (cfg : Settings) {j : Job}
    (hrun : findBestSplit env cfg sl s = .ok (j, s')) : Resorted sl s s' ∧ j.Splits sl := by
  unfold findBestSplit at hrun
  simp only [bind_ok] at hrun
  obtain ⟨u, hassert, ⟨s₁, cat⟩, hcat, acc, hint, job, hjob, hret⟩ := hrun
  have hr : sl.InRange s := by
    simpa [Slice.InRange] using assert_eq_ok hassert
  have hcat' := foldlM_ok (I := fun acc => Resorted sl s acc.1)
    (fun a b a' ha hrun => ha.trans (categoricalAttribute_resorted env cfg (ha.inRange hr) hrun))
    (.refl hr) hcat
  have hint' := foldlM_ok (I := fun acc => Resorted sl s acc.state)
    (fun a b a' ha hrun => ha.trans (intAttribute_resorted env cfg (ha.inRange hr) hrun))
    hcat' hint
  obtain ⟨rfl, rfl⟩ := Prod.mk.inj (Except.ok.inj hret)
  exact ⟨hint', chooseSplit_splits cfg hjob⟩

/-! ## Categorical splits -/

theorem runEnd_val {β : Type} [DecidableEq β] (val : ℕ → β) (right : ℕ) (c : β) (cur : ℕ) :
    ∀ i, cur < i → i ≤ runEnd val right c cur → val i = c := by
  induction cur using runEnd.induct val right c with
  | case1 cur h ih =>
    intro i hi hle
    rw [runEnd, if_pos h] at hle
    rcases Nat.eq_or_lt_of_le (Nat.succ_le_of_lt hi) with rfl | hlt
    · exact h.2.symm
    · exact ih i hlt hle
  | case2 cur h =>
    intro i hi hle
    rw [runEnd, if_neg h] at hle
    omega

theorem runEnd_stop {β : Type} [DecidableEq β] (val : ℕ → β) (right : ℕ) (c : β) (cur : ℕ) :
    runEnd val right c cur < right → val (runEnd val right c cur + 1) ≠ c := by
  induction cur using runEnd.induct val right c with
  | case1 cur h ih =>
    rw [runEnd, if_pos h]
    exact ih
  | case2 cur h =>
    rw [runEnd, if_neg h]
    intro hlt he
    exact h ⟨hlt, he.symm⟩

omit [Score F]

/-- The slices for the categories from index `cur` on. -/
structure CategoryCut (s : LearnerState F) (sl : Slice) (attr cur : ℕ) (slices : List Slice) :
    Prop where
  range : ∀ ns ∈ slices, cur ≤ ns.leftIndex ∧ ns.leftIndex ≤ ns.rightIndex ∧
    ns.rightIndex ≤ sl.rightIndex
  apart : slices.Pairwise Slice.Apart
  nodes : slices.Pairwise fun a b => a.node ≠ b.node
  category : ∀ ns ∈ slices, ns.node = sl.node ++ [(s.point ns.leftIndex).category attr] ∧
    ∀ i, ns.Contains i → (s.point i).category attr = (s.point ns.leftIndex).category attr
  covered : ∀ i, cur ≤ i → i ≤ sl.rightIndex → ∃ ns ∈ slices, ns.Contains i

theorem categorySlices_spec (s : LearnerState F) (sl : Slice) (attr cur : ℕ)
    (hsorted : ∀ i j, cur ≤ i → i ≤ j → j ≤ sl.rightIndex →
      (s.point i).category attr ≤ (s.point j).category attr) :
    CategoryCut s sl attr cur (categorySlices s sl attr cur) := by
  induction cur using categorySlices.induct s sl attr with
  | case1 cur hle c right ih =>
    have hcr : cur ≤ right := le_runEnd ..
    have hrr : right ≤ sl.rightIndex := runEnd_le _ _ _ _ hle
    have hcat : ∀ i, cur ≤ i → i ≤ right → (s.point i).category attr = c := by
      intro i hi hir
      rcases Nat.eq_or_lt_of_le hi with rfl | hlt
      · rfl
      · exact runEnd_val (fun i => (s.point i).category attr) _ _ _ i hlt hir
    have hrest := ih fun i j hi hij hj => hsorted i j (by omega) hij hj
    -- the categories of the other slices are larger
    have hlater : ∀ ns ∈ categorySlices s sl attr (right + 1),
        c < (s.point ns.leftIndex).category attr := by
      intro ns hns
      obtain ⟨h1, h2, h3⟩ := hrest.range ns hns
      have hne : (s.point (right + 1)).category attr ≠ c :=
        runEnd_stop (fun i => (s.point i).category attr) _ _ _ (by omega : right < sl.rightIndex)
      have hle₁ := hsorted cur (right + 1) (le_refl _) (by omega) (by omega)
      have hle₂ := hsorted (right + 1) ns.leftIndex (by omega) h1 (by omega)
      have hc : c = (s.point cur).category attr := rfl
      omega
    rw [categorySlices, if_pos hle]
    show CategoryCut s sl attr cur (⟨cur, right, sl.node ++ [c]⟩ ::
      categorySlices s sl attr (right + 1))
    refine ⟨?_, ?_, ?_, ?_, ?_⟩
    · intro ns hns
      rcases List.mem_cons.mp hns with rfl | hns
      · exact ⟨le_refl _, hcr, hrr⟩
      · have := hrest.range ns hns
        omega
    · refine List.pairwise_cons.mpr ⟨fun ns hns => .inl ?_, hrest.apart⟩
      have := hrest.range ns hns
      show right < ns.leftIndex
      omega
    · refine List.pairwise_cons.mpr ⟨fun ns hns e => ?_, hrest.nodes⟩
      rw [(hrest.category ns hns).1] at e
      have := hlater ns hns
      simp only [List.append_cancel_left_eq, List.cons.injEq, and_true] at e
      omega
    · intro ns hns
      rcases List.mem_cons.mp hns with rfl | hns
      · exact ⟨rfl, fun i hi => hcat i hi.1 hi.2⟩
      · exact hrest.category ns hns
    · intro i hi hir
      by_cases h : i ≤ right
      · exact ⟨_, List.mem_cons_self, hi, h⟩
      · obtain ⟨ns, hns, hc⟩ := hrest.covered i (by omega) hir
        exact ⟨ns, List.mem_cons_of_mem _ hns, hc⟩
  | case2 cur hgt =>
    rw [categorySlices, if_neg hgt]
    exact ⟨by simp, .nil, .nil, by simp, fun i hi hir => by omega⟩

/-- The slices of a categorical split fit the new node. -/
theorem splitInto_category (s : LearnerState F) (sl : Slice) (attr n : ℕ)
    (hsorted : ∀ i j, sl.leftIndex ≤ i → i ≤ j → j ≤ sl.rightIndex →
      (s.point i).category attr ≤ (s.point j).category attr)
    (hlt : ∀ i, sl.Contains i → (s.point i).category attr < n) :
    SplitInto s sl (.categorical attr n fun _ => .null)
      (categorySlices s sl attr sl.leftIndex) := by
  have hcut := categorySlices_spec s sl attr sl.leftIndex hsorted
  refine ⟨hcut.range, hcut.apart, hcut.nodes, fun ns hns => ?_, fun i hi =>
    hcut.covered i hi.1 hi.2⟩
  obtain ⟨hnode, hcat⟩ := hcut.category ns hns
  obtain ⟨h1, h2, h3⟩ := hcut.range ns hns
  refine ⟨_, hnode, ?_, fun i hi => ?_⟩
  · have := hlt ns.leftIndex ⟨h1, by omega⟩
    simp [Tree.child, this]
  · rw [Tree.branch, hcat i hi]

/-! ## Integer splits -/

theorem splitAtIndex_spec (val : ℕ → ℤ) (threshold : ℤ) {left : ℕ} (hleft : val left ≤ threshold) :
    ∀ right, left ≤ right → left ≤ splitAtIndex val threshold right ∧
      splitAtIndex val threshold right ≤ right ∧
      val (splitAtIndex val threshold right) ≤ threshold ∧
      ∀ i, splitAtIndex val threshold right < i → i ≤ right → threshold < val i := by
  intro right
  induction right with
  | zero =>
    intro h
    have hl : left = 0 := by omega
    subst hl
    exact ⟨le_refl _, le_refl _, hleft, fun i hi hi' => by rw [splitAtIndex] at hi; omega⟩
  | succ right ih =>
    intro h
    rw [splitAtIndex]
    split_ifs with hv
    · have hlr : left ≤ right := by
        by_contra hne
        have hl : left = right + 1 := by omega
        rw [hl] at hleft
        omega
      obtain ⟨h1, h2, h3, h4⟩ := ih hlr
      refine ⟨h1, by omega, h3, fun i hi hir => ?_⟩
      rcases Nat.eq_or_lt_of_le hir with rfl | hlt
      · exact hv
      · exact h4 i hi (by omega)
    · exact ⟨h, le_refl _, by omega, fun i hi hi' => by omega⟩

/-- The slices of an integer split fit the new node. -/
theorem splitInto_int (s : LearnerState F) {attr : ℕ} {threshold : ℤ}
    (hsorted : ∀ i j, sl.leftIndex ≤ i → i ≤ j → j ≤ sl.rightIndex →
      (s.point i).int attr ≤ (s.point j).int attr)
    (hle : sl.leftIndex ≤ sl.rightIndex)
    (hleft : (s.point sl.leftIndex).int attr ≤ threshold)
    (hright : threshold < (s.point sl.rightIndex).int attr) :
    SplitInto s sl (.int attr threshold .null .null)
      [⟨sl.leftIndex, splitAtIndex (fun i => (s.point i).int attr) threshold sl.rightIndex,
          sl.node ++ [0]⟩,
        ⟨splitAtIndex (fun i => (s.point i).int attr) threshold sl.rightIndex + 1, sl.rightIndex,
          sl.node ++ [1]⟩] := by
  obtain ⟨h1, h2, h3, h4⟩ := splitAtIndex_spec (fun i => (s.point i).int attr) threshold hleft
    sl.rightIndex hle
  set k := splitAtIndex (fun i => (s.point i).int attr) threshold sl.rightIndex with hk
  have hkr : k < sl.rightIndex := by
    rcases Nat.eq_or_lt_of_le h2 with e | hlt
    · rw [e] at h3
      have : (s.point sl.rightIndex).int attr ≤ threshold := h3
      omega
    · exact hlt
  refine ⟨?_, ?_, ?_, ?_, ?_⟩
  · intro ns hns
    simp only [List.mem_cons, List.not_mem_nil, or_false] at hns
    rcases hns with rfl | rfl
    · exact ⟨le_refl _, h1, h2⟩
    · exact ⟨by show sl.leftIndex ≤ k + 1; omega, hkr, le_refl _⟩
  · simp [Slice.Apart]
  · simp
  · intro ns hns
    simp only [List.mem_cons, List.not_mem_nil, or_false] at hns
    rcases hns with rfl | rfl
    · refine ⟨0, rfl, rfl, fun i hi => ?_⟩
      have hi' : (s.point i).int attr ≤ threshold := le_trans (hsorted i k hi.1 hi.2 h2) h3
      rw [Tree.branch, if_pos hi']
    · refine ⟨1, rfl, rfl, fun i hi => ?_⟩
      have hi' : threshold < (s.point i).int attr := h4 i (Nat.lt_of_succ_le hi.1) hi.2
      rw [Tree.branch, if_neg (by omega)]
  · intro i hi
    by_cases h : i ≤ k
    · exact ⟨_, List.mem_cons_self, hi.1, h⟩
    · exact ⟨_, List.mem_cons_of_mem _ List.mem_cons_self, Nat.lt_of_not_le h, hi.2⟩

end HiceDt.Learner
