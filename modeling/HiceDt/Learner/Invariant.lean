import HiceDt.Lib.Rearranged
import HiceDt.Learner.Learn
import HiceDt.Solver.Correct

/-!
# The invariant of the learning loop

A run of `learn` is about the points `D`, the heap `m₁` it found and the Horn
constraints `hcs`. At every iteration

* the labels are consistent with the constraints and closed under entailment, and
  they extend the labels the run found (`SampleInv`);
* the pending slices are disjoint segments of the vector; each refers to a hole of
  the tree, and the tree routes the points of the slice to that hole; the points
  in no slice reach a leaf with their label (`TreeInv`).

Results:

* `SampleInv.apply`: labelling what a successful call of the solver returns keeps
  `SampleInv`.
* `TreeInv.rearrange`, `TreeInv.split`, `TreeInv.leaf`: sorting a slice, splitting
  it, and turning it into a leaf keep `TreeInv`.
-/

namespace HiceDt.Learner

open HiceDt Solver

variable {F : Type}

/-! ## The sample -/

/-- The labels are consistent and closed under entailment, and nothing but labels has
    changed since `m₁`. -/
structure SampleInv (D : List Ptr) (m₁ : Heap) (hcs : List HornConstraint) (m : Heap) : Prop where
  valid : ValidInput m D hcs [] []
  core_eq : ∀ x, x ≠ .falseDatapoint → core (m x) = core (m₁ x)
  keeps : ∀ x ∈ D, ∀ b, label m₁ x = some b → label m x = some b
  consistent : ∃ ν, Consistent m D hcs [] [] ν
  closed : ∀ x ∈ D, label m x = none → ∃ ν, Consistent m D hcs [] [] ν ∧ ν x = false

/-- Labels for the points in `P` and `N` that keep the sample consistent and
    closed. -/
structure LabelsOk (D : List Ptr) (hcs : List HornConstraint) (m : Heap) (P N : List Ptr) :
    Prop where
  positive : ∀ x ∈ P, x ∈ D ∧ label m x = none
  negative : ∀ x ∈ N, x ∈ D ∧ label m x = none
  consistent : ∃ ν, Consistent m D hcs P N ν
  closed : ∀ x ∈ D, label m x = none → x ∉ P → x ∉ N → ∃ ν, Consistent m D hcs P N ν ∧ ν x = false

variable {D : List Ptr} {m₁ m : Heap} {hcs : List HornConstraint} {P N : List Ptr}

/-- What the solver returns may be applied. -/
theorem labelsOk_of_solved {st : SolverState} (h : Solved m D hcs P N true st) :
    LabelsOk D hcs m st.positive st.negative := by
  have hcons : ∀ ν, Consistent m D hcs P N ν → Consistent m D hcs st.positive st.negative ν := by
    intro ν hν
    refine ⟨hν.1, fun x hx => ?_, fun x hx => ?_, hν.2.2.2⟩
    · exact ((h.positive rfl x).mp hx).2.2 ν hν
    · exact ((h.negative rfl x).mp hx).2.2 ν hν
  refine ⟨fun x hx => ?_, fun x hx => ?_, ?_, fun x hx hn hP _ => ?_⟩
  · exact ⟨((h.positive rfl x).mp hx).1, ((h.positive rfl x).mp hx).2.1⟩
  · exact ⟨((h.negative rfl x).mp hx).1, ((h.negative rfl x).mp hx).2.1⟩
  · obtain ⟨ν, hν⟩ := h.satisfiable.mp rfl
    exact ⟨ν, hcons ν hν⟩
  · by_contra hno
    refine hP ((h.positive rfl x).mpr ⟨hx, hn, fun ν hν => ?_⟩)
    by_contra hνx
    exact hno ⟨ν, hcons ν hν, by simpa using hνx⟩

theorem LabelsOk.disjoint (h : LabelsOk D hcs m P N) : ∀ x ∈ P, x ∉ N := by
  intro x hP hN
  obtain ⟨ν, hν⟩ := h.consistent
  have := hν.2.1 x hP
  rw [hν.2.2.1 x hN] at this
  simp at this

/-! ### Applying labels -/

theorem applyLabels_apply (m : Heap) (set : List Ptr) (b : Bool) (x : Ptr) :
    applyLabels m set b x =
      if x ∈ set then { m x with isClassified := true, classification := b } else m x := by
  unfold applyLabels
  induction set generalizing m with
  | nil => rfl
  | cons y set ih =>
    rw [List.foldl_cons, ih]
    by_cases hxy : x = y
    · subst hxy
      simp
    · rw [Function.update_of_ne hxy]
      simp [hxy]

theorem label_applyLabels (m : Heap) (set : List Ptr) (b : Bool) (x : Ptr) :
    label (applyLabels m set b) x = if x ∈ set then some b else label m x := by
  unfold label
  rw [applyLabels_apply]
  split_ifs <;> rfl

theorem core_applyLabels (m : Heap) (set : List Ptr) (b : Bool) (x : Ptr) :
    core (applyLabels m set b x) = core (m x) := by
  rw [applyLabels_apply]
  split_ifs <;> rfl

theorem lists_applyLabels (m : Heap) (set : List Ptr) (b : Bool) (x : Ptr) :
    (applyLabels m set b x).listOfMarking = (m x).listOfMarking ∧
      (applyLabels m set b x).listOfHornConstraints = (m x).listOfHornConstraints := by
  rw [applyLabels_apply]
  split_ifs <;> exact ⟨rfl, rfl⟩

/-- The heap after the labels of `P` and then those of `N` are applied. -/
def labelled (m : Heap) (P N : List Ptr) : Heap := applyLabels (applyLabels m P true) N false

theorem label_labelled (m : Heap) (P N : List Ptr) (x : Ptr) :
    label (labelled m P N) x =
      if x ∈ N then some false else if x ∈ P then some true else label m x := by
  unfold labelled
  rw [label_applyLabels, label_applyLabels]

theorem core_labelled (m : Heap) (P N : List Ptr) (x : Ptr) :
    core (labelled m P N x) = core (m x) := by
  unfold labelled
  rw [core_applyLabels, core_applyLabels]

/-- The labellings consistent with the applied labels are those consistent with the
    sets. -/
theorem consistent_labelled (h : LabelsOk D hcs m P N) (ν : Ptr → Bool) :
    Consistent (labelled m P N) D hcs [] [] ν ↔ Consistent m D hcs P N ν := by
  constructor
  · intro ⟨hl, _, _, hh⟩
    refine ⟨fun x hx b hb => hl x hx b ?_, fun x hx => hl x (h.positive x hx).1 true ?_,
      fun x hx => hl x (h.negative x hx).1 false ?_, hh⟩
    · rw [label_labelled]
      split_ifs with h1 h2
      · rw [(h.negative x h1).2] at hb
        simp at hb
      · rw [(h.positive x h2).2] at hb
        simp at hb
      · exact hb
    · rw [label_labelled, if_neg (h.disjoint x hx), if_pos hx]
    · rw [label_labelled, if_pos hx]
  · intro ⟨hl, hP, hN, hh⟩
    refine ⟨fun x hx b hb => ?_, by simp, by simp, hh⟩
    rw [label_labelled] at hb
    split_ifs at hb with h1 h2
    · rw [hN x h1]
      exact Option.some.inj hb
    · rw [hP x h2]
      exact Option.some.inj hb
    · exact hl x hx b hb

theorem LabelsOk.label_of_label (h : LabelsOk D hcs m P N) {x : Ptr} {b : Bool}
    (hx : label m x = some b) : label (labelled m P N) x = some b := by
  rw [label_labelled]
  split_ifs with hN hP
  · rw [(h.negative x hN).2] at hx
    simp at hx
  · rw [(h.positive x hP).2] at hx
    simp at hx
  · exact hx

/-- Applying such labels makes the sample consistent and closed. -/
theorem LabelsOk.sampleInv (h : LabelsOk D hcs m P N) (hv : ValidInput m D hcs [] [])
    (hcore : ∀ x, x ≠ .falseDatapoint → core (m x) = core (m₁ x))
    (hkeeps : ∀ x ∈ D, ∀ b, label m₁ x = some b → label m x = some b) :
    SampleInv D m₁ hcs (labelled m P N) := by
  have hbotN : Ptr.falseDatapoint ∉ N := fun hx => hv.falseDatapoint_notMem (h.negative _ hx).1
  have hbotP : Ptr.falseDatapoint ∉ P := fun hx => hv.falseDatapoint_notMem (h.positive _ hx).1
  refine ⟨⟨hv.falseDatapoint_notMem, ?_, hv.premises, hv.conclusion, hv.satisfiable, by simp,
    by simp, by simp, fun x hx => ?_⟩, fun x hx => ?_, fun x hx b hb => ?_, ?_, fun x hx hn => ?_⟩
  · rw [label_labelled, if_neg hbotN, if_neg hbotP]
    exact hv.falseDatapoint_label
  · obtain ⟨h1, h2⟩ := lists_applyLabels (applyLabels m P true) N false x
    obtain ⟨h3, h4⟩ := lists_applyLabels m P true x
    exact ⟨(h1.trans h3).trans (hv.quiescent x hx).1, (h2.trans h4).trans (hv.quiescent x hx).2⟩
  · rw [core_labelled]
    exact hcore x hx
  · exact h.label_of_label (hkeeps x hx b hb)
  · obtain ⟨ν, hν⟩ := h.consistent
    exact ⟨ν, (consistent_labelled h ν).mpr hν⟩
  · rw [label_labelled] at hn
    split_ifs at hn with h1 h2
    obtain ⟨ν, hν, hνx⟩ := h.closed x hx hn h2 h1
    exact ⟨ν, (consistent_labelled h ν).mpr hν, hνx⟩

/-- The sample stays consistent and closed. -/
theorem SampleInv.apply (hs : SampleInv D m₁ hcs m) (h : LabelsOk D hcs m P N) :
    SampleInv D m₁ hcs (labelled m P N) :=
  h.sampleInv hs.valid hs.core_eq hs.keeps

/-- In a closed sample all unlabelled points may be false. -/
theorem SampleInv.exists_all_false (hs : SampleInv D m₁ hcs m) :
    ∃ ν, Consistent m D hcs [] [] ν ∧ ∀ x ∈ D, label m x = none → ν x = false := by
  obtain ⟨ν₀, hν₀⟩ := hs.consistent
  refine ⟨Horn.meet (Consistent m D hcs [] []), ⟨fun x hx b hb => ?_, by simp, by simp,
    fun hc hhc hprem => ?_⟩, fun x hx hn => ?_⟩
  · cases b with
    | true => exact Horn.meet_eq_true.mpr fun ν hν => hν.1 x hx true hb
    | false => exact Horn.meet_eq_false.mpr ⟨ν₀, hν₀, hν₀.1 x hx false hb⟩
  · have hall : ∀ ν, Consistent m D hcs [] [] ν → ∃ c, hc.conclusion = some c ∧ ν c = true :=
      fun ν hν => hν.2.2.2 hc hhc fun p hp => Horn.meet_eq_true.mp (hprem p hp) ν hν
    obtain ⟨c, hc', -⟩ := hall ν₀ hν₀
    refine ⟨c, hc', Horn.meet_eq_true.mpr fun ν hν => ?_⟩
    obtain ⟨c', hcc, hνc⟩ := hall ν hν
    rw [hc', Option.some.injEq] at hcc
    rw [hcc]
    exact hνc
  · obtain ⟨ν, hν, hνx⟩ := hs.closed x hx hn
    exact Horn.meet_eq_false.mpr ⟨ν, hν, hνx⟩

/-! ## The tree and the slices -/

/-- The slices do not overlap. -/
def Slice.Apart (a b : Slice) : Prop := a.rightIndex < b.leftIndex ∨ b.rightIndex < a.leftIndex

/-- Index `i` is in the slice. -/
def Slice.Contains (sl : Slice) (i : ℕ) : Prop := sl.leftIndex ≤ i ∧ i ≤ sl.rightIndex

/-- The label of the point at an index. -/
def LearnerState.labelAt (s : LearnerState F) (i : ℕ) : Option Bool :=
  label s.solver.mem (s.ptr i)

/-- The tree built so far and the slices `L` that are still to be processed. -/
structure TreeInv (s : LearnerState F) (L : List Slice) : Prop where
  range : ∀ sl ∈ L, sl.leftIndex ≤ sl.rightIndex ∧ sl.rightIndex < s.datapointPtrs.length
  apart : L.Pairwise Slice.Apart
  hole : ∀ sl ∈ L, s.tree.subtree sl.node = some .null
  nodes : L.Pairwise fun a b => a.node ≠ b.node
  routed : ∀ sl ∈ L, ∀ i, sl.Contains i → s.tree.Routes sl.node (s.point i)
  covered : ∀ i < s.datapointPtrs.length, (∃ sl ∈ L, sl.Contains i) ∨
    ∃ b, s.tree.output (s.point i) = .ok b ∧ s.labelAt i = some b

theorem TreeInv.perm {s : LearnerState F} {L L' : List Slice} (h : TreeInv s L)
    (hp : L.Perm L') : TreeInv s L' := by
  refine ⟨fun sl hsl => h.range sl (hp.mem_iff.mpr hsl), ?_,
    fun sl hsl => h.hole sl (hp.mem_iff.mpr hsl), ?_,
    fun sl hsl => h.routed sl (hp.mem_iff.mpr hsl), fun i hi => ?_⟩
  · exact (hp.pairwise_iff fun hab => Or.symm hab).mp h.apart
  · exact (hp.pairwise_iff fun hab => Ne.symm hab).mp h.nodes
  · refine (h.covered i hi).imp_left fun ⟨sl, hsl, hc⟩ => ⟨sl, hp.mem_iff.mp hsl, hc⟩

theorem int_congr {d d' : Datapoint} (h : core d = core d') (attr : ℕ) :
    d.int attr = d'.int attr := by
  have hi : (core d).intData = (core d').intData := by rw [h]
  exact congrArg (fun l : List ℤ => l.getD attr 0) hi

theorem category_congr {d d' : Datapoint} (h : core d = core d') (attr : ℕ) :
    d.category attr = d'.category attr := by
  have hc : (core d).categoricalData = (core d').categoricalData := by rw [h]
  exact congrArg (fun l : List ℕ => l.getD attr 0) hc

/-- Branches depend on the attributes only. -/
theorem branch_congr {d d' : Datapoint} (h : core d = core d') (t : Tree) :
    t.branch d = t.branch d' := by
  cases t with
  | null => rfl
  | leaf b => rfl
  | int a θ l r => rw [Tree.branch, Tree.branch, int_congr h]
  | categorical a n cs => rw [Tree.branch, Tree.branch, category_congr h]

theorem routes_congr {d d' : Datapoint} (h : core d = core d') {path : List ℕ} {t : Tree}
    (hr : t.Routes path d) : t.Routes path d' := by
  induction path generalizing t with
  | nil => trivial
  | cons i path ih =>
    obtain ⟨hb, c, hc, hrc⟩ := hr
    exact ⟨by rw [← branch_congr h]; exact hb, c, hc, ih hrc⟩

theorem output_congr {d d' : Datapoint} (h : core d = core d') (t : Tree) :
    t.output d = t.output d' := by
  induction t with
  | null => rfl
  | leaf b => rfl
  | int a θ l r ihl ihr => rw [Tree.output, Tree.output, int_congr h, ihl, ihr]
  | categorical a n cs ih => rw [Tree.output, Tree.output, category_congr h, ih]

/-- A step that keeps vector, tree and attributes, and the labels of labelled
    points. -/
theorem TreeInv.congr {s s' : LearnerState F} {L : List Slice} (h : TreeInv s L)
    (hptrs : s'.datapointPtrs = s.datapointPtrs) (htree : s'.tree = s.tree)
    (hcore : ∀ i < s.datapointPtrs.length, core (s'.point i) = core (s.point i))
    (hlabel : ∀ i < s.datapointPtrs.length, ∀ b, s.labelAt i = some b → s'.labelAt i = some b) :
    TreeInv s' L := by
  refine ⟨?_, h.apart, ?_, h.nodes, ?_, ?_⟩
  · rw [hptrs]
    exact h.range
  · rw [htree]
    exact h.hole
  · intro sl hsl i hi
    rw [htree]
    have hlt : i < s.datapointPtrs.length := lt_of_le_of_lt hi.2 (h.range sl hsl).2
    exact routes_congr (hcore i hlt).symm (h.routed sl hsl i hi)
  · intro i hi
    rw [hptrs] at hi
    refine (h.covered i hi).imp_right fun ⟨b, ho, hb⟩ => ⟨b, ?_, hlabel i hi b hb⟩
    rw [htree, output_congr (hcore i hi)]
    exact ho

theorem LearnerState.ptr_eq (s : LearnerState F) (i : ℕ) :
    s.ptr i = (s.datapointPtrs[i]?).getD .falseDatapoint := by
  unfold LearnerState.ptr
  rw [List.getD_eq_getElem?_getD]

/-- Points of a rearranged slice: the same points, elsewhere nothing changes. -/
theorem Rearranged.ptr_outside {s s' : LearnerState F} {l r : ℕ} (hlr : l ≤ r)
    (h : Rearranged l r s.datapointPtrs s'.datapointPtrs) {i : ℕ} (hi : i < l ∨ r < i) :
    s'.ptr i = s.ptr i := by
  rw [s'.ptr_eq, s.ptr_eq, h.outside hlr hi]

theorem Rearranged.ptr_inside {s s' : LearnerState F} {l r : ℕ}
    (h : Rearranged l r s.datapointPtrs s'.datapointPtrs) {i : ℕ} (hl : l ≤ i) (hr : i ≤ r) :
    ∃ j, l ≤ j ∧ j ≤ r ∧ s'.ptr i = s.ptr j := by
  obtain ⟨j, h1, h2, h3⟩ := h.inside hl hr
  exact ⟨j, h1, h2, by rw [s'.ptr_eq, s.ptr_eq, h3]⟩

/-- Sorting a pending slice. -/
theorem TreeInv.rearrange {s s' : LearnerState F} {sl : Slice} {L : List Slice}
    (h : TreeInv s (sl :: L))
    (hre : Rearranged sl.leftIndex sl.rightIndex s.datapointPtrs s'.datapointPtrs)
    (htree : s'.tree = s.tree) (hmem : s'.solver.mem = s.solver.mem) : TreeInv s' (sl :: L) := by
  obtain ⟨hlr, hlen⟩ := h.range sl List.mem_cons_self
  have hpoint : ∀ {i j}, s'.ptr i = s.ptr j → s'.point i = s.point j := by
    intro i j e
    unfold LearnerState.point
    rw [e, hmem]
  have hout : ∀ {i}, ¬ sl.Contains i → s'.ptr i = s.ptr i := by
    intro i hi
    refine Rearranged.ptr_outside hlr hre ?_
    unfold Slice.Contains at hi
    omega
  have hroutesl : ∀ i, sl.Contains i → s'.tree.Routes sl.node (s'.point i) := by
    intro i hi
    obtain ⟨j, hj1, hj2, hj⟩ := Rearranged.ptr_inside hre hi.1 hi.2
    rw [hpoint hj, htree]
    exact h.routed sl List.mem_cons_self j ⟨hj1, hj2⟩
  refine ⟨?_, h.apart, ?_, h.nodes, ?_, ?_⟩
  · rw [hre.length_eq]
    exact h.range
  · rw [htree]
    exact h.hole
  · intro sl' hsl' i hi
    rcases List.mem_cons.mp hsl' with rfl | hmem'
    · exact hroutesl i hi
    · have happ := (List.pairwise_cons.mp h.apart).1 sl' hmem'
      have hni : ¬ sl.Contains i := by
        intro hc
        unfold Slice.Apart at happ
        unfold Slice.Contains at hi hc
        omega
      rw [hpoint (hout hni), htree]
      exact h.routed sl' hsl' i hi
  · intro i hi
    rw [hre.length_eq] at hi
    by_cases hc : sl.Contains i
    · exact .inl ⟨sl, List.mem_cons_self, hc⟩
    · refine (h.covered i hi).imp_right fun ⟨b, ho, hb⟩ => ⟨b, ?_, ?_⟩
      · rw [hpoint (hout hc), htree]
        exact ho
      · unfold LearnerState.labelAt at hb ⊢
        rw [hout hc, hmem]
        exact hb

/-- What the new slices of a split look like. -/
structure SplitInto (s : LearnerState F) (sl : Slice) (new : Tree) (slices : List Slice) :
    Prop where
  range : ∀ ns ∈ slices, sl.leftIndex ≤ ns.leftIndex ∧ ns.leftIndex ≤ ns.rightIndex ∧
    ns.rightIndex ≤ sl.rightIndex
  apart : slices.Pairwise Slice.Apart
  nodes : slices.Pairwise fun a b => a.node ≠ b.node
  child : ∀ ns ∈ slices, ∃ c, ns.node = sl.node ++ [c] ∧ new.child c = some .null ∧
    ∀ i, ns.Contains i → new.branch (s.point i) = some c
  covered : ∀ i, sl.Contains i → ∃ ns ∈ slices, ns.Contains i

/-- Splitting a pending slice. -/
theorem TreeInv.split {s : LearnerState F} {sl : Slice} {L slices : List Slice} {new : Tree}
    (h : TreeInv s (sl :: L)) (hs : SplitInto s sl new slices) :
    TreeInv { s with tree := s.tree.setAt sl.node new } (L ++ slices) := by
  have hhole := h.hole sl List.mem_cons_self
  have hsub : (s.tree.setAt sl.node new).subtree sl.node = some new :=
    Tree.subtree_setAt hhole new
  have hne : ∀ sl' ∈ L, sl'.node ≠ sl.node := fun sl' hsl' =>
    Ne.symm ((List.pairwise_cons.mp h.nodes).1 sl' hsl')
  refine ⟨?_, ?_, ?_, ?_, ?_, ?_⟩
  · intro sl' hsl'
    rcases List.mem_append.mp hsl' with hsl' | hsl'
    · exact h.range sl' (List.mem_cons_of_mem _ hsl')
    · obtain ⟨h1, h2, h3⟩ := hs.range sl' hsl'
      exact ⟨h2, lt_of_le_of_lt h3 (h.range sl List.mem_cons_self).2⟩
  · rw [List.pairwise_append]
    refine ⟨(List.pairwise_cons.mp h.apart).2, hs.apart, fun a ha b hb => ?_⟩
    have h1 := (List.pairwise_cons.mp h.apart).1 a ha
    have h2 := hs.range b hb
    unfold Slice.Apart at h1 ⊢
    omega
  · intro sl' hsl'
    rcases List.mem_append.mp hsl' with hsl' | hsl'
    · exact Tree.subtree_setAt_of_ne hhole (h.hole sl' (List.mem_cons_of_mem _ hsl'))
        (hne sl' hsl') new
    · obtain ⟨c, hc, hchild, -⟩ := hs.child sl' hsl'
      show (s.tree.setAt sl.node new).subtree sl'.node = some .null
      rw [hc, Tree.subtree_append, hsub]
      simp [Tree.subtree, hchild]
  · rw [List.pairwise_append]
    refine ⟨(List.pairwise_cons.mp h.nodes).2, hs.nodes, fun a ha b hb e => ?_⟩
    -- below a hole there is no other hole
    obtain ⟨c, hc, -, -⟩ := hs.child b hb
    have hhole' := h.hole a (List.mem_cons_of_mem _ ha)
    rw [e, hc, Tree.subtree_append, hhole] at hhole'
    simp [Tree.subtree, Tree.child] at hhole'
  · intro sl' hsl' i hi
    rcases List.mem_append.mp hsl' with hsl' | hsl'
    · exact Tree.routes_setAt hhole (h.hole sl' (List.mem_cons_of_mem _ hsl'))
        (h.routed sl' (List.mem_cons_of_mem _ hsl') i hi) new
    · obtain ⟨c, hc, hchild, hbranch⟩ := hs.child sl' hsl'
      have hin : sl.Contains i := by
        have := hs.range sl' hsl'
        unfold Slice.Contains at hi ⊢
        omega
      show (s.tree.setAt sl.node new).Routes sl'.node (s.point i)
      rw [hc]
      refine Tree.routes_append ?_ hsub ⟨hbranch i hi, .null, hchild, trivial⟩
      exact Tree.routes_setAt hhole hhole (h.routed sl List.mem_cons_self i hin) new
  · intro i hi
    rcases h.covered i hi with ⟨sl', hsl', hc⟩ | ⟨b, ho, hb⟩
    · rcases List.mem_cons.mp hsl' with rfl | hsl'
      · obtain ⟨ns, hns, hc'⟩ := hs.covered i hc
        exact .inl ⟨ns, List.mem_append_right _ hns, hc'⟩
      · exact .inl ⟨sl', List.mem_append_left _ hsl', hc⟩
    · exact .inr ⟨b, Tree.output_setAt hhole ho new, hb⟩

/-- Turning a pending slice into a leaf. -/
theorem TreeInv.leaf {s s' : LearnerState F} {sl : Slice} {L : List Slice} {b : Bool}
    (h : TreeInv s (sl :: L)) (hptrs : s'.datapointPtrs = s.datapointPtrs)
    (htree : s'.tree = s.tree.setAt sl.node (.leaf b))
    (hcore : ∀ i < s.datapointPtrs.length, core (s'.point i) = core (s.point i))
    (hlabel : ∀ i < s.datapointPtrs.length, ∀ b, s.labelAt i = some b → s'.labelAt i = some b)
    (hleaf : ∀ i, sl.Contains i → s'.labelAt i = some b) : TreeInv s' L := by
  have hhole := h.hole sl List.mem_cons_self
  have hne : ∀ sl' ∈ L, sl'.node ≠ sl.node := fun sl' hsl' =>
    Ne.symm ((List.pairwise_cons.mp h.nodes).1 sl' hsl')
  refine ⟨?_, (List.pairwise_cons.mp h.apart).2, ?_, (List.pairwise_cons.mp h.nodes).2, ?_, ?_⟩
  · rw [hptrs]
    exact fun sl' hsl' => h.range sl' (List.mem_cons_of_mem _ hsl')
  · intro sl' hsl'
    rw [htree]
    exact Tree.subtree_setAt_of_ne hhole (h.hole sl' (List.mem_cons_of_mem _ hsl'))
      (hne sl' hsl') _
  · intro sl' hsl' i hi
    have hsl'' := List.mem_cons_of_mem sl hsl'
    have hlt : i < s.datapointPtrs.length := lt_of_le_of_lt hi.2 (h.range sl' hsl'').2
    rw [htree]
    refine routes_congr (hcore i hlt).symm ?_
    exact Tree.routes_setAt hhole (h.hole sl' hsl'') (h.routed sl' hsl'' i hi) _
  · intro i hi
    rw [hptrs] at hi
    rw [htree, output_congr (hcore i hi)]
    rcases h.covered i hi with ⟨sl', hsl', hc⟩ | ⟨c, ho, hc⟩
    · rcases List.mem_cons.mp hsl' with rfl | hsl'
      · refine .inr ⟨b, ?_, hleaf i hc⟩
        have hr := Tree.routes_setAt hhole hhole (h.routed _ List.mem_cons_self i hc) (.leaf b)
        rw [Tree.output_of_routes hr (Tree.subtree_setAt hhole _) rfl]
        rfl
      · exact .inl ⟨sl', hsl', hc⟩
    · exact .inr ⟨c, Tree.output_setAt hhole ho _, hlabel i hi c hc⟩

/-- The invariant of the learning loop; `L` are the slices that are still to be
    processed. -/
structure LearnInv (D : List Ptr) (m₁ : Heap) (hcs : List HornConstraint) (s : LearnerState F)
    (L : List Slice) : Prop where
  perm : s.datapointPtrs.Perm D
  sample : SampleInv D m₁ hcs s.solver.mem
  tree : TreeInv s L

end HiceDt.Learner
