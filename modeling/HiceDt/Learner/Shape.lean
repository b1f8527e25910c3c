import HiceDt.Learner.Positive

/-!
# The trees of the learner

Every tree that `learn` builds splits by category at the root and has integer nodes
below. An integer node separates two points of the sample that reach it.

Results:

* `Tree.Cuts.setAt`: filling a hole of a tree whose cuts separate points.
* `learnStep_shape`, `Run.shape`: the tree after one iteration, and in every run.
* `learn_shaped`: the trees that `learn` returns.
-/

namespace HiceDt

namespace Tree

/-! ## Cuts that separate points -/

/-- The tree has integer nodes and leaves only, and every integer node separates two of the
    points in `S` that reach it. -/
def Cuts : (Datapoint → Prop) → Tree → Prop
  | _, .null => True
  | _, .leaf _ => True
  | S, .int attr threshold left right =>
    (∃ d, S d ∧ d.int attr ≤ threshold) ∧ (∃ d, S d ∧ threshold < d.int attr) ∧
      Cuts (fun d => S d ∧ d.int attr ≤ threshold) left ∧
      Cuts (fun d => S d ∧ threshold < d.int attr) right
  | _, .categorical _ _ _ => False

variable {S S' : Datapoint → Prop} {t new : Tree}

theorem Cuts.mono (h : t.Cuts S) (hS : ∀ d, S d → S' d) : t.Cuts S' := by
  induction t generalizing S S' with
  | null => trivial
  | leaf b => trivial
  | int attr threshold left right ihl ihr =>
    obtain ⟨⟨d, hd, hle⟩, ⟨d', hd', hlt⟩, hleft, hright⟩ := h
    exact ⟨⟨d, hS d hd, hle⟩, ⟨d', hS d' hd', hlt⟩, ihl hleft fun x hx => ⟨hS x hx.1, hx.2⟩,
      ihr hright fun x hx => ⟨hS x hx.1, hx.2⟩⟩
  | categorical attr n children ih => exact h.elim

/-- Filling a hole with a tree whose cuts separate points that are routed there. -/
theorem Cuts.setAt {path : List ℕ} (h : t.Cuts S)
    (hnew : new.Cuts fun d => S d ∧ t.Routes path d) : (t.setAt path new).Cuts S := by
  induction path generalizing t S with
  | nil => exact hnew.mono fun d hd => hd.1
  | cons i path ih =>
    cases t with
    | null => trivial
    | leaf b => trivial
    | int attr threshold left right =>
      obtain ⟨hle, hlt, hleft, hright⟩ := h
      match i with
      | 0 =>
        refine ⟨hle, hlt, ih hleft (hnew.mono ?_), hright⟩
        rintro d ⟨hd, hbranch, c, hc, hroutes⟩
        obtain rfl := Option.some.inj hc
        refine ⟨⟨hd, ?_⟩, hroutes⟩
        by_contra hnot
        rw [branch, if_neg hnot] at hbranch
        cases hbranch
      | 1 =>
        refine ⟨hle, hlt, hleft, ih hright (hnew.mono ?_)⟩
        rintro d ⟨hd, hbranch, c, hc, hroutes⟩
        obtain rfl := Option.some.inj hc
        refine ⟨⟨hd, ?_⟩, hroutes⟩
        by_contra hnot
        rw [branch, if_pos (by omega)] at hbranch
        cases hbranch
      | i + 2 => exact ⟨hle, hlt, hleft, hright⟩
    | categorical attr n children => exact h.elim

/-- A tree that has an output for all points has no holes. -/
theorem Cuts.isIntTree (h : t.Cuts S) (hout : ∀ d, S d → ∃ b, t.output d = .ok b)
    (hnull : t.isNull = false) : t.isIntTree = true := by
  induction t generalizing S with
  | null => cases hnull
  | leaf b => rfl
  | int attr threshold left right ihl ihr =>
    obtain ⟨⟨d, hd, hle⟩, ⟨d', hd', hlt⟩, hleft, hright⟩ := h
    have houtLeft : ∀ x, S x ∧ x.int attr ≤ threshold → ∃ b, left.output x = .ok b := by
      rintro x ⟨hx, hxle⟩
      obtain ⟨b, hb⟩ := hout x hx
      exact ⟨b, by rwa [output, if_pos hxle] at hb⟩
    have houtRight : ∀ x, S x ∧ threshold < x.int attr → ∃ b, right.output x = .ok b := by
      rintro x ⟨hx, hxlt⟩
      obtain ⟨b, hb⟩ := hout x hx
      exact ⟨b, by rwa [output, if_neg (by omega)] at hb⟩
    have hnotNull : ∀ {c : Tree} {x : Datapoint} {b : Bool}, c.output x = .ok b →
        c.isNull = false := by
      intro c x b hb
      cases c with
      | null => cases hb
      | leaf _ => rfl
      | int _ _ _ _ => rfl
      | categorical _ _ _ => rfl
    obtain ⟨b, hb⟩ := houtLeft d ⟨hd, hle⟩
    obtain ⟨b', hb'⟩ := houtRight d' ⟨hd', hlt⟩
    rw [Tree.isIntTree, ihl hleft houtLeft (hnotNull hb), ihr hright houtRight (hnotNull hb')]
    rfl
  | categorical attr n children ih => exact h.elim

/-- What all points say about the values of attributes restricts the thresholds. -/
theorem Cuts.thresholds {p : ℕ → ℤ → Prop} (h : t.Cuts S)
    (hp : ∀ attr threshold d d', S d → S d' → d.int attr ≤ threshold → threshold < d'.int attr →
      p attr threshold) : t.Thresholds p := by
  induction t generalizing S with
  | null => trivial
  | leaf b => trivial
  | int attr threshold left right ihl ihr =>
    obtain ⟨⟨d, hd, hle⟩, ⟨d', hd', hlt⟩, hleft, hright⟩ := h
    exact ⟨hp attr threshold d d' hd hd' hle hlt,
      ihl hleft fun a θ x y hx hy => hp a θ x y hx.1 hy.1,
      ihr hright fun a θ x y hx hy => hp a θ x y hx.1 hy.1⟩
  | categorical attr n children ih => exact h.elim

/-- The root splits by category, and the cuts below separate points of the category. -/
def Shaped (S : Datapoint → Prop) (n : ℕ) (t : Tree) : Prop :=
  ∃ children, t = .categorical 0 n children ∧
    ∀ c, (children c).Cuts fun d => S d ∧ d.category 0 = c

theorem Shaped.setAt {n : ℕ} {path : List ℕ} (h : t.Shaped S n) (hne : path ≠ [])
    (hnew : new.Cuts fun d => S d ∧ t.Routes path d) : (t.setAt path new).Shaped S n := by
  obtain ⟨children, rfl, hcuts⟩ := h
  obtain ⟨i, path, rfl⟩ := List.exists_cons_of_ne_nil hne
  by_cases hi : i < n
  · have hchild : (categorical 0 n children).child i = some (children i) := by rw [child, if_pos hi]
    rw [setAt_cons hchild]
    refine ⟨_, rfl, fun c => ?_⟩
    by_cases hc : c = i
    · subst hc
      rw [Function.update_self]
      refine (hcuts c).setAt (hnew.mono ?_)
      rintro d ⟨hd, hbranch, c', hc', hroutes⟩
      rw [hchild] at hc'
      obtain rfl := Option.some.inj hc'
      exact ⟨⟨hd, Option.some.inj hbranch⟩, hroutes⟩
    · rw [Function.update_of_ne hc]
      exact hcuts c
  · have hchild : (categorical 0 n children).child i = none := by rw [child, if_neg hi]
    refine ⟨children, ?_, hcuts⟩
    simp only [Tree.setAt, hchild]

end Tree

/-! ## The learning loop -/

namespace Learner

open Solver Loop

variable {F : Type} {D : List Ptr} {m₁ : Heap} {hcs : List HornConstraint} {cfg : Settings}
  {s s' t s₀ : LearnerState F} {sl : Slice} {L : List Slice} {n k c : ℕ} {env : Environment}

/-- The data point has the attributes of a point of the sample. -/
def InSample (D : List Ptr) (m₁ : Heap) (d : Datapoint) : Prop :=
  ∃ x ∈ D, core d = core (m₁ x)

theorem LearnInv.inSample (h : LearnInv D m₁ hcs s L) {i : ℕ} (hi : i < s.datapointPtrs.length) :
    InSample D m₁ (s.point i) :=
  ⟨s.ptr i, h.ptr_mem hi, h.core_point hi⟩

/-- Before the first split there is no tree, and the slice belongs to the root; later the
    tree is shaped, and all slices belong to nodes below the root. -/
structure TreeShape (D : List Ptr) (m₁ : Heap) (n : ℕ) (s : LearnerState F) : Prop where
  first : s.isFirstSplit = true → s.tree = .null ∧ ∀ sl ∈ s.slices, sl.node = []
  later : s.isFirstSplit = false →
    s.tree.Shaped (InSample D m₁) n ∧ ∀ sl ∈ s.slices, sl.node ≠ []

theorem TreeShape.of_later (hfirst : s.isFirstSplit = false)
    (htree : s.tree.Shaped (InSample D m₁) n) (hnodes : ∀ sl ∈ s.slices, sl.node ≠ []) :
    TreeShape D m₁ n s := by
  refine ⟨fun h => ?_, fun _ => ⟨htree, hnodes⟩⟩
  rw [hfirst] at h
  cases h

/-- The two nodes of an integer split separate points that are routed to the slice. -/
theorem runIntSplit_cuts {attr : ℕ} {threshold : ℤ} {new : List Slice}
    (h : LearnInv D m₁ hcs s (sl :: L)) (hrun :
    runIntSplit env sl attr threshold s = .ok (new, s')) :
    (Tree.int attr threshold .null .null).Cuts
      fun d => InSample D m₁ d ∧ s.tree.Routes sl.node d := by
  obtain ⟨-, -, -, -, hle, hlt⟩ := runIntSplit_eq hrun
  have hrange := h.tree.range sl List.mem_cons_self
  have h₁ := h.resort (sortSlice_resorted env (fun d => d.int attr) hrange)
  have hpoint : ∀ i, sl.Contains i →
      InSample D m₁ ((s.sortSlice env (fun d => d.int attr) sl).point i) ∧
        s.tree.Routes sl.node ((s.sortSlice env (fun d => d.int attr) sl).point i) := fun i hi =>
    ⟨h₁.inSample (h₁.lt_length List.mem_cons_self hi), h₁.tree.routed sl List.mem_cons_self i hi⟩
  exact ⟨⟨_, hpoint _ ⟨le_rfl, hrange.1⟩, hle⟩, ⟨_, hpoint _ ⟨hrange.1, le_rfl⟩, hlt⟩, trivial,
    trivial⟩

section Run

variable [Score F]

/-- One iteration of the learning loop. -/
theorem learnStep_shape (h : LearnInv D m₁ cfg.hornConstraints s s.slices)
    (hc : Closed D cfg.hornConstraints s.solver.mem) (ha : Arity m₁ D c k) (hcat : Categories c s)
    (hshape : TreeShape D m₁ (cfg.numberOfCategories.getD 0 0) s)
    (hrun : learnStep env cfg s = .ok s') : TreeShape D m₁ (cfg.numberOfCategories.getD 0 0)
      s' := by
  obtain ⟨sl, new, t', rfl, rfl, hcase⟩ := learnStep_cases h hc ha hcat hrun
  rcases hcase with ⟨hfirst, hsl, hjob⟩ | ⟨t, hlater, hcase⟩
  · obtain ⟨htree, hnodes⟩ := hshape.first hfirst
    have hnode : sl.node = [] := hnodes sl (by rw [hsl]; simp)
    have hrange := h.tree.range sl (by rw [hsl]; simp)
    obtain ⟨rfl, hslices, hlast, htree'⟩ := runCategoricalSplit_eq hjob
    refine .of_later hlast ⟨fun _ => .null, ?_, fun _ => trivial⟩ fun sl' hsl' => ?_
    · rw [hnode] at htree'
      exact htree'
    · have hcut := categorySlices_spec
        (({ s with slices := [], isFirstSplit := false } : LearnerState F).sortSlice env
          (fun d => (d.category 0 : ℤ)) sl) sl 0 sl.leftIndex fun i j hi hij hj =>
            Int.ofNat_le.mp (sortSlice_sorted env (fun d => (d.category 0 : ℤ)) hrange hi hij hj)
      rcases List.mem_append.mp hsl' with hmem | hmem
      · rw [hslices] at hmem
        cases hmem
      · rw [(hcut.category sl' hmem).1]
        simp
  obtain ⟨htree, hnodes⟩ := hshape.later hlater.started
  have hkept : ∀ sl' ∈ sl :: t.slices, sl'.node ≠ [] := fun sl' hsl' =>
    hnodes sl' (hlater.slices sl' hsl')
  rw [← hlater.tree] at htree
  rcases hcase with ⟨b, P, N, hjob⟩ | ⟨attr, threshold, hjob⟩
  · rw [runLeafCreation_eq env b P N _ (hlater.inv.tree.range sl List.mem_cons_self).1] at hjob
    obtain ⟨rfl, rfl⟩ := Prod.mk.inj (Except.ok.inj hjob)
    refine .of_later hlater.isFirstSplit ?_ fun sl' hsl' => ?_
    · have hleaf : (Tree.leaf b).Cuts fun d => InSample D m₁ d ∧ t.tree.Routes sl.node d := trivial
      exact htree.setAt (hkept sl List.mem_cons_self) hleaf
    · rw [List.append_nil] at hsl'
      exact hkept sl' (List.mem_cons_of_mem _ hsl')
  · obtain ⟨⟨i, rfl⟩, hslices, hlast, htree', -, -⟩ := runIntSplit_eq hjob
    refine .of_later (hlast.trans hlater.isFirstSplit) ?_ fun sl' hsl' => ?_
    · show t'.tree.Shaped _ _
      rw [htree']
      exact htree.setAt (hkept sl List.mem_cons_self) (runIntSplit_cuts hlater.inv hjob)
    · rcases List.mem_append.mp hsl' with hmem | hmem
      · rw [hslices] at hmem
        exact hkept sl' (List.mem_cons_of_mem _ hmem)
      · simp only [List.mem_cons, List.not_mem_nil, or_false] at hmem
        rcases hmem with rfl | rfl
        · simp
        · simp

/-- The tree of every run. -/
theorem Run.shape (hrun : Run env cfg s₀ s) (ha : Arity s₀.solver.mem s₀.datapointPtrs c k) :
    TreeShape s₀.datapointPtrs s₀.solver.mem (cfg.numberOfCategories.getD 0 0) s := by
  refine hrun.induction (fun st => ⟨fun _ => ⟨rfl, fun sl hsl => ?_⟩, fun hfirst => ?_⟩)
    fun t t' ht hshape hstep => ?_
  · have hmem : sl ∈ s₀.slices ++ [⟨0, s₀.datapointPtrs.length - 1, []⟩] := hsl
    rw [hrun.slices, List.nil_append, List.mem_singleton] at hmem
    rw [hmem]
  · have hf : s₀.isFirstSplit = false := hfirst
    rw [hrun.isFirstSplit] at hf
    cases hf
  · obtain ⟨hinv, hc⟩ := ht.inv
    exact learnStep_shape hinv hc ha (ht.categories ha) hshape hstep

/-- The learning loop stops in a state that it reaches and that has no slices. -/
theorem learnLoop_reaches : ∀ {fuel : ℕ} {s s' : LearnerState F},
    learnLoop env cfg fuel s = .ok s' → Reaches env cfg s s' ∧ s'.slices = [] := by
  intro fuel
  induction fuel with
  | zero =>
    intro s s' hrun
    cases hrun
  | succ fuel ih =>
    intro s s' hrun
    rw [learnLoop] at hrun
    split_ifs at hrun with hempty
    · obtain rfl := Except.ok.inj hrun
      exact ⟨.refl, List.isEmpty_iff.mp hempty⟩
    · cases hstep : learnStep env cfg s with
      | error e =>
        rw [hstep] at hrun
        cases hrun
      | ok s₁ =>
        rw [hstep] at hrun
        obtain ⟨hreach, hdone⟩ := ih hrun
        exact ⟨.head hstep hreach, hdone⟩

/-- A tree that `learn` returns on a nonempty sample splits by category, and a subtree that
    is not null has integer nodes only, which separate points of the category. -/
theorem learn_shaped {fuel : ℕ} {tree : Tree} {s₁ : LearnerState F}
    (hv : ValidInput s₀.solver.mem s₀.datapointPtrs cfg.hornConstraints [] [])
    (hslices : s₀.slices = []) (hfirst : s₀.isFirstSplit = true) (hne : s₀.datapointPtrs ≠ [])
    (ha : Arity s₀.solver.mem s₀.datapointPtrs c k) (hinit : initialRun env cfg s₀ = .ok s₁)
    (hlearn : learn env cfg fuel s₁ = .ok (tree, s')) :
    ∃ children, tree = .categorical 0 (cfg.numberOfCategories.getD 0 0) children ∧
      ∀ i, ((children i).Cuts fun d => InSample s₀.datapointPtrs s₀.solver.mem d ∧ d.category 0 = i)
        ∧
        ((children i).isNull = false → (children i).isIntTree = true) := by
  have hs₁ : s₁.datapointPtrs = s₀.datapointPtrs := by
    rcases initialRun_spec env cfg s₀ hv with ⟨-, st, hrun, -⟩ | ⟨-, hrun⟩
    · rw [hrun] at hinit
      rw [← Except.ok.inj hinit]
    · rw [hrun] at hinit
      cases hinit
  unfold learn at hlearn
  rw [if_neg (by rw [hs₁, List.isEmpty_iff]; exact hne)] at hlearn
  obtain ⟨t, hloop, hrest⟩ := bind_ok.mp hlearn
  obtain ⟨u, -, hret⟩ := bind_ok.mp hrest
  obtain ⟨rfl, rfl⟩ := Prod.mk.inj (Except.ok.inj hret)
  obtain ⟨hreach, hdone⟩ := learnLoop_reaches hloop
  have hrun : Run env cfg s₀ t := ⟨hv, hslices, hfirst, hne, s₁, hinit, hreach⟩
  have hlater : t.isFirstSplit = false := by
    by_contra hf
    obtain ⟨sl, hsl⟩ := (hrun.categories ha).first (by simpa using hf)
    rw [hdone] at hsl
    cases hsl
  obtain ⟨⟨children, htree, hcuts⟩, -⟩ := (hrun.shape ha).later hlater
  refine ⟨children, htree, fun i => ⟨hcuts i, (hcuts i).isIntTree ?_⟩⟩
  rintro d ⟨⟨x, hx, hcore⟩, hi⟩
  have hinv := hrun.inv.1
  rw [hdone] at hinv
  obtain ⟨ν, hout, -, -⟩ := hinv.final
  have hd : t.tree.output d = .ok (ν x) := by
    rw [output_congr (hcore.trans (hinv.sample.core_eq x (hv.ne_falseDatapoint hx)).symm)]
    exact hout x hx
  rw [htree, Tree.output, hi] at hd
  split_ifs at hd
  exact ⟨ν x, hd⟩

end Run

end Learner

end HiceDt
