import HiceDt.Horndini.Correct

/-!
# The pre-phase

The tree of the pre-phase (`horndini_prephase` in `hice-dt/src/hice-dt.cpp`, lines
50–97): the conjunctions that Horndini finds, as one subtree for each category.

Results:

* `conjunctions2tree_output`: the tree outputs the truth of the conjunction for the
  category of a data point.
* `conjunctions2tree_satisfies`: that is what `satisfies` says of the derived data
  point.
* `horndiniPrephase_cases`: the pre-phase returns such a tree or throws the exception
  that no conjunction exists; no assertion fails.
* `horndiniPrephase_strongest`: the conjunctions are the strongest consistent ones.
-/

namespace HiceDt.Horndini

open HiceDt Loop

variable {m : Heap} {D : List Ptr} {hcs : List HornConstraint} {d : Datapoint}
  {predicates : List DerivedPredicate} {intervals : List (ℕ × ℕ)} {threshold : ℤ} {n : ℕ}

/-! ## Outputs -/

/-- The predicate with the given index. -/
def predicateAt (predicates : List DerivedPredicate) (c : ℕ) : DerivedPredicate :=
  predicates.getD c ⟨0, .ge, 0⟩

/-- The tree of a conjunction outputs its truth. -/
theorem conjunction2tree_output (predicates : List DerivedPredicate) (conjunction : List ℕ)
    (d : Datapoint) : (conjunction2tree predicates conjunction).output d =
      .ok (conjunction.all fun c => (predicateAt predicates c).holds d) := by
  induction conjunction with
  | nil => rfl
  | cons c rest ih =>
    rw [conjunction2tree, List.all_cons]
    unfold predicateAt DerivedPredicate.holds at ih ⊢
    generalize predicates.getD c ⟨0, .ge, 0⟩ = p
    obtain ⟨attr, type, t⟩ := p
    cases type with
    | ge =>
      by_cases hle : d.int attr ≤ t - 1
      · have hno : ¬ t ≤ d.int attr := by omega
        simp [Tree.output, hle, hno]
      · have hyes : t ≤ d.int attr := by omega
        simp [Tree.output, hle, hyes, ih]
    | le =>
      by_cases hle : d.int attr ≤ t
      · simp [Tree.output, hle, ih]
      · simp [Tree.output, hle]
    | eq =>
      by_cases hle : d.int attr ≤ t
      · by_cases hle' : d.int attr ≤ t - 1
        · have hno : d.int attr ≠ t := by omega
          simp [Tree.output, hle, hle', hno]
        · have hyes : d.int attr = t := by omega
          rw [hyes] at hle'
          simp [Tree.output, hyes, hle', ih]
      · have hno : d.int attr ≠ t := by omega
        simp [Tree.output, hle, hno]

/-- The test of a predicate, given the tests of cuts. -/
def DerivedPredicate.test (p : DerivedPredicate) (cut : ℕ → ℤ → Bool) : Bool :=
  match p.type with
  | .ge => !cut p.index (p.threshold - 1)
  | .le => cut p.index p.threshold
  | .eq => cut p.index p.threshold && !cut p.index (p.threshold - 1)

/-- A walk through the tree of a conjunction tests its predicates. -/
theorem conjunction2tree_walk (predicates : List DerivedPredicate) (conjunction : List ℕ)
    (cut : ℕ → ℤ → Bool) :
    (conjunction2tree predicates conjunction).walk
      (fun attr threshold => some (cut attr threshold)) =
      conjunction.all fun c => (predicateAt predicates c).test cut := by
  induction conjunction with
  | nil => rfl
  | cons c rest ih =>
    rw [conjunction2tree, List.all_cons, ← ih]
    unfold predicateAt DerivedPredicate.test
    generalize predicates.getD c ⟨0, .ge, 0⟩ = p
    obtain ⟨attr, type, t⟩ := p
    cases type with
    | ge => cases h : cut attr (t - 1) <;> simp [Tree.walk, h]
    | le => cases h : cut attr t <;> simp [Tree.walk, h]
    | eq => cases h : cut attr t <;> cases h' : cut attr (t - 1) <;> simp [Tree.walk, h, h']

theorem conjunction2tree_isIntTree (predicates : List DerivedPredicate) (conjunction : List ℕ) :
    (conjunction2tree predicates conjunction).isIntTree = true := by
  induction conjunction with
  | nil => rfl
  | cons c rest ih =>
    rw [conjunction2tree]
    split <;> simp [Tree.isIntTree, ih]

/-- The cuts of the tree of a conjunction. -/
theorem conjunction2tree_thresholds (predicates : List DerivedPredicate) (conjunction : List ℕ)
    (p : ℕ → ℤ → Prop) : (conjunction2tree predicates conjunction).Thresholds p ↔
      ∀ c ∈ conjunction,
        ((predicateAt predicates c).type ≠ .ge →
          p (predicateAt predicates c).index (predicateAt predicates c).threshold) ∧
        ((predicateAt predicates c).type ≠ .le →
          p (predicateAt predicates c).index ((predicateAt predicates c).threshold - 1)) := by
  induction conjunction with
  | nil => simp [conjunction2tree, Tree.Thresholds]
  | cons c rest ih =>
    rw [conjunction2tree, List.forall_mem_cons, ← ih]
    unfold predicateAt
    generalize predicates.getD c ⟨0, .ge, 0⟩ = q
    obtain ⟨attr, type, t⟩ := q
    cases type with
    | ge => simp [Tree.Thresholds]
    | le => simp [Tree.Thresholds]
    | eq => simp [Tree.Thresholds, and_assoc]

theorem conjunction2tree_isNull (predicates : List DerivedPredicate) (conjunction : List ℕ) :
    (conjunction2tree predicates conjunction).isNull = false := by
  cases conjunction with
  | nil => rfl
  | cons c rest =>
    rw [conjunction2tree]
    split <;> rfl

/-- The tree outputs the truth of the conjunction for the category. -/
theorem conjunctions2tree_output {X : List (List ℕ)} (hn : X.length ≤ n)
    (hcat : d.category 0 < X.length) : (conjunctions2tree n predicates X).output d =
      .ok ((X.getD (d.category 0) []).all fun c => (predicateAt predicates c).holds d) := by
  rw [conjunctions2tree, Tree.output, if_pos (lt_of_lt_of_le hcat hn)]
  simp only [List.getElem?_eq_getElem hcat]
  rw [if_neg (by rw [conjunction2tree_isNull]; simp), conjunction2tree_output,
    List.getD_eq_getElem _ _ hcat]

/-- An attribute of a derived data point is the truth of its predicate. -/
theorem generateDerivedDatapoint_int {c : ℕ} (hlt : c < predicates.length) :
    (generateDerivedDatapoint predicates d).int c =
      if (predicateAt predicates c).holds d then 1 else 0 := by
  rw [Datapoint.int, predicateAt, List.getD_eq_getElem _ _ hlt]
  show (List.map (fun p => if p.holds d then (1 : ℤ) else 0) predicates).getD c 0 = _
  rw [List.getD_eq_getElem _ _ (by rwa [List.length_map]), List.getElem_map]

theorem satisfies_generateDerivedDatapoint {conjunction : List ℕ}
    (hlt : ∀ c ∈ conjunction, c < predicates.length) :
    satisfies (generateDerivedDatapoint predicates d) conjunction =
      conjunction.all fun c => (predicateAt predicates c).holds d := by
  unfold satisfies
  rw [Bool.eq_iff_iff, List.all_eq_true, List.all_eq_true]
  refine forall_congr' fun c => forall_congr' fun hc => ?_
  rw [generateDerivedDatapoint_int (hlt c hc), decide_eq_true_eq]
  split_ifs with hholds
  · simp [hholds]
  · simp [hholds]

/-- The tree of a tuple of conjunctions over the derived predicates outputs on a data
    point what the conjunction for its category says of the derived data point. -/
theorem conjunctions2tree_satisfies (intervals : List (ℕ × ℕ)) (threshold : ℤ)
    {X : List (List ℕ)} (hn : X.length ≤ n)
    (hX : ∀ conjunction ∈ X, ∀ c ∈ conjunction,
      c < (generateDerivedPredicates intervals threshold).length)
    {d : Datapoint} {i : ℕ} (hi : i < X.length) (hd : d.category 0 = i) :
    (conjunctions2tree n (generateDerivedPredicates intervals threshold) X).output d =
      .ok (satisfies (generateDerivedDatapoint (generateDerivedPredicates intervals threshold) d)
        (X.getD i [])) := by
  subst hd
  have hmem : X.getD (d.category 0) [] ∈ X := by
    rw [List.getD_eq_getElem _ _ hi]
    exact List.getElem_mem hi
  rw [conjunctions2tree_output hn hi, satisfies_generateDerivedDatapoint (hX _ hmem)]

/-- Two relations with one attribute each; `0 ≤ x` for the first and `y = 1` for the
    second one. -/
theorem conjunctions2tree_satisfies_second :
    (conjunctions2tree 2 (generateDerivedPredicates [(0, 1), (1, 2)] 1) [[3], [17]]).output
        { categoricalData := [1], intData := [0, 1] } =
      .ok (satisfies (generateDerivedDatapoint (generateDerivedPredicates [(0, 1), (1, 2)] 1)
        { categoricalData := [1], intData := [0, 1] }) [17]) :=
  conjunctions2tree_satisfies [(0, 1), (1, 2)] 1 (by decide) (by decide) (by decide) rfl

/-! ## The predicates of an interval -/

theorem derivedIntervals_length (threshold : ℤ) (intervals : List (ℕ × ℕ)) (right : ℕ) :
    (derivedIntervals threshold intervals right).length = intervals.length := by
  induction intervals generalizing right with
  | nil => rfl
  | cons interval rest ih =>
    rw [derivedIntervals, List.length_cons, List.length_cons, ih]

/-- The predicates of an interval are the ones for its attributes. -/
theorem mem_intervalPredicates_iff {interval : ℕ × ℕ} {p : DerivedPredicate} :
    p ∈ intervalPredicates threshold interval ↔ (interval.1 ≤ p.index ∧ p.index < interval.2) ∧
      p ∈ attributePredicates threshold p.index := by
  have hindex : ∀ {attr : ℕ}, p ∈ attributePredicates threshold attr → p.index = attr := by
    intro attr hp
    obtain ⟨i, -, hp⟩ := List.mem_flatMap.mp hp
    simp only [List.mem_cons, List.not_mem_nil, or_false] at hp
    rcases hp with rfl | rfl | rfl <;> rfl
  unfold intervalPredicates
  rw [List.mem_flatMap]
  constructor
  · rintro ⟨attr, hattr, hp⟩
    obtain rfl := hindex hp
    rw [List.mem_range'_1] at hattr
    exact ⟨by omega, hp⟩
  · rintro ⟨hbounds, hp⟩
    refine ⟨p.index, ?_, hp⟩
    rw [List.mem_range'_1]
    omega

theorem length_generateDerivedPredicates_cons (threshold : ℤ) (interval : ℕ × ℕ)
    (rest : List (ℕ × ℕ)) :
    (generateDerivedPredicates (interval :: rest) threshold).length =
      (intervalPredicates threshold interval).length +
        (generateDerivedPredicates rest threshold).length :=
  List.length_append

theorem length_flatten_derivedIntervals (threshold : ℤ) (intervals : List (ℕ × ℕ)) (right : ℕ) :
    (derivedIntervals threshold intervals right).flatten.length =
      (generateDerivedPredicates intervals threshold).length := by
  induction intervals generalizing right with
  | nil => rfl
  | cons interval rest ih =>
    rw [derivedIntervals, List.flatten_cons, List.length_append, List.length_range', ih,
      length_generateDerivedPredicates_cons]

/-- The derived predicates of an interval. -/
theorem derivedIntervals_map (threshold : ℤ) (intervals : List (ℕ × ℕ))
    (before : List DerivedPredicate) {i : ℕ} (hi : i < intervals.length) :
    ((derivedIntervals threshold intervals before.length).getD i []).map
        (predicateAt (before ++ generateDerivedPredicates intervals threshold)) =
      intervalPredicates threshold (intervals.getD i (0, 0)) := by
  induction intervals generalizing before i with
  | nil => cases hi
  | cons interval rest ih =>
    have hgen : generateDerivedPredicates (interval :: rest) threshold =
        intervalPredicates threshold interval ++ generateDerivedPredicates rest threshold := rfl
    rw [derivedIntervals, hgen]
    match i with
    | 0 =>
      rw [List.getD_cons_zero, List.getD_cons_zero]
      refine List.ext_getElem (by simp) fun j hj hj' => ?_
      rw [List.getElem_map, List.getElem_range', Nat.one_mul, predicateAt,
        List.getD_append_right _ _ _ _ (Nat.le_add_right _ _), Nat.add_sub_cancel_left,
        List.getD_append _ _ _ _ hj', List.getD_eq_getElem _ _ hj']
    | i + 1 =>
      have h := ih (before ++ intervalPredicates threshold interval) (Nat.lt_of_succ_lt_succ hi)
      rwa [List.append_assoc, List.length_append] at h

/-- The indices of the derived predicates of an interval. -/
theorem derivedIntervals_bounds (threshold : ℤ) (intervals : List (ℕ × ℕ)) {n i c : ℕ}
    (hc : c ∈ (derivedIntervals threshold intervals n).getD i []) :
    n ≤ c ∧ c < n + (generateDerivedPredicates intervals threshold).length := by
  induction intervals generalizing n i with
  | nil => simp [derivedIntervals] at hc
  | cons interval rest ih =>
    rw [length_generateDerivedPredicates_cons]
    match i, hc with
    | 0, hc =>
      have hmem : c ∈ List.range' n (intervalPredicates threshold interval).length := hc
      rw [List.mem_range'_1] at hmem
      omega
    | i + 1, hc =>
      have h := ih hc
      omega

/-- Every index belongs to an interval. -/
theorem exists_mem_derivedIntervals (threshold : ℤ) (intervals : List (ℕ × ℕ)) {n c : ℕ}
    (hn : n ≤ c) (hc : c < n + (generateDerivedPredicates intervals threshold).length) :
    ∃ i < intervals.length, c ∈ (derivedIntervals threshold intervals n).getD i [] := by
  induction intervals generalizing n with
  | nil =>
    have hzero : (generateDerivedPredicates [] threshold).length = 0 := rfl
    omega
  | cons interval rest ih =>
    rw [length_generateDerivedPredicates_cons] at hc
    by_cases hlt : c < n + (intervalPredicates threshold interval).length
    · refine ⟨0, Nat.succ_pos _, ?_⟩
      show c ∈ List.range' n (intervalPredicates threshold interval).length
      rw [List.mem_range'_1]
      exact ⟨hn, hlt⟩
    · obtain ⟨i, hi, hmem⟩ := ih (n := n + (intervalPredicates threshold interval).length)
        (by omega) (by omega)
      exact ⟨i + 1, Nat.succ_lt_succ hi, hmem⟩

/-- A derived predicate tests an attribute of its interval. -/
theorem derivedIntervals_index (threshold : ℤ) (intervals : List (ℕ × ℕ))
    (before : List DerivedPredicate) (i c : ℕ)
    (hc : c ∈ (derivedIntervals threshold intervals before.length).getD i []) :
    (intervals.getD i (0, 0)).1 ≤
        (predicateAt (before ++ generateDerivedPredicates intervals threshold) c).index ∧
      (predicateAt (before ++ generateDerivedPredicates intervals threshold) c).index <
        (intervals.getD i (0, 0)).2 := by
  have hi : i < intervals.length := by
    by_contra hge
    rw [List.getD_eq_default _ _ (by rw [derivedIntervals_length]; omega)] at hc
    cases hc
  have hmem := List.mem_map_of_mem
    (f := predicateAt (before ++ generateDerivedPredicates intervals threshold)) hc
  rw [derivedIntervals_map threshold intervals before hi] at hmem
  exact (mem_intervalPredicates_iff.mp hmem).1

/-- Every predicate for an attribute of an interval is among its derived predicates. -/
theorem exists_derived (threshold : ℤ) (intervals : List (ℕ × ℕ)) (before : List DerivedPredicate)
    {i : ℕ} (hi : i < intervals.length) {p : DerivedPredicate}
    (hp : p ∈ intervalPredicates threshold (intervals.getD i (0, 0))) :
    ∃ c ∈ (derivedIntervals threshold intervals before.length).getD i [],
      c < (before ++ generateDerivedPredicates intervals threshold).length ∧
      predicateAt (before ++ generateDerivedPredicates intervals threshold) c = p := by
  rw [← derivedIntervals_map threshold intervals before hi] at hp
  obtain ⟨c, hc, rfl⟩ := List.mem_map.mp hp
  refine ⟨c, hc, ?_, rfl⟩
  rw [List.length_append]
  exact (derivedIntervals_bounds threshold intervals hc).2

/-- The checks after `learn` pass. -/
theorem debugChecks_of_sub {X : List (List ℕ)}
    (hsub : Sub X (derivedIntervals threshold intervals 0)) :
    debugChecks (generateDerivedPredicates intervals threshold) intervals
      (derivedIntervals threshold intervals 0) X = true := by
  unfold debugChecks
  rw [List.all_eq_true]
  intro i _
  rw [List.all_eq_true]
  intro c hc
  have hmem := (hsub.getD i).subset hc
  have := derivedIntervals_index threshold intervals [] i c hmem
  exact decide_eq_true ⟨hmem, this⟩

/-! ## Predicates that are never removed -/

/-- A tuple that holds at all points stays below the conjunctions. -/
theorem learnLoop_keeps {init Z : List (List ℕ)} (hok : SampleOk m D hcs init)
    (hZ : ∀ x ∈ D, holdsAt Z (m x) = true) : ∀ (fuel : ℕ) (hcs' : List HornConstraint)
    (X : List (List ℕ)) (positive : List Ptr), LoopInv m D hcs init hcs' X positive → Sub Z X →
      ∀ {kept : List HornConstraint} {r : List (List ℕ)},
        learnLoop m fuel hcs' X positive = .ok (kept, r) → Sub Z r ∧ Sub r init := by
  intro fuel
  induction fuel with
  | zero =>
    intro hcs' X positive _ _ kept r hrun
    cases hrun
  | succ fuel ih =>
    intro hcs' X positive h hsub kept r hrun
    have hcat : ∀ x ∈ positive, (m x).category 0 < X.length := by
      intro x hx
      rw [h.sub.length_eq]
      exact hok.category x (h.positive_mem x hx)
    obtain ⟨X', hknock, hinv⟩ := h.knockOff hok
    obtain ⟨X'', hknock', -, -, -, hmax⟩ := foldlM_knockOff hcat
    obtain rfl := Except.ok.inj (hknock.symm.trans hknock')
    have hsub' : Sub Z X' := hmax Z hsub fun x hx => hZ x (h.positive_mem x hx)
    rw [learnLoop, hknock] at hrun
    rcases hinv.hornPhase hok with ⟨herr, -⟩ | ⟨kept', positive', hphase, -, hinv', -⟩
    · simp only [bind, Except.bind, herr] at hrun
      cases hrun
    · simp only [bind, Except.bind, hphase] at hrun
      split_ifs at hrun
      · obtain ⟨-, rfl⟩ := Prod.mk.inj (Except.ok.inj hrun)
        exact ⟨hsub', hinv'.sub⟩
      · exact ih kept' X' positive' hinv' hsub' hrun

/-- The tuple with one predicate in the conjunction `i`. -/
def singleton (n i c : ℕ) : List (List ℕ) := (List.replicate n []).set i [c]

theorem singleton_sub {X : List (List ℕ)} {i c : ℕ} (h : c ∈ X.getD i []) :
    Sub (singleton X.length i c) X := by
  have hnil : Sub (List.replicate X.length []) X := by
    refine List.Forall₂.flip (forall₂_replicate rfl fun l _ => List.nil_sublist l)
  refine List.forall₂_iff_get.mpr ⟨by simp [singleton], fun j hj hj' => ?_⟩
  simp only [singleton, List.get_eq_getElem, List.getElem_set]
  split_ifs with hij
  · subst hij
    rw [List.getD_eq_getElem _ _ hj'] at h
    exact List.singleton_sublist.mpr h
  · exact hnil.get (by simpa using hj') hj'

theorem getD_singleton {n i c : ℕ} (hi : i < n) (j : ℕ) :
    (singleton n i c).getD j [] = if j = i then [c] else [] := by
  unfold singleton
  by_cases hj : j < n
  · rw [List.getD_eq_getElem _ _ (by simpa using hj), List.getElem_set]
    by_cases hij : i = j
    · rw [if_pos hij, if_pos hij.symm]
    · rw [if_neg hij, if_neg fun h => hij h.symm, List.getElem_replicate]
  · rw [List.getD_eq_default _ _ (by simpa using hj), if_neg (by omega)]

/-! ## The pre-phase -/

/-- The pre-phase throws, or it returns the tree of some conjunctions. -/
theorem horndiniPrephase_cases (hcat : ∀ x ∈ D, (m x).category 0 < intervals.length)
    (hprem : ∀ hc ∈ hcs, ∀ x ∈ hc.premises, x ∈ D)
    (hconc : ∀ hc ∈ hcs, ∀ c, hc.conclusion = some c → c ∈ D) {fuel : ℕ}
    (hfuel : hcs.length < fuel) : horndiniPrephase m D hcs intervals.length intervals fuel =
        .error (.noConjunctionExistsException "No consistent conjunction exists") ∨
      ∃ X, X.length = intervals.length ∧
        horndiniPrephase m D hcs intervals.length intervals fuel =
          .ok (conjunctions2tree intervals.length (generateDerivedPredicates intervals 1) X) := by
  have hlen := derivedIntervals_length 1 intervals 0
  have hok : SampleOk (fun x => generateDerivedDatapoint (generateDerivedPredicates intervals 1)
    (m x))
      D hcs (derivedIntervals 1 intervals 0) :=
    ⟨fun x hx => by rw [hlen]; exact hcat x hx, hprem, hconc⟩
  unfold horndiniPrephase
  simp only [hlen, decide_true, assert_true, bind, Except.bind]
  rcases learn_cases hok hfuel with herr | ⟨kept, X, hrun, hsub⟩
  · rw [herr]
    exact .inl rfl
  · rw [hrun]
    refine .inr ⟨X, hsub.length_eq.trans hlen, ?_⟩
    simp only [debugChecks_of_sub hsub, assert_true]
    rfl

/-- If there is a consistent tuple of conjunctions, then the pre-phase returns the tree of the
    strongest one. -/
theorem horndiniPrephase_strongest (hcat : ∀ x ∈ D, (m x).category 0 < intervals.length)
    (hprem : ∀ hc ∈ hcs, ∀ x ∈ hc.premises, x ∈ D)
    (hconc : ∀ hc ∈ hcs, ∀ c, hc.conclusion = some c → c ∈ D) {fuel : ℕ} (hfuel : hcs.length < fuel)
    (hex : ∃ Z, Fits (fun x => generateDerivedDatapoint (generateDerivedPredicates intervals 1)
    (m x))
      D hcs (derivedIntervals 1 intervals 0) Z) :
    ∃ X, horndiniPrephase m D hcs intervals.length intervals fuel =
        .ok (conjunctions2tree intervals.length (generateDerivedPredicates intervals 1) X) ∧
      Fits (fun x => generateDerivedDatapoint (generateDerivedPredicates intervals 1) (m x)) D hcs
        (derivedIntervals 1 intervals 0) X ∧
      ∀ Z, Fits (fun x => generateDerivedDatapoint (generateDerivedPredicates intervals 1) (m x)) D
        hcs
        (derivedIntervals 1 intervals 0) Z → Sub Z X := by
  have hlen := derivedIntervals_length 1 intervals 0
  have hok : SampleOk (fun x => generateDerivedDatapoint (generateDerivedPredicates intervals 1)
    (m x))
      D hcs (derivedIntervals 1 intervals 0) :=
    ⟨fun x hx => by rw [hlen]; exact hcat x hx, hprem, hconc⟩
  rcases learnLoop_spec hok fuel hcs _ _ (.start _ D hcs _) hfuel with ⟨-, hno⟩ |
    ⟨kept, X, hrun, hinv, hfires⟩
  · exact absurd hex hno
  · refine ⟨X, ?_, hinv.fits hfires hex, hinv.maximal⟩
    unfold horndiniPrephase learn
    simp only [hlen, decide_true, assert_true, bind, Except.bind, hrun, debugChecks_of_sub hinv.sub]
    rfl

/-- A tree of the pre-phase: the conjunctions have predicates of their intervals, among
    them all that hold at every point of the category. -/
theorem horndiniPrephase_ok (hcat : ∀ x ∈ D, (m x).category 0 < intervals.length)
    (hprem : ∀ hc ∈ hcs, ∀ x ∈ hc.premises, x ∈ D)
    (hconc : ∀ hc ∈ hcs, ∀ c, hc.conclusion = some c → c ∈ D) {fuel : ℕ} {t : Tree}
    (hrun : horndiniPrephase m D hcs n intervals fuel = .ok t) :
    ∃ X, X.length = intervals.length ∧
      t = conjunctions2tree intervals.length (generateDerivedPredicates intervals 1) X ∧
      Sub X (derivedIntervals 1 intervals 0) ∧
      ∀ i c, c ∈ (derivedIntervals 1 intervals 0).getD i [] →
        c < (generateDerivedPredicates intervals 1).length →
        (∀ x ∈ D, (m x).category 0 = i →
          (predicateAt (generateDerivedPredicates intervals 1) c).holds (m x) = true) →
        c ∈ X.getD i [] := by
  have hlen := derivedIntervals_length 1 intervals 0
  set predicates := generateDerivedPredicates intervals 1 with hpredicates
  set derived := derivedIntervals 1 intervals 0 with hderived
  have hok : SampleOk (fun x => generateDerivedDatapoint predicates (m x)) D hcs derived :=
    ⟨fun x hx => by rw [hlen]; exact hcat x hx, hprem, hconc⟩
  unfold horndiniPrephase at hrun
  obtain ⟨u, hassert, hrun⟩ := bind_ok.mp hrun
  obtain ⟨⟨kept, X⟩, hlearn, hrun⟩ := bind_ok.mp hrun
  obtain ⟨u', -, hret⟩ := bind_ok.mp hrun
  have hn : n = intervals.length := by
    have h := assert_eq_ok hassert
    rwa [decide_eq_true_eq, ← hderived, hlen] at h
  have hstart := LoopInv.start (fun x => generateDerivedDatapoint predicates (m x)) D hcs derived
  have hnil : ∀ x ∈ D, holdsAt (List.replicate derived.length [])
      (generateDerivedDatapoint predicates (m x)) = true := by
    intro x _
    unfold holdsAt
    rw [List.getD_eq_getElem?_getD, List.getElem?_replicate]
    split_ifs
    · rfl
    · rfl
  have hsubNil : Sub (List.replicate derived.length []) derived :=
    List.Forall₂.flip (forall₂_replicate rfl fun l _ => List.nil_sublist l)
  have hsub := (learnLoop_keeps hok hnil fuel hcs derived _ hstart hsubNil hlearn).2
  refine ⟨X, hsub.length_eq.trans hlen, ?_, hsub, fun i c hc hlt hall => ?_⟩
  · rw [← Except.ok.inj hret, hn]
  · have hi : i < derived.length := by
      by_contra hge
      rw [List.getD_eq_default _ _ (by omega)] at hc
      cases hc
    have hholds : ∀ x ∈ D, holdsAt (singleton derived.length i c)
        (generateDerivedDatapoint predicates (m x)) = true := by
      intro x hx
      unfold holdsAt satisfies
      rw [getD_singleton hi]
      split_ifs with hcategory
      · have hint := generateDerivedDatapoint_int (d := m x) hlt
        rw [if_pos (hall x hx hcategory)] at hint
        simp [hint]
      · rfl
    have hkept := (learnLoop_keeps hok hholds fuel hcs derived _ hstart (singleton_sub hc) hlearn).1
    have hmem := (hkept.getD i).subset
    rw [getD_singleton hi, if_pos rfl] at hmem
    exact hmem List.mem_cons_self

end HiceDt.Horndini
