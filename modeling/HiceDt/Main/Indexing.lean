import HiceDt.Boogie.Inputs
import HiceDt.Horndini.Checked

/-!
# Checks of the input

Model of `main` (`hice-dt/src/hice-dt.cpp`, lines 186–463) with its accesses to
`number_of_categories ()`, to the data of the data points and to the conjunctions. `main`
compares the number of intervals with the number of categories; it does not compare the
intervals with the attributes, and it does not notice that there is no categorical attribute.

Results:

* `run_defined`: under which conditions no index is out of bounds.
* `run_undefined`: otherwise some run accesses an element that does not exist.
* `safeIndexing_iff`: both, for all contents of the files.
-/

namespace HiceDt.Main

open HiceDt Boogie Horndini Loop Machine

/-! ## The checks -/

/-- The checks of the input (lines 189–201). That the number of categorical attributes is less
    than zero is never the case. -/
def checkInput (inputs : Inputs) : Except Error Unit :=
  if inputs.metadata.intNames.length + inputs.metadata.numberOfCategories.length = 0 then
    .error (.runtimeError "No attributes defined")
  else do
    let numberOfCategories ← access inputs.metadata.numberOfCategories 0
    if numberOfCategories ≠ inputs.intervals.length then
      throw (.runtimeError "Intervals file does not match number of annotations to synthesize")

/-! ## The pre-phase -/

/-- `datapoints_copy` (lines 221–226). -/
def copyDatapoints (datapoints : List Datapoint) (fuel : ℕ) : Except Error (List Datapoint) :=
  forBelow 32 .outOfFuel (fun datapointsCopy i => do
    let d ← access datapoints i
    return datapointsCopy ++ [d]) datapoints.length fuel 0 []

/-- The objects of a vector. -/
def heapOf (datapoints : List Datapoint) : Heap
  | .point i => datapoints.getD i {}
  | .falseDatapoint => {}

/-- Pointers to the objects of a vector. -/
def pointers (size : ℕ) : List Ptr := (List.range size).map .point

/-- `horndini_prephase` (lines 50–97). -/
def horndiniPrephaseAt (metadata : AttributesMetadata) (datapoints : List Datapoint)
    (hornIndexes : List (Finset ℕ × Finset ℕ)) (intervals : List (ℕ × ℕ)) (fuel : ℕ) :
    Except Error Tree := do
  let (predicates, derived) ← generateDerivedPredicatesAndIntervals intervals 1 fuel
  let derivedDatapoints ← generateDerivedDatapoints datapoints predicates fuel
  let hornConstraints ← indexes2hornConstraints derivedDatapoints.length hornIndexes
  assert (metadata.numberOfCategories.length = 1)
  let numberOfCategories ← access metadata.numberOfCategories 0
  assert (numberOfCategories = derived.length)
  let conjunctions ← initialConjunctions fuel derived
  let (_, conjunctions) ← learnAt (heapOf derivedDatapoints) (pointers derivedDatapoints.length)
    hornConstraints conjunctions fuel
  let numberOfCategories ← access metadata.numberOfCategories 0
  let tree := conjunctions2tree numberOfCategories predicates conjunctions
  assert (debugAssertions predicates intervals derived conjunctions)
  return tree

/-- The body of the `try` block (lines 244–267): the tree if it is consistent. -/
def tryHorndiniAt (inputs : Inputs) (datapoints : List Datapoint)
    (hornConstraints : List HornConstraint) (fuel : ℕ) : Except Error (Option Tree) := do
  let tree ← horndiniPrephaseAt inputs.metadata datapoints inputs.hornIndexes inputs.intervals fuel
  let consistent ← isConsistentAt tree (pointers datapoints.length) hornConstraints
    (heapOf datapoints)
  return if consistent then some tree else none

/-- The pre-phase (lines 216–276). -/
def prephaseAt (inputs : Inputs) (fuel : ℕ) : Except Error (Option Tree) := do
  let datapoints ← copyDatapoints inputs.datapoints fuel
  let hornConstraints ← indexes2hornConstraints datapoints.length inputs.hornIndexes
  match tryHorndiniAt inputs datapoints hornConstraints fuel with
  | .ok result => return result
  | .error (.noConjunctionExistsException _) => return none
  | .error e => throw e

/-! ## The learner -/

/-- The accesses of the learner, in whatever order it makes them. It needs exactly one
    categorical attribute, whose values it reads first (`simple_job_manager.h`, line 1183, and
    `job.cpp`, lines 26–45); later it reads the attributes that the leftmost point of a slice
    has, at the points of the slice (`simple_job_manager.h`, lines 1658–1879), and the ones by
    which it has split (`job.cpp`, lines 68–77, and `output_visitor.cpp`, lines 27–53). -/
def learnerAccesses (metadata : AttributesMetadata) (datapoints : List Datapoint) :
    Except Error Unit :=
  match datapoints with
  | [] => .ok ()
  | first :: _ =>
    if first.categoricalData.length ≠ 1 then
      .error (.runtimeError "Learner expects exactly one categorical attribute")
    else do
      let _ ← access metadata.numberOfCategories 0
      let _ ← datapoints.mapM fun d => access d.categoricalData 0
      let _ ← datapoints.mapM fun left => datapoints.mapM fun d =>
        (List.range left.intData.length).mapM fun attr => access d.intData attr

/-- `main` after the files have been read; `fuel` bounds the iterations of the loops. -/
def run (doHorndiniPrephase : Bool) (inputs : Inputs) (fuel : ℕ) : Except Error (Option Tree) := do
  checkInput inputs
  match ← (if doHorndiniPrephase then prephaseAt inputs fuel else .ok none) with
  | some tree => return some tree
  | none =>
    learnerAccesses inputs.metadata inputs.datapoints
    return none

/-- No run accesses an element that does not exist. -/
def SafeIndexing (doHorndiniPrephase : Bool) (inputs : Inputs) : Prop :=
  ∀ fuel, run doHorndiniPrephase inputs fuel ≠ .error .undefinedBehaviour

/-! ## The condition -/

/-- The attributes in intervals with inclusive bounds. -/
def attributesOf (intervals : List (ℕ × ℕ)) : List ℕ :=
  intervals.flatMap fun interval => List.range' interval.1 (interval.2 + 1 - interval.1)

/-- The pre-phase computes derived data points: nothing before has stopped it. -/
structure Derives (inputs : Inputs) : Prop where
  categories : inputs.metadata.numberOfCategories.head? = some inputs.intervals.length
  nonempty : inputs.datapoints ≠ []
  size : inputs.datapoints.length < 2 ^ 32
  horn : ∃ constraints, indexes2hornConstraints inputs.datapoints.length inputs.hornIndexes =
    .ok constraints
  ends : ∀ interval ∈ inputs.intervals, interval.2 + 1 < 2 ^ 32

/-- There is a categorical attribute, unless there is no attribute at all; and if the pre-phase
    computes derived data points, the attributes in the intervals exist. There are nine
    predicates for an attribute, and a counter with 32 bits reaches no others than those for the
    first 477218589 attributes. -/
structure InputsChecked (doHorndiniPrephase : Bool) (inputs : Inputs) : Prop where
  categorical : inputs.metadata.numberOfCategories = [] → inputs.metadata.intNames = []
  intervals : doHorndiniPrephase = true → Derives inputs →
    ∀ attr ∈ (attributesOf inputs.intervals).take 477218589, attr < inputs.metadata.intNames.length

/-! ## The predicates that are reached -/

variable {inputs : Inputs} {fuel n : ℕ} {datapoints : List Datapoint}

theorem generateDerivedPredicates_halfOpen (intervals : List (ℕ × ℕ)) :
    generateDerivedPredicates (intervals.map halfOpen) 1 =
      (attributesOf intervals).flatMap (attributePredicates 1) := by
  rw [generateDerivedPredicates, attributesOf, List.flatMap_map, List.flatMap_assoc]
  rfl

theorem length_flatMap_attributePredicates (attrs : List ℕ) :
    (attrs.flatMap (attributePredicates 1)).length = 9 * attrs.length := by
  have hnine : ∀ attr, (attributePredicates 1 attr).length = 9 := fun _ => rfl
  rw [List.length_flatMap, funext hnine, List.map_const', List.sum_replicate, smul_eq_mul,
    Nat.mul_comm]

/-- Nine predicates for each attribute. -/
theorem predicateAt_flatMap (attrs : List ℕ) {j : ℕ} (hj : j < 9 * attrs.length) :
    (predicateAt (attrs.flatMap (attributePredicates 1)) j).index = attrs.getD (j / 9) 0 := by
  induction attrs generalizing j with
  | nil => simp at hj
  | cons attr attrs ih =>
    have hnine : (attributePredicates 1 attr).length = 9 := rfl
    rw [List.flatMap_cons, predicateAt]
    by_cases hlt : j < 9
    · have hindex : ∀ p ∈ attributePredicates 1 attr, p.index = attr := by
        intro p hp
        obtain ⟨i, -, hp⟩ := List.mem_flatMap.mp hp
        simp only [List.mem_cons, List.not_mem_nil, or_false] at hp
        rcases hp with rfl | rfl | rfl <;> rfl
      rw [List.getD_append _ _ _ _ (by omega), List.getD_eq_getElem _ _ (by omega),
        hindex _ (List.getElem_mem _), Nat.div_eq_of_lt hlt]
      rfl
    · have hdiv : j / 9 = (j - 9) / 9 + 1 := by omega
      rw [List.length_cons] at hj
      rw [List.getD_append_right _ _ _ _ (by omega), hnine, hdiv, List.getD_cons_succ,
        ← ih (by omega), predicateAt]

/-- The attributes of the predicates that a counter with 32 bits reaches. -/
theorem reached_iff (intervals : List (ℕ × ℕ)) :
    (∀ j < 2 ^ 32, j < (generateDerivedPredicates (intervals.map halfOpen) 1).length →
        (predicateAt (generateDerivedPredicates (intervals.map halfOpen) 1) j).index < n) ↔
      ∀ attr ∈ (attributesOf intervals).take 477218589, attr < n := by
  rw [generateDerivedPredicates_halfOpen, length_flatMap_attributePredicates]
  generalize attributesOf intervals = attrs
  constructor
  · intro h attr hattr
    obtain ⟨k, hk, rfl⟩ := List.getElem_of_mem hattr
    rw [List.length_take] at hk
    have hindex := h (9 * k) (by omega) (by omega)
    rw [predicateAt_flatMap attrs (by omega), Nat.mul_div_cancel_left _ (by norm_num),
      List.getD_eq_getElem _ _ (by omega)] at hindex
    rwa [List.getElem_take]
  · intro h j hj hlt
    have hk : j / 9 < (attrs.take 477218589).length := by
      rw [List.length_take]
      omega
    rw [predicateAt_flatMap attrs hlt, List.getD_eq_getElem _ _ (by omega)]
    have hmem := List.getElem_mem hk
    rw [List.getElem_take] at hmem
    exact h _ hmem

/-! ## Data points and constraints -/

theorem copyDatapoints_ensures : Ensures Defined
    (fun copy => datapoints.length < 2 ^ 32 ∧ copy = datapoints)
    (copyDatapoints datapoints fuel) := by
  have hloop := @forBelow_ensures 32 Error (List Datapoint) .outOfFuel (fun copy i => do
      let d ← access datapoints i
      return copy ++ [d]) datapoints.length Defined
    (fun i copy => i ≤ datapoints.length ∧ (datapoints.length < 2 ^ 32 → copy = datapoints.take i))
    (by simp [Defined]) (by
      rintro i copy hi hi' ⟨-, hcopy⟩
      rw [access_eq hi {}]
      refine ⟨(Nat.mod_le _ _).trans hi, fun hlt => ?_⟩
      rw [Nat.mod_eq_of_lt (by omega), hcopy hlt, List.take_succ_eq_append_getElem hi,
        List.getD_eq_getElem _ _ hi]) fuel 0 [] (by norm_num) ⟨Nat.zero_le _, fun _ => rfl⟩
  refine hloop.imp ?_
  rintro copy ⟨i, hle, hlt, hi, hcopy⟩
  obtain rfl : i = datapoints.length := by omega
  exact ⟨hlt, (hcopy hlt).trans List.take_length⟩

/-- The points are those of the vector. -/
theorem heapOf_mem {x : Ptr} (hx : x ∈ pointers datapoints.length) :
    heapOf datapoints x ∈ datapoints := by
  obtain ⟨i, hi, rfl⟩ := List.mem_map.mp hx
  rw [List.mem_range] at hi
  rw [heapOf, List.getD_eq_getElem _ _ hi]
  exact List.getElem_mem hi

theorem heapOf_map {f : Datapoint → Datapoint} {x : Ptr} (hx : x ∈ pointers datapoints.length) :
    heapOf (datapoints.map f) x = f (heapOf datapoints x) := by
  obtain ⟨i, hi, rfl⟩ := List.mem_map.mp hx
  rw [List.mem_range] at hi
  rw [heapOf, heapOf, List.getD_eq_getElem _ _ (by rwa [List.length_map]), List.getElem_map,
    List.getD_eq_getElem _ _ hi]

/-- The constraints refer to existing data points. -/
theorem indexes2hornConstraints_scope {size : ℕ} {hornIndexes : List (Finset ℕ × Finset ℕ)}
    {constraints : List HornConstraint}
    (h : indexes2hornConstraints size hornIndexes = .ok constraints) :
    (∀ hc ∈ constraints, ∀ x ∈ hc.premises, x ∈ pointers size) ∧
      ∀ hc ∈ constraints, ∀ c, hc.conclusion = some c → c ∈ pointers size := by
  have hpointer : ∀ {i index : ℕ} {x : Ptr}, pointer size i index = .ok x → x ∈ pointers size := by
    intro i index x hx
    obtain ⟨hlt, rfl⟩ := pointer_eq_ok.mp hx
    exact List.mem_map_of_mem (List.mem_range.mpr hlt)
  have hconstraint : ∀ hc ∈ constraints, (∀ x ∈ hc.premises, x ∈ pointers size) ∧
      ∀ c, hc.conclusion = some c → c ∈ pointers size := by
    intro hc hhc
    obtain ⟨x, -, hx⟩ := forall₂_mem_right (mapM_ok h) hhc
    obtain ⟨premises, hpremises, hx⟩ := bind_ok.mp hx
    have hall : ∀ y ∈ premises, y ∈ pointers size := by
      intro y hy
      obtain ⟨index, -, hindex⟩ := forall₂_mem_right (mapM_ok hpremises) hy
      exact hpointer hindex
    split at hx
    · rw [← Except.ok.inj hx]
      exact ⟨hall, fun c hc => by cases hc⟩
    · obtain ⟨consequent, hconsequent, hret⟩ := bind_ok.mp hx
      rw [← Except.ok.inj hret]
      refine ⟨hall, fun c hc => ?_⟩
      rw [← Option.some.inj hc]
      exact hpointer hconsequent
  exact ⟨fun hc hhc => (hconstraint hc hhc).1, fun hc hhc => (hconstraint hc hhc).2⟩

/-! ## The pre-phase accesses what there is -/

variable {constraints : List HornConstraint}

/-- The attributes that are accessed exist. -/
def AttributesExist (inputs : Inputs) : Prop :=
  inputs.datapoints ≠ [] → (∀ interval ∈ inputs.intervals, interval.2 + 1 < 2 ^ 32) →
    ∀ attr ∈ (attributesOf inputs.intervals).take 477218589, attr < inputs.metadata.intNames.length

theorem generateDerivedDatapoints_ensures {datapoints : List Datapoint}
    {predicates : List DerivedPredicate}
    (hindex : ∀ d ∈ datapoints, ∀ j < 2 ^ 32, j < predicates.length →
      (predicateAt predicates j).index < d.intData.length) :
    Ensures Defined (fun r => r = datapoints.map (generateDerivedDatapoint predicates) ∧
      (datapoints ≠ [] → predicates.length < 2 ^ 32))
      (generateDerivedDatapoints datapoints predicates fuel) := by
  refine (ensures_mapM fun d hd => generateDerivedDatapointAt_ensures (hindex d hd)).imp fun r
    hr => ?_
  constructor
  · rw [← List.forall₂_eq_eq_eq, List.forall₂_map_right_iff]
    exact List.Forall₂.flip (hr.imp fun _ _ h => h.2)
  · intro hne
    obtain ⟨d, ds, hds⟩ := List.exists_cons_of_ne_nil hne
    rw [hds, List.forall₂_cons_left_iff] at hr
    obtain ⟨_, _, h, -⟩ := hr
    exact h.1

/-- The derived data points are a sample that `horndini` may index. -/
theorem derived_indexable {predicates : List DerivedPredicate} {init : List (List ℕ)}
    {rest : List ℕ} (hwf : inputs.WellFormed)
    (hnumber : inputs.metadata.numberOfCategories = inputs.intervals.length :: rest)
    (hconstraints : indexes2hornConstraints inputs.datapoints.length inputs.hornIndexes =
      .ok constraints) (hlength : init.length = inputs.intervals.length)
    (hvalues : ∀ x ∈ pointers inputs.datapoints.length, ∀ i, ∀ c ∈ init.getD i [],
      c < predicates.length) :
    Horndini.SampleOk (heapOf (inputs.datapoints.map (generateDerivedDatapoint predicates)))
        (pointers inputs.datapoints.length) constraints init ∧
      Indexable (heapOf (inputs.datapoints.map (generateDerivedDatapoint predicates)))
        (pointers inputs.datapoints.length) init := by
  have hdescribed : ∀ x ∈ pointers inputs.datapoints.length,
      Described inputs.metadata (heapOf inputs.datapoints x) := fun x hx =>
      hwf.datapoints _ (heapOf_mem hx)
  obtain ⟨hprem, hconc⟩ := indexes2hornConstraints_scope hconstraints
  have hok : Horndini.SampleOk (heapOf (inputs.datapoints.map
      (generateDerivedDatapoint predicates))) (pointers inputs.datapoints.length) constraints
      init := by
    refine ⟨fun x hx => ?_, hprem, hconc⟩
    rw [heapOf_map hx, hlength]
    exact ((hdescribed x hx).category hnumber).2
  refine ⟨hok, fun x hx => ?_, hok.category, fun x hx i c hc => ?_⟩
  · rw [heapOf_map hx]
    exact ((hdescribed x hx).category hnumber).1
  · rw [heapOf_map hx]
    show c < (predicates.map _).length
    rw [List.length_map]
    exact hvalues x hx i c hc

theorem horndiniPrephaseAt_ensures (hwf : inputs.WellFormed)
    (hcategories : inputs.metadata.numberOfCategories.head? = some inputs.intervals.length)
    (hconstraints : indexes2hornConstraints inputs.datapoints.length inputs.hornIndexes =
      .ok constraints)
    (hattributes : AttributesExist inputs) :
    Ensures Defined (fun tree => ∀ x ∈ pointers inputs.datapoints.length,
        outputAt tree (heapOf inputs.datapoints x) = tree.output (heapOf inputs.datapoints x) ∧
          ∃ b, tree.output (heapOf inputs.datapoints x) = .ok b)
      (horndiniPrephaseAt inputs.metadata inputs.datapoints inputs.hornIndexes inputs.intervals
        fuel) := by
  obtain ⟨rest, hnumber⟩ := List.head?_eq_some_iff.mp hcategories
  have haccess : access inputs.metadata.numberOfCategories 0 = .ok inputs.intervals.length := by
    rw [hnumber]
    rfl
  refine (generateDerivedPredicatesAndIntervals_ensures fun interval hmem =>
    (hwf.intervals interval hmem).1).bind ?_
  rintro ⟨predicates, derived⟩ ⟨hlast, hpredicates, hderived⟩
  dsimp only at hpredicates hderived ⊢
  have hindex : ∀ d ∈ inputs.datapoints, ∀ j < 2 ^ 32, j < predicates.length →
      (predicateAt predicates j).index < d.intData.length := by
    intro d hd
    rw [(hwf.datapoints d hd).int, hpredicates]
    exact (reached_iff inputs.intervals).mpr (hattributes (List.ne_nil_of_mem hd) hlast)
  refine (generateDerivedDatapoints_ensures hindex).bind ?_
  rintro derivedDatapoints ⟨rfl, hsize⟩
  rw [List.length_map, hconstraints]
  refine (assert_ensures _).bind fun _ _ => ?_
  rw [haccess]
  refine (assert_ensures _).bind fun _ hassert => ?_
  rw [decide_eq_true_eq] at hassert
  rw [hderived] at hassert ⊢
  refine initialConjunctions_ensures.bind fun init hinit => ?_
  obtain ⟨hlength, hinit⟩ := hinit
  rw [← hassert] at hlength
  rw [← hpredicates] at hinit
  -- if there is a data point, there are not too many predicates
  have hvalues : ∀ x ∈ pointers inputs.datapoints.length, ∀ i, ∀ c ∈ init.getD i [],
      c < predicates.length ∧ predicates.length < 2 ^ 32 := by
    intro x hx i c hc
    have hbound := hsize (List.ne_nil_of_mem (heapOf_mem hx))
    rw [hinit hbound] at hc
    obtain ⟨-, hlt⟩ := derivedIntervals_bounds 1 _ hc
    rw [← hpredicates, Nat.zero_add] at hlt
    exact ⟨hlt, hbound⟩
  obtain ⟨hok, hindexable⟩ := derived_indexable hwf hnumber hconstraints hlength
    fun x hx i c hc => (hvalues x hx i c hc).1
  rw [learnAt_eq hok hindexable]
  refine (learnLoop_ensures hok fuel _ _ _ (.start _ _ _ _)).bind ?_
  rintro ⟨_, X⟩ hsub
  dsimp only at hsub ⊢
  refine (assert_ensures _).bind fun _ _ => ?_
  intro x hx
  have hcat := (hwf.datapoints _ (heapOf_mem hx)).category hnumber
  have hX : X.length = inputs.intervals.length := hsub.length_eq.trans hlength
  refine ⟨conjunctions2tree_outputAt _ hcat.1 (by rw [hX]; exact hcat.2) fun i c hc => ?_,
    _, conjunctions2tree_output hX.le (by rw [hX]; exact hcat.2)⟩
  obtain ⟨hlt, hbound⟩ := hvalues x hx i c ((hsub.getD i).subset hc)
  exact hindex _ (heapOf_mem hx) c (by omega) hlt

theorem tryHorndiniAt_ensures (hwf : inputs.WellFormed)
    (hcategories : inputs.metadata.numberOfCategories.head? = some inputs.intervals.length)
    (hconstraints : indexes2hornConstraints inputs.datapoints.length inputs.hornIndexes =
      .ok constraints)
    (hattributes : AttributesExist inputs) :
    Ensures Defined (fun _ => True) (tryHorndiniAt inputs inputs.datapoints constraints fuel) := by
  obtain ⟨hprem, hconc⟩ := indexes2hornConstraints_scope hconstraints
  refine (horndiniPrephaseAt_ensures hwf hcategories hconstraints hattributes).bind fun tree
    htree => ?_
  rw [isConsistentAt_eq hprem hconc fun x hx => (htree x hx).1]
  refine Ensures.bind (isConsistent_ensures hprem hconc fun x hx => ?_) fun _ _ => trivial
  obtain ⟨b, hb⟩ := (htree x hx).2
  rw [hb]
  trivial

theorem indexes2hornConstraints_ensures {size : ℕ} {hornIndexes : List (Finset ℕ × Finset ℕ)} :
    Ensures Defined (fun constraints => indexes2hornConstraints size hornIndexes = .ok constraints)
      (indexes2hornConstraints size hornIndexes) := by
  have hthrows : Ensures IsRuntimeError (List.Forall₂ (fun _ _ => True) (hornIndexes.zipIdx 1))
      (indexes2hornConstraints size hornIndexes) := ensures_mapM fun _ _ => hornConstraint_throws
  rw [ensures_iff]
  refine ⟨fun _ hrun => hrun, fun e hrun => ?_⟩
  obtain ⟨what, rfl⟩ := (ensures_iff.mp hthrows).2 e hrun
  simp [Defined]

theorem prephaseAt_ensures (hwf : inputs.WellFormed) (hchecked : InputsChecked true inputs)
    (hcategories : inputs.metadata.numberOfCategories.head? = some inputs.intervals.length) :
    Ensures Defined (fun _ => True) (prephaseAt inputs fuel) := by
  refine copyDatapoints_ensures.bind ?_
  rintro copy ⟨hsize, rfl⟩
  refine indexes2hornConstraints_ensures.bind fun constraints hconstraints => ?_
  have htry := @tryHorndiniAt_ensures inputs fuel constraints hwf hcategories hconstraints
    fun hne hlast => hchecked.intervals rfl ⟨hcategories, hne, hsize, ⟨constraints, hconstraints⟩,
    hlast⟩
  split
  · trivial
  · trivial
  · rename_i e _ hrun
    rw [hrun] at htry
    exact htry

/-! ## Runs -/

theorem checkInput_ensures (h : inputs.metadata.numberOfCategories = [] →
    inputs.metadata.intNames = []) :
    Ensures Defined (fun _ => inputs.metadata.numberOfCategories.head? =
      some inputs.intervals.length)
      (checkInput inputs) := by
  unfold checkInput
  split_ifs with hnone
  · simp [Ensures, Defined]
  · cases hnumber : inputs.metadata.numberOfCategories with
    | nil => simp [hnumber, h hnumber] at hnone
    | cons n rest =>
      show Ensures _ _ (if n ≠ inputs.intervals.length then _ else _)
      split_ifs with hne
      · simp [Ensures, Defined, throw, throwThe, MonadExceptOf.throw]
      · rw [not_not] at hne
        rw [hne]
        rfl

theorem learnerAccesses_ensures (hwf : inputs.WellFormed) {rest : List ℕ}
    (hnumber : inputs.metadata.numberOfCategories = n :: rest) :
    Ensures Defined (fun _ => True) (learnerAccesses inputs.metadata inputs.datapoints) := by
  have hcategory : ∀ d ∈ inputs.datapoints, Ensures Defined (fun _ => True)
      (access d.categoricalData 0) := by
    intro d hd
    rw [access_eq (List.length_pos_iff.mpr ((hwf.datapoints d hd).category hnumber).1) 0]
    trivial
  have hint : ∀ left ∈ inputs.datapoints, ∀ d ∈ inputs.datapoints,
      ∀ attr ∈ List.range left.intData.length,
      Ensures Defined (fun _ => True) (access d.intData attr) := by
    intro left hleft d hd attr hattr
    rw [List.mem_range, (hwf.datapoints left hleft).int, ← (hwf.datapoints d hd).int] at hattr
    rw [access_eq hattr 0]
    trivial
  unfold learnerAccesses
  split
  · trivial
  · rw [hnumber]
    split_ifs
    · simp [Ensures, Defined]
    · refine Ensures.bind (Q := fun _ => True) trivial fun _ _ => ?_
      refine Ensures.bind (ensures_mapM hcategory) fun _ _ => ?_
      refine Ensures.bind (ensures_mapM (S := fun _ _ => True) fun left hleft => ?_) fun _ _ =>
        trivial
      refine Ensures.imp (ensures_mapM (S := fun _ _ => True) fun d hd => ?_) fun _ _ => trivial
      exact Ensures.imp (ensures_mapM (hint left hleft d hd)) fun _ _ => trivial

/-- No index is out of bounds under the conditions. -/
theorem run_defined {doHorndiniPrephase : Bool} (hwf : inputs.WellFormed)
    (hchecked : InputsChecked doHorndiniPrephase inputs) :
    Ensures Defined (fun _ => True) (run doHorndiniPrephase inputs fuel) := by
  refine (checkInput_ensures hchecked.categorical).bind fun _ hcategories => ?_
  obtain ⟨rest, hnumber⟩ := List.head?_eq_some_iff.mp hcategories
  have hprephase : Ensures Defined (fun _ => True)
      (if doHorndiniPrephase then prephaseAt inputs fuel else .ok none) := by
    split_ifs with hdo
    · subst hdo
      exact prephaseAt_ensures hwf hchecked hcategories
    · trivial
  refine hprephase.bind fun result _ => ?_
  cases result with
  | some tree => trivial
  | none => exact (learnerAccesses_ensures hwf hnumber).bind fun _ _ => trivial

/-! ## Accesses out of bounds -/

theorem copyDatapoints_eq (hsize : datapoints.length < 2 ^ 32) (hfuel : 2 ^ 32 ≤ fuel) :
    copyDatapoints datapoints fuel = .ok datapoints := by
  obtain ⟨copy, hrun, hcopy⟩ := @forBelow_returns 32 Error (List Datapoint) .outOfFuel
    (fun copy i => do
      let d ← access datapoints i
      return copy ++ [d]) datapoints.length (fun i copy => copy = datapoints.take i) hsize (by
      rintro i copy hi rfl
      refine ⟨_, by rw [access_eq hi {}]; rfl, ?_⟩
      rw [List.take_succ_eq_append_getElem hi, List.getD_eq_getElem _ _ hi]) fuel 0 []
        (Nat.zero_le _)
    (by omega) rfl
  rw [copyDatapoints, hrun, hcopy, List.take_length]

/-- The first data point does not have an attribute for which there is a predicate. -/
theorem horndiniPrephaseAt_error (hwf : inputs.WellFormed) (hderives : Derives inputs)
    (hattributes : ¬ ∀ attr ∈ (attributesOf inputs.intervals).take 477218589,
      attr < inputs.metadata.intNames.length) (hfuel : 2 ^ 32 ≤ fuel) :
    horndiniPrephaseAt inputs.metadata inputs.datapoints inputs.hornIndexes inputs.intervals fuel =
      .error .undefinedBehaviour := by
  obtain ⟨d, rest, hdata⟩ := List.exists_cons_of_ne_nil hderives.nonempty
  have hint := (hwf.datapoints d (hdata ▸ List.mem_cons_self)).int
  rw [← reached_iff] at hattributes
  push Not at hattributes
  obtain ⟨j, hj, hlt, hge⟩ := hattributes
  rw [horndiniPrephaseAt, generateDerivedPredicatesAndIntervals_eq (by norm_num) hderives.ends
    hfuel]
  show (generateDerivedDatapoints inputs.datapoints _ fuel >>= _) = _
  rw [generateDerivedDatapoints, hdata, List.mapM_cons,
    generateDerivedDatapointAt_error hlt hj (by omega) hfuel]
  rfl

/-- If a condition fails, some run accesses an element that does not exist. -/
theorem run_undefined {doHorndiniPrephase : Bool} (hwf : inputs.WellFormed)
    (hchecked : ¬ InputsChecked doHorndiniPrephase inputs) :
    ∃ fuel, run doHorndiniPrephase inputs fuel = .error .undefinedBehaviour := by
  by_cases hcategorical : inputs.metadata.numberOfCategories = [] → inputs.metadata.intNames = []
  · -- the attributes in the intervals
    have hattributes : doHorndiniPrephase = true ∧ Derives inputs ∧
        ¬ ∀ attr ∈ (attributesOf inputs.intervals).take 477218589,
        attr < inputs.metadata.intNames.length := by
      by_contra hnot
      exact hchecked ⟨hcategorical, fun hdo hderives => by
        by_contra h
        exact hnot ⟨hdo, hderives, h⟩⟩
    obtain ⟨rfl, hderives, hattributes⟩ := hattributes
    refine ⟨2 ^ 32, ?_⟩
    obtain ⟨rest, hnumber⟩ := List.head?_eq_some_iff.mp hderives.categories
    obtain ⟨constraints, hconstraints⟩ := hderives.horn
    have hcheck : checkInput inputs = .ok () := by
      unfold checkInput
      rw [hnumber, List.length_cons, if_neg (by omega)]
      show (if inputs.intervals.length ≠ inputs.intervals.length then _ else _) = _
      rw [if_neg (by simp)]
      rfl
    have htry : tryHorndiniAt inputs inputs.datapoints constraints (2 ^ 32) =
        .error .undefinedBehaviour := by
      rw [tryHorndiniAt, horndiniPrephaseAt_error hwf hderives hattributes le_rfl]
      rfl
    have hprephase : prephaseAt inputs (2 ^ 32) = .error .undefinedBehaviour := by
      rw [prephaseAt, copyDatapoints_eq hderives.size le_rfl]
      show (indexes2hornConstraints _ _ >>= _) = _
      rw [hconstraints]
      show (match tryHorndiniAt inputs inputs.datapoints constraints (2 ^ 32) with
        | .ok result => _
        | .error (.noConjunctionExistsException _) => _
        | .error e => _) = _
      rw [htry]
      rfl
    rw [run, hcheck, if_pos rfl, hprephase]
    rfl
  · -- there is no categorical attribute
    obtain ⟨hnumber, hint⟩ := Classical.not_imp.mp hcategorical
    refine ⟨0, ?_⟩
    have hcheck : checkInput inputs = .error .undefinedBehaviour := by
      have hpos := List.length_pos_iff.mpr hint
      unfold checkInput
      rw [hnumber, if_neg (by omega)]
      rfl
    rw [run, hcheck]
    rfl

/-- All accesses are within bounds, or the program stops before, iff the conditions hold. -/
theorem safeIndexing_iff (doHorndiniPrephase : Bool) (fileStem : String)
    (attributes data horn intervals : List Char) (inputs : Inputs)
    (hinputs : readInputs fileStem attributes data horn intervals = .ok inputs) :
    SafeIndexing doHorndiniPrephase inputs ↔ InputsChecked doHorndiniPrephase inputs := by
  have hwf := readInputs_ok hinputs
  constructor
  · intro hsafe
    by_contra hnot
    obtain ⟨fuel, hrun⟩ := run_undefined hwf hnot
    exact hsafe fuel hrun
  · intro hchecked fuel hrun
    exact (ensures_iff.mp (run_defined hwf hchecked)).2 _ hrun rfl

/-- Files with one category, one integer attribute and one data point, and the given
    interval. -/
def filesWith (interval : ℕ × ℕ) : Inputs where
  metadata := ⟨[1], ["x"]⟩
  datapoints := [{ categoricalData := [0], intData := [5] }]
  hornIndexes := []
  intervals := [interval]

/-- The interval is the one of the attribute. -/
theorem safeIndexing_iff_attribute :
    readInputs "x" "cat,$func,1\nint,x\n".toList "0,5,?\n".toList [] "0,0\n".toList =
        .ok (filesWith (0, 0)) ∧ SafeIndexing true (filesWith (0, 0)) := by
  have hinputs : readInputs "x" "cat,$func,1\nint,x\n".toList "0,5,?\n".toList [] "0,0\n".toList =
      .ok (filesWith (0, 0)) := by rfl
  refine ⟨hinputs, (safeIndexing_iff true "x" _ _ _ _ _ hinputs).mpr
    ⟨by simp [filesWith], fun _ _ => ?_⟩⟩
  simp [filesWith, attributesOf]

/-- Without a categorical attribute the first access to the number of categories is out of
    bounds; with an interval that is too long the pre-phase accesses a second attribute. -/
theorem indexing_unsafe :
    (∃ inputs, readInputs "x" "int,x\n".toList [] [] [] = .ok inputs ∧
      ∀ doHorndiniPrephase, ¬ SafeIndexing doHorndiniPrephase inputs) ∧
    readInputs "x" "cat,$func,1\nint,x\n".toList "0,5,?\n".toList [] "0,1\n".toList =
      .ok (filesWith (0, 1)) ∧ ¬ SafeIndexing true (filesWith (0, 1)) := by
  refine ⟨⟨⟨⟨[], ["x"]⟩, [], [], []⟩, by rfl, fun doHorndiniPrephase hsafe => ?_⟩,
    by rfl, fun hsafe => ?_⟩
  · exact hsafe 0 rfl
  · have hwf : (filesWith (0, 1)).WellFormed :=
      @readInputs_ok "x" "cat,$func,1\nint,x\n".toList "0,5,?\n".toList [] "0,1\n".toList _ rfl
    obtain ⟨fuel, hrun⟩ := @run_undefined (filesWith (0, 1)) true hwf fun hchecked => by
      have hlt := hchecked.intervals rfl ⟨rfl, by simp [filesWith], by simp [filesWith], ⟨[], rfl⟩,
        by simp [filesWith]⟩ 1 (by simp [filesWith, attributesOf])
      simp [filesWith] at hlt
    exact hsafe fuel hrun

end HiceDt.Main
