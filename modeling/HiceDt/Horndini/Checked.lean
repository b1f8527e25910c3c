import HiceDt.Horndini.Unsigned
import HiceDt.Learner.Learn

/-!
# Accesses of the pre-phase

The accesses of Horndini to its vectors (`hice-dt/include/horndini.h`, lines 205–386 and
423–435, and `output_visitor.cpp`, lines 27–53), with the case that an index is out of bounds.
`operator[]` does not check it, and the behaviour is undefined then.

Results:

* `generateDerivedDatapointAt_ensures`, `generateDerivedDatapointAt_error`: when the derived
  data points are computed without such an access.
* `learnAt_eq`: the loops of `learn` access only what there is.
* `conjunctions2tree_outputAt`: so does the output of the tree.
-/

namespace HiceDt

/-- `l[i]`. -/
def access {α : Type} (l : List α) (i : ℕ) : Except Error α :=
  match l[i]? with
  | some a => .ok a
  | none => .error .undefinedBehaviour

theorem access_eq {α : Type} {l : List α} {i : ℕ} (h : i < l.length) (default : α) :
    access l i = .ok (l.getD i default) := by
  rw [access, List.getElem?_eq_getElem h, List.getD_eq_getElem _ _ h]

theorem access_error {α : Type} {l : List α} {i : ℕ} (h : l.length ≤ i) :
    access l i = .error .undefinedBehaviour := by
  rw [access, List.getElem?_eq_none h]

/-- The error is one that the program reports, or a loop that does not end. -/
def Defined (e : Error) : Prop := e ≠ .undefinedBehaviour

end HiceDt

namespace HiceDt.Horndini

open HiceDt Loop Machine Learner

/-! ## Derived data points -/

/-- A comparison with `_int_data[_index]` (lines 223–244). -/
def DerivedPredicate.evaluate (p : DerivedPredicate) (d : Datapoint) : Except Error Bool := do
  let value ← access d.intData p.index
  return match p.type with
    | .ge => p.threshold ≤ value
    | .le => value ≤ p.threshold
    | .eq => value = p.threshold

/-- The loop body for a predicate (lines 220–246). -/
def deriveData (predicates : List DerivedPredicate) (d : Datapoint) (boolData : List ℤ) (j : ℕ) :
    Except Error (List ℤ) := do
  let p ← access predicates j
  let b ← p.evaluate d
  return boolData.set j (if b then 1 else 0)

/-- The loop body for a data point (lines 212–258). -/
def generateDerivedDatapointAt (predicates : List DerivedPredicate) (fuel : ℕ) (d : Datapoint) :
    Except Error Datapoint := do
  let boolData ← forBelow 32 .outOfFuel (deriveData predicates d) predicates.length fuel 0
    (List.replicate predicates.length 0)
  return { categoricalData := d.categoricalData
           isClassified := d.isClassified
           classification := d.classification
           intData := boolData }

/-- `generate_derived_datapoints`. -/
def generateDerivedDatapoints (datapoints : List Datapoint) (predicates : List DerivedPredicate)
    (fuel : ℕ) : Except Error (List Datapoint) :=
  datapoints.mapM (generateDerivedDatapointAt predicates fuel)

variable {predicates : List DerivedPredicate} {d : Datapoint} {p : DerivedPredicate} {fuel : ℕ}

theorem DerivedPredicate.evaluate_eq (h : p.index < d.intData.length) :
    p.evaluate d = .ok (p.holds d) := by
  rw [DerivedPredicate.evaluate, access_eq h 0]
  unfold DerivedPredicate.holds Datapoint.int
  cases p.type with
  | ge => rfl
  | le => rfl
  | eq => rfl

theorem DerivedPredicate.evaluate_error (h : d.intData.length ≤ p.index) :
    p.evaluate d = .error .undefinedBehaviour := by
  rw [DerivedPredicate.evaluate, access_error h]
  rfl

/-- The first `i` values are computed. -/
def derivedValues (predicates : List DerivedPredicate) (d : Datapoint) (i : ℕ) : List ℤ :=
  ((predicates.take i).map fun p => if p.holds d then 1 else 0) ++
    List.replicate (predicates.length - i) 0

theorem derivedValues_set {i : ℕ} (hi : i < predicates.length) :
    (derivedValues predicates d i).set i (if (predicateAt predicates i).holds d then 1 else 0) =
      derivedValues predicates d (i + 1) := by
  have hlen : ((predicates.take i).map fun p => if p.holds d then (1 : ℤ) else 0).length = i := by
    rw [List.length_map, List.length_take]
    omega
  have hcount : predicates.length - i = predicates.length - (i + 1) + 1 := by omega
  unfold derivedValues
  rw [List.set_append_right _ _ (by omega), hlen, Nat.sub_self, hcount, List.replicate_succ,
    List.set_cons_zero, List.take_succ_eq_append_getElem hi, List.map_append, predicateAt,
    List.getD_eq_getElem _ _ hi, List.append_assoc]
  rfl

theorem deriveData_eq {s : List ℤ} {i : ℕ} (hi : i < predicates.length) :
    deriveData predicates d s i =
      ((predicateAt predicates i).evaluate d >>= fun b => pure (s.set i (if b then 1 else 0))) := by
  rw [deriveData, access_eq hi ⟨0, .ge, 0⟩]
  rfl

/-- The derived data point, if every predicate that the counter reaches is about an attribute
    of the data point; with too many predicates the loop does not end. -/
theorem generateDerivedDatapointAt_ensures
    (h : ∀ j < 2 ^ 32, j < predicates.length →
      (predicateAt predicates j).index < d.intData.length) :
    Ensures Defined (fun d' => predicates.length < 2 ^ 32 ∧
      d' = generateDerivedDatapoint predicates d)
      (generateDerivedDatapointAt predicates fuel d) := by
  have hloop := @forBelow_ensures 32 Error (List ℤ) .outOfFuel (deriveData predicates d)
    predicates.length Defined
    (fun i s => i ≤ predicates.length ∧ (predicates.length < 2 ^ 32 →
    s = derivedValues predicates d i)) (by simp [Defined]) (by
      rintro i s hi hi' ⟨-, hs⟩
      rw [deriveData_eq hi, DerivedPredicate.evaluate_eq (h i hi' hi)]
      refine ⟨(Nat.mod_le _ _).trans hi, fun hlt => ?_⟩
      rw [Nat.mod_eq_of_lt (by omega), hs hlt]
      exact derivedValues_set hi) fuel 0 (List.replicate predicates.length 0) (by norm_num)
    ⟨Nat.zero_le _, fun _ => rfl⟩
  refine hloop.bind fun boolData ⟨i, hle, hlt, hi, hdata⟩ => ?_
  obtain rfl : i = predicates.length := by omega
  refine ⟨hlt, ?_⟩
  rw [hdata hlt, derivedValues, Nat.sub_self, List.take_length, List.replicate_zero,
    List.append_nil]
  rfl

/-- An attribute that the data point does not have is accessed. -/
theorem generateDerivedDatapointAt_error {j : ℕ} (hj : j < predicates.length) (hj' : j < 2 ^ 32)
    (h : d.intData.length ≤ (predicateAt predicates j).index) (hfuel : 2 ^ 32 ≤ fuel) :
    generateDerivedDatapointAt predicates fuel d = .error .undefinedBehaviour := by
  rw [generateDerivedDatapointAt, forBelow_throws hj hj' (e := .undefinedBehaviour) ?_ ?_
    (Nat.zero_le j) (by omega)]
  · rfl
  · intro s i hi e' herror
    rw [deriveData_eq (by omega)] at herror
    by_cases hin : (predicateAt predicates i).index < d.intData.length
    · rw [DerivedPredicate.evaluate_eq hin] at herror
      cases herror
    · rw [DerivedPredicate.evaluate_error (by omega)] at herror
      exact (Except.error.inj herror).symm
  · intro s
    rw [deriveData_eq hj, DerivedPredicate.evaluate_error h]
    rfl

/-! ## Intervals and conjunctions -/

theorem ended_ensures {α : Type} {result : Option α} {Q : α → Prop}
    (h : ∀ a, result = some a → Q a) : Ensures Defined Q (ended result) := by
  cases result with
  | none => simp [ended, Ensures, Defined]
  | some a => exact h a rfl

theorem assert_ensures (b : Bool) : Ensures Defined (fun _ => b = true) (assert b) := by
  cases b with
  | true => rfl
  | false => simp [assert, Ensures, Defined]

theorem generateDerivedPredicatesAndIntervals_ensures {threshold : ℤ} {intervals : List (ℕ × ℕ)}
    (hfirst : ∀ interval ∈ intervals, interval.1 < 2 ^ 32) :
    Ensures Defined (fun r => (∀ interval ∈ intervals, interval.2 + 1 < 2 ^ 32) ∧
        r.1 = generateDerivedPredicates (intervals.map halfOpen) threshold ∧
        r.2 = unsignedIntervals threshold intervals 0)
      (generateDerivedPredicatesAndIntervals intervals threshold fuel) := by
  rw [ensures_iff]
  refine ⟨fun r hrun => generateDerivedPredicatesAndIntervals_ok hfirst hrun, ?_⟩
  have hthrows : Ensures Defined (fun _ => True)
      (generateDerivedPredicatesAndIntervals intervals threshold fuel) := by
    refine (assert_ensures _).bind fun _ _ => Ensures.bind (Q := fun _ => True) ?_ fun _ _ =>
      trivial
    refine ensures_foldlM (fun s interval _ _ => ?_) trivial
    exact Ensures.bind (ended_ensures fun _ _ => trivial) fun _ _ => trivial
  exact (ensures_iff.mp hthrows).2

theorem initialConjunctions_ensures {threshold : ℤ} {intervals : List (ℕ × ℕ)} :
    Ensures Defined (fun conjunctions =>
        conjunctions.length = (unsignedIntervals threshold intervals 0).length ∧
        ((generateDerivedPredicates (intervals.map halfOpen) threshold).length < 2 ^ 32 →
          conjunctions = derivedIntervals threshold (intervals.map halfOpen) 0))
      (initialConjunctions fuel (unsignedIntervals threshold intervals 0)) := by
  rw [ensures_iff]
  refine ⟨fun conjunctions hrun => ⟨(mapM_ok hrun).length_eq.symm, fun hbound => ?_⟩, ?_⟩
  · exact initialConjunctions_ok (by rwa [Nat.zero_add]) hrun
  · have hthrows : Ensures Defined (List.Forall₂ (fun _ _ => True)
      (unsignedIntervals threshold intervals 0))
        (initialConjunctions fuel (unsignedIntervals threshold intervals 0)) :=
      ensures_mapM fun _ _ => ended_ensures fun _ _ => trivial
    exact (ensures_iff.mp hthrows).2

/-! ## `learn` -/

/-- The category of a data point and its conjunction (lines 308–312 and 347–351). -/
def conjunctionAt (conjunctions : List (List ℕ)) (d : Datapoint) : Except Error (ℕ × List ℕ) := do
  let curFunction ← access d.categoricalData 0
  assert (curFunction < conjunctions.length)
  let conjunction ← access conjunctions curFunction
  return (curFunction, conjunction)

/-- The loop over the predicates of a conjunction (lines 312–327). -/
def knockOffLoop (d : Datapoint) : List ℕ → Except Error (List ℕ)
  | [] => .ok []
  | c :: rest => do
    let value ← access d.intData c
    let rest ← knockOffLoop d rest
    return if value ≠ 0 then c :: rest else rest

/-- The loop body for a positive data point (lines 304–329). -/
def knockOffAt (m : Heap) (conjunctions : List (List ℕ)) (x : Ptr) : Except Error (List (List ℕ)) :=
    do
  let (curFunction, conjunction) ← conjunctionAt conjunctions (m x)
  let conjunction ← knockOffLoop (m x) conjunction
  return conjunctions.set curFunction conjunction

/-- `satisfies` (lines 423–435). -/
def satisfiesAt (d : Datapoint) : List ℕ → Except Error Bool
  | [] => .ok true
  | c :: rest => do
    let value ← access d.intData c
    if value = 0 then return false else satisfiesAt d rest

/-- The loop over the premises of a constraint (lines 343–360). -/
def remainingPremisesAt (m : Heap) (conjunctions : List (List ℕ)) : List Ptr →
    Except Error (List Ptr)
  | [] => .ok []
  | x :: rest => do
    let (_, conjunction) ← conjunctionAt conjunctions (m x)
    let satisfied ← satisfiesAt (m x) conjunction
    let rest ← remainingPremisesAt m conjunctions rest
    return if satisfied then rest else x :: rest

/-- The loop over the Horn constraints (lines 338–382). -/
def hornPhaseAt (m : Heap) (conjunctions : List (List ℕ)) :
    List HornConstraint → Except Error (List HornConstraint × List Ptr)
  | [] => .ok ([], [])
  | hc :: rest => do
    let premises ← remainingPremisesAt m conjunctions hc.premises
    if premises.isEmpty then
      match hc.conclusion with
      | none => throw (.noConjunctionExistsException "No consistent conjunction exists")
      | some c =>
        let (kept, positive) ← hornPhaseAt m conjunctions rest
        return (kept, c :: positive)
    else
      let (kept, positive) ← hornPhaseAt m conjunctions rest
      return ({ hc with premises := premises } :: kept, positive)

/-- The `do … while` loop (lines 294–384). -/
def learnLoopAt (m : Heap) : ℕ → List HornConstraint → List (List ℕ) → List Ptr →
    Except Error (List HornConstraint × List (List ℕ))
  | 0, _, _, _ => .error .outOfFuel
  | fuel + 1, hornConstraints, conjunctions, positive => do
    let conjunctions ← positive.foldlM (knockOffAt m) conjunctions
    let (hornConstraints, positive) ← hornPhaseAt m conjunctions hornConstraints
    if positive.isEmpty then return (hornConstraints, conjunctions)
    else learnLoopAt m fuel hornConstraints conjunctions positive

/-- `learn`. -/
def learnAt (m : Heap) (datapoints : List Ptr) (hornConstraints : List HornConstraint)
    (conjunctions : List (List ℕ)) (fuel : ℕ) :
    Except Error (List HornConstraint × List (List ℕ)) :=
  learnLoopAt m fuel hornConstraints conjunctions
    (datapoints.filter fun x => (m x).isClassified && (m x).classification)

/-- Every data point has a category with a conjunction, and the values of all predicates. -/
structure Indexable (m : Heap) (D : List Ptr) (X : List (List ℕ)) : Prop where
  categorical : ∀ x ∈ D, (m x).categoricalData ≠ []
  category : ∀ x ∈ D, (m x).category 0 < X.length
  values : ∀ x ∈ D, ∀ i, ∀ c ∈ X.getD i [], c < (m x).intData.length

variable {m : Heap} {D : List Ptr} {X init : List (List ℕ)} {hcs : List HornConstraint} {x : Ptr}

theorem Indexable.sub (h : Indexable m D init) (hsub : Sub X init) : Indexable m D X :=
  ⟨h.categorical, fun x hx => hsub.length_eq ▸ h.category x hx,
    fun x hx i c hc => h.values x hx i c ((hsub.getD i).subset hc)⟩

theorem conjunctionAt_eq (h : Indexable m D X) (hx : x ∈ D) :
    conjunctionAt X (m x) = .ok ((m x).category 0, X.getD ((m x).category 0) []) := by
  have hlt := h.category x hx
  have hcategory : access (m x).categoricalData 0 = .ok ((m x).category 0) :=
    access_eq (List.length_pos_iff.mpr (h.categorical x hx)) 0
  simp only [conjunctionAt, hcategory, bind, Except.bind, hlt, decide_true, assert_true,
    access_eq hlt []]
  rfl

theorem knockOffLoop_eq {conjunction : List ℕ} (h : ∀ c ∈ conjunction, c < d.intData.length) :
    knockOffLoop d conjunction = .ok (conjunction.filter fun c => d.int c ≠ 0) := by
  induction conjunction with
  | nil => rfl
  | cons c rest ih =>
    rw [knockOffLoop, access_eq (h c List.mem_cons_self) 0,
      ih fun c' hc' => h c' (List.mem_cons_of_mem _ hc'), List.filter_cons]
    simp only [bind, Except.bind, decide_eq_true_eq]
    rfl

theorem knockOffAt_eq (h : Indexable m D X) (hx : x ∈ D) : knockOffAt m X x = knockOff m X x := by
  rw [knockOffAt, conjunctionAt_eq h hx, knockOff, conjunctionOf_eq (h.category x hx)]
  simp only [bind, Except.bind, knockOffLoop_eq (h.values x hx _)]

theorem foldlM_knockOffAt_eq {positive : List Ptr} (h : Indexable m D X)
    (hpos : ∀ x ∈ positive, x ∈ D) :
    positive.foldlM (knockOffAt m) X = positive.foldlM (knockOff m) X := by
  induction positive generalizing X with
  | nil => rfl
  | cons x positive ih =>
    have hx := hpos x List.mem_cons_self
    obtain ⟨X', hknock, -, hsub, -⟩ := knockOff_spec (h.category x hx)
    rw [List.foldlM_cons, List.foldlM_cons, knockOffAt_eq h hx, hknock]
    exact ih (h.sub hsub) fun y hy => hpos y (List.mem_cons_of_mem _ hy)

theorem satisfiesAt_eq {conjunction : List ℕ} (h : ∀ c ∈ conjunction, c < d.intData.length) :
    satisfiesAt d conjunction = .ok (satisfies d conjunction) := by
  induction conjunction with
  | nil => rfl
  | cons c rest ih =>
    have hrest := ih fun c' hc' => h c' (List.mem_cons_of_mem _ hc')
    have hvalue : access d.intData c = .ok (d.int c) := access_eq (h c List.mem_cons_self) 0
    rw [satisfiesAt, hvalue]
    simp only [bind, Except.bind, hrest, satisfies, List.all_cons]
    by_cases hzero : d.int c = 0
    · simp [hzero]
      rfl
    · simp [hzero]

theorem remainingPremisesAt_eq {premises : List Ptr} (h : Indexable m D X)
    (hprem : ∀ x ∈ premises, x ∈ D) :
    remainingPremisesAt m X premises = remainingPremises m X premises := by
  induction premises with
  | nil => rfl
  | cons x premises ih =>
    have hx := hprem x List.mem_cons_self
    rw [remainingPremisesAt, conjunctionAt_eq h hx, remainingPremises,
      conjunctionOf_eq (h.category x hx)]
    simp only [bind, Except.bind, satisfiesAt_eq (h.values x hx _),
      ih fun y hy => hprem y (List.mem_cons_of_mem _ hy)]

theorem hornPhaseAt_eq (h : Indexable m D X) (hprem : ∀ hc ∈ hcs, ∀ x ∈ hc.premises, x ∈ D) :
    hornPhaseAt m X hcs = hornPhase m X hcs := by
  induction hcs with
  | nil => rfl
  | cons hc hcs ih =>
    rw [hornPhaseAt, remainingPremisesAt_eq h (hprem hc List.mem_cons_self),
      ih fun hc' hhc' => hprem hc' (List.mem_cons_of_mem _ hhc')]
    rfl

/-- The loop accesses only what there is. -/
theorem learnLoopAt_eq (hok : SampleOk m D hcs init) (h : Indexable m D init) (fuel : ℕ) :
    ∀ (hcs' : List HornConstraint) (X : List (List ℕ)) (positive : List Ptr),
      LoopInv m D hcs init hcs' X positive →
        learnLoopAt m fuel hcs' X positive = learnLoop m fuel hcs' X positive := by
  induction fuel with
  | zero => exact fun _ _ _ _ => rfl
  | succ fuel ih =>
    intro hcs' X positive hinv
    obtain ⟨X', hknock, hinv'⟩ := hinv.knockOff hok
    have hprem : ∀ hc ∈ hcs', ∀ x ∈ hc.premises, x ∈ D := by
      intro hc hhc x hx
      obtain ⟨hc₀, hhc₀, hred⟩ := hinv.origin hc hhc
      exact hok.premises hc₀ hhc₀ x (hred.subset hx)
    rw [learnLoopAt, learnLoop, foldlM_knockOffAt_eq (h.sub hinv.sub) hinv.positive_mem, hknock]
    simp only [bind, Except.bind, hornPhaseAt_eq (h.sub hinv'.sub) hprem]
    rcases hinv'.hornPhase hok with ⟨herr, -⟩ | ⟨kept, positive', hrun, -, hinv'', -⟩
    · rw [herr]
    · simp only [hrun, ih _ _ _ hinv'']

/-- `learn` accesses only what there is. -/
theorem learnAt_eq (hok : SampleOk m D hcs init) (h : Indexable m D init) (fuel : ℕ) :
    learnAt m D hcs init fuel = learn m D hcs init fuel :=
  learnLoopAt_eq hok h fuel _ _ _ (.start m D hcs init)

/-- The outcome of the loop, whatever the bound on the iterations. -/
theorem learnLoop_ensures (hok : SampleOk m D hcs init) (fuel : ℕ) :
    ∀ (hcs' : List HornConstraint) (X : List (List ℕ)) (positive : List Ptr),
      LoopInv m D hcs init hcs' X positive →
        Ensures Defined (fun r => Sub r.2 init) (learnLoop m fuel hcs' X positive) := by
  induction fuel with
  | zero => exact fun _ _ _ _ => by simp [learnLoop, Ensures, Defined]
  | succ fuel ih =>
    intro hcs' X positive hinv
    obtain ⟨X', hknock, hinv'⟩ := hinv.knockOff hok
    rw [learnLoop, hknock]
    rcases hinv'.hornPhase hok with ⟨herr, -⟩ | ⟨kept, positive', hrun, -, hinv'', -⟩
    · simp only [bind, Except.bind, herr]
      simp [Ensures, Defined]
    · simp only [bind, Except.bind, hrun]
      split_ifs
      · exact hinv''.sub
      · exact ih _ _ _ hinv''

/-! ## Trees -/

/-- `output_visitor::output` with the accesses to the data point. -/
def outputAt : Tree → Datapoint → Except Error Bool
  | .null, _ => .error .undefinedBehaviour
  | .leaf b, _ => .ok b
  | .int attr threshold left right, d => do
    let value ← access d.intData attr
    if value ≤ threshold then outputAt left d else outputAt right d
  | .categorical attr n children, d => do
    let value ← access d.categoricalData attr
    if value < n then
      if (children value).isNull then
        .error (.internalError "No child for categorical value in the tree")
      else outputAt (children value) d
    else .error .undefinedBehaviour

/-- A tree over attributes of the data point. -/
theorem outputAt_eq {tree : Tree} (hint : tree.isIntTree = true)
    (h : tree.Thresholds fun attr _ => attr < d.intData.length) :
    outputAt tree d = tree.output d := by
  induction tree with
  | null => rfl
  | leaf b => rfl
  | int attr threshold left right ihl ihr =>
    rw [Tree.isIntTree, Bool.and_eq_true] at hint
    obtain ⟨hattr, hleft, hright⟩ := h
    have hvalue : access d.intData attr = .ok (d.int attr) := access_eq hattr 0
    rw [outputAt, Tree.output, hvalue, ihl hint.1 hleft, ihr hint.2 hright]
    rfl
  | categorical attr n children ih => cases hint

/-- The tree of the pre-phase accesses only what there is. -/
theorem conjunctions2tree_outputAt (n : ℕ) (hcategorical : d.categoricalData ≠ [])
    (hcat : d.category 0 < X.length) (h : ∀ i, ∀ c ∈ X.getD i [],
      (predicateAt predicates c).index < d.intData.length) :
    outputAt (conjunctions2tree n predicates X) d = (conjunctions2tree n predicates X).output
      d := by
  have hvalue : access d.categoricalData 0 = .ok (d.category 0) :=
    access_eq (List.length_pos_iff.mpr hcategorical) 0
  rw [conjunctions2tree, outputAt, Tree.output, hvalue]
  simp only [bind, Except.bind, List.getElem?_eq_getElem hcat]
  rw [outputAt_eq (conjunction2tree_isIntTree _ _)]
  rw [conjunction2tree_thresholds]
  intro c hc
  rw [← List.getD_eq_getElem X [] hcat] at hc
  exact ⟨fun _ => h _ c hc, fun _ => h _ c hc⟩

/-! ## `is_consistent` -/

/-- The loop over the premises of a constraint. -/
def premisesHoldAt (tree : Tree) (m : Heap) : List Ptr → Except Error Bool
  | [] => .ok true
  | p :: rest => do
    if ← outputAt tree (m p) then premisesHoldAt tree m rest else return false

/-- One constraint, with the accesses to the data points. -/
def constraintHoldsAt (tree : Tree) (m : Heap) (hc : HornConstraint) : Except Error Bool := do
  if ← premisesHoldAt tree m hc.premises then
    match hc.conclusion with
    | none => return false
    | some c => outputAt tree (m c)
  else return true

/-- The label of one data point, if it has one. -/
def labelHoldsAt (tree : Tree) (m : Heap) (x : Ptr) : Except Error Bool :=
  if (m x).isClassified then do
    return (← outputAt tree (m x)) == (m x).classification
  else .ok true

/-- `learner::is_consistent` with the accesses to the data points. -/
def isConsistentAt (tree : Tree) (datapointPtrs : List Ptr) (hornConstraints : List HornConstraint)
    (m : Heap) : Except Error Bool :=
  if tree.isNull then .ok false
  else do
    if ← checkAll (labelHoldsAt tree m) datapointPtrs then
      checkAll (constraintHoldsAt tree m) hornConstraints
    else return false

theorem checkAll_congr {β : Type} {body body' : β → Except Error Bool} {l : List β}
    (h : ∀ x ∈ l, body x = body' x) : checkAll body l = checkAll body' l := by
  induction l with
  | nil => rfl
  | cons x l ih =>
    rw [checkAll, checkAll, h x List.mem_cons_self, ih fun y hy => h y (List.mem_cons_of_mem _ hy)]

variable {tree : Tree}

theorem premisesHoldAt_eq {premises : List Ptr}
    (h : ∀ x ∈ premises, outputAt tree (m x) = tree.output (m x)) :
    premisesHoldAt tree m premises = premisesHold tree m premises := by
  induction premises with
  | nil => rfl
  | cons x premises ih =>
    rw [premisesHoldAt, premisesHold, h x List.mem_cons_self,
      ih fun y hy => h y (List.mem_cons_of_mem _ hy)]

/-- `is_consistent` accesses only what there is if the tree does. -/
theorem isConsistentAt_eq (hprem : ∀ hc ∈ hcs, ∀ x ∈ hc.premises, x ∈ D)
    (hconc : ∀ hc ∈ hcs, ∀ c, hc.conclusion = some c → c ∈ D)
    (h : ∀ x ∈ D, outputAt tree (m x) = tree.output (m x)) :
    isConsistentAt tree D hcs m = isConsistent tree D hcs m := by
  have hlabels : checkAll (labelHoldsAt tree m) D = checkAll (labelHolds tree m) D := by
    refine checkAll_congr fun x hx => ?_
    rw [labelHoldsAt, labelHolds, h x hx]
  have hconstraints : checkAll (constraintHoldsAt tree m) hcs = checkAll (constraintHolds tree m)
      hcs := by
    refine checkAll_congr fun hc hhc => ?_
    rw [constraintHoldsAt, constraintHolds, premisesHoldAt_eq fun x hx => h x (hprem hc hhc x hx)]
    cases hconclusion : hc.conclusion with
    | none => rfl
    | some c => simp only [h c (hconc hc hhc c hconclusion)]
  rw [isConsistentAt, isConsistent, hlabels, hconstraints]

theorem checkAll_ensures {β : Type} {body : β → Except Error Bool} {l : List β}
    (h : ∀ x ∈ l, Ensures Defined (fun _ => True) (body x)) :
    Ensures Defined (fun _ => True) (checkAll body l) := by
  induction l with
  | nil => trivial
  | cons x l ih =>
    rw [checkAll]
    refine (h x List.mem_cons_self).bind fun b _ => ?_
    cases b with
    | true => exact ih fun y hy => h y (List.mem_cons_of_mem _ hy)
    | false => trivial

/-- `is_consistent` has a result if the tree has one for every data point. -/
theorem isConsistent_ensures (hprem : ∀ hc ∈ hcs, ∀ x ∈ hc.premises, x ∈ D)
    (hconc : ∀ hc ∈ hcs, ∀ c, hc.conclusion = some c → c ∈ D)
    (h : ∀ x ∈ D, Ensures Defined (fun _ => True) (tree.output (m x))) :
    Ensures Defined (fun _ => True) (isConsistent tree D hcs m) := by
  have hpremises : ∀ premises : List Ptr, (∀ x ∈ premises, x ∈ D) →
      Ensures Defined (fun _ => True) (premisesHold tree m premises) := by
    intro premises hmem
    induction premises with
    | nil => trivial
    | cons x premises ih =>
      rw [premisesHold]
      refine (h x (hmem x List.mem_cons_self)).bind fun b _ => ?_
      cases b with
      | true => exact ih fun y hy => hmem y (List.mem_cons_of_mem _ hy)
      | false => trivial
  have hlabels : Ensures Defined (fun _ => True) (checkAll (labelHolds tree m) D) := by
    refine checkAll_ensures fun x hx => ?_
    unfold labelHolds
    split_ifs
    · exact (h x hx).bind fun _ _ => trivial
    · trivial
  have hconstraints : Ensures Defined (fun _ => True) (checkAll (constraintHolds tree m) hcs) := by
    refine checkAll_ensures fun hc hhc => ?_
    refine (hpremises hc.premises (hprem hc hhc)).bind fun b _ => ?_
    cases b with
    | false => trivial
    | true =>
      cases hconclusion : hc.conclusion with
      | none => trivial
      | some c => exact h c (hconc hc hhc c hconclusion)
  unfold isConsistent
  split_ifs
  · trivial
  · refine hlabels.bind fun b _ => ?_
    cases b with
    | true => exact hconstraints
    | false => trivial

end HiceDt.Horndini
