import HiceDt.Learner.DecisionTree

/-!
# Horndini

Model of `horndini` (`hice-dt/include/horndini.h`), the Houdini algorithm for Horn
constraints, and of the pre-phase that runs it (`horndini_prephase` in
`hice-dt/src/hice-dt.cpp`, lines 50–97). A conjunction is a list of indices of
derived predicates; there is one for each category.
-/

namespace HiceDt.Horndini

open HiceDt

/-! ## Derived predicates -/

/-- `derived_predicate::type`. -/
inductive PredicateType where
  | ge
  | le
  | eq
deriving DecidableEq, Repr

/-- `derived_predicate`. -/
structure DerivedPredicate where
  index : ℕ
  type : PredicateType
  threshold : ℤ
deriving DecidableEq, Repr

/-- The predicate on a data point (lines 213–236). -/
def DerivedPredicate.holds (p : DerivedPredicate) (d : Datapoint) : Bool :=
  match p.type with
  | .ge => p.threshold ≤ d.int p.index
  | .le => d.int p.index ≤ p.threshold
  | .eq => d.int p.index = p.threshold

/-- The predicates for an attribute (lines 171–180). -/
def attributePredicates (threshold : ℤ) (attr : ℕ) : List DerivedPredicate :=
  (List.range (2 * threshold + 1).toNat).flatMap fun i =>
    [⟨attr, .ge, -threshold + i⟩, ⟨attr, .le, -threshold + i⟩, ⟨attr, .eq, -threshold + i⟩]

/-- The predicates for an interval, given by its first attribute and the one after
    its last attribute. -/
def intervalPredicates (threshold : ℤ) (interval : ℕ × ℕ) : List DerivedPredicate :=
  (List.range' interval.1 (interval.2 - interval.1)).flatMap (attributePredicates threshold)

/-- `generate_derived_predicates_and_intervals` (lines 153–194), the predicates. -/
def generateDerivedPredicates (intervals : List (ℕ × ℕ)) (threshold : ℤ) :
    List DerivedPredicate :=
  intervals.flatMap (intervalPredicates threshold)

/-- The intervals of the derived predicates, as lists of their indices: `right` counts
    the predicates so far. -/
def derivedIntervals (threshold : ℤ) : List (ℕ × ℕ) → ℕ → List (List ℕ)
  | [], _ => []
  | interval :: rest, right =>
    let n := (intervalPredicates threshold interval).length
    List.range' right n :: derivedIntervals threshold rest (right + n)

/-- `generate_derived_datapoints` (lines 206–255). -/
def generateDerivedDatapoint (predicates : List DerivedPredicate) (d : Datapoint) : Datapoint :=
  { categoricalData := d.categoricalData
    isClassified := d.isClassified
    classification := d.classification
    intData := predicates.map fun p => if p.holds d then 1 else 0 }

/-! ## `learn` -/

/-- `satisfies` (lines 422–435). -/
def satisfies (d : Datapoint) (conjunction : List ℕ) : Bool :=
  conjunction.all fun c => d.int c ≠ 0

/-- The conjunction for the category of a data point, after the assertion that it
    exists. -/
def conjunctionOf (conjunctions : List (List ℕ)) (d : Datapoint) : Except Error (List ℕ) :=
  match conjunctions[d.category 0]? with
  | some c => .ok c
  | none => .error .assertionFailure

/-- Knock off the predicates that are false on a positive data point (lines
    301–330). -/
def knockOff (m : Heap) (conjunctions : List (List ℕ)) (x : Ptr) :
    Except Error (List (List ℕ)) := do
  let c ← conjunctionOf conjunctions (m x)
  return conjunctions.set ((m x).category 0) (c.filter fun p => (m x).int p ≠ 0)

/-- Remove the premises that satisfy their conjunction (lines 343–361). -/
def remainingPremises (m : Heap) (conjunctions : List (List ℕ)) :
    List Ptr → Except Error (List Ptr)
  | [] => .ok []
  | x :: rest => do
    let c ← conjunctionOf conjunctions (m x)
    let rest ← remainingPremises m conjunctions rest
    return if satisfies (m x) c then rest else x :: rest

/-- The loop over the Horn constraints (lines 338–383): the constraints that are left,
    and the conclusions of the ones whose premises are all satisfied. -/
def hornPhase (m : Heap) (conjunctions : List (List ℕ)) :
    List HornConstraint → Except Error (List HornConstraint × List Ptr)
  | [] => .ok ([], [])
  | hc :: rest => do
    let premises ← remainingPremises m conjunctions hc.premises
    if premises.isEmpty then
      match hc.conclusion with
      | none => throw (.noConjunctionExistsException "No consistent conjunction exists")
      | some c =>
        let (kept, positive) ← hornPhase m conjunctions rest
        return (kept, c :: positive)
    else
      let (kept, positive) ← hornPhase m conjunctions rest
      return ({ hc with premises := premises } :: kept, positive)

/-- The `do … while` loop (lines 293–385); `fuel` bounds the number of iterations. -/
def learnLoop (m : Heap) : ℕ → List HornConstraint → List (List ℕ) → List Ptr →
    Except Error (List HornConstraint × List (List ℕ))
  | 0, _, _, _ => .error .outOfFuel
  | fuel + 1, hornConstraints, conjunctions, positive => do
    let conjunctions ← positive.foldlM (knockOff m) conjunctions
    let (hornConstraints, positive) ← hornPhase m conjunctions hornConstraints
    if positive.isEmpty then return (hornConstraints, conjunctions)
    else learnLoop m fuel hornConstraints conjunctions positive

/-- `learn` (lines 274–386); it starts with the positive data points. -/
def learn (m : Heap) (datapoints : List Ptr) (hornConstraints : List HornConstraint)
    (conjunctions : List (List ℕ)) (fuel : ℕ) :
    Except Error (List HornConstraint × List (List ℕ)) :=
  learnLoop m fuel hornConstraints conjunctions
    (datapoints.filter fun x => (m x).isClassified && (m x).classification)

/-! ## Trees -/

/-- `conjunction2tree` (lines 448–498). -/
def conjunction2tree (predicates : List DerivedPredicate) : List ℕ → Tree
  | [] => .leaf true
  | c :: rest =>
    let p := predicates.getD c ⟨0, .ge, 0⟩
    match p.type with
    | .ge => .int p.index (p.threshold - 1) (.leaf false) (conjunction2tree predicates rest)
    | .le => .int p.index p.threshold (conjunction2tree predicates rest) (.leaf false)
    | .eq => .int p.index p.threshold
        (.int p.index (p.threshold - 1) (.leaf false) (conjunction2tree predicates rest))
        (.leaf false)

/-- `conjunctions2tree` (lines 398–411). -/
def conjunctions2tree (numberOfCategories : ℕ) (predicates : List DerivedPredicate)
    (conjunctions : List (List ℕ)) : Tree :=
  .categorical 0 numberOfCategories fun i =>
    match conjunctions[i]? with
    | some c => conjunction2tree predicates c
    | none => .null

/-- The checks after `learn` (lines 84–92): every conjunction has predicates of its own
    interval only. -/
def debugChecks (predicates : List DerivedPredicate) (intervals : List (ℕ × ℕ))
    (derived conjunctions : List (List ℕ)) : Bool :=
  (List.range conjunctions.length).all fun i => (conjunctions.getD i []).all fun c =>
    let attr := (predicates.getD c ⟨0, .ge, 0⟩).index
    c ∈ derived.getD i [] ∧ (intervals.getD i (0, 0)).1 ≤ attr ∧ attr < (intervals.getD i (0, 0)).2

/-- `horndini_prephase`; its threshold is 1. -/
def horndiniPrephase (m : Heap) (datapoints : List Ptr) (hornConstraints : List HornConstraint)
    (numberOfCategories : ℕ) (intervals : List (ℕ × ℕ)) (fuel : ℕ) : Except Error Tree := do
  let predicates := generateDerivedPredicates intervals 1
  let derived := derivedIntervals 1 intervals 0
  assert (numberOfCategories = derived.length)
  let (_, conjunctions) ← learn (fun x => generateDerivedDatapoint predicates (m x)) datapoints
    hornConstraints derived fuel
  assert (debugChecks predicates intervals derived conjunctions)
  return conjunctions2tree numberOfCategories predicates conjunctions

end HiceDt.Horndini
