import HiceDt.Learner.Learn

/-!
# The bound loop

Model of the part of `main` that runs the decision tree learner
(`hice-dt/src/hice-dt.cpp`, lines 287–463) with the class `bound`
(`hice-dt/include/bound.h`) and the constraints for points that a bounded tree
cannot separate (`datapoint::is_distinguishable` in `hice-dt/src/datapoint.cpp`
and `boogie_io::get_indistinguishable_datapoints` in `hice-dt/src/boogie_io.cpp`).
-/

namespace HiceDt.Learner

open HiceDt

/-! ## Indistinguishable points -/

/-- Two values of an integer attribute can be separated by a cut whose absolute
    value is at most the threshold (`datapoint.cpp`, lines 86–119). -/
def valuesDistinguishable (a b threshold : ℤ) : Bool :=
  if a = b then false
  else
    let val1 := if a < b then a else b
    let val2 := if a < b then b else a
    if val1 ≤ 0 ∧ val2 > 0 then true
    else if val2 ≤ 0 then -1 * (val2 - 1) ≤ threshold
    else if val1 > 0 then val1 ≤ threshold
    else false

/-- `datapoint::is_distinguishable` (`datapoint.cpp`, lines 64–122). -/
def isDistinguishable (d other : Datapoint) (threshold : ℤ) : Except Error Bool := do
  assert (d.categoricalData.length = other.categoricalData.length)
  if (d.categoricalData.zip other.categoricalData).any fun p => p.1 ≠ p.2 then return true
  else
    assert (d.intData.length = other.intData.length)
    return (d.intData.zip other.intData).any fun p => valuesDistinguishable p.1 p.2 threshold

/-- The inner loop of `get_indistinguishable_datapoints`: the constraints for point
    `x` and the points after it. -/
def indistinguishableFrom (m : Heap) (threshold : ℤ) (x : Ptr) :
    List Ptr → Except Error (List HornConstraint)
  | [] => .ok []
  | y :: rest => do
    let distinguishable ← isDistinguishable (m x) (m y) threshold
    let hcs ← indistinguishableFrom m threshold x rest
    if distinguishable then return hcs
    else return ⟨[x], some y, false⟩ :: ⟨[y], some x, false⟩ :: hcs

/-- `boogie_io::get_indistinguishable_datapoints` (`boogie_io.cpp`, lines
    519–551). -/
def getIndistinguishableDatapoints (m : Heap) (threshold : ℤ) :
    List Ptr → Except Error (List HornConstraint)
  | [] => .ok []
  | x :: rest => do
    let hcs ← indistinguishableFrom m threshold x rest
    let hcs' ← getIndistinguishableDatapoints m threshold rest
    return hcs ++ hcs'

/-! ## Bounds -/

/-- `bound<>` (`bound.h`); `useBoundFlag` is `_use_bound`. -/
structure Bound where
  bound : ℤ
  useBoundFlag : Bool
deriving DecidableEq, Repr

/-- The template argument `MAX_BOUND`. -/
def maxBound : ℤ := 20

/-- `use_bound`. -/
def Bound.useBound (b : Bound) : Bool := b.useBoundFlag && b.bound ≤ maxBound

/-- `increase_bound`. -/
def Bound.increase (b : Bound) : Bound := { b with bound := b.bound * 2 }

/-- The threshold that an attempt uses. -/
def Bound.threshold (b : Bound) : Option ℤ := if b.useBound then some b.bound else none

/-! ## One attempt -/

variable {F : Type} [Score F]

/-- The initial run of the solver, and the labels it yields (lines 364–395). -/
def initialRun (env : Environment) (cfg : Settings) (s : LearnerState F) :
    Except Error (LearnerState F) := do
  let (ok, s) ← s.solve env cfg [] []
  if ok then
    let m := applyLabels s.solver.mem (env.ord.points s.solver.clock s.solver.positive) true
    let m := applyLabels m (env.ord.points (s.solver.clock + 1) s.solver.negative) false
    return { s with solver := { s.solver with mem := m, clock := s.solver.clock + 2 } }
  else throw (.sampleError "No consistent decision tree exists (Horn clauses are contradictory)")

/-- What `main` reads from the input files: the data points, given by pointers to
    them and the memory, the Horn constraints, and the number of categories of each
    categorical attribute. -/
structure Sample where
  mem : Heap
  datapoints : List Ptr
  hornConstraints : List HornConstraint
  numberOfCategories : List ℕ

/-- The arguments of the job manager; `hcs` are the constraints for the bound. -/
def Sample.settings (sample : Sample) (hcs : List HornConstraint) (threshold : Option ℤ) :
    Settings :=
  { hornConstraints := sample.hornConstraints ++ hcs
    numberOfCategories := sample.numberOfCategories
    threshold := threshold
    nodeSelection := .bfs
    entropyComputation := .penalty
    conjunctiveSetting := .noPreferenceForConjuncts }

/-- The constraints for the bound, if there is one (lines 348–360). -/
def Sample.boundConstraints (sample : Sample) (threshold : Option ℤ) :
    Except Error (List HornConstraint) :=
  match threshold with
  | some t => getIndistinguishableDatapoints sample.mem t sample.datapoints
  | none => .ok []

/-- The state of a new learner on a copy of the data points. -/
def Sample.fresh (sample : Sample) : LearnerState F :=
  { solver := { mem := sample.mem }, datapointPtrs := sample.datapoints }

/-- The body of the `try` block (lines 318–428): every attempt works on a copy of the
    data points. `steps` bounds the iterations of the learning loop. -/
def attempt (F : Type) [Score F] (env : Environment) (sample : Sample) (steps : ℕ)
    (threshold : Option ℤ) : Except Error Tree := do
  let hcs ← sample.boundConstraints threshold
  let cfg := sample.settings hcs threshold
  let s : LearnerState F ← initialRun env cfg sample.fresh
  let (tree, s) ← learn env cfg steps s
  assert (← isConsistent tree s.datapointPtrs cfg.hornConstraints s.solver.mem)
  return tree

/-- The `do … while` loop (lines 309–463); `fuel` bounds the number of attempts. The
    platform may behave differently in each of them. -/
def boundLoop (F : Type) [Score F] (env : ℕ → Environment) (sample : Sample) (steps : ℕ) :
    ℕ → Bound → Except Error Tree
  | 0, _ => .error .outOfFuel
  | fuel + 1, b =>
    match attempt F (env fuel) sample steps b.threshold with
    | .ok tree => .ok tree
    | .error (.sampleError what) =>
      if b.useBound then boundLoop F env sample steps fuel b.increase
      else .error (.sampleError what)
    | .error (.splitNotPossibleError what) =>
      if b.useBound then boundLoop F env sample steps fuel b.increase
      else .error (.splitNotPossibleError what)
    | .error e => .error e

end HiceDt.Learner
