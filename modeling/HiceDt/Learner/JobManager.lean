import HiceDt.Lib.Machine
import HiceDt.Learner.DecisionTree
import HiceDt.Solver.HornSolver

/-!
# The job manager

Model of `complex_job_manager` (`hice-dt/include/simple_job_manager.h`) and of the
methods it inherits from `simple_job_manager`.

What the language or the platform leaves open is a parameter. The scores of the
split heuristic are computed in a type `F` with the operations of `double` and no
laws; `std::sort` returns some sorted permutation; `rand()` is a stream of
numbers. All results about the learner that do not mention these parameters hold
for every choice of them.
-/

namespace HiceDt.Learner

open HiceDt Machine

/-! ## Parameters -/

/-- The operations on `double` that the heuristics use. -/
class Score (F : Type) where
  ofInt : ℤ → F
  add : F → F → F
  sub : F → F → F
  mul : F → F → F
  div : F → F → F
  neg : F → F
  log2 : F → F
  toFloat : F → F
  lt : F → F → Bool
  le : F → F → Bool
  eq : F → F → Bool

open Score

/-- What the platform decides: the order of unordered sets, the result of the
    `n`-th call of `std::sort` for a key, and the `n`-th value of `rand()`. -/
structure Environment where
  ord : HashOrder
  sort : ℕ → (Ptr → ℤ) → List Ptr → List Ptr
  rand : ℕ → ℕ
  sort_perm : ∀ n key l, (sort n key l).Perm l
  sort_sorted : ∀ n key l, (sort n key l).Pairwise fun a b => key a ≤ key b

/-- `NodeSelection`. -/
inductive NodeSelection where
  | bfs | dfs | random | maxEntropy | maxWeightedEntropy | minEntropy | minWeightedEntropy
deriving DecidableEq, Repr

/-- `ConjunctiveSetting`. -/
inductive ConjunctiveSetting where
  | noPreferenceForConjuncts | preferenceForConjuncts
deriving DecidableEq, Repr

/-- `EntropyComputation`. -/
inductive EntropyComputation where
  | defaultEntropy | penalty | hornAssignments
deriving DecidableEq, Repr

/-- The arguments of the constructor of `complex_job_manager` and the meta data of
    the categorical attributes. `threshold` is `_threshold` if
    `_are_numerical_cuts_thresholded`. -/
structure Settings where
  hornConstraints : List HornConstraint
  numberOfCategories : List ℕ
  threshold : Option ℤ := none
  nodeSelection : NodeSelection := .bfs
  entropyComputation : EntropyComputation := .penalty
  conjunctiveSetting : ConjunctiveSetting := .noPreferenceForConjuncts

/-! ## State -/

/-- `slice` (`slice.h`); `node` is the path to the slot `_node_ptr` points to. -/
structure Slice where
  leftIndex : ℕ
  rightIndex : ℕ
  node : List ℕ
deriving DecidableEq, Repr

/-- The jobs of `job.h`. -/
inductive Job where
  | categoricalSplit (slice : Slice) (attr : ℕ)
  | intSplit (slice : Slice) (attr : ℕ) (threshold : ℤ)
  | leafCreation (slice : Slice) (label : Bool) (positive negative : List Ptr)

/-- The state of `learner::learn` and of its job manager: the solver (with the
    heap), the vector of data points, the tree built so far and the pending
    slices; `sorts` and `rands` count the calls of `std::sort` and `rand`. -/
structure LearnerState (F : Type) where
  solver : Solver.SolverState
  datapointPtrs : List Ptr
  tree : Tree := .null
  slices : List Slice := []
  isFirstSplit : Bool := true
  datapointPtrsToFrac : Ptr → Option F := fun _ => none
  sorts : ℕ := 0
  rands : ℕ := 0

variable {F : Type} [Score F]

namespace LearnerState

/-- `_datapoint_ptrs[i]`. -/
def ptr (s : LearnerState F) (i : ℕ) : Ptr := s.datapointPtrs.getD i .falseDatapoint

/-- `*_datapoint_ptrs[i]`. -/
def point (s : LearnerState F) (i : ℕ) : Datapoint := s.solver.mem (s.ptr i)

/-- `std::sort` on the data points of a slice. -/
def sortSlice (env : Environment) (key : Datapoint → ℤ) (sl : Slice) (s : LearnerState F) :
    LearnerState F :=
  { s with
    datapointPtrs := s.datapointPtrs.take sl.leftIndex ++
      (env.sort s.sorts (fun x => key (s.solver.mem x))
        ((s.datapointPtrs.drop sl.leftIndex).take (sl.rightIndex + 1 - sl.leftIndex)) ++
        s.datapointPtrs.drop (sl.rightIndex + 1))
    sorts := s.sorts + 1 }

/-- The next value of `rand()`. -/
def nextRand (env : Environment) (s : LearnerState F) : ℕ × LearnerState F :=
  (env.rand s.rands, { s with rands := s.rands + 1 })

/-- `_horn_solver.solve(_datapoint_ptrs, _horn_constraints, positive, negative)`. The
    sets that it leaves are members of the returned solver state. -/
def solve (env : Environment) (cfg : Settings) (positive negative : List Ptr)
    (s : LearnerState F) : Except Error (Bool × LearnerState F) :=
  match Solver.solve env.ord
      (Solver.solveFuel s.datapointPtrs cfg.hornConstraints positive negative)
      s.datapointPtrs cfg.hornConstraints positive negative s.solver with
  | none => .error .outOfFuel
  | some (ok, st) => .ok (ok, { s with solver := st })

end LearnerState

/-- The indexes `left, …, right`. -/
def indices (left right : ℕ) : List ℕ := List.range' left (right + 1 - left)

/-! ## `is_leaf` -/

/-- The variables of the first loop of `is_leaf`. -/
structure Found where
  foundTrue : Bool := false
  foundFalse : Bool := false
  foundUnlabeled : Bool := false
  indexOfFirstUnlabeled : ℕ := 0
  indexOfLastUnlabeled : ℕ := 0

/-- The body of that loop (lines 284–313). -/
def Found.see (f : Found) (d : Datapoint) (i : ℕ) : Found :=
  if d.isClassified then
    if d.classification then { f with foundTrue := true } else { f with foundFalse := true }
  else if f.foundUnlabeled then { f with indexOfLastUnlabeled := i }
  else { f with foundUnlabeled := true, indexOfFirstUnlabeled := i, indexOfLastUnlabeled := i }

/-- The first loop of `is_leaf`; it is left when both labels have been found. -/
def scanLabels (s : LearnerState F) : List ℕ → Found → Found
  | [], f => f
  | i :: rest, f =>
    let f := f.see (s.point i) i
    if f.foundTrue && f.foundFalse then f else scanLabels s rest f

/-- The unlabelled points among the indexes `left, …, right`, as a set. -/
def unlabeledPtrs (s : LearnerState F) (left right : ℕ) : List Ptr :=
  (indices left right).foldl
    (fun set i => if (s.point i).isClassified then set else set.insert (s.ptr i)) []

/-- The points at the indexes `left, …, right`, as a set. -/
def allPtrs (s : LearnerState F) (left right : ℕ) : List Ptr :=
  (indices left right).foldl (fun set i => set.insert (s.ptr i)) []

/-- The answer of `is_leaf`: the label of the leaf and the two sets, if any. -/
abbrev LeafAnswer := Option (Bool × List Ptr × List Ptr)

/-- `simple_job_manager::is_leaf` (`simple_job_manager.h`, lines 264–473). -/
def isLeaf (env : Environment) (cfg : Settings) (sl : Slice) (s : LearnerState F) :
    Except Error (LeafAnswer × LearnerState F) := do
  assert (sl.leftIndex ≤ sl.rightIndex ∧ sl.rightIndex < s.datapointPtrs.length)
  let f := scanLabels s (indices sl.leftIndex sl.rightIndex) {}
  if f.foundTrue && f.foundFalse then return (none, s)
  else if !f.foundUnlabeled then return (some (f.foundTrue, [], []), s)
  else if f.foundTrue then
    let (ok, s) ← s.solve env cfg
      (unlabeledPtrs s f.indexOfFirstUnlabeled f.indexOfLastUnlabeled) []
    if ok then return (some (true, s.solver.positive, s.solver.negative), s)
    else return (none, s)
  else if f.foundFalse then
    let (ok, s) ← s.solve env cfg []
      (unlabeledPtrs s f.indexOfFirstUnlabeled f.indexOfLastUnlabeled)
    if ok then return (some (false, s.solver.positive, s.solver.negative), s)
    else return (none, s)
  else
    let (ok, s) ← s.solve env cfg (allPtrs s sl.leftIndex sl.rightIndex) []
    if ok then return (some (true, s.solver.positive, s.solver.negative), s)
    -- `positive_ptrs` is cleared, `negative_ptrs` is what the failed call left
    let negative := (indices sl.leftIndex sl.rightIndex).foldl
      (fun set i => set.insert (s.ptr i)) s.solver.negative
    let (ok, s) ← s.solve env cfg [] negative
    if ok then return (some (false, s.solver.positive, s.solver.negative), s)
    return (none, s)

/-! ## Scores -/

/-- `num_points_with_classification` (lines 907–918). -/
def numPointsWithClassification (s : LearnerState F) (left right : ℕ) (classification : Bool) :
    ℕ :=
  ((indices left right).filter fun i =>
    (s.point i).isClassified && (s.point i).classification == classification).length

/-- `positive_points_present` (lines 885–895). -/
def positivePointsPresent (s : LearnerState F) (left right : ℕ) : Bool :=
  (indices left right).any fun i => (s.point i).isClassified && (s.point i).classification

/-- `unclassified_points_present` (lines 864–874). -/
def unclassifiedPointsPresent (s : LearnerState F) (left right : ℕ) : Bool :=
  (indices left right).any fun i => !(s.point i).isClassified

/-- `-(entropy_t + entropy_f)` from the two counts and their sum; a count that is
    zero contributes nothing (lines 1422–1468). -/
def entropyOfCounts (countT countF sum : F) (zeroT zeroF : Bool) : F :=
  let pT := div countT sum
  let pF := div countF sum
  let entropyT := if zeroT then ofInt 0 else mul pT (log2 pT)
  let entropyF := if zeroF then ofInt 0 else mul pF (log2 pF)
  neg (add entropyT entropyF)

/-- `complex_job_manager::entropy` (lines 1410–1476). -/
def entropy (cfg : Settings) (s : LearnerState F) (left right : ℕ) : Except Error F :=
  match cfg.entropyComputation with
  | .hornAssignments => do
    let countT ← (indices left right).foldlM
      (fun countT i => match s.datapointPtrsToFrac (s.ptr i) with
        | some frac => .ok (add countT frac)
        | none => .error .assertionFailure) (ofInt 0 : F)
    let sum : F := ofInt (right - left + 1)
    let countF := sub sum countT
    return entropyOfCounts countT countF sum (eq countT (ofInt 0)) (eq countF (ofInt 0))
  | _ =>
    let countT := numPointsWithClassification s left right true
    let countF := numPointsWithClassification s left right false
    .ok (entropyOfCounts (ofInt countT) (ofInt countF) (ofInt (countT + countF))
      (countT = 0) (countF = 0))

/-- `num_classified_points` (lines 1489–1510). -/
def numClassifiedPoints (cfg : Settings) (s : LearnerState F) (left right : ℕ) : ℕ :=
  match cfg.entropyComputation with
  | .hornAssignments => right - left + 1
  | _ => ((indices left right).filter fun i => (s.point i).isClassified).length

/-- `weighted_entropy` (lines 1523–1537). -/
def weightedEntropy (cfg : Settings) (s : LearnerState F) (left right : ℕ) : Except Error F := do
  let e ← entropy cfg s left right
  match cfg.entropyComputation with
  | .hornAssignments => return mul e (ofInt (right - left + 1))
  | _ => return mul e (ofInt (numClassifiedPoints cfg s left right))

/-- The contribution of one clause to `penalty`: the number of unclassified
    premises on the one side if the conclusion is unclassified on the other
    (`left2right`, `right2left`). -/
def clausePenalty (s : LearnerState F) (left cur right : ℕ) (hc : HornConstraint) : ℕ × ℕ :=
  let open_ (i : ℕ) : Bool := !(s.point i).isClassified
  let premisesAt (is : List ℕ) : ℕ :=
    (is.map fun i => (hc.premises.filter fun p => p = s.ptr i ∧ open_ i).length).sum
  let concludesAt (is : List ℕ) : Bool := is.any fun i => hc.conclusion = some (s.ptr i) ∧ open_ i
  let numPremiseLeft := premisesAt (indices left cur)
  let numPremiseRight := premisesAt (indices (cur + 1) right)
  -- an occurrence on the right overwrites one on the left
  if concludesAt (indices (cur + 1) right) then (numPremiseLeft, 0)
  else if concludesAt (indices left cur) then (0, numPremiseRight)
  else (0, 0)

/-- `penalty` (lines 1988–2039): `left2right` and `right2left`. -/
def penalty (cfg : Settings) (s : LearnerState F) (left cur right : ℕ) : ℕ × ℕ :=
  cfg.hornConstraints.foldl
    (fun acc hc => let p := clausePenalty s left cur right hc; (acc.1 + p.1, acc.2 + p.2)) (0, 0)

/-- The penalty term of `find_best_split` (lines 1714–1735). Each of the four
    variables is overwritten before the next one is computed. -/
def penaltyVal (cfg : Settings) (s : LearnerState F) (left cur right : ℕ) : F :=
  let (left2right, right2left) := penalty cfg s left cur right
  let nleft : F := ofInt (numPointsWithClassification s left cur false)
  let pleft : F := ofInt (numPointsWithClassification s left cur true)
  let nright : F := ofInt (numPointsWithClassification s (cur + 1) right false)
  let pright : F := ofInt (numPointsWithClassification s (cur + 1) right true)
  let totalClassifiedPoints := add (add (add nleft pleft) nright) pright
  let nleft := if eq nleft (ofInt 0) then ofInt 0 else div nleft (add nleft pleft)
  let pleft := if eq pleft (ofInt 0) then ofInt 0 else div pleft (add nleft pleft)
  let nright := if eq nright (ofInt 0) then ofInt 0 else div nright (add nright pright)
  let pright := if eq pright (ofInt 0) then ofInt 0 else div pright (add nright pright)
  let val := add (mul (sub (ofInt 1) (mul nleft pright)) (ofInt left2right))
    (mul (sub (ofInt 1) (mul nright pleft)) (ofInt right2left))
  div (mul (ofInt 2) val) (add (ofInt (2 * (left2right + right2left))) totalClassifiedPoints)

/-- `(n1 == 0 ? 0 : -1 * (n1/n) * log2(n1/n))`. -/
def intrinsicTerm (n1 n : F) : F :=
  if eq n1 (ofInt 0) then ofInt 0 else mul (mul (ofInt (-1)) (div n1 n)) (log2 (div n1 n))

/-- The intrinsic value of the cut after index `cur` (lines 1777–1783). -/
def intrinsicValue (cfg : Settings) (s : LearnerState F) (left cur right : ℕ) : F :=
  let n1 : F := mul (ofInt 1) (ofInt (numClassifiedPoints cfg s left cur))
  let n2 : F := mul (ofInt 1) (ofInt (numClassifiedPoints cfg s (cur + 1) right))
  let n := add n1 n2
  add (intrinsicTerm n1 n) (intrinsicTerm n2 n)

/-- `total_entropy` of the cut after index `cur` (lines 1699–1735). -/
def totalEntropy (cfg : Settings) (s : LearnerState F) (sl : Slice) (cur : ℕ) :
    Except Error F := do
  let weightedEntropyLeft ← weightedEntropy cfg s sl.leftIndex cur
  let weightedEntropyRight ← weightedEntropy cfg s (cur + 1) sl.rightIndex
  let n := numClassifiedPoints cfg s sl.leftIndex sl.rightIndex
  let total : F := if n = 0 then ofInt 0
    else div (add weightedEntropyLeft weightedEntropyRight) (ofInt n)
  match cfg.entropyComputation with
  | .penalty => return add total (penaltyVal cfg s sl.leftIndex cur sl.rightIndex)
  | _ => return total

/-! ## `find_best_split` -/

/-- The right end of the run of entries with value `c` that continues at `cur`. -/
def runEnd {β : Type} [DecidableEq β] (val : ℕ → β) (right : ℕ) (c : β) (cur : ℕ) : ℕ :=
  if cur + 1 ≤ right ∧ c = val (cur + 1) then runEnd val right c (cur + 1) else cur
termination_by right - cur

theorem le_runEnd {β : Type} [DecidableEq β] (val : ℕ → β) (right : ℕ) (c : β) (cur : ℕ) :
    cur ≤ runEnd val right c cur := by
  induction cur using runEnd.induct val right c with
  | case1 cur h ih =>
    rw [runEnd, if_pos h]
    omega
  | case2 cur h =>
    rw [runEnd, if_neg h]

theorem runEnd_le {β : Type} [DecidableEq β] (val : ℕ → β) (right : ℕ) (c : β) (cur : ℕ)
    (hcur : cur ≤ right) : runEnd val right c cur ≤ right := by
  induction cur using runEnd.induct val right c with
  | case1 cur h ih =>
    rw [runEnd, if_pos h]
    exact ih h.1
  | case2 cur h =>
    rw [runEnd, if_neg h]
    exact hcur

/-- The best categorical split found so far. -/
structure CategoricalBest (F : Type) where
  splitPossible : Bool := false
  gainRatio : F
  attr : ℕ := 0

/-- The loop over the categories of a sorted slice (lines 1598–1625): the total
    weighted entropy and the total intrinsic value, or nothing if there is only one
    category. -/
def categoryLoop (cfg : Settings) (s : LearnerState F) (sl : Slice) (attr : ℕ) (curLeft : ℕ)
    (totalWeightedEntropy totalIntrinsicValue : F) : Except Error (Option (F × F)) :=
  if curLeft ≤ sl.rightIndex then
    let curRight := runEnd (fun i => (s.point i).category attr) sl.rightIndex
      ((s.point curLeft).category attr) curLeft
    if curLeft = sl.leftIndex ∧ curRight = sl.rightIndex then .ok none
    else
      match weightedEntropy cfg s curLeft curRight with
      | .error e => .error e
      | .ok e =>
        let n1 : F := mul (ofInt 1) (ofInt (numClassifiedPoints cfg s curLeft curRight))
        let n : F := mul (ofInt 1)
          (ofInt (numClassifiedPoints cfg s sl.leftIndex sl.rightIndex))
        categoryLoop cfg s sl attr (curRight + 1) (add totalWeightedEntropy e)
          (add totalIntrinsicValue (intrinsicTerm n1 n))
  else .ok (some (totalWeightedEntropy, totalIntrinsicValue))
termination_by sl.rightIndex + 1 - curLeft
decreasing_by
  have := le_runEnd (fun i => (s.point i).category attr) sl.rightIndex
    ((s.point curLeft).category attr) curLeft
  omega

/-- One iteration of the loop over the categorical attributes (lines 1583–1650). -/
def categoricalAttribute (env : Environment) (cfg : Settings) (sl : Slice)
    (acc : LearnerState F × CategoricalBest F) (attr : ℕ) :
    Except Error (LearnerState F × CategoricalBest F) := do
  let (s, best) := acc
  let s := s.sortSlice env (fun d => d.category attr) sl
  match ← categoryLoop cfg s sl attr sl.leftIndex (ofInt 0) (ofInt 0) with
  | none => return (s, best)
  | some (totalWeightedEntropy, totalIntrinsicValue) =>
    let n := numClassifiedPoints cfg s sl.leftIndex sl.rightIndex
    let e ← entropy cfg s sl.leftIndex sl.rightIndex
    let infoGain := if n = 0 then e else sub e (div totalWeightedEntropy (ofInt n))
    assert (lt (ofInt 0) totalIntrinsicValue)
    let gainRatio := div infoGain totalIntrinsicValue
    if !best.splitPossible || lt best.gainRatio gainRatio then
      return (s, { splitPossible := true, gainRatio := gainRatio, attr := attr })
    else return (s, best)

/-- The best cut of one attribute: the variables `…_for_given_attribute`. -/
structure Cut (F : Type) where
  entropy : F
  possible : Bool := false
  splitIndex : ℕ := 0
  intrinsicValue : F

/-- The initial values of these variables. -/
def Cut.initial : Cut F := { entropy := ofInt 1000000, intrinsicValue := ofInt 0 }

/-- Record the cut after index `cur` if it is the first one or has less entropy
    (lines 1748–1784, for conjunctive cuts and for all cuts). -/
def Cut.consider (cfg : Settings) (s : LearnerState F) (sl : Slice) (cur : ℕ) (total : F)
    (c : Cut F) : Cut F :=
  if !c.possible || lt total c.entropy then
    { possible := true, entropy := total, splitIndex := cur
      intrinsicValue := Learner.intrinsicValue cfg s sl.leftIndex cur sl.rightIndex }
  else c

/-- Skip to the right-most entry with the same value (lines 1682–1685). -/
def skipEqual (val : ℕ → ℤ) (right cur : ℕ) : ℕ :=
  if cur + 1 ≤ right ∧ val (cur + 1) = val cur then skipEqual val right (cur + 1) else cur
termination_by right - cur

theorem le_skipEqual (val : ℕ → ℤ) (right cur : ℕ) : cur ≤ skipEqual val right cur := by
  induction cur using skipEqual.induct val right with
  | case1 cur h ih =>
    rw [skipEqual, if_pos h]
    omega
  | case2 cur h =>
    rw [skipEqual, if_neg h]

/-- Whether a cut at this value is allowed by the threshold (lines 1694–1696). -/
def cutAllowed (cfg : Settings) (value : ℤ) : Bool :=
  match cfg.threshold with
  | none => true
  | some threshold => -1 * threshold ≤ value ∧ value ≤ threshold

/-- The variables of the loop over the cuts of an attribute. -/
structure CutState (F : Type) where
  tries : ℕ
  cut : Cut F
  conjCut : Cut F

/-- The body of that loop for a possible cut after index `cur` (lines 1690–1788). -/
def tryCut (cfg : Settings) (s : LearnerState F) (sl : Slice) (attr cur : ℕ)
    (cs : CutState F) : Except Error (CutState F) := do
  let cs := { cs with tries := cs.tries + 1 }
  if cutAllowed cfg ((s.point cur).int attr) then
    let total ← totalEntropy cfg s sl cur
    let conjunctive := cfg.conjunctiveSetting = .preferenceForConjuncts ∧
      (!positivePointsPresent s sl.leftIndex cur ||
        !positivePointsPresent s (cur + 1) sl.rightIndex)
    return { cs with
      conjCut := if conjunctive then cs.conjCut.consider cfg s sl cur total else cs.conjCut
      cut := cs.cut.consider cfg s sl cur total }
  else return cs

/-- The loop over the cuts of an attribute in a sorted slice (lines 1678–1791). -/
def cutLoop (cfg : Settings) (s : LearnerState F) (sl : Slice) (attr cur : ℕ)
    (cs : CutState F) : Except Error (CutState F) :=
  if cur < sl.rightIndex then
    let next := skipEqual (fun i => (s.point i).int attr) sl.rightIndex cur
    if next < sl.rightIndex then
      match tryCut cfg s sl attr next cs with
      | .error e => .error e
      | .ok cs => cutLoop cfg s sl attr (next + 1) cs
    else .ok cs
  else .ok cs
termination_by sl.rightIndex - cur
decreasing_by
  have := le_skipEqual (fun i => (s.point i).int attr) sl.rightIndex cur
  omega

/-- The information gain of the best cut of an attribute, less the cost of its
    threshold (lines 1797–1808 and 1853–1864). The differences of the values are
    computed with `int`. -/
def cutGain (cfg : Settings) (s : LearnerState F) (sl : Slice) (attr tries : ℕ) (c : Cut F) :
    Except Error F := do
  let val (i : ℕ) : ℤ := (s.point i).int attr
  let e ← entropy cfg s sl.leftIndex sl.rightIndex
  let interval : F := ofInt ((wrap32 (val sl.rightIndex - val sl.leftIndex)).tdiv
    (wrap32 (val (c.splitIndex + 1) - val c.splitIndex)))
  let n := numClassifiedPoints cfg s sl.leftIndex sl.rightIndex
  assert (n > 0)
  let threshCost := div (if lt interval (ofInt tries) then log2 interval
    else log2 (ofInt tries)) (ofInt n)
  return sub (sub e c.entropy) threshCost

/-- The best integer split found so far, with a separate record for cuts whose
    intrinsic value is zero; once for all cuts and once for conjunctive cuts. -/
structure IntBest (F : Type) where
  splitPossible : Bool := false
  nonZeroIntrinsicValuePossible : Bool := false
  gainRatio : F
  attr : ℕ := 0
  threshold : ℤ := 0
  gainRatio4ZeroIv : F
  attr4ZeroIv : ℕ := 0
  threshold4ZeroIv : ℤ := 0

/-- The initial values of these variables. -/
def IntBest.initial : IntBest F :=
  { gainRatio := ofInt (-1000000), gainRatio4ZeroIv := ofInt (-1000000) }

/-- Compare the best cut of an attribute with the best split so far (lines
    1809–1845 and 1865–1900). -/
def IntBest.consider (b : IntBest F) (gain iv : F) (attr : ℕ) (threshold : ℤ) : IntBest F :=
  if lt (ofInt 0) iv then
    let b := { b with nonZeroIntrinsicValuePossible := true }
    let ratio := div gain iv
    if !b.splitPossible || lt b.gainRatio ratio ||
        (eq ratio b.gainRatio && abs32 threshold < abs32 b.threshold) then
      { b with splitPossible := true, gainRatio := ratio, attr := attr, threshold := threshold }
    else b
  else if !b.nonZeroIntrinsicValuePossible then
    if !b.splitPossible || lt b.gainRatio4ZeroIv gain ||
        (eq gain b.gainRatio4ZeroIv && abs32 threshold < abs32 b.threshold4ZeroIv) then
      { b with splitPossible := true, gainRatio4ZeroIv := gain, attr4ZeroIv := attr,
               threshold4ZeroIv := threshold }
    else b
  else b

/-- The gain ratio, attribute and threshold to use. -/
def IntBest.selected (b : IntBest F) : F × ℕ × ℤ :=
  if b.nonZeroIntrinsicValuePossible then (b.gainRatio, b.attr, b.threshold)
  else (b.gainRatio4ZeroIv, b.attr4ZeroIv, b.threshold4ZeroIv)

/-- Compare the best cut of an attribute, if there is one. -/
def considerCut (cfg : Settings) (s : LearnerState F) (sl : Slice) (attr tries : ℕ) (c : Cut F)
    (b : IntBest F) : Except Error (IntBest F) :=
  if c.possible then do
    let gain ← cutGain cfg s sl attr tries c
    return b.consider gain c.intrinsicValue attr ((s.point c.splitIndex).int attr)
  else .ok b

/-- The variables of the loop over the integer attributes. -/
structure IntState (F : Type) where
  state : LearnerState F
  best : IntBest F
  conjBest : IntBest F

/-- One iteration of the loop over the integer attributes (lines 1658–1904). -/
def intAttribute (env : Environment) (cfg : Settings) (sl : Slice) (acc : IntState F)
    (attr : ℕ) : Except Error (IntState F) := do
  let s := acc.state.sortSlice env (fun d => d.int attr) sl
  let cs ← cutLoop cfg s sl attr sl.leftIndex ⟨0, .initial, .initial⟩
  let conjBest ← if cfg.conjunctiveSetting = .preferenceForConjuncts then
      considerCut cfg s sl attr cs.tries cs.conjCut acc.conjBest
    else .ok acc.conjBest
  let best ← considerCut cfg s sl attr cs.tries cs.cut acc.best
  return ⟨s, best, conjBest⟩

/-- The end of `find_best_split` (lines 1911–1983). -/
def chooseSplit (cfg : Settings) (sl : Slice) (cat : CategoricalBest F)
    (best conjBest : IntBest F) :
    Except Error Job := do
  let preferred := if cfg.conjunctiveSetting = .preferenceForConjuncts ∧ conjBest.splitPossible
    then conjBest.selected else best.selected
  if !best.splitPossible && !cat.splitPossible then
    assert (!conjBest.splitPossible)
    throw (.splitNotPossibleError "No split possible!")
  else if best.splitPossible && !cat.splitPossible then
    return .intSplit sl preferred.2.1 preferred.2.2
  else if !best.splitPossible && cat.splitPossible then
    assert (!conjBest.splitPossible)
    return .categoricalSplit sl cat.attr
  else if le preferred.1 cat.gainRatio then
    return .intSplit sl preferred.2.1 preferred.2.2
  else return .categoricalSplit sl cat.attr

/-- `complex_job_manager::find_best_split` (lines 1550–1985). All points of a sample
    have the same numbers of attributes, those of the left-most point. -/
def findBestSplit (env : Environment) (cfg : Settings) (sl : Slice) (s : LearnerState F) :
    Except Error (Job × LearnerState F) := do
  assert (sl.leftIndex ≤ sl.rightIndex ∧ sl.rightIndex < s.datapointPtrs.length)
  let (s, cat) ← (List.range (s.point sl.leftIndex).categoricalData.length).foldlM
    (categoricalAttribute env cfg sl) (s, { gainRatio := ofInt (-1000000) })
  let acc ← (List.range (s.point sl.leftIndex).intData.length).foldlM
    (intAttribute env cfg sl) ⟨s, .initial, .initial⟩
  let job ← chooseSplit cfg sl cat acc.best acc.conjBest
  return (job, acc.state)

end HiceDt.Learner
