import HiceDt.Learner.JobManager

/-!
# The learning loop

Model of `complex_job_manager::next_job` with the sampler of Horn assignments
(`hice-dt/include/simple_job_manager.h`), of the jobs
(`hice-dt/src/job.cpp`) and of `learner::learn` and `learner::is_consistent`
(`hice-dt/include/learner.h`).
-/

namespace HiceDt.Learner

open HiceDt Score

variable {F : Type} [Score F]

/-! ## Sampling Horn assignments -/

/-- `_datapoint_ptrs_to_frac.clear(); initialize_datapoint_ptrs_to_frac();` (lines
    1012–1030). -/
def initializeDatapointPtrsToFrac (s : LearnerState F) : LearnerState F :=
  { s with
    datapointPtrsToFrac := fun x =>
      if x ∈ s.datapointPtrs ∧ (s.solver.mem x).isClassified then
        some (if (s.solver.mem x).classification then ofInt 1 else ofInt 0)
      else none }

/-- The `while` loop that completes one assignment (lines 1064–1137): label a random
    point, propagate, and drop the points that are labelled now. Every iteration
    drops a point, so the number of points is enough fuel. -/
def completeAssignment (env : Environment) (cfg : Settings) :
    ℕ → List Ptr → List Ptr → List Ptr → LearnerState F →
      Except Error (List Ptr × List Ptr × LearnerState F)
  | _, [], positive, negative, s => .ok (positive, negative, s)
  | 0, _ :: _, _, _, _ => .error .outOfFuel
  | fuel + 1, x :: temp, positive, negative, s => do
    let (r, s) := s.nextRand env
    let item := (x :: temp).getD (r % (x :: temp).length) x
    let (r, s) := s.nextRand env
    let positive := if r % 2 = 0 then positive.insert item else positive
    let negative := if r % 2 = 0 then negative else negative.insert item
    let (ok, s) ← s.solve env cfg positive negative
    assert ok
    let temp := (x :: temp).filter
      fun y => !(s.solver.positive.contains y) && !(s.solver.negative.contains y)
    completeAssignment env cfg fuel temp s.solver.positive s.solver.negative s

/-- One of the three rounds of
    `update_datapoint_ptrs_to_frac_with_complete_horn_assignments`: add a complete
    assignment to the sums (lines 1059–1153). -/
def sampleRound (env : Environment) (cfg : Settings) (unclassified : List Ptr)
    (acc : (Ptr → Option F) × LearnerState F) : Except Error ((Ptr → Option F) × LearnerState F) :=
      do
  let (sum, s) := acc
  let (positive, negative, s) ← completeAssignment env cfg unclassified.length unclassified [] [] s
  let temp (x : Ptr) : Option F :=
    if x ∈ negative then some (ofInt 0)
    else if x ∈ positive then some (ofInt 1)
    else s.datapointPtrsToFrac x
  return (fun x => match temp x with
    | some frac => some (add ((sum x).getD (ofInt 0)) frac)
    | none => sum x, s)

/-- `update_datapoint_ptrs_to_frac_with_complete_horn_assignments` (lines
    1035–1164). -/
def updateDatapointPtrsToFrac (env : Environment) (cfg : Settings) (s : LearnerState F) :
    Except Error (LearnerState F) := do
  let unclassified := s.datapointPtrs.filter fun x => !(s.solver.mem x).isClassified
  let acc ← sampleRound env cfg unclassified (fun _ => none, s)
  let acc ← sampleRound env cfg unclassified acc
  let (sum, s) ← sampleRound env cfg unclassified acc
  return { s with datapointPtrsToFrac := fun x => (sum x).map fun frac => div frac (ofInt 3) }

/-! ## `next_job` -/

/-- The loop that looks for the slice with the largest (`better = lt best val`) or the
    smallest entropy (lines 1293–1306 and 1348–1361); `best` is a `float`. -/
def selectByEntropy (cfg : Settings) (s : LearnerState F) (weighted : Bool)
    (better : F → F → Bool) : List Slice → ℕ → F → ℕ → Except Error ℕ
  | [], _, _, bestIndex => .ok bestIndex
  | sl :: rest, curIndex, best, bestIndex => do
    let val ← if weighted then weightedEntropy cfg s sl.leftIndex sl.rightIndex
      else entropy cfg s sl.leftIndex sl.rightIndex
    if better best val then
      selectByEntropy cfg s weighted better rest (curIndex + 1) (toFloat val) curIndex
    else selectByEntropy cfg s weighted better rest (curIndex + 1) best bestIndex

/-- The index of the slice to process next, and the state after the random numbers
    and Horn assignments this took. -/
def selectSlice (env : Environment) (cfg : Settings) (s : LearnerState F) :
    Except Error (ℕ × LearnerState F) := do
  match cfg.nodeSelection with
  | .bfs => return (0, s)
  | .dfs => return (s.slices.length - 1, s)
  | .random =>
    let (r, s) := s.nextRand env
    return (r % s.slices.length, s)
  | .maxEntropy | .maxWeightedEntropy =>
    let s ← if cfg.entropyComputation = .hornAssignments then
        updateDatapointPtrsToFrac env cfg (initializeDatapointPtrsToFrac s) else .ok s
    let i ← selectByEntropy cfg s (cfg.nodeSelection = .maxWeightedEntropy)
      (fun best val => lt best val) s.slices 0 (ofInt 0) 0
    assert (i < s.slices.length)
    return (i, s)
  | .minEntropy | .minWeightedEntropy =>
    let s ← if cfg.entropyComputation = .hornAssignments then
        updateDatapointPtrsToFrac env cfg (initializeDatapointPtrsToFrac s) else .ok s
    let i ← selectByEntropy cfg s (cfg.nodeSelection = .minWeightedEntropy)
      (fun best val => lt val best) s.slices 0
      (if cfg.nodeSelection = .minEntropy then ofInt 1 else ofInt 100000) 0
    assert (i < s.slices.length)
    return (i, s)

/-- What `next_job` does with a slice that needs to be split: with sampled Horn
    assignments and a selection that did not sample, the sample is taken now (lines
    1226–1274). -/
def prepareSplit (env : Environment) (cfg : Settings) (sl : Slice) (s : LearnerState F) :
    Except Error (LearnerState F) :=
  if cfg.entropyComputation = .hornAssignments ∧
      (cfg.nodeSelection = .bfs ∨ cfg.nodeSelection = .dfs ∨ cfg.nodeSelection = .random) then
    if unclassifiedPointsPresent (initializeDatapointPtrsToFrac s) sl.leftIndex sl.rightIndex then
      updateDatapointPtrsToFrac env cfg (initializeDatapointPtrsToFrac s)
    else .ok (initializeDatapointPtrsToFrac s)
  else .ok s

/-- `complex_job_manager::next_job` (lines 1173–1398). -/
def nextJob (env : Environment) (cfg : Settings) (s : LearnerState F) :
    Except Error (Job × LearnerState F) := do
  if s.isFirstSplit then
    match s.slices with
    | [] => throw .undefinedBehaviour
    | sl :: rest =>
      if (s.point sl.leftIndex).categoricalData.length ≠ 1 then
        throw (.runtimeError "Learner expects exactly one categorical attribute")
      return (.categoricalSplit sl 0, { s with slices := rest, isFirstSplit := false })
  else
    let (i, s) ← selectSlice env cfg s
    match s.slices[i]? with
    | none => throw .undefinedBehaviour
    | some sl =>
      let s := { s with slices := s.slices.eraseIdx i }
      let (answer, s) ← isLeaf env cfg sl s
      match answer with
      | some (label, positive, negative) => return (.leafCreation sl label positive negative, s)
      | none =>
        let s ← prepareSplit env cfg sl s
        findBestSplit env cfg sl s

/-! ## Jobs -/

/-- The slices of a sorted slice, one per category (`job.cpp`, lines 37–57). -/
def categorySlices (s : LearnerState F) (sl : Slice) (attr : ℕ) (curLeft : ℕ) : List Slice :=
  if curLeft ≤ sl.rightIndex then
    let category := (s.point curLeft).category attr
    let curRight := runEnd (fun i => (s.point i).category attr) sl.rightIndex category curLeft
    ⟨curLeft, curRight, sl.node ++ [category]⟩ :: categorySlices s sl attr (curRight + 1)
  else []
termination_by sl.rightIndex + 1 - curLeft
decreasing_by
  have := le_runEnd (fun i => (s.point i).category attr) sl.rightIndex
    ((s.point curLeft).category attr) curLeft
  omega

/-- `categorical_split_job::run` (`job.cpp`, lines 18–59). The children of the new
    node are addressed by their category, which has to be in range. -/
def runCategoricalSplit (env : Environment) (cfg : Settings) (sl : Slice) (attr : ℕ)
    (s : LearnerState F) : Except Error (List Slice × LearnerState F) := do
  let s := s.sortSlice env (fun d => d.category attr) sl
  let n := cfg.numberOfCategories.getD attr 0
  let slices := categorySlices s sl attr sl.leftIndex
  if (indices sl.leftIndex sl.rightIndex).all (fun i => (s.point i).category attr < n) then
    return (slices, { s with tree := s.tree.setAt sl.node (.categorical attr n fun _ => .null) })
  else throw .undefinedBehaviour

/-- `while (value of entry > threshold) --split_at_index;` -/
def splitAtIndex (val : ℕ → ℤ) (threshold : ℤ) : ℕ → ℕ
  | 0 => 0
  | i + 1 => if val (i + 1) > threshold then splitAtIndex val threshold i else i + 1

/-- `int_split_job::run` (`job.cpp`, lines 61–96). -/
def runIntSplit (env : Environment) (sl : Slice) (attr : ℕ) (threshold : ℤ)
    (s : LearnerState F) : Except Error (List Slice × LearnerState F) := do
  assert (sl.leftIndex < sl.rightIndex)
  let s := s.sortSlice env (fun d => d.int attr) sl
  assert ((s.point sl.leftIndex).int attr ≤ threshold ∧
    (s.point sl.rightIndex).int attr > threshold)
  let i := splitAtIndex (fun i => (s.point i).int attr) threshold sl.rightIndex
  return ([⟨sl.leftIndex, i, sl.node ++ [0]⟩, ⟨i + 1, sl.rightIndex, sl.node ++ [1]⟩],
    { s with tree := s.tree.setAt sl.node (.int attr threshold .null .null) })

/-- `dp->_is_classified = true; dp->_classification = b;` for all points of a set. -/
def applyLabels (m : Heap) (set : List Ptr) (b : Bool) : Heap :=
  set.foldl (fun m x => Function.update m x
    { m x with isClassified := true, classification := b }) m

/-- `leaf_creation_job::run` (`job.cpp`, lines 99–123). -/
def runLeafCreation (env : Environment) (sl : Slice) (label : Bool) (positive negative : List Ptr)
    (s : LearnerState F) : Except Error (List Slice × LearnerState F) := do
  assert (sl.leftIndex ≤ sl.rightIndex)
  let m := applyLabels s.solver.mem (env.ord.points s.solver.clock positive) true
  let m := applyLabels m (env.ord.points (s.solver.clock + 1) negative) false
  return ([], { s with
    tree := s.tree.setAt sl.node (.leaf label)
    solver := { s.solver with mem := m, clock := s.solver.clock + 2 } })

/-- `next_job->run(datapoint_ptrs, metadata)`. -/
def runJob (env : Environment) (cfg : Settings) (s : LearnerState F) :
    Job → Except Error (List Slice × LearnerState F)
  | .categoricalSplit sl attr => runCategoricalSplit env cfg sl attr s
  | .intSplit sl attr threshold => runIntSplit env sl attr threshold s
  | .leafCreation sl label positive negative => runLeafCreation env sl label positive negative s

/-! ## `learn` -/

/-- One iteration of the learning loop (`learner.h`, lines 110–124). -/
def learnStep (env : Environment) (cfg : Settings) (s : LearnerState F) :
    Except Error (LearnerState F) := do
  let (job, s) ← nextJob env cfg s
  let (newSlices, s) ← runJob env cfg s job
  return { s with slices := s.slices ++ newSlices }

/-- The learning loop; `fuel` bounds the number of iterations. -/
def learnLoop (env : Environment) (cfg : Settings) :
    ℕ → LearnerState F → Except Error (LearnerState F)
  | 0, _ => .error .outOfFuel
  | fuel + 1, s =>
    if s.slices.isEmpty then .ok s
    else
      match learnStep env cfg s with
      | .error e => .error e
      | .ok s => learnLoop env cfg fuel s

/-- `_manager.add_slice(slice(0, datapoint_ptrs.size() - 1, &tree._root))` on an empty
    tree. -/
def initialSlice (s : LearnerState F) : LearnerState F :=
  { s with tree := .null, slices := s.slices ++ [⟨0, s.datapointPtrs.length - 1, []⟩] }

/-- `learner::learn` (`learner.h`, lines 78–132). -/
def learn (env : Environment) (cfg : Settings) (fuel : ℕ) (s : LearnerState F) :
    Except Error (Tree × LearnerState F) :=
  if s.datapointPtrs.isEmpty then .ok (.leaf true, s)
  else do
    let s ← learnLoop env cfg fuel (initialSlice s)
    assert (!s.tree.isNull)
    return (s.tree, s)

/-! ## `is_consistent` -/

/-- The loop over the premises; it is left at the first premise that is false. -/
def premisesHold (tree : Tree) (m : Heap) : List Ptr → Except Error Bool
  | [] => .ok true
  | p :: rest => do
    if ← tree.output (m p) then premisesHold tree m rest else return false

/-- One constraint holds of the outputs of the tree. -/
def constraintHolds (tree : Tree) (m : Heap) (hc : HornConstraint) : Except Error Bool := do
  if ← premisesHold tree m hc.premises then
    match hc.conclusion with
    | none => return false
    | some c => tree.output (m c)
  else return true

/-- `for (x : l) if (!body(x)) return false; return true;` -/
def checkAll {β : Type} (body : β → Except Error Bool) : List β → Except Error Bool
  | [] => .ok true
  | x :: rest => do
    if ← body x then checkAll body rest else return false

/-- A labelled point has the output of the tree. -/
def labelHolds (tree : Tree) (m : Heap) (x : Ptr) : Except Error Bool :=
  if (m x).isClassified then do
    return (← tree.output (m x)) == (m x).classification
  else .ok true

/-- `learner::is_consistent` (`learner.h`, lines 146–192). -/
def isConsistent (tree : Tree) (datapointPtrs : List Ptr) (hornConstraints : List HornConstraint)
    (m : Heap) : Except Error Bool :=
  if tree.isNull then .ok false
  else do
    if ← checkAll (labelHolds tree m) datapointPtrs then
      checkAll (constraintHolds tree m) hornConstraints
    else return false

end HiceDt.Learner
