import HiceDt.Lib.Loop
import HiceDt.Solver.Datapoint

/-!
# The Horn solver

Model of `horn_solver<bool>` (`hice-dt/include/horn_solver.h`,
`hice-dt/src/horn_solver.cpp`) and of `horn_constraint::compute_marking`
(`hice-dt/src/horn_constraint.cpp`).

The mutable members of the solver, the data points it writes to and the two sets
`positive` and `negative` that `solve` takes by reference form one state record.
`_copy_of_positive`, `_copy_of_negative`, the timers and `invocation_count` are
only written (or read by the debug log) and are left out.

The recursion of `compute_marking` and the `while` loop of
`verify_constraints_satisfiability` take a fuel argument; `none` means that the
fuel ran out.
-/

namespace HiceDt.Solver

open HiceDt

/-! ## State -/

/-- An element of `_copy_of_horn_constraints`. Its conclusion is never `NULL`:
    `keep_backup` puts `&_false_datapoint` in its place. -/
structure HornCopy where
  premises : List Ptr
  conclusion : Ptr
  satisfiable : Bool
  sizeOfPremises : ℕ
deriving DecidableEq, Repr

/-- The state of a `horn_solver` during a call of `solve`. `worklist` is a stack,
    its top is the head of the list; `clock` counts the loops over unordered sets
    that have been started. -/
structure SolverState where
  mem : Heap
  worklist : List Ptr := []
  copyOfDatapoints : List (Bool × Bool) := []
  copyOfHornConstraints : List HornCopy := []
  hornConstraintsSatisfiability : Bool := true
  hornConstraintsWithoutConclusion : Bool := false
  computeCurrentMarking : Bool := true
  positive : List Ptr := []
  negative : List Ptr := []
  clock : ℕ := 0

namespace SolverState

/-- Start one more loop over an unordered set. -/
def tick (st : SolverState) : SolverState := { st with clock := st.clock + 1 }

/-- The clause a `horn_constraint *` refers to. -/
def clause (st : SolverState) (k : ℕ) : HornCopy :=
  st.copyOfHornConstraints.getD k ⟨[], .falseDatapoint, true, 0⟩

/-- Write a clause. -/
def setClause (st : SolverState) (k : ℕ) (c : HornCopy) : SolverState :=
  { st with copyOfHornConstraints := st.copyOfHornConstraints.set k c }

/-- `_satisfiable = true`. -/
def satisfy (st : SolverState) (k : ℕ) : SolverState :=
  st.setClause k { st.clause k with satisfiable := true }

/-- `x->_list_of_marking.insert(m)`. -/
def insertMarking (st : SolverState) (x m : Ptr) : SolverState :=
  { st with
    mem := Function.update st.mem x
      { st.mem x with listOfMarking := (st.mem x).listOfMarking.insert m } }

/-- `x->_list_of_horn_constraints.insert(k)`. -/
def insertHornConstraint (st : SolverState) (x : Ptr) (k : ℕ) : SolverState :=
  { st with
    mem := Function.update st.mem x
      { st.mem x with listOfHornConstraints := (st.mem x).listOfHornConstraints.insert k } }

/-- `horn_constraints_satisfiability = x->set_classification(b)`. -/
def classify (st : SolverState) (x : Ptr) (b : Bool) : SolverState :=
  let (ok, mem) := setClassification st.mem x b
  { st with mem := mem, hornConstraintsSatisfiability := ok }

/-- `worklist.push(x)`. -/
def push (st : SolverState) (x : Ptr) : SolverState := { st with worklist := x :: st.worklist }

end SolverState

/-! ## Markings -/

/-- The body of the loop over the markings of the first premise
    (`horn_constraint.cpp`, lines 39–62): `masterMarking` is inserted into the
    markings of the conclusion if it marks all other premises, too. The second
    component is `propagate_marking`. -/
def markConclusion (rest : List Ptr) (conclusion : Ptr) (acc : SolverState × Bool)
    (masterMarking : Ptr) : SolverState × Bool :=
  let (st, propagateMarking) := acc
  if rest.all (fun p => (st.mem p).listOfMarking.contains masterMarking) then
    if (st.mem conclusion).listOfMarking.contains masterMarking then (st, propagateMarking)
    else (st.insertMarking conclusion masterMarking, true)
  else (st, propagateMarking)

/-- `horn_constraint::compute_marking` (`horn_constraint.cpp`, lines 35–74) of
    clause `k`. -/
def computeMarking (ord : HashOrder) : ℕ → ℕ → SolverState → Option SolverState
  | 0, _, _ => none
  | fuel + 1, k, st =>
    let c := st.clause k
    match c.premises with
    | [] => some st
    | master :: rest =>
      let (st', propagateMarking) :=
        (ord.points st.clock (st.mem master).listOfMarking).foldl
          (markConclusion rest c.conclusion) (st.tick, false)
      if propagateMarking then
        (ord.clauses st'.clock (st'.mem c.conclusion).listOfHornConstraints).foldlM
          (fun s d =>
            if (s.clause d).satisfiable = false ∧ (s.clause d).conclusion ≠ c.conclusion then
              computeMarking ord fuel d s
            else some s)
          st'.tick
      else some st'

/-- `horn_solver::compute_current_marking` (`horn_solver.cpp`, lines 91–98). -/
def computeCurrentMarking (ord : HashOrder) (fuel : ℕ) (st : SolverState) :
    Option SolverState :=
  (List.range st.copyOfHornConstraints.length).foldlM
    (fun s k => if (s.clause k).satisfiable = false then computeMarking ord fuel k s else some s)
    st

/-! ## Propagation -/

/-- The loop body of the marking loop of `propagate_false_classification`
    (lines 42–52). -/
def falsifyMarking (x m : Ptr) (st : SolverState) : Option (Bool × SolverState) :=
  if m ≠ x ∧ ((st.mem m).isClassified = false ∨ (st.mem m).classification = true) then
    let st := st.classify m false
    if st.hornConstraintsSatisfiability then
      let st := st.push m
      some (true, { st with negative := st.negative.insert m })
    else some (false, st)
  else some (true, st)

/-- `horn_solver::propagate_false_classification` (`horn_solver.cpp`,
    lines 17–56) on clause `k` and variable `x`. -/
def propagateFalseClassification (ord : HashOrder) (fuel : ℕ) (x : Ptr) (k : ℕ)
    (st : SolverState) : Option (Bool × SolverState) :=
  let c := st.clause k
  if x ∈ c.premises then some (true, st.satisfy k)
  else if c.conclusion = x then
    if c.sizeOfPremises = 1 then
      let p := c.premises.headD .falseDatapoint
      let st := st.classify p false
      if st.hornConstraintsSatisfiability then
        let st := st.push p
        let st := { st with negative := st.negative.insert p }
        some (true, st.satisfy k)
      else some (false, st)
    else
      let marked :=
        if st.computeCurrentMarking then
          (Solver.computeCurrentMarking ord fuel st).map
            fun s => { s with computeCurrentMarking := false }
        else some st
      match marked with
      | none => none
      | some st =>
        Loop.forEach (falsifyMarking x) (ord.points st.clock (st.mem x).listOfMarking) st.tick
  else some (true, st)

/-- `horn_solver::remove_from_vector` (`horn_solver.cpp`, lines 58–67). -/
def removeFromVector (v : List Ptr) (x : Ptr) : List Ptr := v.filter (· ≠ x)

/-- `horn_solver::propagate_true_classification` (`horn_solver.cpp`,
    lines 69–89) on clause `k` and variable `x`. -/
def propagateTrueClassification (x : Ptr) (k : ℕ) (st : SolverState) :
    Option (Bool × SolverState) :=
  let c := st.clause k
  if c.conclusion = x then some (true, st.satisfy k)
  else
    let premises := removeFromVector c.premises x
    let st := st.setClause k { c with premises := premises, sizeOfPremises := premises.length }
    if premises.length = 0 then
      let st := st.classify c.conclusion true
      if st.hornConstraintsSatisfiability then
        let st := st.push c.conclusion
        let st := { st with positive := st.positive.insert c.conclusion }
        some (true, st.satisfy k)
      else some (false, st)
    else some (true, st)

/-- Skip the clauses that are satisfied by now. -/
def unlessSatisfied (body : ℕ → SolverState → Option (Bool × SolverState)) (k : ℕ)
    (st : SolverState) : Option (Bool × SolverState) :=
  if (st.clause k).satisfiable = false then body k st else some (true, st)

/-- One iteration of the `while` loop of `verify_constraints_satisfiability`
    (`horn_solver.cpp`, lines 369–389), `x` being the popped point. -/
def processVariable (ord : HashOrder) (fuel : ℕ) (x : Ptr) (st : SolverState) :
    Option (Bool × SolverState) :=
  if (st.mem x).listOfHornConstraints.isEmpty then some (true, st)
  else
    let kept := removeSatisfiedHornClauses ord st.clock (fun k => (st.clause k).satisfiable)
      (st.mem x).listOfHornConstraints
    let st := { st.tick with
      mem := Function.update st.mem x { st.mem x with listOfHornConstraints := kept } }
    if (st.mem x).classification then
      Loop.forEach (unlessSatisfied (propagateTrueClassification x))
        (ord.clauses st.clock kept) st.tick
    else
      Loop.forEach (unlessSatisfied (propagateFalseClassification ord fuel x))
        (ord.clauses st.clock kept) st.tick

/-- `horn_solver::verify_constraints_satisfiability` (`horn_solver.cpp`,
    lines 366–392); `steps` bounds the number of iterations. -/
def verifyConstraintsSatisfiability (ord : HashOrder) (fuel : ℕ) :
    ℕ → SolverState → Option (Bool × SolverState)
  | 0, _ => none
  | steps + 1, st =>
    match st.worklist with
    | [] => some (true, st)
    | x :: worklist =>
      match processVariable ord fuel x { st with worklist := worklist } with
      | none => none
      | some (false, st) => some (false, st)
      | some (true, st) => verifyConstraintsSatisfiability ord fuel steps st

/-! ## Setting up and tearing down -/

/-- `x->_is_classified == true && x->_classification == b`. -/
def isLabelled (m : Heap) (x : Ptr) (b : Bool) : Bool :=
  (m x).isClassified && (m x).classification == b

/-- The copy that `keep_backup` makes of a given constraint before it looks at
    unit clauses (`horn_solver.cpp`, lines 185–208). -/
def copyConstraint (m : Heap) (hc : HornConstraint) : HornCopy :=
  let conclusion := hc.conclusion.getD .falseDatapoint
  let premises := hc.premises.filter fun p => !isLabelled m p true
  { premises := premises
    conclusion := conclusion
    satisfiable := hc.satisfiable || isLabelled m conclusion true ||
      hc.premises.any (fun p => isLabelled m p false)
    sizeOfPremises := premises.length }

/-- The body of the loop of `keep_backup` over the given constraints
    (`horn_solver.cpp`, lines 184–233). The loop is left with `return` when a
    unit clause contradicts a label, which is the only way for
    `horn_constraints_satisfiability` to be false before an iteration. -/
def backupConstraint (ord : HashOrder) (st : SolverState) (hc : HornConstraint) :
    SolverState :=
  if st.hornConstraintsSatisfiability = false then st
  else
    let st := if hc.conclusion.isNone then { st with hornConstraintsWithoutConclusion := true }
      else st
    let c := copyConstraint st.mem hc
    if c.sizeOfPremises = 0 ∧ c.satisfiable = false then
      let st := (ord.points st.clock st.negative).foldl
        (fun s n => if n = c.conclusion then
          { s with mem := (setClassification s.mem c.conclusion false).2 } else s) st.tick
      let st := st.classify c.conclusion true
      if st.hornConstraintsSatisfiability = false then st
      -- the clause is satisfied now, so it is neither watched nor stored
      else { st with positive := st.positive.insert c.conclusion }
    else
      let st := if isLabelled st.mem c.conclusion false ∧ c.satisfiable = false then
          st.push c.conclusion else st
      if c.satisfiable = false then
        let st := { st with copyOfHornConstraints := st.copyOfHornConstraints ++ [c] }
        if hc.conclusion.isNone then
          st.insertHornConstraint .falseDatapoint (st.copyOfHornConstraints.length - 1)
        else st
      else st

/-- `horn_solver::keep_backup` (`horn_solver.cpp`, lines 147–235). -/
def keepBackup (ord : HashOrder) (datapoints : List Ptr) (hornConstraints : List HornConstraint)
    (st : SolverState) : SolverState :=
  let mem := (setClassification (Function.update st.mem .falseDatapoint
    { st.mem .falseDatapoint with listOfMarking := [] }) .falseDatapoint false).2
  let mem := Function.update mem .falseDatapoint
    { mem .falseDatapoint with listOfHornConstraints := [] }
  let st := { st with
    mem := mem
    copyOfHornConstraints := []
    copyOfDatapoints := datapoints.map fun x => ((mem x).classification, (mem x).isClassified) }
  hornConstraints.foldl (backupConstraint ord) st

/-- `horn_solver::populate_meta_data` (`horn_solver.cpp`, lines 132–145). -/
def populateMetaData (datapoints : List Ptr) (st : SolverState) : SolverState :=
  let st := datapoints.foldl (fun s x => s.insertMarking x x) st
  (List.range st.copyOfHornConstraints.length).foldl
    (fun s k =>
      let c := s.clause k
      if c.satisfiable = false then
        c.premises.foldl (fun s p => s.insertHornConstraint p k)
          (s.insertHornConstraint c.conclusion k)
      else s) st

/-- `x->set_classification(b); worklist.push(x);` -/
def classifyAndPush (b : Bool) (st : SolverState) (x : Ptr) : SolverState :=
  SolverState.push { st with mem := (setClassification st.mem x b).2 } x

/-- `horn_solver::fill_worklist` (`horn_solver.cpp`, lines 100–120). -/
def fillWorklist (ord : HashOrder) (st : SolverState) : SolverState :=
  let st := if st.hornConstraintsWithoutConclusion then st.push .falseDatapoint else st
  let st := (ord.points st.clock st.negative).foldl (classifyAndPush false) st.tick
  (ord.points st.clock st.positive).foldl (classifyAndPush true) st.tick

/-- One iteration of `roll_back_datapoints`: restore a point from its copy. -/
def rollBackDatapoint (m : Heap) (x : Ptr) (copy : Bool × Bool) : Heap :=
  Function.update m x { m x with
    classification := copy.1, isClassified := copy.2
    listOfMarking := [], listOfHornConstraints := [] }

/-- `horn_solver::roll_back_datapoints` (`horn_solver.cpp`, lines 122–130). -/
def rollBackDatapoints (datapoints : List Ptr) (st : SolverState) : SolverState :=
  { st with
    mem := (datapoints.zip st.copyOfDatapoints).foldl
      (fun m xc => rollBackDatapoint m xc.1 xc.2) st.mem }

/-- The statements of `solve` after `roll_back_datapoints`, the same on both
    exits (`horn_solver.cpp`, lines 325–332 and 347–354). -/
def clearMembers (st : SolverState) : SolverState :=
  { st with
    computeCurrentMarking := true
    hornConstraintsWithoutConclusion := false
    copyOfDatapoints := []
    copyOfHornConstraints := []
    mem := Function.update st.mem .falseDatapoint
      { st.mem .falseDatapoint with listOfMarking := [], listOfHornConstraints := [] } }

/-- The assignments at the entry of `solve` (`horn_solver.cpp`, lines 310–314). -/
def resetMembers (positive negative : List Ptr) (st : SolverState) : SolverState :=
  { st with
    computeCurrentMarking := true
    hornConstraintsSatisfiability := true
    hornConstraintsWithoutConclusion := false
    worklist := []
    positive := positive
    negative := negative }

/-- `horn_solver::solve` (`horn_solver.cpp`, lines 306–363). -/
def solve (ord : HashOrder) (fuel : ℕ) (datapoints : List Ptr)
    (hornConstraints : List HornConstraint) (positive negative : List Ptr) (st : SolverState) :
    Option (Bool × SolverState) :=
  let st := keepBackup ord datapoints hornConstraints (resetMembers positive negative st)
  if st.hornConstraintsSatisfiability = false then
    some (false, clearMembers (rollBackDatapoints datapoints st))
  else
    let st := fillWorklist ord (populateMetaData datapoints st)
    match verifyConstraintsSatisfiability ord fuel fuel st with
    | none => none
    | some (ok, st) =>
      some (ok, { clearMembers (rollBackDatapoints datapoints st) with
        hornConstraintsSatisfiability := ok })

/-- Iterations and recursion depth that a call may need (`solve_spec`). -/
def solveFuel (datapoints : List Ptr) (hornConstraints : List HornConstraint)
    (positive negative : List Ptr) : ℕ :=
  datapoints.length * (datapoints.length + 1) + datapoints.length + 3 * hornConstraints.length +
    positive.length + negative.length + 2

end HiceDt.Solver
