import HiceDt.Lib.Horn
import HiceDt.Lib.Loop
import HiceDt.Lib.Rearranged
import HiceDt.Lib.Machine
import HiceDt.Solver.Datapoint
import HiceDt.Solver.HornSolver
import HiceDt.Solver.State
import HiceDt.Solver.Marking
import HiceDt.Solver.Invariant
import HiceDt.Solver.PropagateTrue
import HiceDt.Solver.PropagateFalse
import HiceDt.Solver.Backup
import HiceDt.Solver.Setup
import HiceDt.Solver.Correct
import HiceDt.Learner.DecisionTree
import HiceDt.Learner.JobManager
import HiceDt.Learner.Learn
import HiceDt.Learner.Invariant
import HiceDt.Learner.Leaf
import HiceDt.Learner.Sampling
import HiceDt.Learner.Split
import HiceDt.Learner.Driver
import HiceDt.Learner.Soundness
import HiceDt.Learner.Candidates
import HiceDt.Learner.Cuts
import HiceDt.Learner.Selection
import HiceDt.Learner.Progress
import HiceDt.Learner.Consistent
import HiceDt.Learner.Bounded
import HiceDt.Learner.Attempt
import HiceDt.Learner.Pair
import HiceDt.Learner.Completeness
import HiceDt.Learner.Separation
import HiceDt.Learner.Distinguishable
import HiceDt.Learner.Penalty
import HiceDt.Learner.Shape
import HiceDt.Chc.LearnerInterface
import HiceDt.Chc.DataVector
import HiceDt.Chc.DtToZ3
import HiceDt.Chc.Independent
import HiceDt.Horndini.Model
import HiceDt.Horndini.Correct
import HiceDt.Learner.Exact
import HiceDt.Learner.Completion
import HiceDt.Learner.Positive
import HiceDt.Main.Rounds
import HiceDt.Horndini.Prephase
import HiceDt.Main.Api
import HiceDt.Chc.SampleStore
import HiceDt.Lib.FirstOrder
import HiceDt.Smt.Verifier
import HiceDt.Smt.Substitute
import HiceDt.Smt.Genuine
import HiceDt.Smt.Parser
import HiceDt.Smt.Satisfiability
import HiceDt.Boogie.Attributes
import HiceDt.Lib.Dictionary
import HiceDt.Lib.Text
import HiceDt.Boogie.Sample
import HiceDt.Boogie.Files
import HiceDt.Solver.Memoryless
import HiceDt.Solver.Failure
import HiceDt.Learner.Advance
import HiceDt.Boogie.TreeNode
import HiceDt.Boogie.Translation
import HiceDt.Boogie.Emit
import HiceDt.Boogie.Teacher
import HiceDt.Chc.Equality
import HiceDt.Boogie.Indices
import HiceDt.Horndini.Unsigned
import HiceDt.Boogie.Intervals
import HiceDt.Horndini.Checked
import HiceDt.Boogie.Inputs
import HiceDt.Main.Indexing
import HiceDt.Solver.Fixpoint
import HiceDt.Learner.Partition
import HiceDt.Boogie.JsonText
import HiceDt.Lib.Json
import HiceDt.Lib.DepthFirst
import HiceDt.Lib.Ice
import HiceDt.Boogie.Components
import HiceDt.Boogie.Priorities
import HiceDt.Smt.Shape
import HiceDt.Smt.Progress
import HiceDt.Smt.Solutions
import HiceDt.Chc.Formula
import HiceDt.Chc.Recorded
import HiceDt.Chc.Conjectures
import HiceDt.Chc.Accepted
import HiceDt.Chc.Session
import HiceDt.Chc.Houdini
import HiceDt.Boogie.Handover
import HiceDt.Boogie.Process
import HiceDt.Boogie.Iteration
import HiceDt.Boogie.Session
