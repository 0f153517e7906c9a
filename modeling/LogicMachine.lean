import LogicMachine.Code.Listing
import LogicMachine.Interchange
import LogicMachine.Machine.Snapshot
import LogicMachine.Session.Solve
import LogicMachine.Proofs.Backtracking.Restoration
import LogicMachine.Proofs.Execution.Steps
import LogicMachine.Proofs.Execution.Terms
import LogicMachine.Proofs.Session.Dispatch
import LogicMachine.Proofs.Session.Reports
import LogicMachine.Proofs.Unification.MostGeneral
import LogicMachine.Proofs.Execution.Growing
import LogicMachine.Proofs.Execution.Logic
import LogicMachine.Proofs.Execution.Unifying
import LogicMachine.Proofs.Matching.Heads
import LogicMachine.Proofs.Control.Onward
import LogicMachine.Proofs.Control.Activity
import LogicMachine.Proofs.Control.Quiet
import LogicMachine.Proofs.Control.Desk
import LogicMachine.Proofs.Control.Building
import LogicMachine.Proofs.Control.Subjects
import LogicMachine.Proofs.Control.Compounds
import LogicMachine.Proofs.Control.Texts
import LogicMachine.Proofs.Control.Bodies
import LogicMachine.Proofs.Control.Trace
import LogicMachine.Proofs.Control.Calls
import LogicMachine.Proofs.Control.Following
import LogicMachine.Proofs.Control.Assembled
import LogicMachine.Proofs.Control.Dispatching
import LogicMachine.Proofs.Control.Natives
import LogicMachine.Proofs.Control.Retreat
import LogicMachine.Proofs.Control.Calling
import LogicMachine.Proofs.Control.Pending
import LogicMachine.Proofs.Control.Discipline
import LogicMachine.Proofs.Code.Validity
import LogicMachine.Proofs.Arithmetic.Exact
import LogicMachine.Proofs.Arithmetic.Expressions
import LogicMachine.Proofs.Arithmetic.Goals
import LogicMachine.Proofs.Copy.Graph
import LogicMachine.Proofs.Copy.Twins
import LogicMachine.Proofs.Copy.Following
import LogicMachine.Proofs.Copy.Isomorphism
import LogicMachine.Proofs.Copy.Copied
import LogicMachine.Proofs.Copy.Sharing
import LogicMachine.Proofs.Control.Returning
import LogicMachine.Proofs.Control.Scopes
import LogicMachine.Proofs.Term.Lists
import LogicMachine.Proofs.Text.Decimal
import LogicMachine.Proofs.Text.Literals
import LogicMachine.Proofs.Arithmetic.Values
import LogicMachine.Proofs.Arithmetic.Answers
import LogicMachine.Proofs.Reading.Nodes
import LogicMachine.Proofs.Reading.Memory
import LogicMachine.Proofs.Reading.Unfolding
import LogicMachine.Proofs.Reading.Steps
import LogicMachine.Proofs.Reading.Completion
import LogicMachine.Proofs.Reading.ReadBack
import LogicMachine.Proofs.Reading.Preserving
import LogicMachine.Proofs.Reading.Filling
import LogicMachine.Proofs.Reading.Depiction
import LogicMachine.Proofs.Reading.Bindings
import LogicMachine.Proofs.Reading.Sketch
import LogicMachine.Proofs.Reading.BackEdges
import LogicMachine.Proofs.Reading.Names
import LogicMachine.Proofs.Construction.Moves
import LogicMachine.Proofs.Construction.Blocks
import LogicMachine.Proofs.Construction.Pieces
import LogicMachine.Proofs.Construction.Outcomes
import LogicMachine.Proofs.Construction.Terms
import LogicMachine.Proofs.Construction.Building
import LogicMachine.Proofs.Construction.RoundTrip
import LogicMachine.Proofs.Unification.Pair
import LogicMachine.Proofs.Unification.Developing
import LogicMachine.Proofs.Unification.Symmetry
import LogicMachine.Proofs.Unification.Assignment
import LogicMachine.Proofs.Unification.Repetition
import LogicMachine.Proofs.Backtracking.Committing
import LogicMachine.Proofs.Store.Packing
import LogicMachine.Proofs.Code.Labels
import LogicMachine.Proofs.Code.Worklist
import LogicMachine.Proofs.Code.Refusal
