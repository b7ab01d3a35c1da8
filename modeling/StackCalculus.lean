import StackCalculus.NameMap
import StackCalculus.Var
import StackCalculus.Cell
import StackCalculus.Fault
import StackCalculus.Term.Basic
import StackCalculus.Substitution
import StackCalculus.Term.Eval
import StackCalculus.Stack
import StackCalculus.Memory
import StackCalculus.State
import StackCalculus.Equality
import StackCalculus.Program.Basic
import StackCalculus.Program.Render
import StackCalculus.Inspect
import StackCalculus.Bag
import StackCalculus.Bag.Lemmas
import StackCalculus.Value
import StackCalculus.Machine.Config
import StackCalculus.Machine.Schedule
import StackCalculus.Machine.Event
import StackCalculus.Machine.Scope
import StackCalculus.Machine.Exec
import StackCalculus.Machine.Equations
import StackCalculus.Samples
import StackCalculus.Main
import StackCalculus.Proofs.Chain
import StackCalculus.Proofs.Fresh
import StackCalculus.Proofs.Paths
import StackCalculus.Proofs.Renaming.Program
import StackCalculus.Proofs.Counting
import StackCalculus.Proofs.Schedule.Possible
import StackCalculus.Proofs.Schedule.Independence
import StackCalculus.Proofs.Adequacy
import StackCalculus.Proofs.Observation.View
import StackCalculus.Proofs.Observation.Congruence
import StackCalculus.Proofs.Renaming.Group
import StackCalculus.Proofs.Scope.Kept
import StackCalculus.Proofs.Scope.Alpha
import StackCalculus.Proofs.Scope.Capture
import StackCalculus.Proofs.Steps
import StackCalculus.Proofs.Invariant.Acyclic
import StackCalculus.Proofs.Invariant.Footprint
import StackCalculus.Proofs.Invariant.WellFormed
import StackCalculus.Proofs.Invariant.Stored
import StackCalculus.Proofs.Evaluation
import StackCalculus.Proofs.Scope.Growth
import StackCalculus.Proofs.Scope.Projection
import StackCalculus.Proofs.Laws
import StackCalculus.Proofs.Iteration.Bound
import StackCalculus.Proofs.Iteration.Equation
import StackCalculus.Proofs.Branching
import StackCalculus.Proofs.Iteration.Consuming
import StackCalculus.Proofs.Covering
import StackCalculus.Proofs.StackBase
import StackCalculus.Proofs.Regions
import StackCalculus.Proofs.Resolution
import StackCalculus.Proofs.Matching
import StackCalculus.Proofs.Flags
import StackCalculus.Proofs.Rearranging
import StackCalculus.Proofs.Iteration.Popping
import StackCalculus.Proofs.Tables
import StackCalculus.Proofs.Readability
import StackCalculus.Proofs.Coherence
import StackCalculus.Proofs.Display
