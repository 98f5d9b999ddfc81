import RoutineFlow.Syntax.Builder
import RoutineFlow.Flow.Analysis
import RoutineFlow.Flow.Chart
import RoutineFlow.Lowering.Program
import RoutineFlow.Settings.OfYaml
import RoutineFlow.Dialect
import RoutineFlow.Main
import RoutineFlow.Proofs.WellFormed
import RoutineFlow.Proofs.Connected
import RoutineFlow.Proofs.Preservation
import RoutineFlow.Proofs.Coverage
import RoutineFlow.Proofs.Complexity
import RoutineFlow.Proofs.DeadCode
import RoutineFlow.Proofs.WriteOnce
import RoutineFlow.Proofs.Threshold
import RoutineFlow.Proofs.Forest
import RoutineFlow.Proofs.Roles
import RoutineFlow.Proofs.Rows
import RoutineFlow.Proofs.Growing
import RoutineFlow.Proofs.Yields
import RoutineFlow.Proofs.Expressions
import RoutineFlow.Proofs.Chains
import RoutineFlow.Proofs.Statements
import RoutineFlow.Proofs.Proper
import RoutineFlow.Proofs.Innermost
import RoutineFlow.Proofs.Scopes
import RoutineFlow.Proofs.Legible
import RoutineFlow.Proofs.Routines
import RoutineFlow.Proofs.Uncommented
import RoutineFlow.Proofs.Endless
import RoutineFlow.Proofs.Untested
import RoutineFlow.Proofs.LeftRecursion
import RoutineFlow.Proofs.Recursion
import RoutineFlow.Proofs.Bare
import RoutineFlow.Proofs.Maximal
import RoutineFlow.Proofs.BreadthFirst
import RoutineFlow.Proofs.FirstError
import RoutineFlow.Proofs.Selection
import RoutineFlow.Proofs.Resolution
import RoutineFlow.Proofs.Discovery
import RoutineFlow.Proofs.Reports
import RoutineFlow.Proofs.Accounting
