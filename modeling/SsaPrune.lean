import SsaPrune.Entity
import SsaPrune.Opcode
import SsaPrune.Function
import SsaPrune.Function.Edit
import SsaPrune.Text.Printer
import SsaPrune.Text.Parse
import SsaPrune.ControlFlow
import SsaPrune.Validation
import SsaPrune.Liveness.Solver
import SsaPrune.Liveness.Report
import SsaPrune.Elimination
import SsaPrune.Pipeline
import SsaPrune.Main
import SsaPrune.Proofs.Liveness.Exactness
import SsaPrune.Proofs.Execution.Simulation
import SsaPrune.Proofs.Elimination.ControlFlow
import SsaPrune.Proofs.Elimination.Sweeps
import SsaPrune.Proofs.Elimination.Behaviour
import SsaPrune.Proofs.Elimination.Reached
import SsaPrune.Proofs.Liveness.PassCount
import SsaPrune.Proofs.Text.Declarations
import SsaPrune.Proofs.Elimination.Rounds
import SsaPrune.Proofs.Elimination.Agreement
import SsaPrune.Proofs.Elimination.Twins
import SsaPrune.Proofs.Text.Parts
import SsaPrune.Proofs.Elimination.Rerun
import SsaPrune.Proofs.Elimination.Largest
import SsaPrune.Proofs.Verdict
import SsaPrune.Proofs.Liveness.Edges
import SsaPrune.Proofs.History
import SsaPrune.Proofs.Concatenation
import SsaPrune.Proofs.Text.Renumbering
import SsaPrune.Proofs.Elimination.Counting
import SsaPrune.Proofs.Elimination.Inclusion
import SsaPrune.Proofs.Elimination.Frame
import SsaPrune.Proofs.Liveness.Equations
import SsaPrune.Proofs.Violations
import SsaPrune.Proofs.Text.Resolution
import SsaPrune.Proofs.Text.Offsets
import SsaPrune.Proofs.Text.Comments
import SsaPrune.Proofs.Elimination.OneRound
import SsaPrune.Proofs.Liveness.PhiGroups
import SsaPrune.Proofs.Text.Labels
import SsaPrune.Proofs.Text.Lines
import SsaPrune.Proofs.Liveness.Reports
import SsaPrune.Proofs.Elimination.Adjacency
import SsaPrune.Proofs.Text.ImplicitEntry
