import Ownership.Command.Arguments
import Ownership.Command.File
import Ownership.Command.Run
import Ownership.Conflict.Basic
import Ownership.Conflict.Detection
import Ownership.Conflict.Frame
import Ownership.Flow.DepthFirst
import Ownership.Flow.Dominators
import Ownership.Flow.Graph
import Ownership.Flow.Worklist
import Ownership.Function.Basic
import Ownership.Function.Draft
import Ownership.Function.Point
import Ownership.Function.Sketch
import Ownership.Function.Thing
import Ownership.Function.Validation
import Ownership.Liveness.Facts
import Ownership.Liveness.Uses
import Ownership.Loans.Basic
import Ownership.Loans.Facts
import Ownership.Main
import Ownership.Moves.Effect
import Ownership.Moves.Facts
import Ownership.Moves.State
import Ownership.Place.Basic
import Ownership.Place.Overlap
import Ownership.Place.Printer
import Ownership.Place.Record
import Ownership.Report.Basic
import Ownership.Report.Finding
import Ownership.Report.Location
import Ownership.Roster
import Ownership.Settings
import Ownership.Source.Build
import Ownership.Source.Error
import Ownership.Source.Lexer
import Ownership.Source.Literal
import Ownership.Source.Reader
import Ownership.Source.Token
import Ownership.Source.Tree
import Ownership.Text.CodePoint
import Ownership.Text.Digit
import Ownership.Text.Hex
import Ownership.Text.Json
import Ownership.Text.Numeral
import Ownership.Text.Printable
import Ownership.Text.Quoted
import Ownership.Text.Record
import Ownership.Types.Carrying
import Ownership.Types.Registry
import Ownership.Types.Table
import Ownership.Verify.Analysis
import Ownership.Verify.Program
import Ownership.Proofs.Collections
import Ownership.Proofs.Flow.Route
import Ownership.Proofs.Flow.Coincidence
import Ownership.Proofs.Moves.Exact
import Ownership.Proofs.Conflict.Repeated
import Ownership.Proofs.Loans.InUse
import Ownership.Proofs.Conflict.Access
import Ownership.Proofs.Conflict.Storage
import Ownership.Proofs.Conflict.Reported
import Ownership.Proofs.Conflict.Coverage
import Ownership.Proofs.Loans.Reborrow
import Ownership.Proofs.Flow.Termination
import Ownership.Proofs.Liveness.Stops
import Ownership.Proofs.Moves.Stops
import Ownership.Proofs.Convergence
import Ownership.Proofs.Loans.Below
import Ownership.Proofs.Conflict.Capped
import Ownership.Proofs.DeadCode
import Ownership.Proofs.Checked.Graph
import Ownership.Proofs.Checked.Moves
import Ownership.Proofs.Checked.Liveness
import Ownership.Proofs.Checked.Loans
import Ownership.Proofs.Checked.Written
import Ownership.Proofs.Checked.Detection
import Ownership.Proofs.Sketch.Reading
import Ownership.Proofs.Sketch.Draft
import Ownership.Proofs.Sketch.Complaint
import Ownership.Proofs.Totality
import Ownership.Proofs.Types.Calls
import Ownership.Proofs.Types.Registry
import Ownership.Proofs.Types.Carrying
import Ownership.Proofs.Loans.Sites
import Ownership.Proofs.Accepted
import Ownership.Proofs.Source.Reader
import Ownership.Proofs.Source.Scope
import Ownership.Proofs.Source.Parsed
import Ownership.Proofs.Flow.Dominance
import Ownership.Proofs.Flow.Dominators
import Ownership.Proofs.Flow.Order
import Ownership.Proofs.Flow.Loops
import Ownership.Proofs.Liveness.Paths
import Ownership.Proofs.LoopFree
import Ownership.Proofs.Restated.Passes
import Ownership.Proofs.Restated.Reports
import Ownership.Proofs.Conflict.Pairs
import Ownership.Proofs.Conflict.Within
import Ownership.Proofs.Place.Disjoint
import Ownership.Proofs.Moves.Refill
import Ownership.Proofs.Flow.Beyond
import Ownership.Proofs.Moves.Takers
import Ownership.Proofs.Moves.Blame
import Ownership.Proofs.Source.Literal
import Ownership.Proofs.Source.Failure
import Ownership.Proofs.Report.Canonical
import Ownership.Proofs.Place.Readable
import Ownership.Proofs.Moves.Laws
import Ownership.Proofs.Types.Chains
