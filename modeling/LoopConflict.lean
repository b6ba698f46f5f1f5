import LoopConflict.FileTree
import LoopConflict.Main
import LoopConflict.Report
import LoopConflict.Sources
import LoopConflict.Proofs.Linear.Name
import LoopConflict.Proofs.Linear.Normalize
import LoopConflict.Proofs.Linear.Search
import LoopConflict.Proofs.Linear.Solve
import LoopConflict.Proofs.Linear.Budget
import LoopConflict.Proofs.Text.Decimal
import LoopConflict.Proofs.Linear.Reading
import LoopConflict.Proofs.Linear.Arithmetic
import LoopConflict.Proofs.Access.Names
import LoopConflict.Proofs.Evolution.Stability
import LoopConflict.Proofs.Access.Induction
import LoopConflict.Proofs.Access.Conflict
import LoopConflict.Proofs.Analysis.Pairs
import LoopConflict.Proofs.Analysis.Verdict
import LoopConflict.Proofs.Access.Chain
import LoopConflict.Proofs.Access.Collection
import LoopConflict.Proofs.Analysis.Independence
import LoopConflict.Proofs.Graph.Explore
import LoopConflict.Proofs.Graph.Walk
import LoopConflict.Proofs.Program.Dominance
import LoopConflict.Proofs.Program.Availability
import LoopConflict.Proofs.Loop.Natural
import LoopConflict.Proofs.Loop.Nesting
import LoopConflict.Proofs.Execution.Run
import LoopConflict.Proofs.Execution.Values
import LoopConflict.Proofs.Evolution.Runs
import LoopConflict.Proofs.Evolution.Tally
import LoopConflict.Proofs.Evolution.Meaning
import LoopConflict.Proofs.Evolution.Memory
import LoopConflict.Proofs.Evolution.Describes
import LoopConflict.Proofs.Evolution.FirstFailure
import LoopConflict.Proofs.Evolution.TripCount
import LoopConflict.Proofs.Evolution.ExitBranches
import LoopConflict.Proofs.Evolution.Scope
import LoopConflict.Proofs.Evolution.Constants
import LoopConflict.Proofs.Access.Memory
import LoopConflict.Proofs.Access.Counters
import LoopConflict.Proofs.Access.Bounds
import LoopConflict.Proofs.Access.Roots
import LoopConflict.Proofs.Analysis.Bases
import LoopConflict.Proofs.Analysis.Merging
import LoopConflict.Proofs.Access.Affine
import LoopConflict.Proofs.Evolution.Depth
import LoopConflict.Proofs.Evolution.Requests
import LoopConflict.Proofs.Evolution.LoopWeights
import LoopConflict.Proofs.Evolution.Nests
import LoopConflict.Proofs.Access.Recognition
import LoopConflict.Proofs.Access.Peeling
import LoopConflict.Proofs.Evolution.Order
import LoopConflict.Proofs.Loop.Containment
import LoopConflict.Proofs.Loop.Paths
import LoopConflict.Proofs.Loop.Preorder
import LoopConflict.Proofs.Loop.Numbering
import LoopConflict.Proofs.Evolution.Uniquing
import LoopConflict.Proofs.Evolution.OperandOrder
import LoopConflict.Proofs.Evolution.Keys
import LoopConflict.Proofs.Evolution.Filing
import LoopConflict.Proofs.Evolution.Kinds
import LoopConflict.Proofs.Evolution.Sessions
import LoopConflict.Proofs.Evolution.Moving
import LoopConflict.Proofs.Evolution.Recurrences
import LoopConflict.Proofs.Access.Grouping
import LoopConflict.Proofs.Analysis.Coverage
import LoopConflict.Proofs.Analysis.LoopModel
import LoopConflict.Proofs.Settings.Merging
import LoopConflict.Proofs.Settings.Precedence
import LoopConflict.Proofs.Settings.Exclusion
import LoopConflict.Proofs.Evolution.Renumbering
import LoopConflict.Proofs.Evolution.Mirroring
import LoopConflict.Proofs.Evolution.History
import LoopConflict.Proofs.Access.Mirroring
import LoopConflict.Proofs.Access.Renumbering
import LoopConflict.Proofs.Analysis.Tracing
