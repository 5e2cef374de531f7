import MiddleEnd.Analysis
import MiddleEnd.Binary64
import MiddleEnd.CommandLine
import MiddleEnd.CommandLine.Dominance
import MiddleEnd.CommandLine.Flags
import MiddleEnd.Compiler
import MiddleEnd.Decimal.Layout
import MiddleEnd.Decimal.Reading
import MiddleEnd.Decimal.Shortest
import MiddleEnd.Document.Cursor
import MiddleEnd.Document.Node
import MiddleEnd.Document.Scalar
import MiddleEnd.Document.Text
import MiddleEnd.Document.Timestamp
import MiddleEnd.Document.Token
import MiddleEnd.Dominators
import MiddleEnd.Failure
import MiddleEnd.Fault
import MiddleEnd.Graph.Basic
import MiddleEnd.Graph.Builder
import MiddleEnd.Graph.Components
import MiddleEnd.Graph.Edit
import MiddleEnd.Graph.Integrity
import MiddleEnd.Graph.Listing
import MiddleEnd.Graph.Liveness
import MiddleEnd.Graph.Order
import MiddleEnd.Inference
import MiddleEnd.Literal.Basic
import MiddleEnd.Literal.Conversion
import MiddleEnd.Literal.Fold
import MiddleEnd.Log
import MiddleEnd.Log.Lines
import MiddleEnd.Main
import MiddleEnd.Metrics
import MiddleEnd.Operation
import MiddleEnd.Optimizer
import MiddleEnd.Optimizer.PhiElimination
import MiddleEnd.Optimizer.Rules
import MiddleEnd.Optimizer.TypeUnion
import MiddleEnd.Pipeline
import MiddleEnd.Proofs.Action
import MiddleEnd.Proofs.Bypassing
import MiddleEnd.Proofs.Caching
import MiddleEnd.Proofs.Coalescing
import MiddleEnd.Proofs.Coherence
import MiddleEnd.Proofs.CommonDominator
import MiddleEnd.Proofs.Compiling.Construction
import MiddleEnd.Proofs.Compiling.Corruption
import MiddleEnd.Proofs.Compiling.Definitions
import MiddleEnd.Proofs.Compiling.Integrity
import MiddleEnd.Proofs.Compiling.Layout
import MiddleEnd.Proofs.Compiling.Merging
import MiddleEnd.Proofs.Compiling.Preservation
import MiddleEnd.Proofs.Compiling.Versions
import MiddleEnd.Proofs.Components
import MiddleEnd.Proofs.Convergence
import MiddleEnd.Proofs.Counting
import MiddleEnd.Proofs.Dominance
import MiddleEnd.Proofs.DominatorTree
import MiddleEnd.Proofs.Editing
import MiddleEnd.Proofs.Edits
import MiddleEnd.Proofs.Execution
import MiddleEnd.Proofs.Expansion
import MiddleEnd.Proofs.FinishingOrder
import MiddleEnd.Proofs.Folding.Bitwise
import MiddleEnd.Proofs.Folding.Comparison
import MiddleEnd.Proofs.Folding.Exactness
import MiddleEnd.Proofs.Folding.Typing
import MiddleEnd.Proofs.ImmediateDominators
import MiddleEnd.Proofs.Insertion
import MiddleEnd.Proofs.Integrity
import MiddleEnd.Proofs.Liveness
import MiddleEnd.Proofs.Optimizing.Outcomes
import MiddleEnd.Proofs.Optimizing.ConstantFolding
import MiddleEnd.Proofs.Optimizing.Corruption
import MiddleEnd.Proofs.Optimizing.Effort
import MiddleEnd.Proofs.Optimizing.Fixpoint
import MiddleEnd.Proofs.Optimizing.Intact
import MiddleEnd.Proofs.Optimizing.Invariant
import MiddleEnd.Proofs.Optimizing.Lowering
import MiddleEnd.Proofs.Optimizing.Narrowing
import MiddleEnd.Proofs.Optimizing.Pruning
import MiddleEnd.Proofs.Optimizing.Rules
import MiddleEnd.Proofs.Optimizing.Shortening
import MiddleEnd.Proofs.Optimizing.Steps
import MiddleEnd.Proofs.Optimizing.Sweeps
import MiddleEnd.Proofs.Optimizing.Termination
import MiddleEnd.Proofs.Optimizing.TypeOrder
import MiddleEnd.Proofs.Optimizing.Upkeep
import MiddleEnd.Proofs.Origin
import MiddleEnd.Proofs.PhiCycles
import MiddleEnd.Proofs.PhiPlacement
import MiddleEnd.Proofs.PrunedPlacement
import MiddleEnd.Proofs.Refinement
import MiddleEnd.Proofs.Relabeling
import MiddleEnd.Proofs.Release.Integrity
import MiddleEnd.Proofs.Release.Placement
import MiddleEnd.Proofs.Release.Plan
import MiddleEnd.Proofs.Release.Safety
import MiddleEnd.Proofs.Removal
import MiddleEnd.Proofs.Renaming.Inputs
import MiddleEnd.Proofs.Renaming.Invariant
import MiddleEnd.Proofs.Renaming.Outcome
import MiddleEnd.Proofs.Renaming.Threads
import MiddleEnd.Proofs.Renaming.Walk
import MiddleEnd.Proofs.Replacing
import MiddleEnd.Proofs.Rewiring
import MiddleEnd.Proofs.Scheduling
import MiddleEnd.Proofs.Search
import MiddleEnd.Proofs.Simulation
import MiddleEnd.Proofs.SingleAssignment
import MiddleEnd.Proofs.Substitution
import MiddleEnd.Proofs.Trail
import MiddleEnd.Proofs.Transparency
import MiddleEnd.Proofs.Traversal
import MiddleEnd.Proofs.Verified
import MiddleEnd.Release
import MiddleEnd.Samples
import MiddleEnd.Settings
import MiddleEnd.Settings.File
import MiddleEnd.SingleAssignment
import MiddleEnd.Text.Printable
import MiddleEnd.Text.Quoted
import MiddleEnd.Text.Utf8
import MiddleEnd.Ty
import MiddleEnd.Vertex
import MiddleEnd.VertexSet
