import PointsTo.Analysis
import PointsTo.Analysis.Json
import PointsTo.Answers
import PointsTo.Collect
import PointsTo.Command.Arguments
import PointsTo.Command.Basic
import PointsTo.Command.Run
import PointsTo.Config.Basic
import PointsTo.Config.Document
import PointsTo.Config.Json
import PointsTo.Facts
import PointsTo.Fault
import PointsTo.FieldCopies
import PointsTo.Graph.Basic
import PointsTo.Graph.Draft
import PointsTo.Graph.Json
import PointsTo.Graph.Render
import PointsTo.Hooks
import PointsTo.Host.Basic
import PointsTo.Host.Directory
import PointsTo.Host.Load
import PointsTo.Host.Save
import PointsTo.Inline
import PointsTo.Json.Basic
import PointsTo.Json.Parse
import PointsTo.Json.Print
import PointsTo.Json.Read
import PointsTo.Json.Token
import PointsTo.Log
import PointsTo.Main
import PointsTo.Method.Blocks
import PointsTo.Method.Effect
import PointsTo.OrderedSet
import PointsTo.Pointer.Basic
import PointsTo.Pointer.Json
import PointsTo.Pointer.Table
import PointsTo.Program.Basic
import PointsTo.Program.Draft
import PointsTo.Program.Json
import PointsTo.Program.Lookup
import PointsTo.Resolver
import PointsTo.Sites
import PointsTo.Sites.Json
import PointsTo.Solver
import PointsTo.Text.Digits
import PointsTo.Text.Double
import PointsTo.UnionFind
import PointsTo.Worklist
import PointsTo.Yaml.Basic
import PointsTo.Yaml.Character
import PointsTo.Yaml.Parse
import PointsTo.Yaml.Print
import PointsTo.Yaml.Scalar
import PointsTo.Yaml.Scan
import PointsTo.Yaml.Token
import PointsTo.Proofs.Allocations
import PointsTo.Proofs.Answers
import PointsTo.Proofs.Blocks
import PointsTo.Proofs.Bodies
import PointsTo.Proofs.Collected
import PointsTo.Proofs.Config
import PointsTo.Proofs.Construction
import PointsTo.Proofs.ControlFlow
import PointsTo.Proofs.Directory
import PointsTo.Proofs.Execution
import PointsTo.Proofs.Facts
import PointsTo.Proofs.Fault
import PointsTo.Proofs.FieldClosure
import PointsTo.Proofs.FieldCopies
import PointsTo.Proofs.FieldRelays
import PointsTo.Proofs.Freezing
import PointsTo.Proofs.Granularity
import PointsTo.Proofs.Graph
import PointsTo.Proofs.Inline.Accounting
import PointsTo.Proofs.Inline.Arguments
import PointsTo.Proofs.Inline.Bindings
import PointsTo.Proofs.Inline.Bounds
import PointsTo.Proofs.Inline.Census
import PointsTo.Proofs.Inline.Exits
import PointsTo.Proofs.Inline.Layout
import PointsTo.Proofs.Inline.Loop
import PointsTo.Proofs.Inline.Machine
import PointsTo.Proofs.Inline.Moments
import PointsTo.Proofs.Inline.Realization
import PointsTo.Proofs.Inline.Recursive
import PointsTo.Proofs.Inline.RecursiveSteps
import PointsTo.Proofs.Inline.Returns
import PointsTo.Proofs.Inline.Rows
import PointsTo.Proofs.Inline.Splice
import PointsTo.Proofs.Inline.Stack
import PointsTo.Proofs.Inline.Walks
import PointsTo.Proofs.Inline.WriteBack
import PointsTo.Proofs.Interning
import PointsTo.Proofs.Json.Parse
import PointsTo.Proofs.Json.Scan
import PointsTo.Proofs.Json.Variant
import PointsTo.Proofs.Labels
import PointsTo.Proofs.Moves
import PointsTo.Proofs.NamedBlocks
import PointsTo.Proofs.Numbering
import PointsTo.Proofs.Partition
import PointsTo.Proofs.Policies
import PointsTo.Proofs.Program
import PointsTo.Proofs.Ranks
import PointsTo.Proofs.Registered
import PointsTo.Proofs.Registry
import PointsTo.Proofs.Renaming.Graph
import PointsTo.Proofs.Renaming.Inlining
import PointsTo.Proofs.Renaming.Sites
import PointsTo.Proofs.Renaming.Table
import PointsTo.Proofs.Reordering
import PointsTo.Proofs.Resolver
import PointsTo.Proofs.Saturation
import PointsTo.Proofs.Solver.Budget
import PointsTo.Proofs.Solver.LeastSolution
import PointsTo.Proofs.Solver.Monotone
import PointsTo.Proofs.Solver.Pieces
import PointsTo.Proofs.Solver.Progress
import PointsTo.Proofs.Solver.Ranges
import PointsTo.Proofs.Solver.Relabeling
import PointsTo.Proofs.Solver.Splitting
import PointsTo.Proofs.Solver.Unassigned
import PointsTo.Proofs.Solver.Walks
import PointsTo.Proofs.Soundness.Analysis
import PointsTo.Proofs.Soundness.Answers
import PointsTo.Proofs.Soundness.Fields
import PointsTo.Proofs.Soundness.Formals
import PointsTo.Proofs.Soundness.Frames
import PointsTo.Proofs.Soundness.Simulation
import PointsTo.Proofs.Soundness.Sites
import PointsTo.Proofs.Soundness.Steps
import PointsTo.Proofs.Stored
import PointsTo.Proofs.TestPoints
import PointsTo.Proofs.Text.Digits
import PointsTo.Proofs.Text.Double
import PointsTo.Proofs.Uninlined
import PointsTo.Proofs.UnionFind
import PointsTo.Proofs.Yaml.Number
import PointsTo.Proofs.Yaml.Parse
import PointsTo.Proofs.Yaml.Scalar
import PointsTo.Proofs.Yaml.Scan
