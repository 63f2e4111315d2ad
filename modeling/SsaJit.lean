import SsaJit.Build.Accelerated
import SsaJit.Build.Acquire
import SsaJit.Build.Arith
import SsaJit.Build.Control
import SsaJit.Build.Handle
import SsaJit.Build.Instr
import SsaJit.Build.Lanes
import SsaJit.Build.Script
import SsaJit.Build.Session
import SsaJit.Build.Storage
import SsaJit.Build.Type
import SsaJit.Cache.Basic
import SsaJit.Cache.Key
import SsaJit.Config.Basic
import SsaJit.Config.Locate
import SsaJit.Config.Read
import SsaJit.Config.Write
import SsaJit.Eval
import SsaJit.Fault
import SsaJit.Graph.Basic
import SsaJit.Graph.Dominance
import SsaJit.Graph.Edit
import SsaJit.Graph.Order
import SsaJit.Graph.Text
import SsaJit.Graph.Verify
import SsaJit.Kind
import SsaJit.Llvm.Export
import SsaJit.Llvm.Number
import SsaJit.Log
import SsaJit.Lower.Frame
import SsaJit.Lower.Function
import SsaJit.Lower.Scalar
import SsaJit.Lower.Value
import SsaJit.Lower.Vector
import SsaJit.Native.Blocks
import SsaJit.Native.Engine
import SsaJit.Native.Host
import SsaJit.Native.LifeCycle
import SsaJit.Native.Pages
import SsaJit.Native.Recorded
import SsaJit.Native.Routine
import SsaJit.Op
import SsaJit.Pass.Basic
import SsaJit.Pass.Combine
import SsaJit.Pass.CommonValue
import SsaJit.Pass.ConstProp
import SsaJit.Pass.ControlFlow
import SsaJit.Pass.Dead
import SsaJit.Pass.Hoist
import SsaJit.Pass.Pipeline
import SsaJit.Pass.Promote
import SsaJit.Pass.Reassociate
import SsaJit.Proofs.Bounds
import SsaJit.Proofs.Build.Arms
import SsaJit.Proofs.Build.Behaviour
import SsaJit.Proofs.Build.Conversion
import SsaJit.Proofs.Build.Division
import SsaJit.Proofs.Build.Divisor
import SsaJit.Proofs.Build.Draft
import SsaJit.Proofs.Build.Ends
import SsaJit.Proofs.Build.Exact
import SsaJit.Proofs.Build.Expressions
import SsaJit.Proofs.Build.Finish
import SsaJit.Proofs.Build.HighProduct
import SsaJit.Proofs.Build.LaneWise
import SsaJit.Proofs.Build.Nesting
import SsaJit.Proofs.Build.Operators
import SsaJit.Proofs.Build.Pieces
import SsaJit.Proofs.Build.Program
import SsaJit.Proofs.Build.Reshape
import SsaJit.Proofs.Build.Saturation
import SsaJit.Proofs.Build.Scopes
import SsaJit.Proofs.Build.Stages
import SsaJit.Proofs.Build.Statements
import SsaJit.Proofs.Build.Steps
import SsaJit.Proofs.Build.Values
import SsaJit.Proofs.Build.Waiting
import SsaJit.Proofs.Bytes
import SsaJit.Proofs.Cache.History
import SsaJit.Proofs.Cache.Keys
import SsaJit.Proofs.Cache.Lru
import SsaJit.Proofs.Cache.Order
import SsaJit.Proofs.Cache.References
import SsaJit.Proofs.Cache.Run
import SsaJit.Proofs.Cache.Store
import SsaJit.Proofs.Edges.Accepted
import SsaJit.Proofs.Edges.Drawn
import SsaJit.Proofs.Edges.Fold
import SsaJit.Proofs.Edges.Redirect
import SsaJit.Proofs.Edges.Step
import SsaJit.Proofs.Exec.Combine
import SsaJit.Proofs.Exec.CommonValue
import SsaJit.Proofs.Exec.ConstProp
import SsaJit.Proofs.Exec.ControlFlow
import SsaJit.Proofs.Exec.Dead
import SsaJit.Proofs.Exec.Edges
import SsaJit.Proofs.Exec.Edit
import SsaJit.Proofs.Exec.Equal
import SsaJit.Proofs.Exec.Hoist
import SsaJit.Proofs.Exec.Invariant
import SsaJit.Proofs.Exec.Lanes
import SsaJit.Proofs.Exec.Mirror
import SsaJit.Proofs.Exec.Private
import SsaJit.Proofs.Exec.Processor
import SsaJit.Proofs.Exec.Promote
import SsaJit.Proofs.Exec.Pure
import SsaJit.Proofs.Exec.Reassociate
import SsaJit.Proofs.Exec.Regions
import SsaJit.Proofs.Exec.Semantics
import SsaJit.Proofs.Exec.Shape
import SsaJit.Proofs.Exec.Track
import SsaJit.Proofs.Graph.DepthFirst
import SsaJit.Proofs.Graph.Dominators
import SsaJit.Proofs.Graph.Frontiers
import SsaJit.Proofs.Graph.Loops
import SsaJit.Proofs.Graph.Paths
import SsaJit.Proofs.Graph.Tree
import SsaJit.Proofs.Graph.Walk
import SsaJit.Proofs.Lanes
import SsaJit.Proofs.Lower.BitSlots
import SsaJit.Proofs.Lower.Bits
import SsaJit.Proofs.Lower.Branches
import SsaJit.Proofs.Lower.Calls
import SsaJit.Proofs.Lower.Cast
import SsaJit.Proofs.Lower.Confined
import SsaJit.Proofs.Lower.Copy
import SsaJit.Proofs.Lower.Course
import SsaJit.Proofs.Lower.Frame
import SsaJit.Proofs.Lower.Generate
import SsaJit.Proofs.Lower.Integer
import SsaJit.Proofs.Lower.Layout
import SsaJit.Proofs.Lower.Marks
import SsaJit.Proofs.Lower.Packed
import SsaJit.Proofs.Lower.Phis
import SsaJit.Proofs.Lower.Pieces
import SsaJit.Proofs.Lower.Places
import SsaJit.Proofs.Lower.Settled
import SsaJit.Proofs.Lower.Total
import SsaJit.Proofs.Lower.Unsigned
import SsaJit.Proofs.Lower.Vectors
import SsaJit.Proofs.Native.Blocks
import SsaJit.Proofs.Native.Compile
import SsaJit.Proofs.Native.LifeCycle
import SsaJit.Proofs.Native.Operations
import SsaJit.Proofs.Native.Pages
import SsaJit.Proofs.Numbers
import SsaJit.Proofs.Outcome
import SsaJit.Proofs.Pass.Basic
import SsaJit.Proofs.Pass.Combine
import SsaJit.Proofs.Pass.CommonValue
import SsaJit.Proofs.Pass.ConstProp
import SsaJit.Proofs.Pass.Constants
import SsaJit.Proofs.Pass.ControlFlow
import SsaJit.Proofs.Pass.Currents
import SsaJit.Proofs.Pass.Dead
import SsaJit.Proofs.Pass.Facts
import SsaJit.Proofs.Pass.Hoist
import SsaJit.Proofs.Pass.Promote
import SsaJit.Proofs.Pass.Reassociate
import SsaJit.Proofs.Pass.Rename
import SsaJit.Proofs.Pass.Renamed
import SsaJit.Proofs.Pass.Repeats
import SsaJit.Proofs.Pass.Report
import SsaJit.Proofs.Pass.Rewrites
import SsaJit.Proofs.Pass.Sequence
import SsaJit.Proofs.Pass.Shrinking
import SsaJit.Proofs.Pass.Slots
import SsaJit.Proofs.Single
import SsaJit.Proofs.Ssa.Answers
import SsaJit.Proofs.Ssa.Edges
import SsaJit.Proofs.Ssa.Fold
import SsaJit.Proofs.Ssa.Form
import SsaJit.Proofs.Ssa.Frame
import SsaJit.Proofs.Ssa.Merge
import SsaJit.Proofs.Ssa.Paths
import SsaJit.Proofs.Ssa.Rewrite
import SsaJit.Proofs.Ssa.Tidy
import SsaJit.Proofs.Ssa.Trim
import SsaJit.Proofs.Ssa.Verify
import SsaJit.Proofs.Table
import SsaJit.Proofs.X86.Encoding
import SsaJit.Proofs.X86.Memory
import SsaJit.Proofs.X86.Relocation
import SsaJit.Proofs.X86.Run
import SsaJit.Single
import SsaJit.Text
import SsaJit.Toml.Parser
import SsaJit.Toml.Scan
import SsaJit.Ty
import SsaJit.Violation
import SsaJit.Word
import SsaJit.X86.Assembler
import SsaJit.X86.Decode
import SsaJit.X86.Instr
import SsaJit.X86.Lanes
import SsaJit.X86.Listing
import SsaJit.X86.Machine
import SsaJit.X86.Register
import SsaJit.X86.Sse
