import Codegen86.Allocation.Assign
import Codegen86.Allocation.Liveness
import Codegen86.Allocation.Program
import Codegen86.Allocation.Residents
import Codegen86.Allocation.State
import Codegen86.Arith
import Codegen86.Binary64.Basic
import Codegen86.Binary64.Read
import Codegen86.Binary64.Shortest
import Codegen86.Calling
import Codegen86.CommandLine
import Codegen86.Compile
import Codegen86.Config
import Codegen86.Error
import Codegen86.Files
import Codegen86.Frame
import Codegen86.IR.Builder
import Codegen86.IR.Function
import Codegen86.IR.Op
import Codegen86.IR.Outline
import Codegen86.IR.ParseError
import Codegen86.IR.Printer
import Codegen86.IR.Resolve
import Codegen86.Journal
import Codegen86.Machine.Fault
import Codegen86.Machine.Run
import Codegen86.Machine.State
import Codegen86.Main
import Codegen86.Peephole.EmptyBlocks
import Codegen86.Peephole.Optimize
import Codegen86.Peephole.Rule
import Codegen86.Proofs.Allocation.Blocks
import Codegen86.Proofs.Allocation.Bookkeeping
import Codegen86.Proofs.Allocation.Chains
import Codegen86.Proofs.Allocation.Correct
import Codegen86.Proofs.Allocation.Emitted
import Codegen86.Proofs.Allocation.Eviction
import Codegen86.Proofs.Allocation.Given
import Codegen86.Proofs.Allocation.Idempotent
import Codegen86.Proofs.Allocation.Idle
import Codegen86.Proofs.Allocation.Instructions
import Codegen86.Proofs.Allocation.Invariant
import Codegen86.Proofs.Allocation.Invocations
import Codegen86.Proofs.Allocation.Liveness
import Codegen86.Proofs.Allocation.MoveInstruction
import Codegen86.Proofs.Allocation.Moves
import Codegen86.Proofs.Allocation.Operands
import Codegen86.Proofs.Allocation.Pressure
import Codegen86.Proofs.Allocation.Recorded
import Codegen86.Proofs.Allocation.Rendered
import Codegen86.Proofs.Allocation.Residency
import Codegen86.Proofs.Allocation.Residents
import Codegen86.Proofs.Allocation.Saved
import Codegen86.Proofs.Allocation.Separate
import Codegen86.Proofs.Allocation.Spilling
import Codegen86.Proofs.Allocation.Step
import Codegen86.Proofs.Allocation.Steps
import Codegen86.Proofs.Allocation.Unchanged
import Codegen86.Proofs.Allocation.Writes
import Codegen86.Proofs.Except
import Codegen86.Proofs.FrameSlots
import Codegen86.Proofs.Frames
import Codegen86.Proofs.IR.Built
import Codegen86.Proofs.IR.Canonical
import Codegen86.Proofs.IR.Closed
import Codegen86.Proofs.IR.Comparisons
import Codegen86.Proofs.IR.Outlined
import Codegen86.Proofs.IR.Parsed
import Codegen86.Proofs.IR.Printed
import Codegen86.Proofs.IR.References
import Codegen86.Proofs.IR.Reread
import Codegen86.Proofs.IR.Resolved
import Codegen86.Proofs.IR.Semantics
import Codegen86.Proofs.IR.Spelling
import Codegen86.Proofs.Linking.Addresses
import Codegen86.Proofs.Linking.Assembly
import Codegen86.Proofs.Linking.Directory
import Codegen86.Proofs.Linking.Layout
import Codegen86.Proofs.Linking.Program
import Codegen86.Proofs.Linking.Resolved
import Codegen86.Proofs.Lookup
import Codegen86.Proofs.Machine.Convention
import Codegen86.Proofs.Machine.Discipline
import Codegen86.Proofs.Machine.Limits
import Codegen86.Proofs.Machine.Loaded
import Codegen86.Proofs.Machine.Mirror
import Codegen86.Proofs.Machine.Places
import Codegen86.Proofs.Machine.Steps
import Codegen86.Proofs.Peephole.Applied
import Codegen86.Proofs.Peephole.Compaction
import Codegen86.Proofs.Peephole.Correct
import Codegen86.Proofs.Peephole.Deletion
import Codegen86.Proofs.Peephole.Destinations
import Codegen86.Proofs.Peephole.Exhausted
import Codegen86.Proofs.Peephole.FixedPoint
import Codegen86.Proofs.Peephole.Passes
import Codegen86.Proofs.Peephole.Place
import Codegen86.Proofs.Peephole.Rules
import Codegen86.Proofs.Peephole.Soundness
import Codegen86.Proofs.Peephole.Windows
import Codegen86.Proofs.Pools
import Codegen86.Proofs.Recordings
import Codegen86.Proofs.RegisterSets
import Codegen86.Proofs.Selection.ActivationRuns
import Codegen86.Proofs.Selection.BlockRuns
import Codegen86.Proofs.Selection.Building
import Codegen86.Proofs.Selection.CallSites
import Codegen86.Proofs.Selection.Contract
import Codegen86.Proofs.Selection.Discovery
import Codegen86.Proofs.Selection.EarlyReads
import Codegen86.Proofs.Selection.Emission
import Codegen86.Proofs.Selection.Evaluation
import Codegen86.Proofs.Selection.Failures
import Codegen86.Proofs.Selection.Functions
import Codegen86.Proofs.Selection.Meaning
import Codegen86.Proofs.Selection.Names
import Codegen86.Proofs.Selection.Operations
import Codegen86.Proofs.Selection.Placement
import Codegen86.Proofs.Selection.Programs
import Codegen86.Proofs.Selection.Reachable
import Codegen86.Proofs.Selection.Recorded
import Codegen86.Proofs.Selection.Scenes
import Codegen86.Proofs.Selection.Search
import Codegen86.Proofs.Selection.Slots
import Codegen86.Proofs.Selection.Statistics
import Codegen86.Proofs.Selection.Steps
import Codegen86.Proofs.Stack.Activations
import Codegen86.Proofs.Stack.Allocated
import Codegen86.Proofs.Stack.Allocates
import Codegen86.Proofs.Stack.Compiled
import Codegen86.Proofs.Stack.Compiles
import Codegen86.Proofs.Stack.Consistent
import Codegen86.Proofs.Stack.Contained
import Codegen86.Proofs.Stack.Execution
import Codegen86.Proofs.Stack.Finished
import Codegen86.Proofs.Stack.Framing
import Codegen86.Proofs.Stack.Optimized
import Codegen86.Proofs.Stack.Programs
import Codegen86.Proofs.Stack.Realized
import Codegen86.Proofs.Stack.Rendering
import Codegen86.Proofs.Stack.Results
import Codegen86.Proofs.Stack.Runs
import Codegen86.Proofs.Stack.Selected
import Codegen86.Proofs.Stack.Spilled
import Codegen86.Proofs.Stack.Stages
import Codegen86.Proofs.Stack.Trimmed
import Codegen86.Proofs.Symbolic.Activations
import Codegen86.Proofs.Symbolic.Bounded
import Codegen86.Proofs.Symbolic.Calls
import Codegen86.Proofs.Symbolic.Code
import Codegen86.Proofs.Symbolic.Effect
import Codegen86.Proofs.Symbolic.Execution
import Codegen86.Proofs.Symbolic.Linked
import Codegen86.Proofs.Symbolic.Straight
import Codegen86.Proofs.Symbolic.View
import Codegen86.Proofs.Text
import Codegen86.Proofs.Words
import Codegen86.Proofs.Worklists
import Codegen86.Selection.Lower
import Codegen86.Selection.Placement
import Codegen86.Selection.Plan
import Codegen86.Selection.Program
import Codegen86.Selection.State
import Codegen86.Target.Instruction
import Codegen86.Target.Layout
import Codegen86.Target.Listing
import Codegen86.Target.Operand
import Codegen86.Target.Pool
import Codegen86.Target.Program
import Codegen86.Target.Register
import Codegen86.Target.RegisterSet
import Codegen86.Text.Blank
import Codegen86.Text.Decimal
import Codegen86.Text.Split
import Codegen86.Word
