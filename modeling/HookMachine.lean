import HookMachine.Arena
import HookMachine.Arena.View
import HookMachine.Assembler
import HookMachine.Clearance
import HookMachine.Collector
import HookMachine.Config
import HookMachine.Config.CommandLine
import HookMachine.Config.Reader
import HookMachine.Connection.Firing
import HookMachine.Connection.Registry
import HookMachine.Decimal.Reading
import HookMachine.Decimal.Shortest
import HookMachine.Digest.Sha1
import HookMachine.Environment.Cache
import HookMachine.Environment.Lookup
import HookMachine.Execution.Call
import HookMachine.Execution.Field
import HookMachine.Execution.Frame
import HookMachine.Execution.Instruction
import HookMachine.Execution.Invoke
import HookMachine.Fault
import HookMachine.Guard
import HookMachine.Heap
import HookMachine.Hook.Interception
import HookMachine.Hook.Registry
import HookMachine.Host
import HookMachine.Identity
import HookMachine.Inspection.Criteria
import HookMachine.Inspection.Filter
import HookMachine.Instruction
import HookMachine.Limits
import HookMachine.Machine
import HookMachine.Main
import HookMachine.Native
import HookMachine.Number
import HookMachine.Opcode
import HookMachine.Program
import HookMachine.Proofs.Accounts.Balance
import HookMachine.Proofs.Accounts.Dropping
import HookMachine.Proofs.Accounts.Sessions
import HookMachine.Proofs.Accounts.Settlement
import HookMachine.Proofs.Arena.History
import HookMachine.Proofs.Arena.Upcoming
import HookMachine.Proofs.Bounds.Course
import HookMachine.Proofs.Bounds.Idling
import HookMachine.Proofs.Bounds.Instructions
import HookMachine.Proofs.Bounds.Limits
import HookMachine.Proofs.Bounds.Log
import HookMachine.Proofs.Bounds.Proceeding
import HookMachine.Proofs.Bounds.Stacks
import HookMachine.Proofs.Bounds.Steadiness
import HookMachine.Proofs.Bounds.Surface
import HookMachine.Proofs.Bounds.Termination
import HookMachine.Proofs.Capture.Aliases
import HookMachine.Proofs.Capture.Assignments
import HookMachine.Proofs.Capture.Births
import HookMachine.Proofs.Capture.Capturing
import HookMachine.Proofs.Capture.Cells
import HookMachine.Proofs.Capture.Depths
import HookMachine.Proofs.Capture.Lineage
import HookMachine.Proofs.Capture.Story
import HookMachine.Proofs.Collection.Exactness
import HookMachine.Proofs.Collection.Reachability
import HookMachine.Proofs.Collection.Transparency
import HookMachine.Proofs.Config.Lines
import HookMachine.Proofs.Config.Values
import HookMachine.Proofs.Connections.Calm
import HookMachine.Proofs.Connections.Firing
import HookMachine.Proofs.Connections.History
import HookMachine.Proofs.Connections.Points
import HookMachine.Proofs.Connections.Wiring
import HookMachine.Proofs.Deeds.Activations
import HookMachine.Proofs.Deeds.Confinement
import HookMachine.Proofs.Deeds.Courses
import HookMachine.Proofs.Deeds.Following
import HookMachine.Proofs.Deeds.FollowingPoints
import HookMachine.Proofs.Deeds.FollowingSurface
import HookMachine.Proofs.Deeds.Founding
import HookMachine.Proofs.Deeds.Interleaving
import HookMachine.Proofs.Deeds.Layers
import HookMachine.Proofs.Deeds.Levels
import HookMachine.Proofs.Deeds.Operations
import HookMachine.Proofs.Deeds.Overlays
import HookMachine.Proofs.Deeds.Permanence
import HookMachine.Proofs.Deeds.Protection
import HookMachine.Proofs.Deeds.Registries
import HookMachine.Proofs.Deeds.Runs
import HookMachine.Proofs.Deeds.Scope
import HookMachine.Proofs.Deeds.Surface
import HookMachine.Proofs.Digest.Streams
import HookMachine.Proofs.Execution.Approximation
import HookMachine.Proofs.Execution.Callers
import HookMachine.Proofs.Execution.Control
import HookMachine.Proofs.Execution.Convention
import HookMachine.Proofs.Execution.Culprits
import HookMachine.Proofs.Execution.Ending
import HookMachine.Proofs.Execution.Invocations
import HookMachine.Proofs.Execution.Monotonicity
import HookMachine.Proofs.Execution.Nesting
import HookMachine.Proofs.Execution.Outcomes
import HookMachine.Proofs.Execution.Propagation
import HookMachine.Proofs.Execution.Recursion
import HookMachine.Proofs.Execution.Redirects
import HookMachine.Proofs.Execution.Relays
import HookMachine.Proofs.Execution.Trace
import HookMachine.Proofs.Hook.Entries
import HookMachine.Proofs.Hook.History
import HookMachine.Proofs.Hook.Installation
import HookMachine.Proofs.Hook.Log
import HookMachine.Proofs.Hook.Rehooking
import HookMachine.Proofs.Hook.SlotHistory
import HookMachine.Proofs.Hook.Slots
import HookMachine.Proofs.Hook.Trace
import HookMachine.Proofs.Inspection.Finding
import HookMachine.Proofs.Inspection.Spelling
import HookMachine.Proofs.Instruction.Assembly
import HookMachine.Proofs.Instruction.Formats
import HookMachine.Proofs.Instruction.Places
import HookMachine.Proofs.Instruction.Pooling
import HookMachine.Proofs.Instruction.Words
import HookMachine.Proofs.Likeness.Arenas
import HookMachine.Proofs.Likeness.Calls
import HookMachine.Proofs.Likeness.Deepening
import HookMachine.Proofs.Likeness.Entries
import HookMachine.Proofs.Likeness.Frames
import HookMachine.Proofs.Likeness.Instructions
import HookMachine.Proofs.Likeness.Interception
import HookMachine.Proofs.Likeness.Judgement
import HookMachine.Proofs.Likeness.Mirrors
import HookMachine.Proofs.Likeness.Objects
import HookMachine.Proofs.Likeness.Plans
import HookMachine.Proofs.Likeness.Primitives
import HookMachine.Proofs.Likeness.Registries
import HookMachine.Proofs.Likeness.Renaming
import HookMachine.Proofs.Likeness.Requests
import HookMachine.Proofs.Likeness.Resizing
import HookMachine.Proofs.Likeness.Runs
import HookMachine.Proofs.Likeness.Surface
import HookMachine.Proofs.Likeness.Tables
import HookMachine.Proofs.Likeness.Tie
import HookMachine.Proofs.Likeness.Twins
import HookMachine.Proofs.Likeness.Whole
import HookMachine.Proofs.Likeness.Widening
import HookMachine.Proofs.Likeness.Writes
import HookMachine.Proofs.Number.Canonical
import HookMachine.Proofs.Number.Counting
import HookMachine.Proofs.Number.Zeros
import HookMachine.Proofs.SelfCheck.Loading
import HookMachine.Proofs.SelfCheck.Scaling
import HookMachine.Proofs.SelfCheck.Thresholds
import HookMachine.Proofs.Sharing.Constants
import HookMachine.Proofs.Sharing.Prototypes
import HookMachine.Proofs.Sharing.Runtimes
import HookMachine.Proofs.Soundness.Activations
import HookMachine.Proofs.Soundness.Behaviour
import HookMachine.Proofs.Soundness.Calls
import HookMachine.Proofs.Soundness.Closed
import HookMachine.Proofs.Soundness.Effects
import HookMachine.Proofs.Soundness.Fields
import HookMachine.Proofs.Soundness.Hooks
import HookMachine.Proofs.Soundness.Instructions
import HookMachine.Proofs.Soundness.Judgement
import HookMachine.Proofs.Soundness.Ledger
import HookMachine.Proofs.Soundness.Lifetime
import HookMachine.Proofs.Soundness.Primitives
import HookMachine.Proofs.Soundness.PrototypeContents
import HookMachine.Proofs.Soundness.Reflection
import HookMachine.Proofs.Soundness.Registries
import HookMachine.Proofs.Soundness.Scripts
import HookMachine.Proofs.Soundness.Situations
import HookMachine.Proofs.Soundness.Soundness
import HookMachine.Proofs.Soundness.TableContents
import HookMachine.Proofs.Soundness.Validity
import HookMachine.Proofs.Table.Alteration
import HookMachine.Proofs.Table.Borders
import HookMachine.Proofs.Table.Chains
import HookMachine.Proofs.Table.Fields
import HookMachine.Proofs.Table.FiniteMap
import HookMachine.Proofs.Table.Invariants
import HookMachine.Proofs.Table.Keys
import HookMachine.Proofs.Table.Ownership
import HookMachine.Proofs.Wrapping.Transparency
import HookMachine.Prototype
import HookMachine.Reflection
import HookMachine.Request
import HookMachine.Script.Argument
import HookMachine.Script.Surface
import HookMachine.SelfCheck
import HookMachine.Service
import HookMachine.Table
import HookMachine.Table.Listing
import HookMachine.Text.Blank
import HookMachine.Text.Hex
import HookMachine.Text.Pieces
import HookMachine.Value
