import CircuitRouting.Amplitude
import CircuitRouting.Angle
import CircuitRouting.Basis
import CircuitRouting.Batch
import CircuitRouting.Circuit
import CircuitRouting.CircuitError
import CircuitRouting.Cli.Arguments
import CircuitRouting.Cli.Compile
import CircuitRouting.Cli.Device
import CircuitRouting.Cli.Error
import CircuitRouting.Cli.FileTree
import CircuitRouting.Cli.Host
import CircuitRouting.Cli.Rehearsal
import CircuitRouting.Cli.Run
import CircuitRouting.Cli.Target
import CircuitRouting.CompileError
import CircuitRouting.Compiler
import CircuitRouting.CouplingMap.Basic
import CircuitRouting.CouplingMap.Components
import CircuitRouting.CouplingMap.Distance
import CircuitRouting.Dag.Basic
import CircuitRouting.Dag.Edit
import CircuitRouting.Dag.Integrity
import CircuitRouting.Dag.Order
import CircuitRouting.Dag.Seating
import CircuitRouting.Description.Basic
import CircuitRouting.Description.Reading
import CircuitRouting.Execution
import CircuitRouting.Gate
import CircuitRouting.Graph
import CircuitRouting.Graph.Order
import CircuitRouting.Graph.Wiring
import CircuitRouting.Instruction
import CircuitRouting.Json.Decode
import CircuitRouting.Json.Number
import CircuitRouting.Json.Parser
import CircuitRouting.Json.Printer
import CircuitRouting.Json.Value
import CircuitRouting.Layers
import CircuitRouting.Layout
import CircuitRouting.Main
import CircuitRouting.Numeric.Binary64
import CircuitRouting.Numeric.Hypotenuse
import CircuitRouting.Numeric.Reading
import CircuitRouting.Numeric.Remainder
import CircuitRouting.Numeric.Shortest
import CircuitRouting.Numeric.Sum
import CircuitRouting.Pass.Basic
import CircuitRouting.Pass.Cancellation
import CircuitRouting.Pass.Direction
import CircuitRouting.Pass.Expansion
import CircuitRouting.Pass.Fusion
import CircuitRouting.Pass.Placement
import CircuitRouting.Pass.Routing
import CircuitRouting.Pass.SwapSearch
import CircuitRouting.Pipeline
import CircuitRouting.Proofs.Angle
import CircuitRouting.Proofs.Cancellation.Confluence
import CircuitRouting.Proofs.Cancellation.Stacks
import CircuitRouting.Proofs.Circuit.Built
import CircuitRouting.Proofs.Circuit.Described
import CircuitRouting.Proofs.Circuit.Registers
import CircuitRouting.Proofs.Circuit.RoundTrip
import CircuitRouting.Proofs.Cli.FileTree
import CircuitRouting.Proofs.Cli.OutputName
import CircuitRouting.Proofs.Cli.Saving
import CircuitRouting.Proofs.Compiler.Meaning
import CircuitRouting.Proofs.Compiler.Reordering
import CircuitRouting.Proofs.Compiler.Stages
import CircuitRouting.Proofs.Compiler.Success
import CircuitRouting.Proofs.Compiler.Swapless
import CircuitRouting.Proofs.Compiler.Target
import CircuitRouting.Proofs.Contraction
import CircuitRouting.Proofs.CouplingMap.Components
import CircuitRouting.Proofs.CouplingMap.Connectivity
import CircuitRouting.Proofs.CouplingMap.Distance
import CircuitRouting.Proofs.CouplingMap.Path
import CircuitRouting.Proofs.CouplingMap.Walk
import CircuitRouting.Proofs.Dag.Append
import CircuitRouting.Proofs.Dag.Chains
import CircuitRouting.Proofs.Dag.Edited
import CircuitRouting.Proofs.Dag.Exchange
import CircuitRouting.Proofs.Dag.Grafted
import CircuitRouting.Proofs.Dag.Intact
import CircuitRouting.Proofs.Dag.Laid
import CircuitRouting.Proofs.Dag.LinearExtension
import CircuitRouting.Proofs.Dag.Made
import CircuitRouting.Proofs.Dag.Order
import CircuitRouting.Proofs.Dag.ProgramOrder
import CircuitRouting.Proofs.Dag.Quantum
import CircuitRouting.Proofs.Dag.Reachable
import CircuitRouting.Proofs.Dag.Refused
import CircuitRouting.Proofs.Dag.Removal
import CircuitRouting.Proofs.Dag.Revision
import CircuitRouting.Proofs.Dag.Reworked
import CircuitRouting.Proofs.Dag.Rewritten
import CircuitRouting.Proofs.Dag.Serial
import CircuitRouting.Proofs.Dag.Sound
import CircuitRouting.Proofs.Dag.Splice
import CircuitRouting.Proofs.Dag.Traced
import CircuitRouting.Proofs.Dag.WireLists
import CircuitRouting.Proofs.Dag.WireOps
import CircuitRouting.Proofs.Dag.Woven
import CircuitRouting.Proofs.Dag.Written
import CircuitRouting.Proofs.Direction.Wires
import CircuitRouting.Proofs.Except
import CircuitRouting.Proofs.Expansion.Rebuilt
import CircuitRouting.Proofs.Fusion.Blocks
import CircuitRouting.Proofs.Fusion.Wires
import CircuitRouting.Proofs.Graph.Peel
import CircuitRouting.Proofs.Graph.Slots
import CircuitRouting.Proofs.Hops
import CircuitRouting.Proofs.Keyed
import CircuitRouting.Proofs.Layers
import CircuitRouting.Proofs.Layout
import CircuitRouting.Proofs.Layout.Tables
import CircuitRouting.Proofs.Meaning
import CircuitRouting.Proofs.Pass.Cancellation
import CircuitRouting.Proofs.Pass.Direction
import CircuitRouting.Proofs.Pass.Expansion
import CircuitRouting.Proofs.Pass.Fusion
import CircuitRouting.Proofs.Pass.Placement
import CircuitRouting.Proofs.Pass.SwapSearch
import CircuitRouting.Proofs.Placement.Automatic
import CircuitRouting.Proofs.Qasm.Declarations
import CircuitRouting.Proofs.Qasm.Determined
import CircuitRouting.Proofs.Qasm.Emission
import CircuitRouting.Proofs.Qasm.Statement
import CircuitRouting.Proofs.Routing.Confined
import CircuitRouting.Proofs.Routing.Congruence
import CircuitRouting.Proofs.Routing.Single
import CircuitRouting.Proofs.Routing.Success
import CircuitRouting.Proofs.Routing.Swapless
import CircuitRouting.Proofs.Routing.Transcript
import CircuitRouting.Proofs.Schedule
import CircuitRouting.Proofs.Simplification
import CircuitRouting.Proofs.Slices
import CircuitRouting.Proofs.Sorted
import CircuitRouting.Proofs.Text
import CircuitRouting.Proofs.Tokens
import CircuitRouting.Proofs.Trace
import CircuitRouting.Properties
import CircuitRouting.Qasm
import CircuitRouting.Random.Chooser
import CircuitRouting.Random.Keystream
import CircuitRouting.Random.Sampling
import CircuitRouting.Report
import CircuitRouting.Sorted
import CircuitRouting.Tabulation
import CircuitRouting.Text.Blank
import CircuitRouting.Text.CaseIgnorable
import CircuitRouting.Text.Cased
import CircuitRouting.Text.CharRange
import CircuitRouting.Text.Lowercase
import CircuitRouting.Text.Whole
import CircuitRouting.Unitary
import CircuitRouting.Yaml.Cursor
import CircuitRouting.Yaml.Decode
import CircuitRouting.Yaml.Grammar
import CircuitRouting.Yaml.Node
import CircuitRouting.Yaml.Property
import CircuitRouting.Yaml.Scalar.Block
import CircuitRouting.Yaml.Scalar.Gap
import CircuitRouting.Yaml.Scalar.Plain
import CircuitRouting.Yaml.Scalar.Quoted
import CircuitRouting.Yaml.Scanner
import CircuitRouting.Yaml.Token
import CircuitRouting.Proofs.Routing.Trials
import CircuitRouting.Proofs.Circuit.Addressing
import CircuitRouting.Proofs.Execution
import CircuitRouting.Proofs.Serialization
