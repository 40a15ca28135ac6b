import RealMode.BitSet
import RealMode.Command.Arguments
import RealMode.Command.Execute
import RealMode.Decode.Basic
import RealMode.Decode.Encoding
import RealMode.Decode.Opcode
import RealMode.Decode.Reader
import RealMode.Disassembly.Basic
import RealMode.Disassembly.Fault
import RealMode.Disassembly.Finish
import RealMode.Disassembly.Run
import RealMode.Disassembly.Walk
import RealMode.Dispatch
import RealMode.FlowGraph.Basic
import RealMode.FlowGraph.Build
import RealMode.FlowGraph.Liveness
import RealMode.Fusion
import RealMode.Image.Basic
import RealMode.Image.Header
import RealMode.Image.Memory
import RealMode.Instruction.Basic
import RealMode.Instruction.Mnemonic
import RealMode.Instruction.Operand
import RealMode.Instruction.Text
import RealMode.Instruction.Usage
import RealMode.Machine.Address
import RealMode.Machine.AddressMap
import RealMode.Machine.Flag
import RealMode.Machine.Local
import RealMode.Machine.Register
import RealMode.Machine.Word
import RealMode.Main
import RealMode.Proofs.AddressMap
import RealMode.Proofs.AddressText
import RealMode.Proofs.Decode.Locality
import RealMode.Proofs.Decode.OpcodeTable
import RealMode.Proofs.Decode.Operands
import RealMode.Proofs.Decode.PrefixBytes
import RealMode.Proofs.Decode.PrefixCode
import RealMode.Proofs.Decode.WrittenUsage
import RealMode.Proofs.Disassembly.AddedTemplates
import RealMode.Proofs.Disassembly.ControlFlow
import RealMode.Proofs.Disassembly.Encoded
import RealMode.Proofs.Disassembly.Exits
import RealMode.Proofs.Disassembly.Footprint
import RealMode.Proofs.Disassembly.Guards
import RealMode.Proofs.Disassembly.InstructionLimit
import RealMode.Proofs.Disassembly.Listing
import RealMode.Proofs.Disassembly.Pairs
import RealMode.Proofs.Disassembly.Reach
import RealMode.Proofs.Disassembly.Shape
import RealMode.Proofs.Disassembly.SideTables
import RealMode.Proofs.FlowGraph.Annotation
import RealMode.Proofs.FlowGraph.BlockWalk
import RealMode.Proofs.FlowGraph.Blocks
import RealMode.Proofs.FlowGraph.Building
import RealMode.Proofs.FlowGraph.Endless
import RealMode.Proofs.FlowGraph.Filling
import RealMode.Proofs.FlowGraph.Growth
import RealMode.Proofs.FlowGraph.LeastSolution
import RealMode.Proofs.FlowGraph.LivePaths
import RealMode.Proofs.FlowGraph.LiveRuns
import RealMode.Proofs.FlowGraph.LoadPairs
import RealMode.Proofs.FlowGraph.Partition
import RealMode.Proofs.FlowGraph.Refinement
import RealMode.Proofs.FlowGraph.Refit
import RealMode.Proofs.FlowGraph.Structure
import RealMode.Proofs.FlowGraph.SwitchTargets
import RealMode.Proofs.FlowGraph.Termination
import RealMode.Proofs.Instruction.WrittenForm
import RealMode.Proofs.Lists
import RealMode.Proofs.LoadFusion
import RealMode.Proofs.ProgramFile
import RealMode.Proofs.Recognition
import RealMode.Proofs.Survey.Discovery
import RealMode.Proofs.Survey.Order
import RealMode.Proofs.Survey.Tracking
import RealMode.Proofs.Survey.Waves
import RealMode.Proofs.TableJump
import RealMode.Proofs.Walk.Apart
import RealMode.Proofs.Walk.Arrival
import RealMode.Proofs.Walk.CarriedAh
import RealMode.Proofs.Walk.Dispatches
import RealMode.Proofs.Walk.Effort
import RealMode.Proofs.Walk.Entry
import RealMode.Proofs.Walk.Heading
import RealMode.Proofs.Walk.History
import RealMode.Proofs.Walk.Moves
import RealMode.Proofs.Walk.Origin
import RealMode.Proofs.Walk.Sound
import RealMode.Proofs.Walk.Tables
import RealMode.Proofs.Walk.Transfers
import RealMode.Report.Dump
import RealMode.Report.Listing
import RealMode.Results
import RealMode.Survey
import RealMode.Survey.Visited
import RealMode.Text.Hex
import RealMode.Worklist
