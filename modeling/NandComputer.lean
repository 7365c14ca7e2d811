import NandComputer.Cli.Directory
import NandComputer.Cli.LogLevel
import NandComputer.Instruction.Json
import NandComputer.Main
import NandComputer.Proofs.Assembly.Passes
import NandComputer.Proofs.Chip.MemoryArray
import NandComputer.Proofs.Chip.Processor
import NandComputer.Proofs.Computer.Halting
import NandComputer.Proofs.Computer.IdleLoop
import NandComputer.Proofs.Computer.Variants
import NandComputer.Proofs.Cli.Outcome
import NandComputer.Proofs.Cli.Tracing
import NandComputer.Proofs.Program
import NandComputer.Proofs.Cli.Assembling
import NandComputer.Proofs.Chip.Confinement
import NandComputer.Proofs.Netlist.Sharing
import NandComputer.Proofs.Chip.Isolation
import NandComputer.Proofs.Chip.Settling
import NandComputer.Proofs.Assembly.Expression
import NandComputer.Proofs.Chip.Composed
import NandComputer.Proofs.Chip.Operations
import NandComputer.Proofs.Chip.Routing
import NandComputer.Proofs.Chip.Storage
import NandComputer.Proofs.Computer.Running
import NandComputer.Proofs.Assembly.Spelling
import NandComputer.Proofs.Assembly.Outline
import NandComputer.Proofs.Assembly.Faults
import NandComputer.Proofs.Assembly.Phases
import NandComputer.Proofs.Assembly.Diagnostics
import NandComputer.Proofs.Assembly.Operands
import NandComputer.Proofs.Assembly.Capacity
import NandComputer.Proofs.Assembly.Spacing
import NandComputer.Proofs.Netlist.LoopReport
import NandComputer.Proofs.Instruction.Circulation
import NandComputer.Proofs.Netlist.Overflow
