import NandComputer.Chip.Cpu
import NandComputer.Chip.Memory
import NandComputer.Instruction.Basic
import NandComputer.Netlist.Simulation

/-!
The computer: one circuit of a processor and a data memory, with the program
beside it. At each tick the instruction at the program counter is put on the
instruction bus. Addresses above the data memory neither store nor load.

A program comes to rest in an idle loop, an unconditional jump to itself. The
computer notices it from outside the circuit and counts as halted from then on.
-/

namespace NandComputer

/-- What is observed and driven from outside the circuit. -/
structure ComputerPorts where
  instruction : Bus
  reset : Wire
  cpu : Chip.Cpu
  cells : List Bus

namespace Chip

open Build

/-- A processor with a data memory. -/
def computer (config : Config) : Build ComputerPorts := do
  let instruction ← input "instruction" 16
  let reset ← inputWire "reset"
  let inM ← forwardBus 16
  let cpu ← cpu inM instruction reset config.alu
  let outside ← anyOf (cpu.addressM.drop config.addressBits)
  let inside ← not outside
  let load ← and cpu.writeM inside
  let memory ← memory cpu.outM load (cpu.addressM.take config.addressBits)
  let visible ← enableBus memory.out inside
  driveBus inM visible
  output "pc" cpu.pc
  output "a" cpu.a
  output "d" cpu.d
  output "outM" cpu.outM
  output "writeM" [cpu.writeM]
  output "addressM" cpu.addressM
  return { instruction, reset, cpu, cells := memory.cells }

end Chip

inductive RunState where
  | running
  /-- In an idle loop. -/
  | halted
  deriving DecidableEq, Repr, Inhabited

def RunState.name : RunState → String
  | .running => "Running"
  | .halted => "Halted"

structure RunResult where
  /-- Ticks of this run alone. -/
  cycles : Nat
  state : RunState
  pc : Word
  a : Word
  d : Word
  deriving DecidableEq, Repr, Inhabited

inductive ComputerError where
  | netlist (error : CircuitError)
  | config (error : ConfigError)
  | programTooLarge (words : Nat)
  | addressOutOfRange (address size : Nat)
  deriving DecidableEq, Repr, Inhabited

def ComputerError.message : ComputerError → String
  | .netlist error => s!"netlist error: {error.message}"
  | .config error => s!"config error: {error.message}"
  | .programTooLarge words => s!"program has {words} words, ROM holds 32768"
  | .addressOutOfRange address size => s!"address {address} outside {size}-word data memory"

structure Computer where
  config : Config
  simulation : Simulation
  rom : Array Word
  instruction : Bus
  resetWire : Wire
  cpu : Chip.Cpu
  cells : Array Bus
  state : RunState

namespace Computer

/-- A computer at rest, with the given circuit and an empty program. -/
def ofCircuit (config : Config) (ports : ComputerPorts) (circuit : Circuit) : Computer where
  config
  simulation := .ofCircuit circuit
  rom := #[]
  instruction := ports.instruction
  resetWire := ports.reset
  cpu := ports.cpu
  cells := ports.cells.toArray
  state := .running

/-- Composes and compiles the circuit of a configuration. -/
def build (config : Config) : Except ComputerError Computer := do
  let config ← config.validate.mapError .config
  let (ports, netlist) := (Chip.computer config).run .empty
  let circuit ← netlist.compile.mapError .netlist
  return ofCircuit config ports circuit

def counts (c : Computer) : NodeCounts := c.simulation.circuit.counts

/-- Ticks since the computer was built. -/
def ticks (c : Computer) : Nat := c.simulation.ticks

/-- The word on some wires. -/
def peek (c : Computer) (wires : Bus) : Word := .ofNat 16 (c.simulation.peek wires)

def pc (c : Computer) : Word := c.peek c.cpu.pc

def a (c : Computer) : Word := c.peek c.cpu.a

def d (c : Computer) : Word := c.peek c.cpu.d

/-- Replaces the program. -/
def load (c : Computer) (program : Array Word) : Except ComputerError Computer :=
  if program.size > romWords then .error (.programTooLarge program.size)
  else .ok { c with rom := program, state := .running }

/-- The program word at an address, or 0 past the end of the program. -/
def fetch (c : Computer) (address : Word) : Word := c.rom.getD address.toNat 0

/-- The instruction that the next tick executes. -/
def next (c : Computer) : Instruction := .decode (c.fetch c.pc)

def dataSize (c : Computer) : Nat := c.cells.size

/-- The contents of a data memory cell. -/
def cell? (c : Computer) (address : Nat) : Option Word := (c.cells[address]?).map c.peek

/-- Overwrites a data memory cell outside the clock. -/
def poke (c : Computer) (address : Nat) (value : Word) : Except ComputerError Computer :=
  match c.cells[address]? with
  | some cell => .ok { c with simulation := c.simulation.overwrite cell value.toNat }
  | none => .error (.addressOutOfRange address c.dataSize)

/-- Whether the program counter is at a jump to itself: at an unconditional jump
that stores nothing and whose target is its own address, or at the instruction
that loads its own address, with such a jump after it. -/
def isIdle (c : Computer) : Bool :=
  match c.next with
  | .address target => target == c.pc && (Instruction.decode (c.fetch (c.pc + 1))).isPlainJump
  | .compute .. => c.next.isPlainJump && (c.a &&& 0x7FFF) == c.pc

/-- Counts as halted if the program is in an idle loop. -/
def noteIdle (c : Computer) : Computer := if c.isIdle then { c with state := .halted } else c

/-- Executes one instruction. -/
def step (c : Computer) : Computer :=
  let word := c.fetch c.pc
  noteIdle { c with simulation := (c.simulation.setBus c.instruction word.toNat).tick }

/-- Executes at most so many instructions, as long as the program runs, and
counts them. -/
def advance : Nat → Nat → Computer → Nat × Computer
  | 0, cycles, c => (cycles, c)
  | fuel + 1, cycles, c =>
    if c.state = .running then advance fuel (cycles + 1) c.step else (cycles, c)

def result (c : Computer) (cycles : Nat) : RunResult := ⟨cycles, c.state, c.pc, c.a, c.d⟩

/-- Runs until the program halts or `maxCycles` ticks have passed. -/
def run (maxCycles : Nat) (c : Computer) : RunResult × Computer :=
  let (cycles, c) := advance maxCycles 0 c.noteIdle
  (c.result cycles, c)

/-- Drives the reset wire. -/
def driveReset (c : Computer) (value : Bool) : Computer :=
  { c with simulation := c.simulation.setWire c.resetWire value }

/-- Holds reset for one tick: the program counter becomes 0, and everything else
changes as the instruction at it says. -/
def reset (c : Computer) : Computer :=
  { (c.driveReset true).step.driveReset false with state := .running }

end Computer

end NandComputer
