import NandComputer.Netlist.Circuit

/-!
Simulation of a compiled circuit. A tick has two phases: the combinational
nodes are evaluated in order from the inputs and the flip-flops, then all
flip-flops take the values they sample, together. Evaluation is lazy: an
operation that changes an input or a flip-flop only marks the wires as
unsettled, and the next read evaluates them.
-/

namespace NandComputer

/-- The state of one instance of a circuit. -/
structure Simulation where
  circuit : Circuit
  values : Array Bool
  /-- Ticks so far. -/
  ticks : Nat
  /-- Whether the combinational wires agree with the inputs and flip-flops. -/
  settled : Bool
  deriving Inhabited

def Op.apply (values : Array Bool) : Op → Array Bool
  | .nand out a b => values.setIfInBounds out (!(values.getD a false && values.getD b false))
  | .copy out source => values.setIfInBounds out (values.getD source false)

/-- The number whose bits are the values of the wires. -/
def Bus.read (values : Array Bool) : Bus → Nat
  | [] => 0
  | wire :: rest => (values.getD wire false).toNat + 2 * Bus.read values rest

namespace Simulation

/-- All inputs and flip-flops start at 0. -/
def ofCircuit (circuit : Circuit) : Simulation where
  circuit
  values := circuit.constants.foldl (fun values (wire, value) => values.setIfInBounds wire value)
    (Array.replicate circuit.nodeCount false)
  ticks := 0
  settled := false

/-- Evaluates the combinational nodes if anything changed since the last time. -/
def settle (s : Simulation) : Simulation :=
  if s.settled then s
  else { s with values := s.circuit.ops.foldl Op.apply s.values, settled := true }

/-- Drives an input wire. -/
def setWire (s : Simulation) (wire : Wire) (value : Bool) : Simulation :=
  if s.values.getD wire false = value then s
  else { s with values := s.values.setIfInBounds wire value, settled := false }

/-- Drives input wires with the low bits of `value`. -/
def setBus (s : Simulation) (wires : Bus) (value : Nat) : Simulation :=
  wires.zipIdx.foldl (fun s (wire, i) => s.setWire wire (value.testBit i)) s

/-- Drives the wires of a named port. -/
def setPort (s : Simulation) (name : String) (value : Nat) : Except CircuitError Simulation :=
  return s.setBus (← s.circuit.port name).wires value

/-- The value of wires as they stand; combinational wires may be out of date. -/
def peek (s : Simulation) (wires : Bus) : Nat := wires.read s.values

/-- The value of a wire once the circuit has settled. -/
def wire (s : Simulation) (wire : Wire) : Bool × Simulation :=
  let s := s.settle
  (s.values.getD wire false, s)

/-- The value of wires once the circuit has settled. -/
def bus (s : Simulation) (wires : Bus) : Nat × Simulation :=
  let s := s.settle
  (s.peek wires, s)

/-- The value of a named port once the circuit has settled. -/
def port (s : Simulation) (name : String) : Except CircuitError Nat × Simulation :=
  let s := s.settle
  ((fun port => s.peek port.wires) <$> s.circuit.port name, s)

/-- Overwrites flip-flops with the low bits of `value`, outside the clock. -/
def overwrite (s : Simulation) (wires : Bus) (value : Nat) : Simulation :=
  { s with
    values := wires.zipIdx.foldl
      (fun values (wire, i) => values.setIfInBounds wire (value.testBit i)) s.values
    settled := false }

/-- What the flip-flops sample, in their order. -/
def samples (s : Simulation) : Array Bool :=
  s.circuit.flipFlops.map fun (_, next) => s.values.getD next false

/-- Gives every flip-flop its sample and starts the next tick. -/
def commit (s : Simulation) (samples : Array Bool) : Simulation :=
  { s with
    values := (s.circuit.flipFlops.zip samples).foldl
      (fun values ((flipFlop, _), value) => values.setIfInBounds flipFlop value) s.values
    ticks := s.ticks + 1
    settled := false }

/-- Advances the clock by one tick. -/
def tick (s : Simulation) : Simulation :=
  let s := s.settle
  s.commit s.samples

end Simulation

end NandComputer
