/-!
Gate-level netlists. A circuit is an append-only array of nodes: constants,
external inputs, two-input NAND gates, flip-flops, and forward wires, which
are declared before the signal that feeds them exists. A wire is the index of
the node that produces it, and a bus is a list of wires with the least
significant bit first.

Chips are actions of the state monad `Build`. They only append nodes and
connect the open slots of flip-flops and forward wires, so composing two chips
is sequencing two actions. A wiring mistake does not stop the construction: it
is recorded as a defect, and compilation reports the first one.
-/

namespace NandComputer

/-- A signal, named by the index of the node that produces it. -/
abbrev Wire := Nat

/-- A group of wires, least significant bit first. -/
abbrev Bus := List Wire

namespace Bus

/-- The wire of one bit. -/
def bit (bus : Bus) (index : Nat) : Wire := bus.getD index 0

/-- `len` consecutive wires from `start`. -/
def slice (bus : Bus) (start len : Nat) : Bus := (bus.drop start).take len

/-- `len` consecutive wires from `start`, when the bus has all of them. -/
def slice? (bus : Bus) (start len : Nat) : Option Bus :=
  if start + len ≤ bus.length then some (bus.slice start len) else none

/-- A bus whose bits are all the same wire. -/
def splat (width : Nat) (wire : Wire) : Bus := List.replicate width wire

end Bus

inductive Node where
  | constant (value : Bool)
  | input
  | nand (a b : Wire)
  /-- A flip-flop and the wire it samples at the next tick. -/
  | flipFlop (next? : Option Wire)
  /-- A wire that repeats its source. -/
  | forward (source? : Option Wire)
  deriving DecidableEq, Repr, Inhabited

/-- Whether a port feeds the circuit or observes it. -/
inductive Direction where
  | input
  | output
  deriving DecidableEq, Repr, Inhabited

/-- A named group of wires on the boundary of a circuit. -/
structure Port where
  name : String
  direction : Direction
  wires : Bus
  deriving DecidableEq, Repr, Inhabited

inductive CircuitError where
  /-- `wire` waits for itself, and `involved` nodes never settle. -/
  | combinationalLoop (wire : Wire) (involved : Nat)
  | openForward (wire : Wire)
  | openFlipFlop (wire : Wire)
  | drivenTwice (wire : Wire)
  | notDrivable (wire : Wire)
  | repeatedPort (name : String)
  | unknownPort (name : String)
  deriving DecidableEq, Repr, Inhabited

def CircuitError.message : CircuitError → String
  | .combinationalLoop wire involved =>
    s!"combinational loop through w{wire} ({involved} nodes never settle)"
  | .openForward wire => s!"forward wire w{wire} is never driven"
  | .openFlipFlop wire => s!"flip-flop w{wire} has no next-value connection"
  | .drivenTwice wire => s!"w{wire} is driven more than once"
  | .notDrivable wire => s!"w{wire} is not a forward wire or flip-flop and cannot be driven"
  | .repeatedPort name => "port `" ++ name ++ "` is declared more than once"
  | .unknownPort name => "no port named `" ++ name ++ "`"

/-- A circuit under construction. The two constants are shared by all their
users, so each is remembered once it exists. -/
structure Netlist where
  nodes : Array Node
  ports : Array Port
  defects : Array CircuitError
  zero? : Option Wire
  one? : Option Wire
  deriving Inhabited

/-- Wires are stored in 32 bits, and one index stays free. -/
def Netlist.capacity : Nat := UInt32.size - 1

/-- An action that extends a netlist. -/
abbrev Build (α : Type) : Type := StateM Netlist α

namespace Netlist

def empty : Netlist := ⟨#[], #[], #[], none, none⟩

/-- Number of nodes. -/
def size (n : Netlist) : Nat := n.nodes.size

def isEmpty (n : Netlist) : Bool := n.nodes.isEmpty

/-- Appends a node; its wire is the next index. -/
def append (n : Netlist) (node : Node) : Netlist :=
  { n with nodes := n.nodes.push node }

/-- Records a wiring mistake. -/
def reject (n : Netlist) (defect : CircuitError) : Netlist :=
  { n with defects := n.defects.push defect }

/-- Declares a port, unless its name is taken. -/
def declare (n : Netlist) (port : Port) : Netlist :=
  if n.ports.any (·.name == port.name) then n.reject (.repeatedPort port.name)
  else { n with ports := n.ports.push port }

/-- Connects the open slot of a flip-flop. -/
def connectFlipFlop (n : Netlist) (flipFlop next : Wire) : Netlist :=
  match n.nodes[flipFlop]? with
  | some (.flipFlop none) =>
    { n with nodes := n.nodes.setIfInBounds flipFlop (.flipFlop (some next)) }
  | some (.flipFlop (some _)) => n.reject (.drivenTwice flipFlop)
  | _ => n.reject (.notDrivable flipFlop)

/-- Connects the open slot of a forward wire. -/
def connectForward (n : Netlist) (wire source : Wire) : Netlist :=
  match n.nodes[wire]? with
  | some (.forward none) =>
    { n with nodes := n.nodes.setIfInBounds wire (.forward (some source)) }
  | some (.forward (some _)) => n.reject (.drivenTwice wire)
  | _ => n.reject (.notDrivable wire)

end Netlist

namespace Build

/-- Appends a node and returns its wire. -/
def emit (node : Node) : Build Wire :=
  modifyGet fun n => (n.nodes.size, n.append node)

/-- The only combinational primitive. -/
def nand (a b : Wire) : Build Wire := emit (.nand a b)

/-- Constant 0. -/
def zero : Build Wire := modifyGet fun n =>
  match n.zero? with
  | some wire => (wire, n)
  | none => (n.nodes.size, { n.append (.constant false) with zero? := some n.nodes.size })

/-- Constant 1. -/
def one : Build Wire := modifyGet fun n =>
  match n.one? with
  | some wire => (wire, n)
  | none => (n.nodes.size, { n.append (.constant true) with one? := some n.nodes.size })

/-- A bus wired to the low `width` bits of `value`. -/
def constant (width value : Nat) : Build Bus := do
  let low ← zero
  let high ← one
  return (List.range width).map fun i => if value.testBit i then high else low

/-- A named external input bus. -/
def input (name : String) (width : Nat) : Build Bus := do
  let wires ← (List.range width).mapM fun _ => emit .input
  modify (·.declare ⟨name, .input, wires⟩)
  return wires

/-- A named external input of one wire. -/
def inputWire (name : String) : Build Wire := do
  return (← input name 1).bit 0

/-- Gives wires a name under which the compiled circuit shows them. -/
def output (name : String) (wires : Bus) : Build Unit :=
  modify (·.declare ⟨name, .output, wires⟩)

/-- A flip-flop whose next value is still open. -/
def flipFlop : Build Wire := emit (.flipFlop none)

/-- Connects the value that a flip-flop takes at the next tick. -/
def latch (flipFlop next : Wire) : Build Unit := modify (·.connectFlipFlop flipFlop next)

/-- A wire whose source is still open. -/
def forward : Build Wire := emit (.forward none)

def forwardBus (width : Nat) : Build Bus := (List.range width).mapM fun _ => forward

/-- Connects a forward wire to its source. -/
def drive (wire source : Wire) : Build Unit := modify (·.connectForward wire source)

/-- Connects forward wires to the matching bits of `source`. -/
def driveBus (wires source : Bus) : Build Unit :=
  (wires.zip source).forM fun (wire, source) => drive wire source

end Build

end NandComputer
