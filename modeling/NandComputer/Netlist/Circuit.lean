import NandComputer.Netlist.Fanout

/-!
Compilation of a netlist: the wiring is checked and the combinational nodes
are put into an order in which every node comes after the nodes it reads.
Constants, inputs and flip-flop outputs are sources of a tick, so a loop is
legal exactly when it passes through a flip-flop.

The order is found by releasing nodes. A node is ready once all its operands
are; a ready node in turn releases its readers. Nodes that never become ready
lie on a combinational loop or behind one.
-/

namespace NandComputer

/-- One step of the evaluation of a tick. -/
inductive Op where
  | nand (out a b : Wire)
  | copy (out source : Wire)
  deriving DecidableEq, Repr, Inhabited

/-- Numbers of nodes by kind. -/
structure NodeCounts where
  nodes : Nat
  nands : Nat
  flipFlops : Nat
  inputs : Nat
  deriving DecidableEq, Repr, Inhabited

/-- A checked netlist with a fixed evaluation order. -/
structure Circuit where
  nodeCount : Nat
  ops : Array Op
  /-- Each flip-flop with the wire it samples. -/
  flipFlops : Array (Wire × Wire)
  constants : Array (Wire × Bool)
  ports : Array Port
  counts : NodeCounts
  deriving Inhabited

namespace Circuit

def port (circuit : Circuit) (name : String) : Except CircuitError Port :=
  match circuit.ports.find? (·.name == name) with
  | some port => .ok port
  | none => .error (.unknownPort name)

def inputs (circuit : Circuit) : List Port :=
  circuit.ports.toList.filter (·.direction = .input)

def outputs (circuit : Circuit) : List Port :=
  circuit.ports.toList.filter (·.direction = .output)

end Circuit

/-- The fault of a slot that was never connected. -/
def Node.openSlot? (wire : Wire) : Node → Option CircuitError
  | .forward none => some (.openForward wire)
  | .flipFlop none => some (.openFlipFlop wire)
  | _ => none

/-- The evaluation step of a combinational node. -/
def Node.op? (wire : Wire) : Node → Option Op
  | .nand a b => some (.nand wire a b)
  | .forward (some source) => some (.copy wire source)
  | _ => none

/-- Progress of the ordering: the ready nodes in the order in which they became
so, and for every node the number of operands that are not ready yet. -/
structure Schedule where
  order : Array Wire
  waiting : Array UInt32

namespace Schedule

/-- At the start, the nodes without operands are ready. -/
def start (nodes : Array Node) : Schedule where
  order := (Array.range nodes.size).filter fun w =>
    ((nodes.getD w .input).operands.length) == 0
  waiting := nodes.map fun node => UInt32.ofNat node.operands.length

/-- One operand of `reader` became ready. -/
def release (schedule : Schedule) (reader : UInt32) : Schedule :=
  let left := schedule.waiting.getD reader.toNat 0 - 1
  let waiting := schedule.waiting.setIfInBounds reader.toNat left
  if left == 0 then { order := schedule.order.push reader.toNat, waiting }
  else { order := schedule.order, waiting }

/-- Lets the ready nodes from position `head` on release their readers, for at
most `fuel` nodes. A node becomes ready once, so a fuel of the number of nodes
is enough. -/
def advance (fanout : Fanout) : (fuel head : Nat) → Schedule → Schedule
  | 0, _, schedule => schedule
  | fuel + 1, head, schedule =>
    match schedule.order[head]? with
    | none => schedule
    | some wire =>
      advance fanout fuel (head + 1) ((fanout.readersOf wire).foldl release schedule)

/-- The ordering as far as it goes. Without a fan-out table no node is released. -/
def ofNodes (nodes : Array Node) : Schedule :=
  match Fanout.ofNodes? nodes with
  | some fanout => advance fanout nodes.size 0 (start nodes)
  | none => start nodes

/-- The first node that still waits for an operand. -/
def stuck (schedule : Schedule) : Wire :=
  (schedule.waiting.findIdx? (· > 0)).getD 0

end Schedule

namespace Netlist

def counts (n : Netlist) : NodeCounts where
  nodes := n.nodes.size
  nands := n.nodes.countP fun | .nand .. => true | _ => false
  flipFlops := n.nodes.countP fun | .flipFlop _ => true | _ => false
  inputs := n.nodes.countP fun | .input => true | _ => false

/-- The first wiring mistake: a recorded defect, or else the first open slot. -/
def fault? (n : Netlist) : Option CircuitError :=
  n.defects[0]? <|> (Array.range n.nodes.size).findSome? fun w =>
    (n.nodes.getD w .input).openSlot? w

/-- The circuit of a netlist whose nodes are evaluated in the given order. -/
def circuit (n : Netlist) (order : Array Wire) : Circuit where
  nodeCount := n.nodes.size
  ops := order.filterMap fun w => (n.nodes.getD w .input).op? w
  flipFlops := (Array.range n.nodes.size).filterMap fun w =>
    match n.nodes.getD w .input with
    | .flipFlop (some next) => some (w, next)
    | _ => none
  constants := (Array.range n.nodes.size).filterMap fun w =>
    match n.nodes.getD w .input with
    | .constant value => some (w, value)
    | _ => none
  ports := n.ports
  counts := n.counts

/-- Checks the wiring and orders the combinational nodes. -/
def compile (n : Netlist) : Except CircuitError Circuit :=
  match n.fault? with
  | some fault => .error fault
  | none =>
    let schedule := Schedule.ofNodes n.nodes
    if schedule.order.size < n.nodes.size then
      .error (.combinationalLoop schedule.stuck (n.nodes.size - schedule.order.size))
    else
      .ok (n.circuit schedule.order)

end Netlist

end NandComputer
