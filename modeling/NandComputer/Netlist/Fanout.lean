import NandComputer.Netlist.Basic

/-!
The fan-out table of a netlist: for every wire, the nodes that read it within
a tick. The table is one array of readers, grouped by wire, and an array of
group starts; its entries are 32-bit words, like the wires themselves. Group
sizes are counted first, their running sums are the starts, and then every
reader is put at the next free place of its group.
-/

namespace NandComputer

/-- The wires that a node reads within a tick. What a flip-flop samples is read
only between ticks. -/
def Node.operands : Node → List Wire
  | .nand a b => [a, b]
  | .forward (some source) => [source]
  | _ => []

/-- Folds over all pairs of a node and a wire that it reads, in node order. -/
@[specialize] def foldOperands {β : Type} (nodes : Array Node) (f : β → Wire → Wire → β)
    (start : β) : β :=
  Nat.fold nodes.size (fun reader h acc =>
    nodes[reader].operands.foldl (fun acc wire => f acc wire reader) acc) start

namespace Fanout

/-- Entry `w + 1` is the number of reads of wire `w`. -/
def counts (nodes : Array Node) : Array UInt32 :=
  foldOperands nodes (fun counts wire _ => counts.modify (wire + 1) (· + 1))
    (Array.replicate (nodes.size + 1) 0)

/-- Replaces every entry by the sum of the entries up to it. -/
def runningSums (counts : Array UInt32) : Array UInt32 :=
  (counts.foldl (fun (sums, total) count =>
    let total := total + count
    (sums.push total, total)) (Array.mkEmpty counts.size, 0)).1

/-- Places of the table still to be filled: `cursors[w]` is the next free place
for a reader of wire `w`. -/
structure Filling where
  cursors : Array UInt32
  readers : Array UInt32

/-- Puts a reader at the next free place of its group, if the table has it. -/
def Filling.place (filling : Filling) (wire reader : Wire) : Option Filling :=
  let slot := filling.cursors.getD wire 0
  if slot.toNat < filling.readers.size then
    some { cursors := filling.cursors.modify wire (· + 1)
           readers := filling.readers.setIfInBounds slot.toNat (UInt32.ofNat reader) }
  else none

/-- Puts every reader at its place. -/
def fill? (nodes : Array Node) (empty : Filling) : Option Filling :=
  foldOperands nodes (fun filling? wire reader => filling?.bind (Filling.place · wire reader))
    (some empty)

end Fanout

/-- Readers of all wires: those of wire `w` are the entries of `readers` from
`starts[w]` up to `starts[w + 1]`. -/
structure Fanout where
  starts : Array UInt32
  readers : Array UInt32

namespace Fanout

/-- The table of a netlist, unless the netlist has too many reads for places
with 32-bit numbers. -/
def ofNodes? (nodes : Array Node) : Option Fanout :=
  let starts := runningSums (counts nodes)
  let readers := Array.replicate (starts.getD nodes.size 0).toNat 0
  (fill? nodes ⟨starts, readers⟩).map fun filling => ⟨starts, filling.readers⟩

/-- The readers of one wire, in node order; a node that reads the wire twice
occurs twice. -/
def readersOf (fanout : Fanout) (wire : Wire) : Array UInt32 :=
  fanout.readers.extract (fanout.starts.getD wire 0).toNat (fanout.starts.getD (wire + 1) 0).toNat

end Fanout

end NandComputer
