import NandComputer.Chip.Gates

/-!
Selection among many: a multiplexer tree picks one of `2 ^ k` buses by `k`
select wires, and a demultiplexer tree routes one wire to one of `2 ^ k`
outputs. Both split on the most significant select wire and treat the lower
half of the indices first, so the same select value names the same index in
both.
-/

namespace NandComputer.Chip

/-- Picks a bus by select wires that are given most significant first. -/
def selectTree : List Wire → List Bus → Build Bus
  | [], inputs => pure (inputs.headD [])
  | top :: rest, inputs => do
    let half := inputs.length / 2
    let low ← selectTree rest (inputs.take half)
    let high ← selectTree rest (inputs.drop half)
    muxBus low high top

/-- The bus whose index is the value of `sel`. -/
def select (inputs : List Bus) (sel : Bus) : Build Bus := selectTree sel.reverse inputs

/-- A multiplexer, if there is one input bus for every value of `sel`. -/
def select? (inputs : List Bus) (sel : Bus) : Option (Build Bus) :=
  if inputs.length = 1 <<< sel.length then some (select inputs sel) else none

/-- Routes a wire by select wires that are given most significant first. -/
def routeTree : List Wire → Wire → Build (List Wire)
  | [], input => pure [input]
  | top :: rest, input => do
    let (low, high) ← demux input top
    let lows ← routeTree rest low
    let highs ← routeTree rest high
    return lows ++ highs

/-- One output for every value of `sel`: the selected one repeats `input`, the
others are 0. -/
def route (input : Wire) (sel : Bus) : Build (List Wire) := routeTree sel.reverse input

end NandComputer.Chip
