import NandComputer.Chip.Arith

/-!
Chips with state. A bare flip-flop takes its input at every tick; a bit keeps
its value by feeding its own output back through a multiplexer, so that after a
tick it holds its input if `load` was 1 and its old value otherwise.
-/

namespace NandComputer.Chip

open Build

/-- One bit of storage. -/
def bit (input load : Wire) : Build Wire := do
  let out ← flipFlop
  let next ← mux out input load
  latch out next
  return out

/-- Bits that share one load wire. -/
def register (input : Bus) (load : Wire) : Build Bus := input.mapM fun wire => bit wire load

/-- A counter. At a tick it becomes 0 if `reset` is 1, or else `input` if `load`
is 1, or else its successor if `inc` is 1, or else it stays. -/
def programCounter (input : Bus) (load inc reset : Wire) : Build Bus := do
  let current ← forwardBus input.length
  let successor ← increment current
  let stepped ← muxBus current successor inc
  let loaded ← muxBus stepped input load
  let zeros ← constant input.length 0
  let next ← muxBus loaded zeros reset
  let out ← register next (← one)
  driveBus current out
  return out

end NandComputer.Chip
