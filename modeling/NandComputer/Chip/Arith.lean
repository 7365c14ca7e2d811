import NandComputer.Chip.Gates

/-!
Arithmetic on buses, in two's complement. Results keep the width of the
operands: the last carry of an adder is dropped.
-/

namespace NandComputer.Chip

open Build

/-- The outputs of an adder cell. -/
structure Sum where
  sum : Wire
  carry : Wire
  deriving DecidableEq, Repr, Inhabited

def halfAdder (a b : Wire) : Build Sum := do
  let sum ← xor a b
  let carry ← and a b
  return ⟨sum, carry⟩

def fullAdder (a b c : Wire) : Build Sum := do
  let first ← halfAdder a b
  let second ← halfAdder first.sum c
  let carry ← or first.carry second.carry
  return ⟨second.sum, carry⟩

/-- Full adders from the least bit on, with the carry of the bit before. -/
def ripple (carry : Wire) : List (Wire × Wire) → Build Bus
  | [] => pure []
  | (a, b) :: rest => do
    let cell ← fullAdder a b carry
    return cell.sum :: (← ripple cell.carry rest)

/-- Ripple-carry adder: a half adder followed by full adders. -/
def add (a b : Bus) : Build Bus :=
  match a.zip b with
  | [] => pure []
  | (a, b) :: rest => do
    let cell ← halfAdder a b
    return cell.sum :: (← ripple cell.carry rest)

def increment (a : Bus) : Build Bus := do
  add a (← constant a.length 1)

/-- Shift by one toward the most significant bit, with 0 shifted in. -/
def shiftLeftLogical (a : Bus) : Build Bus := do
  return ((← zero) :: a).take a.length

/-- Shift by one toward the least significant bit, with 0 shifted in. -/
def shiftRightLogical (a : Bus) : Build Bus := do
  return (a ++ [← zero]).drop 1

/-- Shift by one toward the most significant bit that keeps the sign bit. -/
def shiftLeftArithmetic (a : Bus) : Build Bus := do
  let low ← zero
  return match a with
    | [] => []
    | [_] => [low]
    | _ => low :: a.take (a.length - 2) ++ a.drop (a.length - 1)

/-- Shift by one toward the least significant bit that repeats the sign bit. -/
def shiftRightArithmetic (a : Bus) : Bus := a.drop 1 ++ a.drop (a.length - 1)

/-- Adds the copies of `shifted` that the bits of `y` enable, each shifted by
one more place. -/
def partialProducts (acc shifted : Bus) : List Wire → Build Bus
  | [] => pure acc
  | enable :: rest => do
    let product ← enableBus shifted enable
    let acc ← add acc product
    let shifted ← shiftLeftLogical shifted
    partialProducts acc shifted rest

/-- Shift-and-add multiplier. -/
def multiply (x y : Bus) : Build Bus := do
  partialProducts (← constant x.length 0) x y

end NandComputer.Chip
