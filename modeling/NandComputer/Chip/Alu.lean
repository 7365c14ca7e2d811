import NandComputer.Chip.Arith
import NandComputer.Chip.Select

/-!
The arithmetic logic unit and its extended variant, on words of 16 bits.

The standard unit has six control bits. From the most significant one: zero x,
negate x, zero y, negate y, add instead of and, negate the result.

The extended unit has nine. Bits 8 and 7 choose the result: `01` a shift, `11`
the standard unit, anything else the product. Bits 6 and 5 choose the shift:
`00` and `01` shift y and x to the right, `10` and `11` to the left. Bits 5 to 0
control the standard unit; bit 5 has two readers, which never count at once.
-/

namespace NandComputer.Chip

open Build

/-- Positions of the control bits of the standard unit. -/
def zeroX : Nat := 5
def negateX : Nat := 4
def zeroY : Nat := 3
def negateY : Nat := 2
def addNotAnd : Nat := 1
def negateOut : Nat := 0

/-- A result with its flags: `zr` is 1 if it is zero and `ng` if it is negative. -/
structure AluOutput where
  out : Bus
  zr : Wire
  ng : Wire
  deriving DecidableEq, Repr, Inhabited

/-- Adds the flags to a result. -/
def withFlags (out : Bus) : Build AluOutput := do
  let any ← anyOf out
  let zr ← not any
  return ⟨out, zr, out.bit 15⟩

/-- Inverts a bus if `negate` is 1. -/
def invertIf (a : Bus) (negate : Wire) : Build Bus := do
  let inverted ← notBus a
  muxBus a inverted negate

/-- Prepares an operand: first zeroed, then inverted, each on demand. -/
def prepare (operand : Bus) (clear negate : Wire) : Build Bus := do
  let zeros ← constant 16 0
  let cleared ← muxBus operand zeros clear
  invertIf cleared negate

def alu (x y control : Bus) : Build AluOutput := do
  let x ← prepare x (control.bit zeroX) (control.bit negateX)
  let y ← prepare y (control.bit zeroY) (control.bit negateY)
  let sum ← add x y
  let conjunction ← andBus x y
  let chosen ← muxBus conjunction sum (control.bit addNotAnd)
  withFlags (← invertIf chosen (control.bit negateOut))

/-- The standard unit with multiplication and shifts. The flags describe the
chosen result. -/
def extendedAlu (x y control : Bus) : Build AluOutput := do
  let product ← multiply x y
  let yRight ← shiftRightLogical y
  let xRight ← shiftRightLogical x
  let yLeft ← shiftLeftLogical y
  let xLeft ← shiftLeftLogical x
  let shifted ← select [yRight, xRight, yLeft, xLeft] (control.slice 5 2)
  let standard ← alu x y (control.slice 0 6)
  withFlags (← select [product, shifted, product, standard.out] (control.slice 7 2))

end NandComputer.Chip
