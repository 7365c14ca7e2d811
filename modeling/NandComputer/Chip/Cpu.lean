import NandComputer.Chip.Alu
import NandComputer.Chip.Register
import NandComputer.Config

/-!
The processor. Its inputs are the addressed memory word, the instruction and
`reset`. What it drives toward memory is combinational within the tick; the
registers A, D and PC change at the tick.

An instruction with bit 15 clear loads itself into A. Otherwise bit 12 chooses
the memory word instead of A as the second operand, bits 6 up control the
arithmetic unit, bits 5, 4 and 3 store the result in A, D and memory, and bits
2, 1 and 0 jump if it is negative, zero or positive.
-/

namespace NandComputer.Chip

open Build

/-- Positions of the instruction bits. -/
def classBit : Nat := 15
def memoryOperandBit : Nat := 12
def storeABit : Nat := 5
def storeDBit : Nat := 4
def storeMBit : Nat := 3
def jumpNegativeBit : Nat := 2
def jumpZeroBit : Nat := 1
def jumpPositiveBit : Nat := 0

/-- The outputs of a processor. -/
structure Cpu where
  outM : Bus
  writeM : Wire
  addressM : Bus
  pc : Bus
  a : Bus
  d : Bus
  deriving DecidableEq, Repr, Inhabited

/-- The arithmetic unit of a variant, controlled by the instruction. -/
def arithmetic (variant : AluKind) (x y instruction : Bus) : Build AluOutput :=
  match variant with
  | .standard => alu x y (instruction.slice 6 6)
  | .extended => extendedAlu x y (instruction.slice 6 9)

/-- Whether the jump bits of the instruction ask for a result with these flags. -/
def jumpWanted (instruction : Bus) (zr ng : Wire) : Build Wire := do
  let onNegative ← and (instruction.bit jumpNegativeBit) ng
  let onZero ← and (instruction.bit jumpZeroBit) zr
  let notPositive ← or zr ng
  let positive ← not notPositive
  let onPositive ← and (instruction.bit jumpPositiveBit) positive
  let notOnPositive ← or onNegative onZero
  or notOnPositive onPositive

def cpu (inM instruction : Bus) (reset : Wire) (variant : AluKind) : Build Cpu := do
  let compute := instruction.bit classBit
  let literal ← not compute
  -- the arithmetic unit reads the registers before they exist
  let a ← forwardBus 16
  let d ← forwardBus 16
  let y ← muxBus a inM (instruction.bit memoryOperandBit)
  let result ← arithmetic variant d y instruction
  let storeA ← and compute (instruction.bit storeABit)
  let inA ← muxBus instruction result.out storeA
  let loadA ← or literal storeA
  let outA ← register inA loadA
  driveBus a outA
  let storeD ← and compute (instruction.bit storeDBit)
  let outD ← register result.out storeD
  driveBus d outD
  let writeM ← and compute (instruction.bit storeMBit)
  let wanted ← jumpWanted instruction result.zr result.ng
  let jump ← and compute wanted
  let addressM := a.slice 0 15
  let pc ← programCounter addressM jump (← one) reset
  return { outM := result.out, writeM, addressM, pc, a := outA, d := outD }

end NandComputer.Chip
