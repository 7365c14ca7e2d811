import NandComputer.Word

/-!
Instruction words. An instruction with bit 15 clear loads the other 15 bits
into A. One with bit 15 set computes: bits 14 to 6 say what, bits 5 to 3 where
the result is stored, and bits 2 to 0 on which results it jumps. Every word is
the encoding of some instruction, and `decode` is total.
-/

namespace NandComputer

/-- The computation field. It has nine bits; `Comp.ofBits` drops the others, and
only a value read from outside can have any of them. -/
structure Comp where
  bits : Word
  deriving DecidableEq, Repr, Inhabited

namespace Comp

/-- The extension selector of a computation that any processor performs. -/
def canonicalExtension : Word := 0b11

def ofBits (bits : Word) : Comp := ⟨bits &&& 0x1FF⟩

/-- The canonical computation with the given operand bit and control bits. -/
def canonical (memoryOperand : Bool) (control : BitVec 6) : Comp :=
  ⟨(canonicalExtension <<< 7) ||| ((BitVec.ofBool memoryOperand).setWidth 16 <<< 6) |||
    control.setWidth 16⟩

/-- Whether the second operand is the memory word. -/
def memoryOperand (comp : Comp) : Bool := comp.bits.getLsbD 6

/-- The control bits of the standard arithmetic unit. -/
def control (comp : Comp) : BitVec 6 := comp.bits.setWidth 6

def extension (comp : Comp) : Word := comp.bits >>> 7

def isCanonical (comp : Comp) : Bool := comp.extension == canonicalExtension

end Comp

/-- The registers that take the result. -/
structure Dest where
  a : Bool
  d : Bool
  m : Bool
  deriving DecidableEq, Repr, Inhabited

namespace Dest

def nowhere : Dest := ⟨false, false, false⟩

def ofBits (bits : Word) : Dest := ⟨bits.getLsbD 2, bits.getLsbD 1, bits.getLsbD 0⟩

def bits (dest : Dest) : Word :=
  (BitVec.ofBool dest.a ++ BitVec.ofBool dest.d ++ BitVec.ofBool dest.m).setWidth 16

def isEmpty (dest : Dest) : Bool := !(dest.a || dest.d || dest.m)

end Dest

/-- The results on which an instruction jumps. -/
inductive Jump where
  | never
  | gt
  | eq
  | ge
  | lt
  | ne
  | le
  | always
  deriving DecidableEq, Repr, Inhabited

namespace Jump

/-- All conditions, in the order of their bits. -/
def all : List Jump := [.never, .gt, .eq, .ge, .lt, .ne, .le, .always]

/-- Bits 2, 1 and 0 ask for a negative, a zero and a positive result. -/
def bits : Jump → Word
  | .never => 0b000
  | .gt => 0b001
  | .eq => 0b010
  | .ge => 0b011
  | .lt => 0b100
  | .ne => 0b101
  | .le => 0b110
  | .always => 0b111

def ofBits (bits : Word) : Jump :=
  match bits.getLsbD 2, bits.getLsbD 1, bits.getLsbD 0 with
  | false, false, false => .never
  | false, false, true => .gt
  | false, true, false => .eq
  | false, true, true => .ge
  | true, false, false => .lt
  | true, false, true => .ne
  | true, true, false => .le
  | true, true, true => .always

/-- Whether a result is one to jump on. -/
def taken (jump : Jump) (result : Word) : Bool :=
  (jump.bits.getLsbD 2 && result.slt 0) ||
  (jump.bits.getLsbD 1 && result == 0) ||
  (jump.bits.getLsbD 0 && (0 : Word).slt result)

end Jump

inductive Instruction where
  /-- Load a literal into A. -/
  | address (value : Word)
  | compute (comp : Comp) (dest : Dest) (jump : Jump)
  deriving DecidableEq, Repr, Inhabited

namespace Instruction

/-- The largest literal that fits into an instruction. -/
def maxLiteral : Nat := 0x7FFF

def decode (word : Word) : Instruction :=
  if word.msb then
    .compute (.ofBits (word >>> 6)) (.ofBits (word >>> 3)) (.ofBits word)
  else .address word

/-- The word of an instruction; a literal keeps its low 15 bits. -/
def encode : Instruction → Word
  | .address value => value &&& 0x7FFF
  | .compute comp dest jump => 0x8000 ||| (comp.bits <<< 6) ||| (dest.bits <<< 3) ||| jump.bits

/-- An unconditional jump that stores nothing. -/
def isPlainJump : Instruction → Bool
  | .compute _ dest .always => dest.isEmpty
  | _ => false

end Instruction

end NandComputer
