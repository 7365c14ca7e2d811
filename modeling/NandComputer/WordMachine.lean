import NandComputer.Config
import NandComputer.Instruction.Basic

/-!
The machine on words instead of gates: the arithmetic units as functions, and
the instructions as steps of a state. It is the meaning that the gate-level
computer is compared with.
-/

namespace NandComputer

/-- A result with its flags. -/
structure AluResult where
  out : Word
  zr : Bool
  ng : Bool
  deriving DecidableEq, Repr, Inhabited

/-- The flags of a result say whether it is zero and whether it is negative. -/
def AluResult.ofOut (out : Word) : AluResult := ⟨out, out == 0, out.msb⟩

namespace Word

/-- `value` inverted on demand. -/
def invertIf (negate : Bool) (value : Word) : Word := if negate then ~~~value else value

/-- An operand that is first zeroed and then inverted, each on demand. -/
def prepare (clear negate : Bool) (value : Word) : Word :=
  invertIf negate (if clear then 0 else value)

/-- The standard arithmetic unit. -/
def alu (x y : Word) (control : BitVec 6) : AluResult :=
  let x := prepare (control.getLsbD 5) (control.getLsbD 4) x
  let y := prepare (control.getLsbD 3) (control.getLsbD 2) y
  let chosen := if control.getLsbD 1 then x + y else x &&& y
  .ofOut (invertIf (control.getLsbD 0) chosen)

/-- The shifts of the extended unit. -/
def shifted (x y : Word) (selector : BitVec 2) : Word :=
  match selector.getLsbD 1, selector.getLsbD 0 with
  | false, false => y >>> 1
  | false, true => x >>> 1
  | true, false => y <<< 1
  | true, true => x <<< 1

/-- The extended arithmetic unit. -/
def extendedAlu (x y : Word) (control : BitVec 9) : AluResult :=
  .ofOut <| match control.getLsbD 8, control.getLsbD 7 with
    | false, true => shifted x y (control.extractLsb' 5 2)
    | true, true => (alu x y (control.setWidth 6)).out
    | _, false => x * y

end Word

/-- The registers and the memory that a program sees. -/
structure WordMachine where
  a : Word
  d : Word
  pc : Word
  ram : Array Word
  alu : AluKind
  deriving DecidableEq, Repr

namespace WordMachine

/-- A machine whose registers and memory are 0. -/
def zeroed (ramWords : Nat) (alu : AluKind) : WordMachine :=
  ⟨0, 0, 0, Array.replicate ramWords 0, alu⟩

/-- The low 15 bits of a word. -/
def addressOf (word : Word) : Word := word &&& 0x7FFF

/-- The memory word that A addresses, or 0 outside the memory. -/
def readM (m : WordMachine) : Word := m.ram.getD (addressOf m.a).toNat 0

/-- The result of a computation in the present state. -/
def result (m : WordMachine) (comp : Comp) : Word :=
  let y := if comp.memoryOperand then m.readM else m.a
  match m.alu with
  | .standard => (Word.alu m.d y comp.control).out
  | .extended => (Word.extendedAlu m.d y (comp.bits.setWidth 9)).out

/-- The address of the instruction after the present one. -/
def successor (m : WordMachine) : Word := addressOf (m.pc + 1)

/-- The state after a computation. Memory is written and the jump taken at the
old value of A. -/
def compute (m : WordMachine) (comp : Comp) (dest : Dest) (jump : Jump) : WordMachine :=
  let out := m.result comp
  { m with
    a := if dest.a then out else m.a
    d := if dest.d then out else m.d
    pc := if jump.taken out then addressOf m.a else m.successor
    ram := if dest.m then m.ram.setIfInBounds (addressOf m.a).toNat out else m.ram }

def execute (m : WordMachine) : Instruction → WordMachine
  | .address value => { m with a := value, pc := m.successor }
  | .compute comp dest jump => m.compute comp dest jump

/-- Executes one instruction word. -/
def step (m : WordMachine) (word : Word) : WordMachine := m.execute (.decode word)

/-- Executes instructions of a program; past its end the words are 0. -/
def run (rom : Array Word) : Nat → WordMachine → WordMachine
  | 0, m => m
  | ticks + 1, m => run rom ticks (m.step (rom.getD m.pc.toNat 0))

end WordMachine

end NandComputer
