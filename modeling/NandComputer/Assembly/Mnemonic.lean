import NandComputer.Instruction.Basic
import NandComputer.Text.Numeral

/-!
Assembly text of single instructions: mnemonics of the three fields of a
computation, and a number after `@` for a literal. A computation without a
mnemonic is written `#` and its nine bits.
-/

namespace NandComputer

namespace Assembly

/-- Computations of every processor: mnemonic, memory operand, control bits. -/
def canonicalMnemonics : List (String × Bool × BitVec 6) :=
  [("0", false, 0b101010),
    ("1", false, 0b111111),
    ("-1", false, 0b111010),
    ("D", false, 0b001100),
    ("A", false, 0b110000),
    ("!D", false, 0b001101),
    ("!A", false, 0b110001),
    ("-D", false, 0b001111),
    ("-A", false, 0b110011),
    ("D+1", false, 0b011111),
    ("A+1", false, 0b110111),
    ("D-1", false, 0b001110),
    ("A-1", false, 0b110010),
    ("D+A", false, 0b000010),
    ("D-A", false, 0b010011),
    ("A-D", false, 0b000111),
    ("D&A", false, 0b000000),
    ("D|A", false, 0b010101),
    ("M", true, 0b110000),
    ("!M", true, 0b110001),
    ("-M", true, 0b110011),
    ("M+1", true, 0b110111),
    ("M-1", true, 0b110010),
    ("D+M", true, 0b000010),
    ("D-M", true, 0b010011),
    ("M-D", true, 0b000111),
    ("D&M", true, 0b000000),
    ("D|M", true, 0b010101)]

/-- Computations of the extended arithmetic unit, with their fields. -/
def extendedMnemonics : List (String × Word) :=
  [("D*A", 0b000000000),
    ("D*M", 0b001000000),
    ("A>>", 0b010000000),
    ("D>>", 0b010100000),
    ("M<<", 0b011000000),
    ("D<<", 0b011100000)]

/-- Second spellings, with the operands the other way round. -/
def swappedSpellings : List (String × String) :=
  [("A+D", "D+A"),
    ("M+D", "D+M"),
    ("A&D", "D&A"),
    ("M&D", "D&M"),
    ("A|D", "D|A"),
    ("M|D", "D|M")]

/-- All computation mnemonics with their fields. -/
def mnemonics : List (String × Comp) :=
  canonicalMnemonics.map (fun (name, memoryOperand, control) =>
    (name, .canonical memoryOperand control)) ++
  extendedMnemonics.map fun (name, bits) => (name, .ofBits bits)

/-- The value of a field that is written as its bits: a binary numeral of nine bytes,
which the reader of numerals takes with a plus sign in front as well. -/
def rawField? (raw : List Char) : Option Word :=
  match Text.readBinary UInt16.size raw with
  | .ok bits => if Text.byteLength raw = 9 then some (.ofNat 16 bits) else none
  | .error _ => none

/-- A destination with one more register, unless it has that one already. -/
def storeIn (dest : Dest) : Char → Option Dest
  | 'A' => if dest.a then none else some { dest with a := true }
  | 'D' => if dest.d then none else some { dest with d := true }
  | 'M' => if dest.m then none else some { dest with m := true }
  | _ => none

end Assembly

open Assembly

/-- The computation that a text names. -/
def Comp.ofText? (text : String) : Option Comp :=
  let text := (swappedSpellings.lookup text).getD text
  match text.toList with
  | '#' :: raw => (rawField? raw).map .ofBits
  | _ => mnemonics.lookup text

/-- The mnemonic of a computation. -/
def Comp.text (comp : Comp) : String :=
  match mnemonics.find? fun (_, known) => known = comp with
  | some (name, _) => name
  | none => String.ofList ('#' :: Text.binary 9 comp.bits.toNat)

/-- The destination that a text names: distinct letters in any order. -/
def Dest.ofText? (text : String) : Option Dest := text.toList.foldlM storeIn .nowhere

/-- The letters of a destination, in the order A, M, D. -/
def Dest.text (dest : Dest) : String :=
  (if dest.a then "A" else "") ++ (if dest.m then "M" else "") ++ (if dest.d then "D" else "")

/-- The mnemonic of a jump condition; never to jump has none. -/
def Jump.text? : Jump → Option String
  | .never => none
  | .gt => some "JGT"
  | .eq => some "JEQ"
  | .ge => some "JGE"
  | .lt => some "JLT"
  | .ne => some "JNE"
  | .le => some "JLE"
  | .always => some "JMP"

/-- The jump condition that a text names. -/
def Jump.ofText? (text : String) : Option Jump :=
  Jump.all.find? fun jump => jump.text? = some text

/-- The assembly text of an instruction. -/
def Instruction.text : Instruction → String
  | .address value => "@" ++ String.ofList (Text.decimal value.toNat)
  | .compute comp dest jump =>
    (if dest.isEmpty then "" else dest.text ++ "=") ++ comp.text ++
      (jump.text?.map (";" ++ ·)).getD ""

end NandComputer
