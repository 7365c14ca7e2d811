import NandComputer.Assembly.Mnemonic
import NandComputer.Assembly.Statement
import Std.Data.HashMap

/-!
The assembler. First all statements are read, then all labels get the address of
the instruction after them, and then the instructions are encoded in order. A
symbol that is neither predefined nor a label is a variable; variables get
addresses from 16 on, in the order of their first use. The first fault of the
earliest of these three phases is the one reported.
-/

namespace NandComputer.Assembly

inductive AssemblyError where
  | malformed (line : Nat) (fault : SyntaxFault)
  | unknownMnemonic (line : Nat) (text : String)
  | duplicateLabel (line : Nat) (label : String)
  | valueOutOfRange (line value : Nat)
  | programTooLarge (words : Nat)
  deriving DecidableEq, Repr, Inhabited

namespace AssemblyError

def message : AssemblyError → String
  | .malformed line fault => s!"syntax error on line {line}: {fault.message}"
  | .unknownMnemonic line text => s!"unknown mnemonic on line {line}: {text}"
  | .duplicateLabel line label => s!"label defined twice on line {line}: {label}"
  | .valueOutOfRange line value => s!"value out of range on line {line}: {value}"
  | .programTooLarge words => s!"program needs {words} words, ROM holds 32768"

/-- The line at fault. -/
def line? : AssemblyError → Option Nat
  | .malformed line _ | .unknownMnemonic line _ | .duplicateLabel line _
  | .valueOutOfRange line _ => some line
  | .programTooLarge _ => none

end AssemblyError

/-- The address of the first variable. -/
def firstVariable : Nat := 16

/-- Symbols that every program starts with. -/
def builtinSymbols : List (String × Word) :=
  [("R0", 0), ("R1", 1), ("R2", 2), ("R3", 3), ("R4", 4), ("R5", 5), ("R6", 6), ("R7", 7),
    ("R8", 8), ("R9", 9), ("R10", 10), ("R11", 11), ("R12", 12), ("R13", 13), ("R14", 14),
    ("R15", 15), ("SP", 0), ("LCL", 1), ("ARG", 2), ("THIS", 3), ("THAT", 4),
    ("SCREEN", 16384), ("KBD", 24576)]

/-- The values of symbols, and the address of the next variable. -/
structure Symbols where
  values : Std.HashMap String Word
  nextVariable : Nat

namespace Symbols

def predefined : Symbols := ⟨.ofList builtinSymbols, firstVariable⟩

/-- Gives a new symbol a value. -/
def define (symbols : Symbols) (name : String) (value : Word) : Symbols :=
  { symbols with values := symbols.values.insert name value }

end Symbols

/-- Puts a fault on a line. -/
def atLine {α : Type} (line : Nat) (result : Except SyntaxFault α) : Except AssemblyError α :=
  result.mapError (.malformed line)

/-- The statements of a source, with their line numbers. -/
def statements (source : List Char) : Except AssemblyError (List (Nat × Statement)) :=
  (statementTexts source).mapM fun (line, text) => do
    return (line, ← atLine line (Statement.ofText text))

/-- Labels so far, and the address of the next instruction. -/
structure Layout where
  symbols : Symbols
  address : Nat

/-- Defines a label, or makes room for an instruction. -/
def Layout.place (layout : Layout) : Nat × Statement → Except AssemblyError Layout
  | (line, .label name) =>
    if layout.symbols.values.contains name then .error (.duplicateLabel line name)
    else .ok { layout with symbols := layout.symbols.define name (.ofNat 16 layout.address) }
  | _ =>
    if layout.address + 1 > romWords then .error (.programTooLarge (layout.address + 1))
    else .ok { layout with address := layout.address + 1 }

/-- The symbols of a program before its variables. -/
def labels (program : List (Nat × Statement)) : Except AssemblyError Symbols :=
  return (← program.foldlM Layout.place ⟨.predefined, 0⟩).symbols

/-- The value of a decimal operand. It has to be readable as 64 bits before it
is compared with the largest literal. -/
def literal (line : Nat) (operand : List Char) : Except AssemblyError Word :=
  match Text.ofDecimal? operand with
  | some value =>
    if value ≥ UInt64.size then .error (.malformed line (.invalidNumber (String.ofList operand)))
    else if value > Instruction.maxLiteral then .error (.valueOutOfRange line value)
    else .ok (.ofNat 16 value)
  | none => .error (.malformed line (.invalidNumber (String.ofList operand)))

/-- The value of a symbol, which becomes a variable if it has none. -/
def Symbols.resolve (symbols : Symbols) (line : Nat) (name : String) :
    Except AssemblyError (Word × Symbols) :=
  match symbols.values[name]? with
  | some value => .ok (value, symbols)
  | none =>
    if symbols.nextVariable > Instruction.maxLiteral then
      .error (.valueOutOfRange line symbols.nextVariable)
    else
      let value := .ofNat 16 symbols.nextVariable
      .ok (value, { values := symbols.values.insert name value,
                    nextVariable := symbols.nextVariable + 1 })

/-- The value of an operand: a number if it starts with a digit, or a symbol. -/
def Symbols.operand (symbols : Symbols) (line : Nat) (operand : List Char) :
    Except AssemblyError (Word × Symbols) :=
  if operand.head?.any Char.isDigit then do
    return (← literal line operand, symbols)
  else if isSymbol operand then symbols.resolve line (String.ofList operand)
  else .error (.malformed line (.invalidSymbol (String.ofList operand)))

/-- A field of a computation, or the fault of a text that names none. -/
def known {α : Type} (line : Nat) (parse : String → Option α) (text : String) :
    Except AssemblyError α :=
  match parse text with
  | some field => .ok field
  | none => .error (.unknownMnemonic line text)

/-- A destination before `=` stores something. -/
def parseStore (text : String) : Option Dest := (Dest.ofText? text).filter fun dest => !dest.isEmpty

/-- The fields are read in the order destination, computation, jump. -/
def computation (line : Nat) (dest? : Option String) (comp : String) (jump? : Option String) :
    Except AssemblyError Instruction := do
  let dest ← (dest?.map (known line parseStore)).getD (.ok .nowhere)
  let comp ← known line Comp.ofText? comp
  let jump ← (jump?.map (known line Jump.ofText?)).getD (.ok .never)
  return .compute comp dest jump

/-- Words so far, with the symbols of what follows. -/
structure Output where
  symbols : Symbols
  words : Array Word

/-- Encodes one statement. -/
def Output.encode (output : Output) : Nat × Statement → Except AssemblyError Output
  | (_, .label _) => .ok output
  | (line, .address operand) => do
    let (value, symbols) ← output.symbols.operand line operand
    return ⟨symbols, output.words.push (Instruction.address value).encode⟩
  | (line, .compute dest? comp jump?) => do
    let instruction ← computation line dest? comp jump?
    return { output with words := output.words.push instruction.encode }

/-- The words of a program whose labels are known. -/
def encode (symbols : Symbols) (program : List (Nat × Statement)) :
    Except AssemblyError (List Word) :=
  return (← program.foldlM Output.encode ⟨symbols, #[]⟩).words.toList

/-- The words of a source. -/
def assemble (source : String) : Except AssemblyError (List Word) := do
  let program ← statements source.toList
  let symbols ← labels program
  encode symbols program

end NandComputer.Assembly
