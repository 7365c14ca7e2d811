import NandComputer.FileError
import NandComputer.Text.Blank
import NandComputer.Text.Lines
import NandComputer.Text.Numeral
import NandComputer.Word

/-!
The text form of a program: a word per line, as 16 binary digits with the most
significant first. Text after two slashes is a comment, and lines that are blank
without it are skipped.
-/

namespace NandComputer

/-- Why a line gives no word. -/
inductive WordFault where
  | notDigits (code : String)
  | unreadable (fault : Text.NumeralFault)
  deriving DecidableEq, Repr, Inhabited

def WordFault.message : WordFault → String
  | .notDigits code => "expected 16 binary digits, found `" ++ code ++ "`"
  | .unreadable fault => fault.message

/-- The first line that is neither blank nor a word. -/
structure ProgramError where
  line : Nat
  fault : WordFault
  deriving DecidableEq, Repr, Inhabited

def ProgramError.message (error : ProgramError) : String :=
  s!"parse error on line {error.line}: " ++ error.fault.message

/-- Why a file gives no program. -/
inductive ProgramFileError where
  | unreadable (error : FileError)
  | malformed (error : ProgramError)
  deriving DecidableEq, Repr, Inhabited

def ProgramFileError.message : ProgramFileError → String
  | .unreadable error => s!"I/O error: {error.message}"
  | .malformed error => error.message

namespace Program

/-- The word of a line without its comment and the blanks around it. -/
def readWord (code : List Char) : Except WordFault Word :=
  if Text.byteLength code ≠ 16 ∨ !code.all Text.isBit then .error (.notDigits (String.ofList code))
  else
    match Text.readBinary UInt16.size code with
    | .ok value => .ok (.ofNat 16 value)
    | .error fault => .error (.unreadable fault)

/-- The words of a program text. -/
def parse (text : String) : Except ProgramError (List Word) :=
  let codes := (Text.numberedLines text.toList).map fun (line, text) =>
    (line, Text.trim (Text.beforeComment text))
  (codes.filter fun (_, code) => !code.isEmpty).mapM fun (line, code) =>
    (readWord code).mapError (ProgramError.mk line)

/-- The words of a program file. -/
def ofFile (contents : Except FileError String) : Except ProgramFileError (List Word) := do
  (parse (← contents.mapError .unreadable)).mapError .malformed

def renderWord (word : Word) : String := String.ofList (Text.binary 16 word.toNat) ++ "\n"

/-- The text of a program. -/
def render (words : List Word) : String := String.join (words.map renderWord)

end Program

end NandComputer
