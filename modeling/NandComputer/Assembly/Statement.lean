import NandComputer.Text.Blank
import NandComputer.Text.Lines
import NandComputer.Text.Numeral

/-!
Statements of assembly source. Comments run from two slashes to the end of the
line, blank characters mean nothing, and every line that is not empty then
holds one statement: a label in parentheses, an address operand after `@`, or a
computation `dest=comp;jump` of which `dest` and `jump` may be missing.
-/

namespace NandComputer.Assembly

/-- What is wrong with the form of a statement. -/
inductive SyntaxFault where
  | unterminatedLabel (text : String)
  | invalidLabel (name : String)
  | missingOperand
  | invalidNumber (text : String)
  | invalidSymbol (text : String)
  deriving DecidableEq, Repr, Inhabited

def SyntaxFault.message : SyntaxFault → String
  | .unterminatedLabel text => "unterminated label `" ++ text ++ "`"
  | .invalidLabel name => "invalid label name `" ++ name ++ "`"
  | .missingOperand => "`@` needs a value or symbol"
  | .invalidNumber text => "invalid number `" ++ text ++ "`"
  | .invalidSymbol text => "invalid symbol `" ++ text ++ "`"

/-- Letters, digits and four marks, in ASCII. -/
def isSymbolChar (c : Char) : Bool :=
  c.isAlphanum || c == '_' || c == '.' || c == '$' || c == ':'

/-- A symbol does not start with a digit. -/
def isSymbol : List Char → Bool
  | [] => false
  | first :: rest => isSymbolChar first && !first.isDigit && rest.all isSymbolChar

inductive Statement where
  | label (name : String)
  | address (operand : List Char)
  | compute (dest? : Option String) (comp : String) (jump? : Option String)
  deriving DecidableEq, Repr, Inhabited

/-- The text before the first `mark` and the text after it. -/
def cut (mark : Char) (text : List Char) : Option (List Char × List Char) :=
  match text.dropWhile (· ≠ mark) with
  | [] => none
  | _ :: after => some (text.takeWhile (· ≠ mark), after)

/-- Splits a computation at the first semicolon, and what is before that at the
first equals sign. -/
def splitCompute (text : List Char) : Statement :=
  let (body, jump?) := match cut ';' text with
    | some (body, jump) => (body, some (String.ofList jump))
    | none => (text, none)
  match cut '=' body with
  | some (dest, comp) => .compute (some (String.ofList dest)) (String.ofList comp) jump?
  | none => .compute none (String.ofList body) jump?

/-- The label in parentheses whose opening one is already read. -/
def labelOf (rest : List Char) : Except SyntaxFault Statement :=
  if rest.getLast? ≠ some ')' then .error (.unterminatedLabel (String.ofList ('(' :: rest)))
  else if isSymbol rest.dropLast then .ok (.label (String.ofList rest.dropLast))
  else .error (.invalidLabel (String.ofList rest.dropLast))

/-- The statement of a text without blank characters. -/
def Statement.ofText : List Char → Except SyntaxFault Statement
  | '(' :: rest => labelOf rest
  | ['@'] => .error .missingOperand
  | '@' :: operand => .ok (.address operand)
  | text => .ok (splitCompute text)

/-- The texts of the statements of a source, with their line numbers. -/
def statementTexts (source : List Char) : List (Nat × List Char) :=
  ((Text.numberedLines source).map fun (line, text) =>
    (line, Text.squeeze (Text.beforeComment text))).filter fun (_, text) => !text.isEmpty

end NandComputer.Assembly
