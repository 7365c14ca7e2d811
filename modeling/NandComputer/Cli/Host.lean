import NandComputer.FileError

/-!
What a command needs from its surroundings: files to read and write, and a place
to print. A command that fails stops with an exit.
-/

namespace NandComputer.Cli

class Host (m : Type → Type) where
  readFile : String → m (Except FileError String)
  /-- Creates a file or replaces its contents. -/
  writeFile : String → String → m (Except FileError Unit)
  print : String → m Unit

/-- How a program ends that does not succeed. -/
structure Exit where
  code : Nat
  /-- Text for the error stream. -/
  stderr : String
  deriving DecidableEq, Repr, Inhabited

/-- An action that may stop the program. -/
abbrev CommandM (m : Type → Type) (α : Type) : Type := ExceptT Exit m α

namespace CommandM

variable {m : Type → Type} [Monad m] [Host m]

def readFile (path : String) : CommandM m (Except FileError String) :=
  ExceptT.lift (Host.readFile path)

def writeFile (path contents : String) : CommandM m (Except FileError Unit) :=
  ExceptT.lift (Host.writeFile path contents)

def print (text : String) : CommandM m Unit := ExceptT.lift (Host.print text)

def printLine (text : String) : CommandM m Unit := print (text ++ "\n")

/-- Stops with code 1 and a line on the error stream. -/
def fail {α : Type} (text : String) : CommandM m α := throw ⟨1, "❌ " ++ text ++ "\n"⟩

/-- The value of a result, or the end of the program with a message about its
error. -/
def orFail {ε α : Type} (what : String) (message : ε → String) : Except ε α → CommandM m α
  | .ok value => pure value
  | .error error => fail (what ++ ": " ++ message error)

end CommandM

end NandComputer.Cli
