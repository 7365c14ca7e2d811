import NandComputer.Text.Numeral

/-!
The arguments of the command line. Options have long names after two dashes, and
some have letters after one dash; letters without a value can share a dash. The
value of an option follows it, as the next argument or after an equals sign, or
right after a letter. Two dashes alone end the options. Options stand before or
after the operands of a command. Arguments count from left to right: the first
fault, or the first question for version or help, decides.
-/

namespace NandComputer.Cli

inductive FlagKind where
  | switch
  /-- A switch that may be repeated. -/
  | counter
  | text
  | number
  | version
  | help
  deriving DecidableEq, Repr, Inhabited

def FlagKind.takesValue : FlagKind → Bool
  | .text | .number => true
  | _ => false

/-- An option that a command knows. -/
structure Flag where
  name : String
  letter? : Option Char
  kind : FlagKind
  deriving DecidableEq, Repr, Inhabited

/-- Why the arguments are not those of a command. -/
inductive UsageError where
  | unknownOption (text : String)
  | missingValue (option : String)
  | unexpectedValue (option : String)
  | repeatedOption (option : String)
  | invalidNumber (text : String)
  | unknownCommand (name : String)
  | missingOperand (command : String)
  | unexpectedOperand (text : String)
  deriving DecidableEq, Repr, Inhabited

def UsageError.message : UsageError → String
  | .unknownOption text => "unknown option '" ++ text ++ "'"
  | .missingValue option => "a value is missing after '--" ++ option ++ "'"
  | .unexpectedValue option => "option '--" ++ option ++ "' takes no value"
  | .repeatedOption option => "option '--" ++ option ++ "' is given twice"
  | .invalidNumber text => "'" ++ text ++ "' is not a number"
  | .unknownCommand name => "unknown command '" ++ name ++ "'"
  | .missingOperand command => "'" ++ command ++ "' needs a file"
  | .unexpectedOperand text => "unexpected argument '" ++ text ++ "'"

/-- What ends the reading of arguments early. -/
inductive Interrupt where
  | usage (error : UsageError)
  | version
  | help
  deriving DecidableEq, Repr, Inhabited

/-- A number that fits into 64 bits; a plus sign in front is allowed. -/
def number? (text : String) : Option Nat :=
  let digits := match text.toList with
    | '+' :: digits => digits
    | digits => digits
  (Text.ofDecimal? digits).filter (· < UInt64.size)

/-- Arguments sorted into options, with their values, and operands. -/
structure Scanned where
  options : List (String × String)
  operands : List String
  deriving DecidableEq, Repr, Inhabited

namespace Scanned

def value? (s : Scanned) (name : String) : Option String := s.options.lookup name

def has (s : Scanned) (name : String) : Bool := (s.value? name).isSome

def addOption (s : Scanned) (flag : Flag) (value : String) : Except Interrupt Scanned :=
  match flag.kind with
  | .version => .error .version
  | .help => .error .help
  | kind =>
    if kind ≠ .counter ∧ s.has flag.name then .error (.usage (.repeatedOption flag.name))
    else if kind = .number ∧ (number? value).isNone then .error (.usage (.invalidNumber value))
    else .ok { s with options := s.options ++ [(flag.name, value)] }

/-- Adds an operand, unless there are as many as `limit`. -/
def addOperand (limit : Nat) (s : Scanned) (text : String) : Except Interrupt Scanned :=
  if s.operands.length < limit then .ok { s with operands := s.operands ++ [text] }
  else .error (.usage (.unexpectedOperand text))

end Scanned

/-- The letters of an argument after one dash. A letter that still needs its
value is returned. -/
def scanLetters (flags : List Flag) (s : Scanned) :
    List Char → Except Interrupt (Scanned × Option Flag)
  | [] => .ok (s, none)
  | letter :: rest =>
    match flags.find? (·.letter? = some letter) with
    | none => .error (.usage (.unknownOption (String.ofList ['-', letter])))
    | some flag =>
      if !flag.kind.takesValue then do scanLetters flags (← s.addOption flag "") rest
      else match rest with
        | [] => .ok (s, some flag)
        | '=' :: value | value => return (← s.addOption flag (String.ofList value), none)

/-- An argument after two dashes. -/
def scanLong (flags : List Flag) (s : Scanned) (text : List Char) :
    Except Interrupt (Scanned × Option Flag) :=
  let name := String.ofList (text.takeWhile (· ≠ '='))
  match flags.find? (·.name = name), text.dropWhile (· ≠ '=') with
  | none, _ => .error (.usage (.unknownOption ("--" ++ name)))
  | some flag, [] =>
    if flag.kind.takesValue then .ok (s, some flag) else return (← s.addOption flag "", none)
  | some flag, _ :: value =>
    if flag.kind.takesValue then return (← s.addOption flag (String.ofList value), none)
    else .error (.usage (.unexpectedValue name))

/-- The options that an argument gives, unless it is an operand. -/
def scanOption? (flags : List Flag) (s : Scanned) (argument : String) :
    Option (Except Interrupt (Scanned × Option Flag)) :=
  match argument.toList with
  | '-' :: '-' :: text => some (scanLong flags s text)
  | '-' :: letter :: rest => some (scanLetters flags s (letter :: rest))
  | _ => none

/-- Sorts arguments of which at most `limit` are operands; `pending?` is an
option whose value comes next. -/
def scan (flags : List Flag) (limit : Nat) (s : Scanned) (pending? : Option Flag) :
    List String → Except Interrupt Scanned
  | [] =>
    match pending? with
    | some flag => .error (.usage (.missingValue flag.name))
    | none => .ok s
  | argument :: rest =>
    match pending? with
    | some flag =>
      if (scanOption? flags s argument).isSome then .error (.usage (.missingValue flag.name))
      else do scan flags limit (← s.addOption flag argument) none rest
    | none =>
      if argument = "--" then rest.foldlM (Scanned.addOperand limit) s
      else match scanOption? flags s argument with
        | some scanned => do
          let (s, pending?) ← scanned
          scan flags limit s pending? rest
        | none => do scan flags limit (← s.addOperand limit argument) none rest

structure RunSettings where
  program : String
  maxCycles : Nat
  trace : Bool
  config? : Option String
  dump? : Option Nat
  json : Bool
  deriving DecidableEq, Repr, Inhabited

inductive Command where
  /-- Run a program until it halts. -/
  | run (options : RunSettings)
  /-- Assemble a source file. -/
  | asm (source : String) (output? : Option String)
  /-- List a program file. -/
  | disasm (program : String)
  /-- Run the self-test. -/
  | test
  deriving DecidableEq, Repr, Inhabited

inductive Request where
  | version
  | help
  | demo
  | command (command : Command)
  deriving DecidableEq, Repr, Inhabited

/-- Options that every command knows. -/
def commonFlags : List Flag := [⟨"verbose", some 'v', .counter⟩, ⟨"help", some 'h', .help⟩]

def leadingFlags : List Flag := ⟨"version", some 'V', .version⟩ :: commonFlags

def runFlags : List Flag :=
  [⟨"max-cycles", some 'm', .number⟩, ⟨"trace", some 't', .switch⟩, ⟨"config", some 'c', .text⟩,
    ⟨"dump", some 'd', .number⟩, ⟨"json", none, .switch⟩] ++ commonFlags

def asmFlags : List Flag := ⟨"output", some 'o', .text⟩ :: commonFlags

/-- The arguments of a command with one operand. -/
def scanFile (command : String) (flags : List Flag) (arguments : List String) :
    Except Interrupt (Scanned × String) := do
  let s ← scan flags 1 ⟨[], []⟩ none arguments
  match s.operands with
  | file :: _ => return (s, file)
  | [] => .error (.usage (.missingOperand command))

/-- The options of a run, from its arguments. -/
def RunSettings.ofScanned (s : Scanned) (program : String) : RunSettings where
  program
  maxCycles := ((s.value? "max-cycles").bind number?).getD 10000
  trace := s.has "trace"
  config? := s.value? "config"
  dump? := (s.value? "dump").bind number?
  json := s.has "json"

def commandNames : List String := ["run", "asm", "disasm", "test", "help"]

/-- The command with a name and arguments. -/
def requestOf (name : String) (arguments : List String) : Except Interrupt Request := do
  match name with
  | "run" =>
    let (s, program) ← scanFile name runFlags arguments
    return .command (.run (.ofScanned s program))
  | "asm" =>
    let (s, source) ← scanFile name asmFlags arguments
    return .command (.asm source (s.value? "output"))
  | "disasm" =>
    let (_, program) ← scanFile name commonFlags arguments
    return .command (.disasm program)
  | "test" =>
    let _ ← scan commonFlags 0 ⟨[], []⟩ none arguments
    return .command .test
  | "help" =>
    match arguments with
    | [] => .error .help
    | [topic] =>
      if commandNames.contains topic then .error .help
      else .error (.usage (.unknownCommand topic))
    | _ :: extra :: _ => .error (.usage (.unexpectedOperand extra))
  | _ => .error (.usage (.unknownCommand name))

def isOption (argument : String) : Bool :=
  match argument.toList with
  | '-' :: _ :: _ => true
  | _ => false

/-- The request of arguments that are read to their end. -/
def scanRequest (arguments : List String) : Except Interrupt Request := do
  let leading := arguments.takeWhile isOption
  let _ ← scan leadingFlags 0 ⟨[], []⟩ none leading
  match arguments.dropWhile isOption with
  | [] => return .demo
  | name :: rest =>
    if leading.contains "--" then .error (.usage (.unexpectedOperand name))
    else requestOf name rest

/-- What the arguments ask for. -/
def Request.ofArguments (arguments : List String) : Except UsageError Request :=
  match scanRequest arguments with
  | .ok request => .ok request
  | .error .version => .ok .version
  | .error .help => .ok .help
  | .error (.usage error) => .error error

end NandComputer.Cli
