import NandComputer.Cli.Arguments
import NandComputer.Cli.Host
import NandComputer.Cli.Path
import NandComputer.Cli.Report
import NandComputer.Cli.SelfTest
import NandComputer.Program

/-!
The commands of the program. Each prints as it goes and stops at its first
failure, so what was printed before a failure stays.
-/

namespace NandComputer.Cli

variable {m : Type → Type} [Monad m] [Host m]

open CommandM

def printLines (lines : List String) : CommandM m Unit := lines.forM printLine

/-- The words of a file: assembled if it is assembly source, and read as words
otherwise. -/
def loadWords (path : String) : CommandM m (List Word) := do
  let contents ← readFile path
  if extension? path = some "asm" then
    let source ← orFail "Failed to read file" FileError.message contents
    orFail "Assembly error" Assembly.AssemblyError.message (Assembly.assemble source)
  else
    orFail "Failed to load HACK file" ProgramFileError.message (Program.ofFile contents)

/-- The configuration of a run. -/
def loadConfig : Option String → CommandM m Config
  | none => return .default
  | some path => do
    orFail "Failed to load config" ConfigError.message (Config.ofFile (← readFile path))

/-- Runs at most so many instructions and tells each one. -/
def traceRun (tell : String → CommandM m Unit) : Nat → Computer → CommandM m Computer
  | 0, c => return c
  | fuel + 1, c =>
    if c.state = .running then do
      let pc := c.pc
      let text := Assembly.wordText (c.fetch pc)
      let c := c.step
      tell (traceLine pc text c)
      traceRun tell fuel c
    else return c

/-- Runs a program step by step. The summary of an empty run at the end shows
where it stopped. -/
def runTraced (tell : String → CommandM m Unit) (maxCycles : Nat) (c : Computer) :
    CommandM m (RunResult × Computer) := do
  let start := c.ticks
  let c ← traceRun tell maxCycles c
  let (summary, c) := c.run 0
  return ({ summary with cycles := c.ticks - start }, c)

def run (options : RunSettings) : CommandM m Unit := do
  let config ← loadConfig options.config?
  let words ← loadWords options.program
  if words.isEmpty then fail "No instructions to execute"
  let computer ← orFail "Failed to build computer" ComputerError.message (Computer.build config)
  let computer ← orFail "Failed to load program" ComputerError.message
    (computer.load words.toArray)
  if !options.json then
    printLines [s!"🔧 Running: {options.program} ({words.length} words)",
      s!"   circuit: {computer.counts.nands} NAND gates, {computer.counts.flipFlops} flip-flops",
      "", "━━━ Execution ━━━"]
  let tell (line : String) : CommandM m Unit := if options.json then pure () else printLine line
  let (summary, computer) ←
    if options.trace then runTraced tell options.maxCycles computer
    else pure (computer.run options.maxCycles)
  let report := Report.ofComputer computer summary (options.dump?.getD 0)
  if options.json then printLine report.toJson.pretty
  else printLines (report.lines ++ report.limitLines options.maxCycles)

def asm (source : String) (output? : Option String) : CommandM m Unit := do
  let output := output?.getD (withExtension source "hack")
  printLine s!"📝 Assembling: {source} → {output}"
  let text ← orFail "Failed to read file" FileError.message (← readFile source)
  let words ← orFail "Assembly error" Assembly.AssemblyError.message (Assembly.assemble text)
  printLine s!"✓ Assembled {words.length} instructions"
  orFail "Failed to save HACK file" (fun error => (ProgramFileError.unreadable error).message)
    (← writeFile output (Program.render words))
  printLine s!"✓ Saved to {output}"

def disasm (path : String) : CommandM m Unit := do
  printLines [s!"📖 Disassembling: {path}", ""]
  let words ← orFail "Failed to load HACK file" ProgramFileError.message
    (Program.ofFile (← readFile path))
  printLine (Assembly.listing words)

def test : CommandM m Unit := do
  printLines ["━━━ Hack Simulator Self-Test ━━━", ""]
  let results := checks 4
  results.forM fun (name, passed) => printLine (name ++ "... " ++ if passed then "✓" else "✗")
  let failed := results.countP (!·.2)
  printLines ["", "━━━━━━━━━━━━━━━━━━━━━━━━━━━━━━",
    s!"Results: {results.length - failed} passed, {failed} failed"]
  if failed = 0 then printLine "✓ All tests passed!" else throw ⟨1, ""⟩

def versionNumber : String := "0.1.0"

def demo : CommandM m Unit := do
  printLines ["Hack Simulator v" ++ versionNumber,
    "A computer built from NAND gates and flip-flops", "", "Use --help for available commands", "",
    "━━━ Gate-Level Demo ━━━", ""]
  let words ← orFail "Assembly error" Assembly.AssemblyError.message
    (Assembly.assemble demoProgram)
  let computer ← orFail "Failed to load program" ComputerError.message
    (withOperands ⟨6, .standard⟩ words 6 7)
  printLine (s!"Computer with {computer.dataSize} words of RAM: " ++
    s!"{computer.counts.nands} NAND gates, {computer.counts.flipFlops} flip-flops")
  let (summary, computer) := computer.run 1000
  let product := ((computer.cell? 2).getD 0).toNat
  printLines [s!"  R0 × R1 = 6 × 7 = {product} ({summary.cycles} cycles, {summary.state.name})", "",
    "✓ Gate-level computer working!"]

def usage : String :=
  "Usage: hack-sim [-v] [COMMAND]\n\nCommands:\n" ++
  "  run <PROGRAM> [-m N] [-t] [-c FILE] [-d N] [--json]  Run a program until it halts\n" ++
  "  asm <SOURCE> [-o FILE]                               Assemble a source file\n" ++
  "  disasm <PROGRAM>                                     List a program file\n" ++
  "  test                                                 Run the self-test\n"

def perform : Request → CommandM m Unit
  | .version => printLine ("hack-sim " ++ versionNumber)
  | .help => print usage
  | .demo => demo
  | .command (.run options) => run options
  | .command (.asm source output?) => asm source output?
  | .command (.disasm program) => disasm program
  | .command .test => test

/-- Does what the arguments ask for, and says how the program ends. -/
def invoke (arguments : List String) : m Exit := do
  match Request.ofArguments arguments with
  | .error error => return ⟨2, s!"error: {error.message}\n\n" ++ usage⟩
  | .ok request =>
    match ← (perform request : CommandM m Unit).run with
    | .ok () => return ⟨0, ""⟩
    | .error exit => return exit

end NandComputer.Cli
