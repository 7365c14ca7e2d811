import Mathlib.Tactic.Common
import NandComputer.Cli.Commands
import NandComputer.Cli.Directory

/-!
What the commands do, as functions of the directory that they work in. A run
that reports in JSON changes no file and prints its report or nothing.
-/

namespace NandComputer.Cli

/-- The end of a program that failed. -/
def failure (text : String) : Exit := ⟨1, "❌ " ++ text ++ "\n"⟩

/-- A result, with the message about its error as the end of the program. -/
def attempt {ε α : Type} (what : String) (message : ε → String) (result : Except ε α) :
    Except Exit α :=
  result.mapError fun error => failure (what ++ ": " ++ message error)

theorem attempt_ok {ε α : Type} (what : String) (message : ε → String) (x : α) :
    attempt what message (.ok x) = .ok x := rfl

/-- An attempt succeeds with what its result has. What it is called matters only to the
message of a failure. -/
theorem attempt_eq_ok_iff {ε α : Type} {what : String} {message : ε → String}
    {result : Except ε α} {x : α} : attempt what message result = .ok x ↔ result = .ok x := by
  cases result with
  | ok y => simp [attempt_ok]
  | error error => simp [attempt, Except.mapError]

/-- The desk after more text is printed. -/
def Desk.printed (desk : Desk) (text : String) : Desk :=
  { desk with stdout := desk.stdout ++ text }

/-- The desk after a command that printed its text, or failed before. -/
def Desk.finish (desk : Desk) : Except Exit String → Except Exit Unit × Desk
  | .ok text => (.ok (), desk.printed text)
  | .error exit => (.error exit, desk)

namespace CommandM

variable {α β ε : Type}

/-- How an action on a desk ends, and the desk after it. -/
def outcome (action : CommandM (StateM Desk) α) (desk : Desk) : Except Exit α × Desk :=
  StateT.run (ExceptT.run action) desk

variable (desk : Desk)

@[simp] theorem outcome_readFile (path : String) :
    outcome (readFile path) desk = (.ok (desk.directory.read path), desk) := rfl

theorem outcome_writeFile {path contents stdout : String} {directory after : Directory}
    (h : directory.write path contents = .ok after) :
    outcome (writeFile path contents) ⟨directory, stdout⟩ = (.ok (.ok ()), ⟨after, stdout⟩) := by
  simp only [outcome, writeFile, ExceptT.run_lift, Host.writeFile, StateT.run_map,
    StateT.run_modifyGet]
  rw [h]
  rfl

@[simp] theorem outcome_printLine (text : String) :
    outcome (printLine text) desk = (.ok (), desk.printed (text ++ "\n")) := rfl

@[simp] theorem outcome_orFail (what : String) (message : ε → String) (result : Except ε α) :
    outcome (orFail what message result) desk = (attempt what message result, desk) := by
  cases result <;> rfl

section Bind

variable {action : CommandM (StateM Desk) α} {desk after : Desk}
  (next : α → CommandM (StateM Desk) β)

theorem outcome_bind_of_ok {x : α} (h : outcome action desk = (.ok x, after)) :
    outcome (action >>= next) desk = outcome (next x) after := by
  simp only [outcome, ExceptT.run_bind, StateT.run_bind] at h ⊢
  rw [h]
  rfl

theorem outcome_bind_of_error {exit : Exit} (h : outcome action desk = (.error exit, after)) :
    outcome (action >>= next) desk = (.error exit, after) := by
  simp only [outcome, ExceptT.run_bind, StateT.run_bind] at h ⊢
  rw [h]
  rfl

/-- Two actions, one after the other, that touch nothing, are a computation on their values.
-/
theorem outcome_bind_eq {action : CommandM (StateM Desk) α} {desk : Desk}
    {result : Except Exit α} (h : outcome action desk = (result, desk))
    {next : α → CommandM (StateM Desk) β} {value : α → Except Exit β}
    (hnext : ∀ x, outcome (next x) desk = (value x, desk)) :
    outcome (action >>= next) desk = (result.bind value, desk) := by
  cases result with
  | error exit => exact outcome_bind_of_error next h
  | ok x => exact (outcome_bind_of_ok next h).trans (hnext x)

/-- An action that touches nothing, and then one that prints a text, print the text or fail
together. -/
theorem outcome_bind_finish {action : CommandM (StateM Desk) α} {desk : Desk}
    {result : Except Exit α} (h : outcome action desk = (result, desk))
    {next : α → CommandM (StateM Desk) Unit} {text : α → Except Exit String}
    (hnext : ∀ x, outcome (next x) desk = desk.finish (text x)) :
    outcome (action >>= next) desk = desk.finish (result.bind text) := by
  cases result with
  | error exit => exact outcome_bind_of_error next h
  | ok x => exact (outcome_bind_of_ok next h).trans (hnext x)

end Bind

end CommandM

open CommandM

/-- The configuration of a run in a directory. -/
def configIn (directory : Directory) : Option String → Except Exit Config
  | none => .ok .default
  | some path =>
    attempt "Failed to load config" ConfigError.message (Config.ofFile (directory.read path))

/-- The words of a source text. -/
def assembled (source : String) : Except Exit (List Word) :=
  attempt "Assembly error" Assembly.AssemblyError.message (Assembly.assemble source)

/-- The words of a file in a directory. -/
def wordsIn (directory : Directory) (path : String) : Except Exit (List Word) :=
  if extension? path = some "asm" then
    (attempt "Failed to read file" FileError.message (directory.read path)).bind assembled
  else
    attempt "Failed to load HACK file" ProgramFileError.message
      (Program.ofFile (directory.read path))

theorem outcome_loadConfig (path? : Option String) (desk : Desk) :
    outcome (loadConfig path?) desk = (configIn desk.directory path?, desk) := by
  cases path? with
  | none => rfl
  | some path => exact outcome_orFail desk _ _ _

theorem outcome_loadWords (path : String) (desk : Desk) :
    outcome (loadWords path) desk = (wordsIn desk.directory path, desk) := by
  rw [loadWords, wordsIn, outcome_bind_of_ok _ (outcome_readFile desk path)]
  split
  case isTrue =>
    exact outcome_bind_eq (outcome_orFail desk _ _ _) fun source => outcome_orFail desk _ _ _
  case isFalse => exact outcome_orFail desk _ _ _

/-- The result of a run that is traced, without the trace. -/
def tracedRun (maxCycles : Nat) (c : Computer) : RunResult × Computer :=
  let (summary, last) := (Computer.advance maxCycles 0 c).2.run 0
  ({ summary with cycles := last.ticks - c.ticks }, last)

def execute (options : RunSettings) (c : Computer) : RunResult × Computer :=
  if options.trace then tracedRun options.maxCycles c else c.run options.maxCycles

/-- The report in JSON on a run of a loaded program. -/
def reportText (options : RunSettings) (c : Computer) : String :=
  (Report.ofComputer (execute options c).2 (execute options c).1
    (options.dump?.getD 0)).toJson.pretty

/-- A computer of a configuration that has loaded words. -/
def computerWith (config : Config) (words : List Word) : Except Exit Computer :=
  if words.isEmpty then .error (failure "No instructions to execute")
  else do
    let c ← attempt "Failed to build computer" ComputerError.message (Computer.build config)
    attempt "Failed to load program" ComputerError.message (c.load words.toArray)

/-- The report in JSON on a run in a directory. -/
def runText (options : RunSettings) (directory : Directory) : Except Exit String := do
  let config ← configIn directory options.config?
  let words ← wordsIn directory options.program
  return reportText options (← computerWith config words) ++ "\n"

/-- Without anything told, a trace only takes the steps, the same ones as a plain run from
there. -/
theorem outcome_traceRun (fuel cycles : Nat) (c : Computer) (desk : Desk) :
    outcome (traceRun (fun _ => pure ()) fuel c) desk =
      (.ok (Computer.advance fuel cycles c).2, desk) := by
  induction fuel generalizing cycles c with
  | zero => rfl
  | succ fuel ih =>
    rw [traceRun, Computer.advance]
    split
    case isTrue => exact ih (cycles + 1) c.step
    case isFalse => rfl

theorem outcome_runTraced (maxCycles : Nat) (c : Computer) (desk : Desk) :
    outcome (runTraced (fun _ => pure ()) maxCycles c) desk =
      (.ok (tracedRun maxCycles c), desk) := by
  rw [runTraced, outcome_bind_of_ok _ (outcome_traceRun maxCycles 0 c desk)]
  rfl

/-- A run that reports in JSON prints its report or nothing, and leaves the directory. This
holds traced and untraced, as a trace in JSON is not told. -/
theorem outcome_run {options : RunSettings} (hjson : options.json = true) (desk : Desk) :
    outcome (run options) desk = desk.finish (runText options desk.directory) := by
  rw [run]
  refine outcome_bind_finish (outcome_loadConfig _ _) fun config => ?_
  refine outcome_bind_finish (outcome_loadWords _ _) fun words => ?_
  simp only [computerWith, hjson, Bool.not_true, Bool.false_eq_true, if_true, if_false]
  split
  case isTrue => rfl
  case isFalse =>
    rw [bind_assoc]
    refine outcome_bind_finish (outcome_orFail _ _ _ _) fun built => ?_
    refine outcome_bind_finish (outcome_orFail _ _ _ _) fun c => ?_
    rw [reportText, execute]
    split
    case isTrue =>
      rw [outcome_bind_of_ok _ (outcome_runTraced options.maxCycles c desk)]
      exact outcome_printLine desk _
    case isFalse => exact outcome_printLine desk _

/-- How a program that is started in a directory ends, with the directory after
it and the text that it printed. -/
def process (arguments : List String) (directory : Directory) : Exit × Desk :=
  (invoke arguments : StateM Desk Exit).run ⟨directory, ""⟩

/-- The end of a program whose request is done. -/
def conclude : Except Exit Unit × Desk → Exit × Desk
  | (.ok (), desk) => (⟨0, ""⟩, desk)
  | (.error exit, desk) => (exit, desk)

section Process

variable {arguments : List String} {directory : Directory}

theorem process_eq_conclude {request : Request}
    (hrequest : Request.ofArguments arguments = .ok request) :
    process arguments directory = conclude (outcome (perform request) ⟨directory, ""⟩) := by
  simp only [process, invoke, hrequest, StateT.run_bind]
  cases hrun : outcome (perform request) ⟨directory, ""⟩ with
  | mk result after =>
    rw [outcome] at hrun
    rw [hrun]
    cases result with
    | ok done => rfl
    | error exit => rfl

theorem process_run {options : RunSettings}
    (hrequest : Request.ofArguments arguments = .ok (.command (.run options)))
    (hjson : options.json = true) :
    process arguments directory =
      conclude (Desk.finish ⟨directory, ""⟩ (runText options directory)) := by
  rw [process_eq_conclude hrequest, perform, outcome_run hjson]

/-- A run that comes to its report succeeds, prints it and leaves all files. -/
theorem process_of_runText {options : RunSettings} {text : String}
    (hrequest : Request.ofArguments arguments = .ok (.command (.run options)))
    (hjson : options.json = true) (htext : runText options directory = .ok text) :
    process arguments directory = (⟨0, ""⟩, ⟨directory, text⟩) := by
  rw [process_run hrequest hjson, htext, Desk.finish, conclude, Desk.printed, String.empty_append]

end Process

end NandComputer.Cli
