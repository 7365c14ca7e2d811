import NandComputer.Proofs.Cli.Files
import NandComputer.Proofs.Cli.Outcome
import NandComputer.Proofs.Program

/-!
A source that is assembled to a file, and the file then run, against the source run
directly. The file is read back as the words that were assembled, and a run in JSON
does not tell where its words come from.
-/

namespace NandComputer.Cli

open CommandM

section Assemble

variable {source text : String} {desk : Desk} (hread : desk.directory.read source = .ok text)
  (output? : Option String)

include hread

/-- A source with a fault is told before anything is written, so the directory is left as it
was. -/
theorem outcome_asm_of_error {error : Assembly.AssemblyError}
    (hassemble : Assembly.assemble text = .error error) : ∃ printed,
      outcome (asm source output?) desk =
        (.error (failure ("Assembly error: " ++ error.message)), desk.printed printed) := by
  apply Exists.intro
  rw [asm, outcome_bind_of_ok _ (outcome_printLine ..),
    outcome_bind_of_ok _ (outcome_readFile _ source), Desk.printed, hread,
    outcome_bind_of_ok _ (outcome_orFail ..), hassemble]
  exact outcome_bind_of_error _ (outcome_orFail ..)

/-- A source without faults is assembled to its words, and the text of these is written beside
it or where it is asked for. -/
theorem outcome_asm_of_ok {words : List Word} (hassemble : Assembly.assemble text = .ok words)
    {after : Directory}
    (hwrite : desk.directory.write (output?.getD (withExtension source "hack"))
      (Program.render words) = .ok after) :
    ∃ printed, outcome (asm source output?) desk = (.ok (), ⟨after, printed⟩) := by
  apply Exists.intro
  rw [asm, outcome_bind_of_ok _ (outcome_printLine ..),
    outcome_bind_of_ok _ (outcome_readFile _ source), Desk.printed, hread,
    outcome_bind_of_ok _ (outcome_orFail ..), hassemble, outcome_bind_of_ok _ (outcome_orFail ..),
    outcome_bind_of_ok _ (outcome_printLine ..), Desk.printed,
    outcome_bind_of_ok _ (outcome_writeFile hwrite)]
  rfl

end Assemble

theorem isExtension_asm : IsExtension "asm" := ⟨by decide, by decide, by decide⟩

theorem isExtension_hack : IsExtension "hack" := ⟨by decide, by decide, by decide⟩

section Load

variable {directory after : Directory} {path contents : String}

/-- A configuration that can be loaded before and after a program is written is the same,
since the text of a program is no configuration. -/
theorem configIn_of_write {words : List Word}
    (hwrite : directory.write path (Program.render words) = .ok after) {config? : Option String}
    {config : Config} (hconfig : configIn directory config? = .ok config)
    (hkept : ∃ later, configIn after config? = .ok later) :
    configIn after config? = .ok config := by
  cases config? with
  | none => exact hconfig
  | some file =>
    rw [configIn, attempt_eq_ok_iff] at hconfig
    cases hread : directory.read file with
    | error error =>
      rw [hread] at hconfig
      cases hconfig
    | ok text =>
      rcases Directory.read_of_write hwrite hread with hsame | hprogram
      · rw [configIn, hsame, ← hread, attempt_eq_ok_iff]
        exact hconfig
      · obtain ⟨later, hlater⟩ := hkept
        rw [configIn, hprogram, attempt_eq_ok_iff] at hlater
        exact absurd (hlater.symm.trans (Config.parse_render words)) (by simp)

theorem wordsIn_source {text : String} (hpath : EndsInName path)
    (hread : directory.read (extended path "asm") = .ok text) :
    wordsIn directory (extended path "asm") = assembled text := by
  rw [wordsIn, if_pos (extension?_extended hpath isExtension_asm), hread, attempt_ok, Except.bind]

/-- A file with the text of words is loaded as these words, by its extension. -/
theorem wordsIn_rendered {words : List Word} (hpath : EndsInName path)
    (hread : directory.read (extended path "hack") = .ok (Program.render words)) :
    wordsIn directory (extended path "hack") = .ok words := by
  have hextension : extension? (extended path "hack") ≠ some "asm" := by
    rw [extension?_extended hpath isExtension_hack]
    decide
  rw [wordsIn, if_neg hextension, hread, attempt_eq_ok_iff, Program.ofFile_render]

end Load

/-- A run in JSON tells the same wherever its configuration and its words come from. -/
theorem runText_eq_of_loads {options : RunSettings} {program other : String}
    {directory after : Directory} {config : Config} {words : List Word}
    (hconfig : configIn directory options.config? = .ok config)
    (hafter : configIn after options.config? = .ok config)
    (hwords : wordsIn directory program = .ok words) (hother : wordsIn after other = .ok words) :
    runText { options with program := other } after =
      runText { options with program } directory := by
  simp only [runText, hconfig, hafter, hwords, hother]
  rfl

theorem conclude_finish_eq (directory after : Directory) (result : Except Exit String) :
    (conclude (Desk.finish ⟨after, ""⟩ result)).1 =
      (conclude (Desk.finish ⟨directory, ""⟩ result)).1 ∧
      (conclude (Desk.finish ⟨after, ""⟩ result)).2.stdout =
        (conclude (Desk.finish ⟨directory, ""⟩ result)).2.stdout := by
  cases result with
  | ok text => exact ⟨rfl, rfl⟩
  | error exit => exact ⟨rfl, rfl⟩

/-- A file of words was written for a source, and running it is running the source. -/
structure Assembled (path : String) (words : List Word) (assembling : Exit × Desk)
    (sourceRun fileRun : Exit × Desk) : Prop where
  exit : assembling.1 = ⟨0, ""⟩
  contents : assembling.2.directory.read (extended path "hack") = .ok (Program.render words)
  loaded : Program.ofFile (assembling.2.directory.read (extended path "hack")) = .ok words
  sameExit : fileRun.1 = sourceRun.1
  sameOutput : fileRun.2.stdout = sourceRun.2.stdout

/-- A source has a fault: both commands end with it, and nothing is written. -/
structure Faulty (directory : Directory) (error : Assembly.AssemblyError)
    (assembling sourceRun : Exit × Desk) : Prop where
  exit : assembling.1 = failure ("Assembly error: " ++ error.message)
  sameExit : sourceRun.1 = assembling.1
  unchanged : assembling.2.directory = directory

section Process

variable {path source : String} {directory : Directory} {options : RunSettings}
  {asmArguments sourceArguments fileArguments : List String}

/-- Assembling a source that can be assembled writes the file beside it, which has another
extension and so another name. -/
theorem process_asm_of_ok (hpath : EndsInName path)
    (hasm : Request.ofArguments asmArguments = .ok (.command (.asm (extended path "asm") none)))
    (hread : directory.read (extended path "asm") = .ok source)
    (hfree : directory.resolve (extended path "hack") ≠ .directory) {words : List Word}
    (hassemble : Assembly.assemble source = .ok words) :
    (process asmArguments directory).1 = ⟨0, ""⟩ ∧
      directory.write (extended path "hack") (Program.render words) =
        .ok (process asmArguments directory).2.directory := by
  obtain ⟨after, hwrite⟩ := Directory.exists_write_extended hpath isExtension_asm isExtension_hack
    hread hfree (Program.render words)
  have houtput : directory.write ((none : Option String).getD
      (withExtension (extended path "asm") "hack")) (Program.render words) = .ok after := by
    rw [Option.getD_none, withExtension_extended hpath isExtension_asm, hwrite]
  have hdesk : (⟨directory, ""⟩ : Desk).directory.read (extended path "asm") = .ok source := hread
  obtain ⟨printed, houtcome⟩ := outcome_asm_of_ok hdesk none hassemble houtput
  rw [process_eq_conclude hasm, perform, houtcome, hwrite]
  exact ⟨rfl, rfl⟩

/-- Assembling a source with a fault ends with the fault and leaves all files as they are. -/
theorem process_asm_of_error
    (hasm : Request.ofArguments asmArguments = .ok (.command (.asm (extended path "asm") none)))
    (hread : directory.read (extended path "asm") = .ok source) {error : Assembly.AssemblyError}
    (hassemble : Assembly.assemble source = .error error) :
    (process asmArguments directory).1 = failure ("Assembly error: " ++ error.message) ∧
      (process asmArguments directory).2.directory = directory := by
  have hdesk : (⟨directory, ""⟩ : Desk).directory.read (extended path "asm") = .ok source := hread
  obtain ⟨printed, houtcome⟩ := outcome_asm_of_error hdesk none hassemble
  rw [process_eq_conclude hasm, perform, houtcome]
  exact ⟨rfl, rfl⟩

/-- Assembling a source to a file and running the file is running the source, with a
configuration that can be loaded for each run: exit, output and files are the same. The file
can be written unless its place is a directory. If the source has a fault, both commands end
with it and no file is written. -/
theorem process_asm_then_run (hpath : EndsInName path)
    (hasm : Request.ofArguments asmArguments = .ok (.command (.asm (extended path "asm") none)))
    (hsource : Request.ofArguments sourceArguments =
      .ok (.command (.run { options with program := extended path "asm" })))
    (hfile : Request.ofArguments fileArguments =
      .ok (.command (.run { options with program := extended path "hack" })))
    (hjson : options.json = true) (hread : directory.read (extended path "asm") = .ok source)
    (hconfig : ∃ config, configIn directory options.config? = .ok config) :
    (∀ words, Assembly.assemble source = .ok words →
      directory.resolve (extended path "hack") ≠ .directory →
      (∃ config,
        configIn (process asmArguments directory).2.directory options.config? = .ok config) →
      Assembled path words (process asmArguments directory) (process sourceArguments directory)
        (process fileArguments (process asmArguments directory).2.directory)) ∧
    (∀ error, Assembly.assemble source = .error error →
      Faulty directory error (process asmArguments directory)
        (process sourceArguments directory)) := by
  obtain ⟨config, hconfig⟩ := hconfig
  have hwords := wordsIn_source hpath hread
  refine ⟨fun words hassemble hfree hkept => ?_, fun error hassemble => ?_⟩
  · obtain ⟨hexit, hwrite⟩ := process_asm_of_ok hpath hasm hread hfree hassemble
    have hcontents := Directory.read_write hwrite
    have hrendered := wordsIn_rendered hpath hcontents
    rw [assembled, hassemble, attempt_ok] at hwords
    have htext := runText_eq_of_loads hconfig (configIn_of_write hwrite hconfig hkept) hwords
      hrendered
    have hsame := conclude_finish_eq directory (process asmArguments directory).2.directory
      (runText { options with program := extended path "asm" } directory)
    refine ⟨hexit, hcontents, ?_, ?_, ?_⟩
    · rw [hcontents, Program.ofFile_render]
    · rw [process_run hfile hjson, process_run hsource hjson, htext]
      exact hsame.1
    · rw [process_run hfile hjson, process_run hsource hjson, htext]
      exact hsame.2
  · obtain ⟨hexit, hunchanged⟩ := process_asm_of_error hasm hread hassemble
    refine ⟨hexit, ?_, hunchanged⟩
    have htext : runText { options with program := extended path "asm" } directory =
        .error (failure ("Assembly error: " ++ error.message)) := by
      rw [assembled, hassemble] at hwords
      simp only [runText, hconfig, hwords]
      rfl
    rw [process_run hsource hjson, htext, hexit]
    rfl

/-- A source that can be assembled, and one that has a fault in its second line. -/
def sourceFiles : Directory :=
  ⟨[("loop.asm", "@5\nD=A\n@2\n0;JMP\n"), ("fault.asm", "@5\nD=Q\n")]⟩

/-- The options of a run of four instructions at most. -/
def fourCycles : RunSettings := ⟨"", 4, false, none, some 2, true⟩

/-- A source without faults and one with a fault, beside each other in a directory. The first
is assembled to a file of four words, and both are run. -/
theorem process_asm_then_run_loop :
    Assembled "loop" [0x0005, 0xEC10, 0x0002, 0xEA87] (process ["asm", "loop.asm"] sourceFiles)
      (process ["run", "loop.asm", "--json", "-m", "4", "-d", "2"] sourceFiles)
      (process ["run", "loop.hack", "--json", "-m", "4", "-d", "2"]
        (process ["asm", "loop.asm"] sourceFiles).2.directory) ∧
    Faulty sourceFiles (.unknownMnemonic 2 "Q") (process ["asm", "fault.asm"] sourceFiles)
      (process ["run", "fault.asm", "--json", "-m", "4", "-d", "2"] sourceFiles) := by
  have hconfig (directory : Directory) :
      ∃ config, configIn directory fourCycles.config? = .ok config := ⟨.default, rfl⟩
  constructor
  · have hname : EndsInName "loop" := ⟨'p', by decide, by decide⟩
    have hasm : Request.ofArguments ["asm", "loop.asm"] =
        .ok (.command (.asm (extended "loop" "asm") none)) := by decide +kernel
    have hsource : Request.ofArguments ["run", "loop.asm", "--json", "-m", "4", "-d", "2"] =
        .ok (.command (.run { fourCycles with program := extended "loop" "asm" })) := by
      decide +kernel
    have hfile : Request.ofArguments ["run", "loop.hack", "--json", "-m", "4", "-d", "2"] =
        .ok (.command (.run { fourCycles with program := extended "loop" "hack" })) := by
      decide +kernel
    have hread : sourceFiles.read (extended "loop" "asm") = .ok "@5\nD=A\n@2\n0;JMP\n" := by
      decide +kernel
    have hfree : sourceFiles.resolve (extended "loop" "hack") ≠ .directory := by decide +kernel
    exact (process_asm_then_run hname hasm hsource hfile rfl hread (hconfig _)).1 _
      (by decide +kernel)
      hfree (hconfig _)
  · have hname : EndsInName "fault" := ⟨'t', by decide, by decide⟩
    have hasm : Request.ofArguments ["asm", "fault.asm"] =
        .ok (.command (.asm (extended "fault" "asm") none)) := by decide +kernel
    have hsource : Request.ofArguments ["run", "fault.asm", "--json", "-m", "4", "-d", "2"] =
        .ok (.command (.run { fourCycles with program := extended "fault" "asm" })) := by
      decide +kernel
    have hfile : Request.ofArguments ["run", "fault.hack", "--json", "-m", "4", "-d", "2"] =
        .ok (.command (.run { fourCycles with program := extended "fault" "hack" })) := by
      decide +kernel
    have hread : sourceFiles.read (extended "fault" "asm") = .ok "@5\nD=Q\n" := by
      decide +kernel
    exact (process_asm_then_run hname hasm hsource hfile rfl hread (hconfig _)).2 _
      (by decide +kernel)

end Process

end NandComputer.Cli
