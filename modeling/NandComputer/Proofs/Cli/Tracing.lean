import NandComputer.Proofs.Cli.Outcome
import NandComputer.Proofs.Computer.Halting
import NandComputer.Proofs.Computer.Running
import NandComputer.Proofs.Text.Numeral

/-!
A traced run against a plain one. The plain run looks for an idle loop before its
first step, the traced one only after each step. So the two agree, except that a
program which starts in its idle loop has steps counted when it is traced.
-/

namespace NandComputer

/-- The first of at least two parts of a block, and what follows it. -/
theorem Json.block_cons_cons (level : Nat) (opening closing first second : String)
    (rest : List String) :
    block level opening closing (first :: second :: rest) =
      opening ++ (newline (level + 1) ++ (first ++ ("," ++ (newline (level + 1) ++
        (("," ++ newline (level + 1)).intercalate (second :: rest) ++
          (newline level ++ closing)))))) := by
  rw [block, String.intercalate_cons_cons]
  · simp only [String.append_assoc]
  · exact fun h => by cases h

namespace Cli

variable {c : Computer} {maxCycles : Nat}

/-- Outside an idle loop the first look of a plain run finds nothing, and from there on both
take the same steps. -/
theorem tracedRun_eq_run_of_isIdle_eq_false (h : c.isIdle = false) :
    tracedRun maxCycles c = c.run maxCycles := by
  have hnoted := Computer.noteIdle_of_isIdle_eq_false h
  have hlast := Computer.noteIdle_advance hnoted maxCycles 0
  have hticks := c.ticks_advance maxCycles 0
  have hcycles : (Computer.advance maxCycles 0 c).2.ticks - c.ticks =
      (Computer.advance maxCycles 0 c).1 := by omega
  rw [Computer.run, hnoted]
  dsimp only [tracedRun]
  rw [Computer.run_zero, hlast]
  dsimp only [Computer.result]
  rw [hcycles]

theorem tracedRun_zero : tracedRun 0 c = c.run 0 := by
  have hticks := c.ticks_noteIdle
  dsimp only [tracedRun, Computer.advance]
  rw [Computer.run_zero]
  dsimp only [Computer.result]
  rw [hticks, Nat.sub_self]

/-- A traced run that may take a step takes one, also in an idle loop. -/
theorem cycles_tracedRun_pos (hrunning : c.state = .running) (hpos : maxCycles ≠ 0) :
    (tracedRun maxCycles c).1.cycles ≠ 0 := by
  obtain ⟨fuel, rfl⟩ := Nat.exists_eq_succ_of_ne_zero hpos
  have hticks := c.step.ticks_advance fuel 1
  have hstep := c.ticks_step
  have hnoted := (Computer.advance fuel 1 c.step).2.ticks_noteIdle
  have hcount := Computer.le_cycles_advance c.step fuel 1
  dsimp only [tracedRun]
  rw [Computer.advance, if_pos hrunning, Nat.zero_add, Computer.run_zero]
  dsimp only
  omega

/-- A run can be traced without another result if it starts outside its idle loop, or takes no
steps. -/
theorem tracedRun_eq_run (h : maxCycles = 0 ∨ c.isIdle = false) :
    tracedRun maxCycles c = c.run maxCycles := by
  rcases h with rfl | hidle
  · exact tracedRun_zero
  · exact tracedRun_eq_run_of_isIdle_eq_false hidle

section Text

/-- What the JSON of every report starts with. -/
def Report.header : String :=
  "\x7b" ++ (Json.newline 1 ++ (Json.writeString "summary" ++ (": " ++ ("\x7b" ++
    (Json.newline 2 ++ (Json.writeString "cycles" ++ ": "))))))

/-- The text of a report begins the same way in all reports, and then comes the number of
cycles. -/
theorem Report.exists_pretty_toJson (report : Report) : ∃ rest : String,
    report.toJson.pretty =
      header ++ (String.ofList (Text.decimal report.summary.cycles) ++ ("," ++ rest)) := by
  simp only [toJson, Json.ofFields, Json.pretty, Json.prettyAt, Json.prettyEntries, List.map_cons,
    Json.block_cons_cons, String.append_assoc, header]
  exact ⟨_, rfl⟩

/-- A numeral with a comma after it is told from what follows, so texts that begin with such
numerals tell the numbers. -/
theorem decimal_append_injective {m n : Nat} {rest rest' : List Char}
    (h : Text.decimal m ++ ',' :: rest = Text.decimal n ++ ',' :: rest') : m = n := by
  have htake (k : Nat) (tail : List Char) :
      (Text.decimal k ++ ',' :: tail).takeWhile Char.isDigit = Text.decimal k := by
    rw [List.takeWhile_append_of_pos fun _ hc => Text.isDigit_of_mem_decimal hc]
    simp
  have hdecimal : Text.decimal m = Text.decimal n := by
    rw [← htake m rest, h, htake]
  have hvalue := Text.ofDecimal?_decimal m
  rw [hdecimal, Text.ofDecimal?_decimal, Option.some_inj] at hvalue
  exact hvalue.symm

/-- Reports that read alike count the same cycles, so a difference in cycles shows in the
text. -/
theorem Report.cycles_eq_of_pretty_eq {report other : Report}
    (h : report.toJson.pretty = other.toJson.pretty) :
    report.summary.cycles = other.summary.cycles := by
  obtain ⟨rest, hreport⟩ := report.exists_pretty_toJson
  obtain ⟨rest', hother⟩ := other.exists_pretty_toJson
  rw [hreport, hother] at h
  have hlists := congrArg String.toList h
  simp only [String.toList_append, String.toList_ofList] at hlists
  exact decimal_append_injective (List.append_cancel_left hlists)

end Text

/-- The first instruction of the program is where an idle loop is noticed. -/
def StartsIdle (words : List Word) : Prop :=
  LoopAt words.toArray 0 ∨ PlainJumpAt words.toArray 0

section Load

variable {config : Config} {words : List Word}

/-- At the start the program counter and A are 0, so whether a program starts in its idle loop
shows in its first words. -/
theorem isIdle_initial_iff : ({ WordComputer.initial config with
    rom := words.toArray } : WordComputer).isIdle = true ↔ StartsIdle words := by
  have hpc : (WordComputer.initial config).machine.pc = 0 := rfl
  have ha : WordMachine.addressOf (WordComputer.initial config).machine.a = 0 := by
    change WordMachine.addressOf 0 = 0
    decide
  rw [StartsIdle, PlainJumpAt, WordComputer.isIdle, WordComputer.next]
  simp only [WordComputer.fetch, hpc, ha]
  cases hdecode : Instruction.decode (words.toArray.getD (0 : Word).toNat 0) with
  | address target =>
    simp only [Bool.and_eq_true, beq_iff_eq, Instruction.isPlainJump, Bool.false_eq_true, or_false]
    constructor
    · rintro ⟨rfl, hnext⟩
      exact ⟨hdecode, hnext⟩
    · intro hloop
      have htarget := hdecode.symm.trans hloop.load
      exact ⟨by injection htarget, hloop.jump⟩
  | compute comp dest jump =>
    simp only [BEq.rfl, Bool.and_true, iff_or_self]
    intro hloop
    cases hdecode.symm.trans hloop.load

/-- A program that fits can be loaded, and whether it idles shows in its words. -/
theorem exists_computerWith (hvalid : config.IsValid) (hne : words ≠ [])
    (hroom : words.length ≤ romWords) : ∃ c, computerWith config words = .ok c ∧
      c.state = .running ∧ (c.isIdle = true ↔ StartsIdle words) := by
  obtain ⟨N, circuit, ports, hbuild, hrealized⟩ := Computer.exists_build hvalid
  have hfollows := (Computer.follows_ofCircuit hrealized).withRom words.toArray
  refine ⟨{ Computer.ofCircuit config ports circuit with rom := words.toArray }, ?_, rfl, ?_⟩
  · have hload : ¬ romWords < words.toArray.size := Nat.not_lt.mpr hroom
    rw [computerWith, if_neg (by simpa using hne), hbuild, attempt_ok]
    have hloaded : (Computer.ofCircuit config ports circuit).load words.toArray =
        .ok { Computer.ofCircuit config ports circuit with rom := words.toArray } := if_neg hload
    exact attempt_eq_ok_iff.mpr hloaded
  · rw [hfollows.isIdle_eq, isIdle_initial_iff]

theorem isValid_of_parse {text : String} (h : Config.parse text = .ok config) :
    config.IsValid := by
  have hvalidate (described : Config) (hok : described.validate = .ok config) :
      config.IsValid := by
    rw [Config.validate] at hok
    split at hok
    case isTrue hvalid =>
      cases hok
      exact hvalid
    case isFalse => cases hok
  rw [Config.parse] at h
  split at h
  case h_1 described _ => exact hvalidate described h
  case h_2 => cases h

/-- Only valid configurations are loaded, from a file or by default. -/
theorem isValid_of_configIn {directory : Directory} {path? : Option String}
    (h : configIn directory path? = .ok config) : config.IsValid := by
  cases path? with
  | none =>
    cases h
    decide
  | some path =>
    rw [configIn, attempt_eq_ok_iff] at h
    cases hread : directory.read path with
    | error error =>
      rw [hread] at h
      cases h
    | ok text =>
      rw [hread] at h
      exact isValid_of_parse h

end Load

/-- The configuration and the program of a run are there, and the program is not
empty and fits. -/
structure RunSettings.Loads (options : RunSettings) (directory : Directory)
    (words : List Word) : Prop where
  config : ∃ config, configIn directory options.config? = .ok config
  program : wordsIn directory options.program = .ok words
  nonempty : words ≠ []
  room : words.length ≤ romWords

section Process

variable {arguments tracedArguments : List String} {options : RunSettings}
  {directory : Directory} {words : List Word}

theorem reportText_traced_eq_iff {c : Computer} (htrace : options.trace = false)
    (hrunning : c.state = .running) :
    reportText { options with trace := true } c = reportText options c ↔
      options.maxCycles = 0 ∨ c.isIdle = false := by
  have hplain : execute options c = c.run options.maxCycles := by
    rw [execute, htrace]
    rfl
  have htraced : execute { options with trace := true } c = tracedRun options.maxCycles c := rfl
  constructor
  · intro hsame
    by_contra hneither
    rw [not_or, Bool.not_eq_false] at hneither
    have hcycles := Report.cycles_eq_of_pretty_eq hsame
    dsimp only [Report.ofComputer] at hcycles
    rw [htraced, hplain, Computer.cycles_run_of_isIdle hneither.2] at hcycles
    exact cycles_tracedRun_pos hrunning hneither.1 hcycles
  · intro hcondition
    rw [reportText, reportText, hplain, htraced, tracedRun_eq_run hcondition]

/-- Traced and plain, the same loaded computer is run, and its report is printed. -/
theorem RunSettings.Loads.exists_computer (h : options.Loads directory words) :
    ∃ c : Computer, c.state = .running ∧ (c.isIdle = true ↔ StartsIdle words) ∧
      ∀ trace, runText { options with trace } directory =
        .ok (reportText { options with trace } c ++ "\n") := by
  obtain ⟨config, hconfig⟩ := h.config
  obtain ⟨c, hcomputer, hrunning, hidle⟩ :=
    exists_computerWith (isValid_of_configIn hconfig) h.nonempty h.room
  refine ⟨c, hrunning, hidle, fun trace => ?_⟩
  rw [runText, hconfig, h.program]
  change (computerWith config words).bind _ = _
  rw [hcomputer]
  rfl

/-- The texts of the two runs differ exactly if the loop is where the program starts and a
step may be taken. -/
theorem RunSettings.Loads.runText_traced_eq_iff (h : options.Loads directory words)
    (htrace : options.trace = false) : ∃ text tracedText,
      runText options directory = .ok text ∧
      runText { options with trace := true } directory = .ok tracedText ∧
      (tracedText = text ↔ options.maxCycles = 0 ∨ ¬ StartsIdle words) := by
  obtain ⟨c, hrunning, hidle, htext⟩ := h.exists_computer
  refine ⟨_, _, htext options.trace, htext true, ?_⟩
  rw [← hidle, Bool.not_eq_true, ← reportText_traced_eq_iff htrace hrunning]
  exact String.append_left_inj "\n"

/-- Traced or not, a run in JSON of a program that loads succeeds. Tracing changes what it
prints exactly if the program starts in its idle loop and the run may take steps. The
condition is on the words of the program alone, so it can be told before running. -/
theorem process_traced_eq_iff (h : options.Loads directory words)
    (hplain : Request.ofArguments arguments = .ok (.command (.run options)))
    (htraced : Request.ofArguments tracedArguments =
      .ok (.command (.run { options with trace := true })))
    (htrace : options.trace = false) (hjson : options.json = true) :
    (process arguments directory).1 = ⟨0, ""⟩ ∧ (process tracedArguments directory).1 = ⟨0, ""⟩ ∧
      (process tracedArguments directory = process arguments directory ↔
        options.maxCycles = 0 ∨ ¬ StartsIdle words) := by
  obtain ⟨text, tracedText, htext, htracedText, hsame⟩ := h.runText_traced_eq_iff htrace
  rw [process_of_runText hplain hjson htext, process_of_runText htraced hjson htracedText, ← hsame]
  simp

/-- A program that starts in its idle loop, and one that comes to its loop. -/
def idleFiles : Directory :=
  ⟨[("idle.hack", "0000000000000000\n1110101010000111\n"),
    ("seven.hack", "0000000000000111\n1110110000010000\n0000000000000010\n1110101010000111\n")]⟩

/-- A program that does something before it loops prints the same report with a trace and
without. -/
theorem process_traced_eq_iff_seven :
    (process ["run", "seven.hack", "--json", "-m", "9"] idleFiles).1 = ⟨0, ""⟩ ∧
      process ["run", "seven.hack", "--json", "-m", "9", "--trace"] idleFiles =
        process ["run", "seven.hack", "--json", "-m", "9"] idleFiles := by
  have hloads : RunSettings.Loads ⟨"seven.hack", 9, false, none, none, true⟩ idleFiles
      [0x0007, 0xEC10, 0x0002, 0xEA87] :=
    ⟨⟨.default, rfl⟩, by decide +kernel, by decide, by decide⟩
  have hplain : Request.ofArguments ["run", "seven.hack", "--json", "-m", "9"] =
      .ok (.command (.run ⟨"seven.hack", 9, false, none, none, true⟩)) := by decide +kernel
  have htraced : Request.ofArguments ["run", "seven.hack", "--json", "-m", "9", "--trace"] =
      .ok (.command (.run ⟨"seven.hack", 9, true, none, none, true⟩)) := by decide +kernel
  have hidle : ¬ StartsIdle [0x0007, 0xEC10, 0x0002, 0xEA87] := by
    rintro (hloop | hjump)
    · exact absurd hloop.load (by decide)
    · exact absurd hjump (by unfold PlainJumpAt; decide)
  obtain ⟨hexit, -, hsame⟩ := process_traced_eq_iff hloads hplain htraced rfl rfl
  exact ⟨hexit, hsame.mpr (.inr hidle)⟩

/-- The program that idles from its first instruction on executes nothing, unless it is
traced. -/
theorem process_traced_ne_idle :
    process ["run", "idle.hack", "--json", "--trace"] idleFiles ≠
      process ["run", "idle.hack", "--json"] idleFiles := by
  have hloads : RunSettings.Loads ⟨"idle.hack", 10000, false, none, none, true⟩ idleFiles
      [0x0000, 0xEA87] :=
    ⟨⟨.default, rfl⟩, by decide +kernel, by decide, by decide⟩
  have hplain : Request.ofArguments ["run", "idle.hack", "--json"] =
      .ok (.command (.run ⟨"idle.hack", 10000, false, none, none, true⟩)) := by decide +kernel
  have htraced : Request.ofArguments ["run", "idle.hack", "--json", "--trace"] =
      .ok (.command (.run ⟨"idle.hack", 10000, true, none, none, true⟩)) := by decide +kernel
  have hidle : StartsIdle [0x0000, 0xEA87] := .inl ⟨by decide, by unfold PlainJumpAt; decide⟩
  obtain ⟨text, tracedText, htext, htracedText, hsame⟩ := hloads.runText_traced_eq_iff rfl
  rw [process_of_runText hplain rfl htext, process_of_runText htraced rfl htracedText]
  intro heq
  have htexts : tracedText = text := by simpa using heq
  exact (hsame.mp htexts).elim (by decide) (absurd hidle)

end Process

end Cli

end NandComputer
