import NandComputer.Proofs.Assembly.Faults
import NandComputer.Proofs.Reports

/-!
The three phases of the assembler. Each goes through the statements in order and stops at
the first one with a fault, and it begins only after the one before has found none. What
a phase keeps of the statements behind it is what makes its faults those of the source.
-/

namespace NandComputer.Assembly

section Phases

variable {program : List Command}

/-- The commands of numbered statements. -/
def commandsOf (entries : List (Nat × List Char)) : List Command := outline (entries.map Prod.snd)

theorem commandsOf_append (part rest : List (Nat × List Char)) :
    commandsOf (part ++ rest) = commandsOf part ++ commandsOf rest := by
  simp [commandsOf, outline]

theorem commandsOf_concat (part : List (Nat × List Char)) (entry : Nat × List Char) :
    commandsOf (part ++ [entry]) = commandsOf part ++ [Command.ofText entry.2] :=
  commandsOf_append part [entry]

/-- A statement has a fault behind the ones before it. -/
def FaultBehind (program : List Command) (phase : Phase) (part : List (Nat × List Char))
    (entry : Nat × List Char) (error : AssemblyError) : Prop :=
  Fault program (commandsOf part) entry.1 entry.2 phase error

/-- A statement is that of a numbered text. -/
def StatementOf (statement : Nat × Statement) (entry : Nat × List Char) : Prop :=
  statement.1 = entry.1 ∧ Reads entry.2 statement.2

/-- The first phase stops at the first text without a form. If there is none, it gives the
statements of all the texts, with their lines. -/
theorem reports_statements (source : List Char) :
    Reports (statements source) (FirstBad (FaultBehind program .form) (statementTexts source))
      fun read => List.Forall₂ StatementOf read (statementTexts source) ∧
        Clean (FaultBehind program .form) (statementTexts source) := by
  refine reports_mapM StatementOf (fun part entry => ?_) (statementTexts source)
  obtain ⟨line, text⟩ := entry
  constructor
  · intro error
    have hread : (return (line, ← atLine line (Statement.ofText text)) : Except AssemblyError _) =
        .error error ↔ ∃ fault, Statement.ofText text = .error fault ∧
          .malformed line fault = error := by
      cases Statement.ofText text <;> simp [atLine, Except.mapError]
    refine hread.trans ?_
    simp only [ofText_eq_error_iff]
    constructor
    · rintro ⟨fault, hfault, rfl⟩
      exact .malformed hfault
    · rintro ⟨hfault⟩
      exact ⟨_, hfault, rfl⟩
  · intro read hread
    obtain ⟨statement, hstatement, hpair⟩ := bind_eq_ok_iff.mp hread
    rw [atLine_eq_ok_iff, ofText_eq_ok_iff] at hstatement
    cases hpair
    exact ⟨rfl, hstatement⟩

/-- What the second phase keeps. -/
structure Placed (part : List (Nat × List Char)) (layout : Layout) : Prop where
  placeable : Placeable (commandsOf part)
  reaches : layout.Reaches (commandsOf part)

/-- One statement in the second phase: it is refused for its fault, or the table agrees with
the statements up to it. -/
theorem Placed.place {part : List (Nat × List Char)} {layout : Layout} (h : Placed part layout)
    {statement : Nat × Statement} {entry : Nat × List Char} (hentry : StatementOf statement entry) :
    Reports (layout.place statement) (FaultBehind program .placement part entry)
      (Placed (part ++ [entry])) := by
  obtain ⟨line, text⟩ := entry
  obtain ⟨number, statement⟩ := statement
  obtain ⟨rfl, hreads⟩ := hentry
  refine ⟨fun error => h.reaches.place_eq_error_iff hreads, fun next hnext => ?_⟩
  have hdecides : Decides (layout.place (number, statement))
      (Placeable (commandsOf part ++ [Command.ofText text]))
      (Layout.Reaches (commandsOf part ++ [Command.ofText text])) := by
    by_cases hlabel : ∃ name, statement = .label name
    · obtain ⟨name, rfl⟩ := hlabel
      rw [hreads.command_eq_of_means .label]
      exact h.reaches.place_label h.placeable name
    · have hstatement : ∀ name, statement ≠ .label name := fun name heq => hlabel ⟨name, heq⟩
      exact h.reaches.place_instruction h.placeable hstatement (hreads.isInstruction hstatement)
  rw [← commandsOf_concat part (number, text)] at hdecides
  exact ⟨hdecides.exists_ok_iff.mp ⟨next, hnext⟩, hdecides.of_ok hnext⟩

/-- What the third phase keeps. -/
structure Encoded (program : List Command) (part : List (Nat × List Char)) (output : Output) :
    Prop where
  fit : VariablesFit program (commandsOf part)
  reaches : output.Reaches program (commandsOf part)
  written : ∀ entry ∈ part, Command.Written entry.2 (Command.ofText entry.2)

/-- One statement in the third phase: it is refused for its fault, or the words and the
variables agree with the statements up to it. Labels may be behind it, so the whole program is
needed to tell what its symbols stand for. -/
theorem Encoded.encode {part rest : List (Nat × List Char)} {output : Output}
    (h : Encoded program part output) {statement : Nat × Statement} {entry : Nat × List Char}
    (hwhole : program = commandsOf (part ++ entry :: rest)) (hentry : StatementOf statement entry) :
    Reports (output.encode statement) (FaultBehind program .encoding part entry)
      (Encoded program (part ++ [entry])) := by
  obtain ⟨line, text⟩ := entry
  obtain ⟨number, statement⟩ := statement
  obtain ⟨rfl, hreads⟩ := hentry
  refine ⟨fun error => h.reaches.encode_eq_error_iff hreads, fun next hnext => ?_⟩
  -- what is encoded has a command, which is then the one in the outline
  obtain ⟨command, hmeans⟩ := Output.exists_means_of_encode hnext
  have hcommand := hreads.command_eq_of_means hmeans
  have hsplit : program = commandsOf part ++ command :: commandsOf rest := by
    simp [hwhole, commandsOf, outline, hcommand]
  have hdecides : Decides (output.encode (number, statement))
      (VariablesFit program (commandsOf part ++ [command]))
      (Output.Reaches program (commandsOf part ++ [command])) :=
    h.reaches.encode h.fit hsplit hmeans
  rw [← hcommand, ← commandsOf_concat part (number, text)] at hdecides
  refine ⟨hdecides.exists_ok_iff.mp ⟨next, hnext⟩, hdecides.of_ok hnext, fun other member => ?_⟩
  rcases List.mem_append.mp member with hpart | hlast
  · exact h.written other hpart
  · rw [List.mem_singleton.mp hlast, hcommand]
    exact Command.written_iff.mpr ⟨statement, hreads.ofText_eq, hmeans⟩

/-- The second phase stops at the first statement with a fault of placement. If there is none,
its table has the labels of the program. -/
theorem reports_labels {entries : List (Nat × List Char)} {read : List (Nat × Statement)}
    (hread : List.Forall₂ StatementOf read entries) :
    Reports (read.foldlM Layout.place ⟨.predefined, 0⟩)
      (FirstBad (FaultBehind program .placement) entries)
      fun layout => Placed entries layout ∧ Clean (FaultBehind program .placement) entries := by
  refine reports_foldlM StatementOf Placed ?_ hread (List.nil_append entries).symm clean_nil ?_
  · exact fun part entry rest _ layout statement hplaced hentry => hplaced.place hentry
  · exact ⟨⟨.nil, by simp [labelNames, commandsOf, outline], Nat.zero_le _⟩, Layout.reaches_start⟩

/-- The third phase stops at the first statement with a fault of encoding. If there is none,
its words are those of the program. -/
theorem reports_encode {entries : List (Nat × List Char)} {read : List (Nat × Statement)}
    (hread : List.Forall₂ StatementOf read entries) (hprogram : program = commandsOf entries)
    {layout : Layout} (hlayout : layout.Reaches program) :
    Reports (read.foldlM Output.encode ⟨layout.symbols, #[]⟩)
      (FirstBad (FaultBehind program .encoding) entries)
      fun output => Encoded program entries output ∧
        Clean (FaultBehind program .encoding) entries := by
  refine reports_foldlM StatementOf (Encoded program) ?_ hread (List.nil_append entries).symm
    clean_nil ?_
  · intro part entry rest hwhole output statement houtput hentry
    exact houtput.encode (by rw [hprogram, hwhole]) hentry
  · exact ⟨Nat.zero_le _, Output.reaches_start hlayout, by simp⟩

/-- The error of the first statement that has a fault of the earliest phase with any. -/
def Reported (program : List Command) (entries : List (Nat × List Char)) (error : AssemblyError) :
    Prop :=
  ∃ phase, FirstBad (FaultBehind program phase) entries error ∧
    ∀ earlier : Phase, earlier.rank < phase.rank → Clean (FaultBehind program earlier) entries

theorem Phase.rank_injective {phase other : Phase} (h : phase.rank = other.rank) :
    phase = other := by
  cases phase <;> cases other <;> first | rfl | cases h

/-- A phase that fails, and begins only after the ones before it, fails with the reported
error: its first fault is one of the earliest phase with any. -/
theorem reports_of_stop {σ τ : Type} {result : Except AssemblyError σ} {P : σ → Prop} {Q : τ → Prop}
    {phase : Phase} {entries : List (Nat × List Char)} {error : AssemblyError}
    (h : Reports result (FirstBad (FaultBehind program phase) entries) P)
    (hresult : result = .error error)
    (hearlier : ∀ earlier : Phase, earlier.rank < phase.rank →
      Clean (FaultBehind program earlier) entries) :
    Reports (.error error) (Reported program entries) Q := by
  have hfirst := (h.error_iff error).mp hresult
  refine ⟨fun other => ?_, fun words hwords => by cases hwords⟩
  constructor
  · rintro ⟨⟩
    exact ⟨phase, hfirst, hearlier⟩
  · rintro ⟨phase', hother, hearlier'⟩
    -- a later phase would need this one to be clean, and an earlier one has been clean
    rcases Nat.lt_trichotomy phase.rank phase'.rank with hlt | heq | hgt
    · exact absurd (hearlier' phase hlt) hfirst.not_clean
    · obtain rfl := Phase.rank_injective heq
      rw [(h.error_iff other).mpr hother] at hresult
      cases hresult
      rfl
    · exact absurd (hearlier phase' hgt) hother.not_clean

/-- What is known of an assembled source. -/
structure Assembled (program : List Command) (entries : List (Nat × List Char))
    (words : List Word) : Prop where
  admissible : Admissible program
  written : ∀ entry ∈ entries, Command.Written entry.2 (Command.ofText entry.2)
  words : words = wordsOf program program

/-- The second and the third phase on statements that have passed the first. Either one stops
with the reported error, or the words are those of a program with a meaning. -/
theorem reports_passes {entries : List (Nat × List Char)} {read : List (Nat × Statement)}
    (hread : List.Forall₂ StatementOf read entries) (hprogram : program = commandsOf entries)
    (hform : Clean (FaultBehind program .form) entries) :
    Reports (labels read >>= fun symbols => encode symbols read) (Reported program entries)
      (Assembled program entries) := by
  have hplace : Reports _ (FirstBad (FaultBehind program .placement) entries) _ :=
    reports_labels hread
  rw [labels]
  cases hlayout : read.foldlM Layout.place ⟨.predefined, 0⟩ with
  | error error =>
    refine reports_of_stop hplace hlayout fun earlier hrank => ?_
    cases earlier <;> first | exact hform | simp [Phase.rank] at hrank
  | ok layout =>
    obtain ⟨hplaced, hplacement⟩ := hplace.of_ok layout hlayout
    obtain ⟨hplaceable, hreaches⟩ := hplaced
    rw [← hprogram] at hplaceable hreaches
    have hencode := reports_encode hread hprogram hreaches
    change Reports (encode layout.symbols read) _ _
    rw [encode]
    cases houtput : read.foldlM Output.encode ⟨layout.symbols, #[]⟩ with
    | error error =>
      refine reports_of_stop hencode houtput fun earlier hrank => ?_
      cases earlier <;> first | exact hform | exact hplacement | simp [Phase.rank] at hrank
    | ok output =>
      obtain ⟨⟨hfit, houtput, hwritten⟩, hencoding⟩ := hencode.of_ok output houtput
      rw [← hprogram] at hfit houtput
      have hclean (phase : Phase) : Clean (FaultBehind program phase) entries := by
        cases phase with
        | form => exact hform
        | placement => exact hplacement
        | encoding => exact hencoding
      refine ⟨fun other => iff_of_false (fun h => by cases h) ?_, ?_⟩
      · rintro ⟨phase, hfirst, -⟩
        exact hfirst.not_clean (hclean phase)
      · rintro _ ⟨⟩
        exact ⟨⟨hplaceable, hfit⟩, hwritten, houtput.words⟩

/-- The assembler reports the first fault of the earliest phase, and a source without faults
is assembled to the words of its commands. Every theorem about accepted and rejected sources
is drawn from this one. -/
theorem reports_assemble (source : String) :
    Reports (assemble source)
      (Reported (outline (sourceTexts source)) (statementTexts source.toList))
      (Assembled (outline (sourceTexts source)) (statementTexts source.toList)) := by
  have hprogram : outline (sourceTexts source) = commandsOf (statementTexts source.toList) :=
    congrArg outline (map_snd_statementTexts source).symm
  have hform : Reports _ (FirstBad (FaultBehind (outline (sourceTexts source)) .form) _) _ :=
    reports_statements source.toList
  rw [assemble]
  cases hread : statements source.toList with
  | error error => exact reports_of_stop hform hread (by simp [Phase.rank])
  | ok read =>
    obtain ⟨hstatements, hclean⟩ := hform.of_ok read hread
    exact reports_passes hstatements hprogram hclean

end Phases

end NandComputer.Assembly
