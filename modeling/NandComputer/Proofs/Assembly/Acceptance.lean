import NandComputer.Proofs.Assembly.Layout
import NandComputer.Proofs.Assembly.Phases

/-!
Which sources are assembled, and to which words. A source is accepted if its statements are
written for the commands of a program with a meaning, and nothing but the texts of these
statements matters. One direction is what the three phases keep along the way. For the other
it is shown that none of them finds a fault in such a source.
-/

namespace NandComputer.Assembly

section Clean

variable {program before : List Command} {entries : List (Nat × List Char)} {line : Nat}
  {error : AssemblyError}

/-- Statements that have a form pass the first phase. Its only objection is to a text that is
no statement at all, and a text cannot both read as a statement and be refused. -/
theorem clean_form (hreads : ∀ entry ∈ entries, ∃ statement, Reads entry.2 statement) :
    Clean (FaultBehind program .form) entries := by
  rintro part entry rest error rfl ⟨hmalformed⟩
  obtain ⟨statement, hstatement⟩ := hreads entry (by simp)
  have hsame := hmalformed.ofText_eq.symm.trans hstatement.ofText_eq
  cases hsame

/-- The second phase has nothing to object to where labels are new and instructions have room.
Each statement is looked at with the commands before it, whose labels and instructions are
among those of the whole program. -/
theorem clean_placement (hplaceable : Placeable (commandsOf entries)) :
    Clean (FaultBehind program .placement) entries := by
  rintro part entry rest error rfl hfault
  have hcons : commandsOf (entry :: rest) = Command.ofText entry.2 :: commandsOf rest := rfl
  rw [commandsOf_append, hcons] at hplaceable
  obtain ⟨hnodup, hfresh, hroom⟩ := hplaceable
  cases hfault with
  | @label name hreads htaken =>
    rw [hreads.command_eq_of_means .label, labelNames_append] at hnodup hfresh
    rcases htaken with hbuiltin | hold
    · rw [hfresh name (by simp [labelNames, Command.labelName?])] at hbuiltin
      cases hbuiltin
    · exact (List.nodup_append.mp hnodup).2.2 name hold name
        (by simp [labelNames, Command.labelName?]) rfl
  | room hreads hstatement hfull =>
    have hinstruction := hreads.isInstruction hstatement
    have hone : instructionCount (Command.ofText entry.2 :: commandsOf rest) =
        instructionCount (commandsOf rest) + 1 := List.countP_cons_of_pos hinstruction
    rw [instructionCount_append, hone] at hroom
    omega

/-- An operand with a command is refused only where it is a new variable that memory has no
room for: its numeral is a literal, and its name is a symbol. -/
theorem OperandFault.exists_variable {operand : List Char} {command : Command}
    (h : OperandFault program before line operand error)
    (hmeans : (Statement.address operand).Means command) :
    ∃ name, command = .symbol name ∧ isVariable program name = true ∧
      name ∉ variableNamesIn program before ∧ 32752 ≤ (variableNamesIn program before).length := by
  cases hmeans with
  | literal hnil hdigits hvalue =>
    obtain ⟨first, rest, rfl⟩ := List.exists_cons_of_ne_nil hnil
    have hsize : Nat.ofDigitChars 10 (first :: rest) 0 < UInt64.size :=
      Nat.lt_of_le_of_lt hvalue (by decide)
    rcases h with ⟨_, hno⟩ | ⟨_, _, _, hlarge⟩ | ⟨hhead, _⟩ | ⟨hname, _, _, _⟩
    · exact absurd ⟨hdigits, hsize⟩ hno
    · exact absurd hvalue (Nat.not_le.mpr hlarge)
    · exact absurd (hdigits first (by simp)) hhead
    · exact absurd hdigits hname.not_forall_isDigit
  | symbol hname =>
    rcases h with ⟨hhead, _⟩ | ⟨hhead, _, _, _⟩ | ⟨_, hno⟩ | ⟨_, hvariable, hnew, hroom⟩
    · exact absurd hhead hname.not_digit
    · exact absurd hhead hname.not_digit
    · exact absurd hname hno
    · exact ⟨_, rfl, hvariable, hnew, hroom⟩

/-- A computation with a faulty field means no command. One of its three mnemonics is unknown,
or its destination is written but empty, and neither can be part of a written command. -/
theorem FieldFault.not_means {dest? jump? : Option String} {comp : String} {command : Command}
    (h : FieldFault line dest? comp jump? error) :
    ¬ (Statement.compute dest? comp jump?).Means command := by
  intro hmeans
  cases hmeans with
  | compute hdest hcomp hjump =>
    cases h with
    | dest htext =>
      cases hdest with
      | present hnil hsome =>
        rcases htext with hempty | hnone
        · exact hnil hempty
        · rw [hnone] at hsome
          cases hsome
    | comp _ hnone =>
      rw [hnone] at hcomp
      cases hcomp
    | jump _ _ hnone =>
      cases hjump with
      | present hsome =>
        rw [hnone] at hsome
        cases hsome

/-- A text that is written for a command reads as a statement, and this statement means the
command. This is how the phases get to see what the grammar allows. -/
theorem Command.Written.exists_reads {text : List Char} {command : Command}
    (h : Command.Written text command) : ∃ statement, Reads text statement ∧
      statement.Means command := by
  obtain ⟨statement, htext, hmeans⟩ := Command.written_iff.mp h
  exact ⟨statement, ofText_eq_ok_iff.mp htext, hmeans⟩

/-- The third phase has nothing to object to statements with commands, if all the variables of
the program find room. An operand is then known or a variable below the limit, and every field
of a computation is known. -/
theorem clean_encoding (hprogram : program = commandsOf entries)
    (hwritten : ∀ entry ∈ entries, Command.Written entry.2 (Command.ofText entry.2))
    (hfit : VariablesFit program program) : Clean (FaultBehind program .encoding) entries := by
  intro part entry rest error hsplit hfault
  obtain ⟨statement, hreads, hmeans⟩ := (hwritten entry (by simp [hsplit])).exists_reads
  cases hfault with
  | operand hother hoperand =>
    cases hreads.unique hother
    obtain ⟨name, hcommand, hvariable, hnew, hroom⟩ := hoperand.exists_variable hmeans
    have hwhole : program = (commandsOf part ++ [.symbol name]) ++ commandsOf rest := by
      rw [hprogram, hsplit, commandsOf_append, ← hcommand]
      simp [commandsOf, outline]
    have hpart : VariablesFit program (commandsOf part ++ [.symbol name]) := by
      apply variablesFit_of_append
      rwa [← hwhole]
    rw [VariablesFit, variableNamesIn_concat_new hvariable hnew, List.length_append,
      List.length_singleton] at hpart
    omega
  | fields hother hfields =>
    cases hreads.unique hother
    exact hfields.not_means hmeans

end Clean

section Sources

variable {source : String} {program : List Command}

/-- Texts that are written for the commands of some program are written for the commands that
are read off them, one by one. So the program need not be carried along. -/
theorem written_of_forall₂ {texts : List (List Char)}
    (h : List.Forall₂ Command.Written texts program) :
    ∀ text ∈ texts, Command.Written text (Command.ofText text) := by
  rw [← outline_eq_of_forall₂ h, outline, List.forall₂_map_right_iff, List.forall₂_same] at h
  exact h

/-- No phase finds a fault in statements that are written for a program with a meaning. What
each of the three phases demands is one part of that meaning. -/
theorem clean_of_admissible {entries : List (Nat × List Char)}
    (hprogram : program = commandsOf entries)
    (hwritten : ∀ entry ∈ entries, Command.Written entry.2 (Command.ofText entry.2))
    (hadmissible : Admissible program) (phase : Phase) :
    Clean (FaultBehind program phase) entries := by
  cases phase with
  | form =>
    apply clean_form
    intro entry member
    obtain ⟨statement, hreads, -⟩ := (hwritten entry member).exists_reads
    exact ⟨statement, hreads⟩
  | placement => exact clean_placement (hprogram ▸ hadmissible.toPlaceable)
  | encoding => exact clean_encoding hprogram hwritten hadmissible.variables_room

/-- The statements of a program with a meaning assemble to its words. An error would be that
of a statement with a fault, and there is none. -/
theorem assemble_of_written (hwritten : List.Forall₂ Command.Written (sourceTexts source) program)
    (hadmissible : Admissible program) : assemble source = .ok (wordsOf program program) := by
  have houtline : outline (sourceTexts source) = program := outline_eq_of_forall₂ hwritten
  have hreports := reports_assemble source
  rw [houtline] at hreports
  cases hresult : assemble source with
  | ok words => rw [(hreports.of_ok words hresult).words]
  | error error =>
    obtain ⟨phase, hfirst, -⟩ := (hreports.error_iff error).mp hresult
    have hprogram : program = commandsOf (statementTexts source.toList) := by
      rw [commandsOf, map_snd_statementTexts, houtline]
    have hentries : ∀ entry ∈ statementTexts source.toList,
        Command.Written entry.2 (Command.ofText entry.2) := by
      intro entry member
      apply written_of_forall₂ hwritten
      rw [← map_snd_statementTexts]
      exact List.mem_map_of_mem member
    exact absurd (clean_of_admissible hprogram hentries hadmissible phase) hfirst.not_clean

/-- What is assembled is the outline of the source, which is then written for a program with a
meaning, and the words are those of that program. All of this is kept by the three phases
along the way. -/
theorem written_of_assemble {words : List Word} (h : assemble source = .ok words) :
    List.Forall₂ Command.Written (sourceTexts source) (outline (sourceTexts source)) ∧
      Admissible (outline (sourceTexts source)) ∧
      words = wordsOf (outline (sourceTexts source)) (outline (sourceTexts source)) := by
  have hassembled := (reports_assemble source).of_ok words h
  refine ⟨?_, hassembled.admissible, hassembled.words⟩
  rw [outline, List.forall₂_map_right_iff, List.forall₂_same, ← map_snd_statementTexts]
  intro text member
  obtain ⟨entry, hentry, rfl⟩ := List.mem_map.mp member
  exact hassembled.written entry hentry

end Sources

section Predefined

/-- The symbols that every program starts with, and their values: sixteen registers, the
pointers among them under their own names, and the places of the screen and the keyboard. -/
inductive Predefined : String → Nat → Prop
  | register {i : Nat} : i < 16 → Predefined ("R" ++ toString i) i
  | stack : Predefined "SP" 0
  | locals : Predefined "LCL" 1
  | arguments : Predefined "ARG" 2
  | this : Predefined "THIS" 3
  | that : Predefined "THAT" 4
  | screen : Predefined "SCREEN" 16384
  | keyboard : Predefined "KBD" 24576

/-- Every predefined symbol is found in the table under its name, with its value as a word. -/
theorem Predefined.lookup_eq {name : String} {value : Nat} (h : Predefined name value) :
    builtinSymbols.lookup name = some (.ofNat 16 value) := by
  have hregisters : ∀ i < 16, builtinSymbols.lookup ("R" ++ toString i) = some (.ofNat 16 i) := by
    decide +kernel
  cases h with
  | register hi => exact hregisters _ hi
  | _ => rfl

/-- The entries of the table are the sixteen registers, named by their numbers, and seven
names besides. There is no other entry, so no other symbol is predefined. -/
theorem exists_register_or_mem_of_mem_builtinSymbols : ∀ entry ∈ builtinSymbols,
    (∃ i, i < 16 ∧ entry = ("R" ++ toString i, BitVec.ofNat 16 i)) ∨
      entry ∈ [("SP", 0), ("LCL", 1), ("ARG", 2), ("THIS", 3), ("THAT", 4), ("SCREEN", 16384),
        ("KBD", 24576)] := by
  decide +kernel

/-- The table has the predefined symbols with their values and no others. A table that lost an
entry or changed a value would not fit this description. -/
theorem lookup_builtinSymbols_iff {name : String} {value : Word} :
    builtinSymbols.lookup name = some value ↔ Predefined name value.toNat := by
  constructor
  · intro h
    have hentry := exists_register_or_mem_of_mem_builtinSymbols _ (mem_of_lookup_eq_some h)
    rcases hentry with ⟨i, hi, heq⟩ | hpointer
    · cases heq
      have hvalue : (BitVec.ofNat 16 i).toNat = i := by
        rw [BitVec.toNat_ofNat]
        exact Nat.mod_eq_of_lt (Nat.lt_trans hi (by decide))
      rw [hvalue]
      exact .register hi
    · simp only [List.mem_cons, List.not_mem_nil, or_false, Prod.mk.injEq] at hpointer
      rcases hpointer with ⟨rfl, rfl⟩ | ⟨rfl, rfl⟩ | ⟨rfl, rfl⟩ | ⟨rfl, rfl⟩ | ⟨rfl, rfl⟩ |
        ⟨rfl, rfl⟩ | ⟨rfl, rfl⟩
      · exact .stack
      · exact .locals
      · exact .arguments
      · exact .this
      · exact .that
      · exact .screen
      · exact .keyboard
  · intro h
    rw [h.lookup_eq, BitVec.ofNat_toNat, BitVec.setWidth_eq]

end Predefined

/-- A source assembles exactly if it is laid out with the texts of the commands of a program
with a meaning, and then to the words of this program. How it is laid out is told by its
characters alone: where its lines end, where a comment begins on them, and which characters
are white space. What the texts of a command are is told by the grammar of statements. The
symbols that a program starts with are the predefined ones. -/
theorem assemble_eq_ok_iff (source : String) (words : List Word) :
    (assemble source = .ok words ↔ ∃ (texts : List (List Char)) (program : List Command),
      LaidOut source texts ∧ List.Forall₂ Command.Written texts program ∧ Admissible program ∧
        words = wordsOf program program) ∧
    ∀ name value, builtinSymbols.lookup name = some value ↔ Predefined name value.toNat := by
  refine ⟨⟨fun h => ?_, ?_⟩, fun name value => lookup_builtinSymbols_iff⟩
  · exact ⟨_, _, laidOut_iff.mpr rfl, written_of_assemble h⟩
  · rintro ⟨texts, program, hlaidOut, hwritten, hadmissible, rfl⟩
    obtain rfl := laidOut_iff.mp hlaidOut
    exact assemble_of_written hwritten hadmissible

section Example

/-- Two variables, a label that is used before it is declared, a predefined symbol and a
computation, with blanks in and around the statements, comments, and lines of both kinds. -/
def spacedSource : String :=
  " @ x // a variable\r\n\r\n@END\n( E N D )//\n\t@SP\r\n // nothing but // this\n@y\n@\u00a0x\n D = M ; J GT"

/-- The statements of this source. -/
def spacedTexts : List (List Char) :=
  ["@x".toList, "@END".toList, "(END)".toList, "@SP".toList, "@y".toList, "@x".toList,
    "D=M;JGT".toList]

/-- A source with white space of several kinds, comments and both kinds of line ends is laid
out with its seven statements, and it assembles to the words of their program. -/
theorem assemble_eq_ok_iff_spacedSource : LaidOut spacedSource spacedTexts ∧
    assemble spacedSource = .ok [16, 2, 0, 17, 16, 0b1111110000010001] := by
  have hlaidOut : LaidOut spacedSource spacedTexts := laidOut_iff.mpr (by decide)
  have hwritten : List.Forall₂ Command.Written spacedTexts (outline spacedTexts) := by
    apply forall₂_written_outline
    decide
  have hadmissible : Admissible (outline spacedTexts) :=
    ⟨⟨by decide, by decide, by decide⟩, by decide⟩
  have hwords : [16, 2, 0, 17, 16, 0b1111110000010001] =
      wordsOf (outline spacedTexts) (outline spacedTexts) := by
    decide
  exact ⟨hlaidOut, (assemble_eq_ok_iff spacedSource _).1.mpr
    ⟨_, _, hlaidOut, hwritten, hadmissible, hwords⟩⟩

end Example

end NandComputer.Assembly
