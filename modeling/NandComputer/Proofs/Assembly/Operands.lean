import NandComputer.Proofs.Assembly.Acceptance

/-!
The words of address operands. Numbers and the addresses of variables are checked before
they are encoded, the addresses of labels are not: a label behind all the instructions of
a full program has an address that does not fit into a word, and is encoded as zero.
-/

namespace NandComputer.Assembly

section Words

variable {program : List Command}

theorem Command.isSome_instruction? (command : Command) :
    (command.instruction? program).isSome = command.isInstruction := by
  cases command <;> rfl

/-- A program has as many words as instructions, since a label is none and every other command
has one. -/
theorem length_wordsOf (program part : List Command) :
    (wordsOf program part).length = instructionCount part := by
  rw [wordsOf, List.length_map, List.length_filterMap_eq_countP, instructionCount]
  exact congrArg (List.countP · part) (funext Command.isSome_instruction?)

/-- The word of a command stands behind those of the commands before it, so its place is the
number of instructions there. -/
theorem getElem?_wordsOf {part rest : List Command} {command : Command} {instruction : Instruction}
    (hwhole : program = part ++ command :: rest)
    (hinstruction : command.instruction? program = some instruction) :
    (wordsOf program program)[instructionCount part]? = some instruction.encode := by
  have hwords : wordsOf program program =
      wordsOf program part ++ instruction.encode :: wordsOf program rest := by
    have hsplit : wordsOf program program = wordsOf program (part ++ command :: rest) := by
      rw [← hwhole]
    rw [hsplit, wordsOf, List.filterMap_append, List.map_append,
      List.filterMap_cons_some hinstruction, List.map_cons]
    rfl
  rw [hwords, ← length_wordsOf program part]
  simp

end Words

section Values

/-- The value that an operand stands for in a program. -/
inductive OperandValue (program : List Command) : List Char → Nat → Prop
  | number {digits : List Char} : digits ≠ [] → (∀ c ∈ digits, c.isDigit) →
      OperandValue program digits (Nat.ofDigitChars 10 digits 0)
  | symbol {name : List Char} : IsName name →
      OperandValue program name (symbolValue program (String.ofList name))

/-- A label behind all the instructions of a full program. -/
structure IsEndLabel (program : List Command) (operand : List Char) : Prop where
  name : IsName operand
  fresh : builtinSymbols.lookup (String.ofList operand) = none
  declared : String.ofList operand ∈ labelNames program
  address : labelAddress program (String.ofList operand) = 32768

variable {program part rest : List Command} {operand : List Char} {value : Nat}

/-- The address of a label is never greater than the number of instructions of the program,
and equal to it only where the label stands behind them all. -/
theorem labelAddress_le (program : List Command) (name : String) :
    labelAddress program name ≤ instructionCount program :=
  (List.takeWhile_sublist _).countP_le

theorem mem_variableNames {name : String} (hwhole : program = part ++ .symbol name :: rest)
    (hname : isVariable program name = true) : name ∈ variableNames program := by
  rw [variableNames, variableNamesIn, List.mem_eraseDups, List.mem_filter, List.mem_filterMap]
  exact ⟨⟨.symbol name, by simp [hwhole], rfl⟩, hname⟩

/-- The symbols of a program with a meaning have addresses below the limit of a literal, but
for a label at its end. A label has an instruction behind it then, and a variable finds room.
-/
theorem Admissible.symbolValue_le (h : Admissible program) (hname : IsName operand)
    (hwhole : program = part ++ .symbol (String.ofList operand) :: rest)
    (hend : ¬ IsEndLabel program operand) :
    symbolValue program (String.ofList operand) ≤ 32767 := by
  rw [symbolValue]
  cases hlookup : builtinSymbols.lookup (String.ofList operand) with
  | some value =>
    have hbuiltin : ∀ entry ∈ builtinSymbols, entry.2.toNat ≤ 32767 := by decide
    exact hbuiltin _ (mem_of_lookup_eq_some hlookup)
  | none =>
    by_cases hlabel : String.ofList operand ∈ labelNames program
    · have hroom := h.room
      have hle := labelAddress_le program (String.ofList operand)
      have hne : labelAddress program (String.ofList operand) ≠ 32768 :=
        fun heq => hend ⟨hname, hlookup, hlabel, heq⟩
      simp only [if_pos hlabel]
      omega
    · have hvariable : isVariable program (String.ofList operand) = true := by
        simp [isVariable, hlookup, hlabel]
      have hindex := List.idxOf_lt_length_of_mem (mem_variableNames hwhole hvariable)
      have hroom := h.variables_room
      simp only [if_neg hlabel]
      omega

variable {command : Command}

theorem Command.Written.means_address (h : Command.Written ('@' :: operand) command) :
    (Statement.address operand).Means command := by
  obtain ⟨statement, htext, hmeans⟩ := Command.written_iff.mp h
  cases operand with
  | nil => cases htext
  | cons first rest =>
    cases htext
    exact hmeans

/-- Every operand with a meaning has a value: the one that its digits spell, or the one that
its symbol stands for. -/
theorem exists_operandValue (h : (Statement.address operand).Means command) :
    ∃ value, OperandValue program operand value := by
  cases h with
  | literal hnil hdigits _ => exact ⟨_, .number hnil hdigits⟩
  | symbol hname => exact ⟨_, .symbol hname⟩

theorem OperandValue.eq_symbolValue (h : OperandValue program operand value)
    (hname : IsName operand) : value = symbolValue program (String.ofList operand) := by
  cases h with
  | number _ hdigits => exact absurd hdigits hname.not_forall_isDigit
  | symbol => rfl

theorem IsEndLabel.value_eq (h : IsEndLabel program operand)
    (hvalue : OperandValue program operand value) : value = 32768 := by
  rw [hvalue.eq_symbolValue h.name, symbolValue, h.fresh, ← h.address]
  exact if_pos h.declared

/-- The instruction of an operand has the value of the operand as its address, cut to a word.
-/
theorem OperandValue.instruction?_eq (h : OperandValue program operand value)
    (hmeans : (Statement.address operand).Means command) :
    command.instruction? program = some (.address (.ofNat 16 value)) := by
  cases hmeans with
  | literal _ hdigits _ =>
    cases h with
    | number => rfl
    | symbol hname => exact absurd hdigits hname.not_forall_isDigit
  | symbol hname =>
    cases h with
    | number _ hdigits => exact absurd hdigits hname.not_forall_isDigit
    | symbol => rfl

/-- The value of an operand in a program with a meaning is a literal, unless the operand is a
label at the end of the program. -/
theorem OperandValue.le (h : OperandValue program operand value)
    (hmeans : (Statement.address operand).Means command) (hadmissible : Admissible program)
    (hwhole : program = part ++ command :: rest) (hend : ¬ IsEndLabel program operand) :
    value ≤ 32767 := by
  cases hmeans with
  | literal _ hdigits hvalue =>
    cases h with
    | number => exact hvalue
    | symbol hname => exact absurd hdigits hname.not_forall_isDigit
  | symbol hname =>
    cases h with
    | number _ hdigits => exact absurd hdigits hname.not_forall_isDigit
    | symbol => exact hadmissible.symbolValue_le hname hwhole hend

/-- An address is encoded without its upper bits: an instruction of this kind has fifteen bits
for it. -/
theorem toNat_encode_address (value : Nat) :
    (Instruction.address (.ofNat 16 value)).encode.toNat = value % 32768 := by
  have hmask : (value % 65536) &&& 32767 = value % 65536 % 32768 :=
    Nat.and_two_pow_sub_one_eq_mod _ 15
  rw [Instruction.encode, BitVec.toNat_and, BitVec.toNat_ofNat]
  exact hmask.trans (Nat.mod_mod_of_dvd value (by decide))

end Values

section Sources

variable {source : String} {words : List Word} {before after : List (List Char)}
  {operand : List Char} {value : Nat}

/-- An operand in a source that is assembled has a meaning, since the first and the third
phase have read it without a fault. -/
theorem means_of_assemble (h : assemble source = .ok words)
    (htexts : sourceTexts source = before ++ ('@' :: operand) :: after) :
    (Statement.address operand).Means (Command.ofText ('@' :: operand)) := by
  have hsource : (statementTexts source.toList).map Prod.snd = sourceTexts source :=
    map_snd_statementTexts source
  have hmem : '@' :: operand ∈ (statementTexts source.toList).map Prod.snd := by
    simp [hsource, htexts]
  obtain ⟨entry, member, hentry⟩ := List.mem_map.mp hmem
  have hwritten := ((reports_assemble source).of_ok words h).written entry member
  rw [hentry] at hwritten
  exact hwritten.means_address

/-- An operand is encoded where its instruction is, behind the words of the statements before
it, and its value is a literal unless it is a label at the end. -/
theorem OperandValue.getElem?_words
    (hvalue : OperandValue (outline (sourceTexts source)) operand value)
    (h : assemble source = .ok words)
    (htexts : sourceTexts source = before ++ ('@' :: operand) :: after) :
    words[instructionCount (outline before)]? =
      some (Instruction.address (.ofNat 16 value)).encode ∧
      (¬ IsEndLabel (outline (sourceTexts source)) operand → value ≤ 32767) := by
  have hassembled := (reports_assemble source).of_ok words h
  have hmeans := means_of_assemble h htexts
  have hwhole : outline (sourceTexts source) =
      outline before ++ Command.ofText ('@' :: operand) :: outline after := by
    simp [htexts, outline]
  rw [hassembled.words]
  exact ⟨getElem?_wordsOf hwhole (hvalue.instruction?_eq hmeans),
    hvalue.le hmeans hassembled.admissible hwhole⟩

/-- The word of an operand is its value, or zero for a label behind the last instruction of a
full program. A source with any other value that is no literal is rejected. So what an operand
stands for is lost in one case only, where the address of the label is one more than the
greatest literal. -/
theorem word_of_operand (htexts : sourceTexts source = before ++ ('@' :: operand) :: after) :
    (∀ words, assemble source = .ok words → ∃ value word,
      OperandValue (outline (sourceTexts source)) operand value ∧
        words[instructionCount (outline before)]? = some word ∧
        (¬ IsEndLabel (outline (sourceTexts source)) operand → word.toNat = value) ∧
        (IsEndLabel (outline (sourceTexts source)) operand → value = 32768 ∧ word = 0)) ∧
    ∀ value, OperandValue (outline (sourceTexts source)) operand value → 32767 < value →
      ¬ IsEndLabel (outline (sourceTexts source)) operand →
        ∃ error, assemble source = .error error := by
  constructor
  · intro words hok
    obtain ⟨value, hvalue⟩ : ∃ value, OperandValue (outline (sourceTexts source)) operand value :=
      exists_operandValue (means_of_assemble hok htexts)
    obtain ⟨hword, hle⟩ := hvalue.getElem?_words hok htexts
    refine ⟨value, _, hvalue, hword, fun hend => ?_, fun hend => ?_⟩
    · rw [toNat_encode_address, Nat.mod_eq_of_lt (Nat.lt_succ_of_le (hle hend))]
    · obtain rfl := hend.value_eq hvalue
      exact ⟨rfl, rfl⟩
  · intro value hvalue hlarge hend
    cases hresult : assemble source with
    | error error => exact ⟨error, rfl⟩
    | ok words =>
      have hle := (hvalue.getElem?_words hresult htexts).2 hend
      exact absurd hlarge (Nat.not_lt.mpr hle)

end Sources

/-- A loop at a label, behind the use of a variable. -/
def waitingSource : String := "@x\nD=M\n(END) // here\n  @END\n0;JMP"

/-- A variable, and a loop at the end of the program whose label stands before the instruction
that names it: the word of the operand is the address of the loop. -/
theorem word_of_operand_waitingSource :
    sourceTexts waitingSource = ["@x".toList, "D=M".toList, "(END)".toList] ++
      ('@' :: "END".toList) :: ["0;JMP".toList] ∧
    ∃ words word, assemble waitingSource = .ok words ∧ words[2]? = some word ∧ word.toNat = 2 := by
  have htexts : sourceTexts waitingSource = ["@x".toList, "D=M".toList, "(END)".toList] ++
      ('@' :: "END".toList) :: ["0;JMP".toList] := by
    decide
  have hwritten : List.Forall₂ Command.Written (sourceTexts waitingSource)
      (outline (sourceTexts waitingSource)) := by
    apply forall₂_written_outline
    decide
  have hadmissible : Admissible (outline (sourceTexts waitingSource)) :=
    ⟨⟨by decide, by decide, by decide⟩, by decide⟩
  have hend : ¬ IsEndLabel (outline (sourceTexts waitingSource)) "END".toList := fun h =>
    absurd h.address (by decide)
  obtain ⟨value, word, hvalue, hword, hfits, -⟩ :=
    (word_of_operand htexts).1 _ (assemble_of_written hwritten hadmissible)
  have hlabel : value = 2 := by
    rw [hvalue.eq_symbolValue ((isSymbol_iff _).mp (by decide))]
    decide
  exact ⟨htexts, _, word, assemble_of_written hwritten hadmissible, hword,
    (hfits hend).trans hlabel⟩

section EndLabel

/-- An instruction that names the label behind the last instruction, and `zeros` others. -/
def endLines (zeros : Nat) : List String := "@END" :: (List.replicate zeros "0" ++ ["(END)"])

def endSource (zeros : Nat) : String := String.join ((endLines zeros).map (· ++ "\n"))

/-- The instructions before the label. -/
def endInstructions (zeros : Nat) : List Command :=
  .symbol "END" :: List.replicate zeros (.compute (.canonical false 0b101010) .nowhere .never)

variable {zeros : Nat}

/-- What holds of the three kinds of lines of this source holds of all its lines, however many
zeros there are. -/
theorem forall_mem_endLines {p : String → Prop} (h : ∀ line ∈ ["@END", "0", "(END)"], p line) :
    ∀ line ∈ endLines zeros, p line := by
  intro line member
  rcases List.mem_cons.mp member with rfl | hrest
  · exact h _ (by simp)
  · rcases List.mem_append.mp hrest with hzero | hlast
    · rw [List.eq_of_mem_replicate hzero]
      exact h _ (by simp)
    · rw [List.mem_singleton.mp hlast]
      exact h _ (by simp)

/-- Nothing of the lines of this source is left out, so its statements are its lines. -/
theorem sourceTexts_endSource :
    sourceTexts (endSource zeros) = (endLines zeros).map String.toList := by
  have hjoined : (endSource zeros).toList =
      ((endLines zeros).map String.toList).flatMap (· ++ ['\n']) := by
    rw [endSource, String.toList_join, List.flatMap_map, List.flatMap_map]
    simp
  have hlines : Text.lines (endSource zeros).toList = (endLines zeros).map String.toList := by
    rw [hjoined]
    apply Text.lines_flatMap
    · exact List.forall_mem_map.mpr (forall_mem_endLines (by decide))
    · exact List.forall_mem_map.mpr (forall_mem_endLines (by decide))
  have hstripped : ∀ line ∈ endLines zeros,
      strippedLine line.toList = line.toList ∧ line.toList ≠ [] :=
    forall_mem_endLines (by decide)
  have hsame : (endLines zeros).map
      (strippedLine ∘ String.toList) =
        (endLines zeros).map String.toList :=
    List.map_congr_left fun line member => (hstripped line member).1
  rw [sourceTexts, hlines, Text.rests, List.map_map, hsame, List.filter_eq_self]
  intro text member
  obtain ⟨line, hline, rfl⟩ := List.mem_map.mp member
  simpa using (hstripped line hline).2

/-- The outline of the source: the instructions of its lines, and behind them the label that
the first one names. -/
theorem outline_endSource :
    outline (sourceTexts (endSource zeros)) = endInstructions zeros ++ [.label "END"] := by
  have hsymbol : Command.ofText "@END".toList = .symbol "END" := by decide
  have hzero : Command.ofText "0".toList =
      .compute (.canonical false 0b101010) .nowhere .never := by decide
  have hlabel : Command.ofText "(END)".toList = .label "END" := by decide
  rw [sourceTexts_endSource, outline, List.map_map, endLines, List.map_cons, List.map_append,
    List.map_replicate, List.map_singleton, Function.comp_apply, Function.comp_apply,
    Function.comp_apply, hsymbol, hzero, hlabel]
  rfl

theorem labelNames_endInstructions : labelNames (endInstructions zeros) = [] := by
  simp [labelNames, endInstructions, Command.labelName?]

theorem instructionCount_endInstructions :
    instructionCount (endInstructions zeros) = zeros + 1 := by
  rw [instructionCount, endInstructions, List.countP_cons_of_pos rfl, List.countP_replicate]
  rfl

/-- With as many zeros as fit, the label stands behind the last instruction of a full program.
-/
theorem isEndLabel_endSource :
    IsEndLabel (outline (sourceTexts (endSource 32767))) "END".toList := by
  have hnew : "END" ∉ labelNames (endInstructions 32767) := by simp [labelNames_endInstructions]
  rw [outline_endSource]
  constructor
  · exact (isSymbol_iff _).mp (by decide)
  · decide
  · simp [labelNames_concat_label]
  · rw [String.ofList_toList, labelAddress_append_label [] hnew, instructionCount_endInstructions]

theorem variableNames_endSource :
    variableNames (endInstructions zeros ++ [.label "END"]) = [] := by
  have hlabel : isVariable (endInstructions zeros ++ [.label "END"]) "END" = false := by
    simp [isVariable, labelNames_concat_label]
  have hsymbols : (endInstructions zeros ++ [Command.label "END"]).filterMap Command.symbol? =
      ["END"] := by
    have hnamed : Command.symbol? (.symbol "END") = some "END" := rfl
    have hzero : Command.symbol? (.compute (.canonical false 0b101010) .nowhere .never) = none :=
      rfl
    rw [List.filterMap_append, endInstructions, List.filterMap_cons_some hnamed,
      List.filterMap_replicate_of_none hzero]
    rfl
  rw [variableNames, variableNamesIn, hsymbols, List.filter_cons_of_neg (by simp [hlabel])]
  rfl

/-- As long as the instructions of the source have room, it has a meaning: its label is new,
and there are no variables. -/
theorem admissible_endSource (h : zeros + 1 ≤ 32768) :
    Admissible (outline (sourceTexts (endSource zeros))) := by
  have hplaceable : Placeable (endInstructions zeros) := by
    refine ⟨?_, ?_, instructionCount_endInstructions.trans_le h⟩ <;>
      simp [labelNames_endInstructions]
  rw [outline_endSource]
  refine ⟨(placeable_label_iff hplaceable "END").mpr ⟨by decide, ?_⟩, ?_⟩
  · simp [labelNames_endInstructions]
  · simp [variableNames_endSource]

/-- A source that fills the memory for programs and names a label at its end. The value of the
operand is the address of this label, and its word is not this value. -/
theorem word_ne_endLabel : ∃ words word, assemble (endSource 32767) = .ok words ∧
    (sourceTexts (endSource 32767))[0]? = some "@END".toList ∧
    OperandValue (outline (sourceTexts (endSource 32767))) "END".toList 32768 ∧
    words[0]? = some word ∧ word.toNat ≠ 32768 := by
  have htexts : sourceTexts (endSource 32767) =
      [] ++ ('@' :: "END".toList) :: (List.replicate 32767 "0" ++ ["(END)"]).map String.toList :=
    sourceTexts_endSource
  have hwritten : List.Forall₂ Command.Written (sourceTexts (endSource 32767))
      (outline (sourceTexts (endSource 32767))) := by
    apply forall₂_written_outline
    rw [sourceTexts_endSource]
    exact List.forall_mem_map.mpr (forall_mem_endLines (by decide))
  have hok := assemble_of_written hwritten (admissible_endSource (Nat.le_refl 32768))
  have hend := isEndLabel_endSource
  have hvalue : OperandValue (outline (sourceTexts (endSource 32767))) "END".toList 32768 := by
    rw [← hend.value_eq (.symbol hend.name)]
    exact .symbol hend.name
  obtain ⟨hword, -⟩ := hvalue.getElem?_words hok htexts
  refine ⟨_, _, hok, by rw [htexts]; rfl, hvalue, hword, ?_⟩
  rw [toNat_encode_address]
  decide

end EndLabel

end NandComputer.Assembly
