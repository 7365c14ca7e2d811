import NandComputer.Proofs.Assembly.Meaning
import NandComputer.Proofs.Assembly.Roundtrip

/-!
The two passes of the assembler over its statements. Each keeps a table that
agrees with the part of the program behind it, and stops with an error exactly
where this part is no longer admissible.
-/

namespace NandComputer.Assembly

section Deciding

variable {σ ε : Type}

/-- The result is a value with the property if the condition holds, and else an error. -/
def Decides (result : Except ε σ) (condition : Prop) (P : σ → Prop) : Prop :=
  (condition ∧ ∃ s, result = .ok s ∧ P s) ∨ (¬ condition ∧ ∃ error, result = .error error)

/-- A result that decides a condition is a success exactly if the condition holds. -/
theorem Decides.exists_ok_iff {result : Except ε σ} {condition : Prop} {P : σ → Prop}
    (h : Decides result condition P) : (∃ s, result = .ok s) ↔ condition := by
  rcases h with ⟨hcondition, s, rfl, -⟩ | ⟨hcondition, error, rfl⟩ <;> simp [hcondition]

/-- What a decided result promises of its value holds whenever there is a value. -/
theorem Decides.of_ok {result : Except ε σ} {condition : Prop} {P : σ → Prop}
    (h : Decides result condition P) {s : σ} (hok : result = .ok s) : P s := by
  rcases h with ⟨-, s', rfl, hs⟩ | ⟨-, error, rfl⟩
  · cases hok
    exact hs
  · cases hok

end Deciding

section Labels

variable {program : List Command}

/-- The table of predefined symbols and labels. -/
structure Layout.Reaches (part : List Command) (layout : Layout) : Prop where
  address : layout.address = instructionCount part
  nextVariable : layout.symbols.nextVariable = 16
  values : ∀ name, layout.symbols.values[name]? =
    (builtinSymbols.lookup name).or
      (if name ∈ labelNames part then some (.ofNat 16 (labelAddress part name)) else none)

/-- The table that the assembler starts with finds a name exactly where the list of predefined
symbols does, although it is filled entry by entry. -/
theorem Symbols.getElem?_predefined (name : String) :
    Symbols.predefined.values[name]? = builtinSymbols.lookup name := by
  cases hlookup : builtinSymbols.lookup name with
  | none =>
    apply Std.HashMap.getElem?_ofList_of_contains_eq_false
    rw [List.lookup_eq_none_iff] at hlookup
    rw [← Bool.not_eq_true, List.contains_iff_mem, List.mem_map]
    rintro ⟨entry, member, rfl⟩
    simpa using hlookup entry member
  | some value =>
    have hdistinct : builtinSymbols.Pairwise fun a b => (a.1 == b.1) = false := by decide +kernel
    exact Std.HashMap.getElem?_ofList_of_mem (by simp) hdistinct (mem_of_lookup_eq_some hlookup)

/-- Before the first statement the table has the predefined symbols, and no instruction is
counted. -/
theorem Layout.reaches_start : Layout.Reaches [] ⟨.predefined, 0⟩ := by
  refine ⟨rfl, rfl, fun name => ?_⟩
  simpa [labelNames] using Symbols.getElem?_predefined name

variable {part : List Command} {layout : Layout} {line : Nat}

/-- An instruction is placed if there is room for it, and then the next address is one further
and the table is as before. -/
theorem Layout.Reaches.place_instruction (h : layout.Reaches part) (hpart : Placeable part)
    {statement : Statement} {command : Command} (hstatement : ∀ name, statement ≠ .label name)
    (hcommand : command.isInstruction = true) :
    Decides (layout.place (line, statement)) (Placeable (part ++ [command]))
      (Layout.Reaches (part ++ [command])) := by
  rw [placeable_instruction_iff hcommand hpart, layout.place_of_ne_label line hstatement,
    h.address, romWords]
  by_cases hroom : instructionCount part + 1 ≤ 32768
  · rw [if_neg (by omega)]
    refine .inl ⟨hroom, _, rfl, ?_, h.nextVariable, fun name => ?_⟩
    · exact (instructionCount_concat_instruction hcommand).symm
    · rw [labelNames_concat_instruction hcommand, h.values name]
      by_cases hname : name ∈ labelNames part
      · rw [labelAddress_append _ hname]
      · simp [hname]
  · rw [if_pos (by omega)]
    exact .inr ⟨hroom, _, rfl⟩

/-- A label is placed if its name is new, and then the table has it with the next address. It
takes no room itself. -/
theorem Layout.Reaches.place_label (h : layout.Reaches part) (hpart : Placeable part)
    (name : String) : Decides (layout.place (line, .label name))
      (Placeable (part ++ [.label name])) (Layout.Reaches (part ++ [.label name])) := by
  have hknown := h.values name
  rw [placeable_label_iff hpart, Layout.place, Std.HashMap.contains_eq_isSome_getElem?, hknown]
  by_cases hnew : builtinSymbols.lookup name = none ∧ name ∉ labelNames part
  · refine .inl ⟨hnew, _, if_neg (by simp [hnew]), ?_, h.nextVariable, fun other => ?_⟩
    · exact h.address.trans (instructionCount_concat_label part name).symm
    · rw [labelNames_concat_label]
      by_cases heq : name = other
      · subst heq
        have haddress := labelAddress_append_label [] hnew.2
        simp [Symbols.define, hnew.1, haddress, h.address]
      · have hother := h.values other
        by_cases hmem : other ∈ labelNames part
        · simp [Symbols.define, Std.HashMap.getElem?_insert, heq, hother, hmem,
            labelAddress_append _ hmem]
        · simp [Symbols.define, Std.HashMap.getElem?_insert, heq, Ne.symm heq, hother, hmem]
  · refine .inr ⟨hnew, .duplicateLabel line name, ?_⟩
    have hsome : ((builtinSymbols.lookup name).or (if name ∈ labelNames part then
        some (BitVec.ofNat 16 (labelAddress part name)) else none)).isSome = true := by
      cases hlookup : builtinSymbols.lookup name with
      | some value => rfl
      | none =>
        have hmem : name ∈ labelNames part := by simpa [hlookup] using hnew
        simp [hmem]
    rw [if_pos hsome]

end Labels

section Fields

variable {line : Nat}

/-- A mnemonic is accepted exactly if the parser knows it, and its field is what the parser
gives. -/
theorem known_eq_ok_iff {α : Type} {parse : String → Option α} {text : String} {field : α} :
    known line parse text = .ok field ↔ parse text = some field := by
  unfold known
  split <;> simp_all

theorem known_getD_eq_ok_iff {α : Type} {parse : String → Option α} {text? : Option String}
    {absent field : α} : (text?.map (known line parse)).getD (.ok absent) = .ok field ↔
      (text?.map parse).getD (some absent) = some field := by
  cases text? with
  | none => simp
  | some text => exact known_eq_ok_iff

theorem bind_eq_ok_iff {α β ε : Type} {result : Except ε α} {f : α → Except ε β} {y : β} :
    (result >>= f) = .ok y ↔ ∃ x, result = .ok x ∧ f x = .ok y := by
  cases result <;> simp [bind, Except.bind]

/-- A computation is accepted exactly if all its fields are known, and it is the instruction
that the statement means. -/
theorem computation_eq_ok_iff {dest? jump? : Option String} {text : String}
    {instruction : Instruction} : computation line dest? text jump? = .ok instruction ↔
      ∃ comp dest jump, instruction = .compute comp dest jump ∧
        (Statement.compute dest? text jump?).Means (.compute comp dest jump) := by
  rw [computation]
  simp only [bind_eq_ok_iff, known_getD_eq_ok_iff, known_eq_ok_iff, destination_eq_some_iff,
    jump_eq_some_iff]
  constructor
  · rintro ⟨dest, hdest, comp, hcomp, jump, hjump, hinstruction⟩
    cases hinstruction
    exact ⟨comp, dest, jump, rfl, .compute hdest hcomp hjump⟩
  · rintro ⟨comp, dest, jump, rfl, hmeans⟩
    cases hmeans with
    | compute hdest hcomp hjump => exact ⟨dest, hdest, comp, hcomp, jump, hjump, rfl⟩

/-- A literal is a numeral whose value is at most the greatest address. Numerals of more than
64 bits are none, which is the same as being too large here. -/
theorem literal_eq_ok_iff {digits : List Char} {value : Word} :
    literal line digits = .ok value ↔ (digits ≠ [] ∧ ∀ c ∈ digits, c.isDigit = true) ∧
      Nat.ofDigitChars 10 digits 0 ≤ 32767 ∧ value = .ofNat 16 (Nat.ofDigitChars 10 digits 0) := by
  rw [literal, Text.ofDecimal?, Instruction.maxLiteral, UInt64.size]
  simp only [List.all_eq_true]
  by_cases hdigits : digits ≠ [] ∧ ∀ c ∈ digits, c.isDigit = true
  · rw [if_pos hdigits]
    dsimp only
    by_cases hvalue : Nat.ofDigitChars 10 digits 0 ≤ 32767
    · rw [if_neg (by omega), if_neg (by omega)]
      constructor
      · rintro ⟨⟩
        exact ⟨hdigits, hvalue, rfl⟩
      · rintro ⟨-, -, rfl⟩
        rfl
    · refine iff_of_false (fun hok => ?_) fun h => hvalue h.2.1
      split at hok
      · cases hok
      · rw [if_pos (by omega)] at hok
        cases hok
  · rw [if_neg hdigits]
    simp [hdigits]

theorem Symbols.operand_of_isName (symbols : Symbols) {name : List Char} (h : IsName name) :
    symbols.operand line name = symbols.resolve line (String.ofList name) := by
  obtain ⟨first, rest, rfl⟩ := List.exists_cons_of_ne_nil h.nonempty
  have hdigit := h.head first rfl
  rw [operand, if_neg (by simp [hdigit]), if_pos ((isSymbol_iff _).mpr h)]

theorem Symbols.operand_of_digits (symbols : Symbols) {digits : List Char} (hnil : digits ≠ [])
    (hdigits : ∀ c ∈ digits, c.isDigit = true) (hvalue : Nat.ofDigitChars 10 digits 0 ≤ 32767) :
    symbols.operand line digits =
      .ok (.ofNat 16 (Nat.ofDigitChars 10 digits 0), symbols) := by
  have hliteral : literal line digits = .ok (.ofNat 16 (Nat.ofDigitChars 10 digits 0)) :=
    literal_eq_ok_iff.mpr ⟨⟨hnil, hdigits⟩, hvalue, rfl⟩
  obtain ⟨first, rest, rfl⟩ := List.exists_cons_of_ne_nil hnil
  rw [operand, if_pos (by simp [hdigits first]), hliteral]
  rfl

/-- An operand that has a value is a number or a symbol, so the statement has a meaning. -/
theorem Symbols.exists_means_of_operand {symbols : Symbols} {operand : List Char}
    {result : Word × Symbols} (h : symbols.operand line operand = .ok result) :
    ∃ command, (Statement.address operand).Means command := by
  rw [Symbols.operand] at h
  split at h
  case isTrue =>
    obtain ⟨value, hvalue, -⟩ := bind_eq_ok_iff.mp h
    obtain ⟨⟨hnil, hdigits⟩, hle, -⟩ := literal_eq_ok_iff.mp hvalue
    exact ⟨_, .literal hnil hdigits hle⟩
  case isFalse =>
    split at h
    case isTrue hname => exact ⟨_, .symbol ((isSymbol_iff operand).mp hname)⟩
    case isFalse => cases h

/-- A statement that is encoded has a meaning. What it is encoded as is the matter of the
lemmas below. -/
theorem Output.exists_means_of_encode {output next : Output} {entry : Nat × Statement}
    (h : output.encode entry = .ok next) : ∃ command, entry.2.Means command := by
  obtain ⟨line, statement⟩ := entry
  cases statement with
  | label name => exact ⟨_, .label⟩
  | address operand =>
    obtain ⟨result, hresult, -⟩ := bind_eq_ok_iff.mp h
    exact Symbols.exists_means_of_operand hresult
  | compute dest? comp jump? =>
    obtain ⟨instruction, hinstruction, -⟩ := bind_eq_ok_iff.mp h
    obtain ⟨_, _, _, -, hmeans⟩ := computation_eq_ok_iff.mp hinstruction
    exact ⟨_, hmeans⟩

end Fields

section Encode

variable {program part rest : List Command} {output : Output} {line : Nat}

/-- The words of a part of the program, and the table with the variables in it. -/
structure Output.Reaches (program part : List Command) (output : Output) : Prop where
  words : output.words.toList = wordsOf program part
  nextVariable : output.symbols.nextVariable = 16 + (variableNamesIn program part).length
  values : ∀ name, output.symbols.values[name]? =
    if isVariable program name = true ∧ name ∉ variableNamesIn program part then none
    else some (.ofNat 16 (symbolValue program name))

/-- A command that uses no new variable leaves the table as it is, and adds the word of its
instruction if it has one. -/
theorem Output.Reaches.advance (h : output.Reaches program part) {command : Command}
    (hnames : variableNamesIn program (part ++ [command]) = variableNamesIn program part)
    {words : Array Word} (hwords : words.toList = output.words.toList ++
      ((command.instruction? program).map Instruction.encode).toList) :
    Output.Reaches program (part ++ [command]) { output with words } where
  words := by rw [hwords, h.words, wordsOf_concat]
  nextVariable := by rw [hnames, h.nextVariable]
  values := by rw [hnames]; exact h.values

theorem Output.Reaches.push (h : output.Reaches program part) {command : Command}
    (hnames : variableNamesIn program (part ++ [command]) = variableNamesIn program part)
    {instruction : Instruction} (hinstruction : command.instruction? program = some instruction) :
    Output.Reaches program (part ++ [command])
      { output with words := output.words.push instruction.encode } :=
  h.advance hnames (by simp [hinstruction])

theorem Output.encode_of_isName (output : Output) {name : List Char} (h : IsName name) :
    output.encode (line, .address name) = (output.symbols.resolve line (String.ofList name)).map
      fun (value, symbols) => ⟨symbols, output.words.push (Instruction.address value).encode⟩ := by
  rw [Output.encode, Symbols.operand_of_isName _ h]
  cases output.symbols.resolve line (String.ofList name) <;> rfl

/-- A symbol with a value is replaced by it. Its value is in the table because it is
predefined, a label, or a variable that was used before. -/
theorem Output.Reaches.encode_known (h : output.Reaches program part)
    (hfit : VariablesFit program part)
    {name : List Char} (hname : IsName name)
    (hknown : ¬ (isVariable program (String.ofList name) = true ∧
      String.ofList name ∉ variableNamesIn program part)) :
    Decides (output.encode (line, .address name))
      (VariablesFit program (part ++ [.symbol (String.ofList name)]))
      (Output.Reaches program (part ++ [.symbol (String.ofList name)])) := by
  have hnames : variableNamesIn program (part ++ [.symbol (String.ofList name)]) =
      variableNamesIn program part := variableNamesIn_concat_known hknown
  have hvalue := h.values (String.ofList name)
  rw [if_neg hknown] at hvalue
  refine .inl ⟨?_, _, ?_, h.push hnames rfl⟩
  · rw [VariablesFit, hnames]
    exact hfit
  · rw [output.encode_of_isName hname, Symbols.resolve, hvalue]
    rfl

/-- A variable at its first use gets the next address, as long as there is one. The table has
it from then on with this address. -/
theorem Output.Reaches.encode_new (h : output.Reaches program part) {name : List Char}
    (hwhole : program = part ++ .symbol (String.ofList name) :: rest) (hname : IsName name)
    (hvariable : isVariable program (String.ofList name) = true)
    (hnew : String.ofList name ∉ variableNamesIn program part) :
    Decides (output.encode (line, .address name))
      (VariablesFit program (part ++ [.symbol (String.ofList name)]))
      (Output.Reaches program (part ++ [.symbol (String.ofList name)])) := by
  generalize hsymbol : String.ofList name = symbol at *
  have hnames : variableNamesIn program (part ++ [.symbol symbol]) =
      variableNamesIn program part ++ [symbol] := variableNamesIn_concat_new hvariable hnew
  have hvalue := h.values symbol
  rw [if_pos ⟨hvariable, hnew⟩] at hvalue
  have haddress := symbolValue_of_new hwhole hvariable hnew
  -- the check of the assembler is on the next address, that of the program on the count
  have hfit : VariablesFit program (part ++ [.symbol symbol]) ↔
      ¬ output.symbols.nextVariable > Instruction.maxLiteral := by
    rw [VariablesFit, hnames, h.nextVariable, Instruction.maxLiteral, List.length_append,
      List.length_singleton]
    omega
  rw [output.encode_of_isName hname, Symbols.resolve, hsymbol, hvalue, hfit]
  by_cases hroom : output.symbols.nextVariable > Instruction.maxLiteral
  · refine .inr ⟨not_not.mpr hroom, .valueOutOfRange line output.symbols.nextVariable, ?_⟩
    dsimp only
    rw [if_pos hroom]
    rfl
  · dsimp only
    rw [if_neg hroom]
    refine .inl ⟨hroom, _, rfl, ?_, ?_, fun other => ?_⟩
    · simp [wordsOf_concat, Command.instruction?, h.words, h.nextVariable, haddress]
    · rw [hnames, List.length_append, h.nextVariable]
      rfl
    · rw [hnames]
      by_cases heq : symbol = other
      · subst heq
        simp [h.nextVariable, haddress]
      · have hother := h.values other
        simp [Std.HashMap.getElem?_insert, heq, Ne.symm heq, hother]

/-- A statement is encoded as its command says: it is accepted if the variables still find
room, and then table and words agree with the part of the program up to it. -/
theorem Output.Reaches.encode (h : output.Reaches program part) (hfit : VariablesFit program part)
    {command : Command} (hwhole : program = part ++ command :: rest) {statement : Statement}
    (hmeans : statement.Means command) :
    Decides (output.encode (line, statement)) (VariablesFit program (part ++ [command]))
      (Output.Reaches program (part ++ [command])) := by
  have hkeep (hsymbol : command.symbol? = none) :
      variableNamesIn program (part ++ [command]) = variableNamesIn program part := by
    simp [variableNamesIn_concat, hsymbol]
  have hsame (hsymbol : command.symbol? = none) : VariablesFit program (part ++ [command]) := by
    rw [VariablesFit, hkeep hsymbol]
    exact hfit
  cases hmeans with
  | label =>
    exact .inl ⟨hsame rfl, output, rfl, h.advance (hkeep rfl) (by simp [Command.instruction?])⟩
  | literal hnil hdigits hvalue =>
    refine .inl ⟨hsame rfl, _, ?_, h.push (hkeep rfl) rfl⟩
    rw [Output.encode, Symbols.operand_of_digits _ hnil hdigits hvalue]
    rfl
  | @symbol name hname =>
    by_cases hpending : isVariable program (String.ofList name) = true ∧
        String.ofList name ∉ variableNamesIn program part
    · exact h.encode_new hwhole hname hpending.1 hpending.2
    · exact h.encode_known hfit hname hpending
  | compute hdest hcomp hjump =>
    refine .inl ⟨hsame rfl, _, ?_, h.push (hkeep rfl) rfl⟩
    rw [Output.encode, computation_eq_ok_iff.mpr ⟨_, _, _, rfl, .compute hdest hcomp hjump⟩]
    rfl

/-- The table that the second phase leaves is the one of a program before its first variable,
and no word is written yet. -/
theorem Output.reaches_start {layout : Layout} (h : layout.Reaches program) :
    Output.Reaches program [] ⟨layout.symbols, #[]⟩ := by
  refine ⟨rfl, h.nextVariable, fun name => ?_⟩
  rw [h.values name]
  cases hlookup : builtinSymbols.lookup name with
  | some value => simp [isVariable, symbolValue, hlookup]
  | none => by_cases hlabel : name ∈ labelNames program <;>
      simp [isVariable, symbolValue, hlookup, hlabel, variableNamesIn]

end Encode

theorem atLine_eq_ok_iff {α : Type} {line : Nat} {result : Except SyntaxFault α} {x : α} :
    atLine line result = .ok x ↔ result = .ok x := by
  cases result <;> simp [atLine, Except.mapError]

end NandComputer.Assembly
