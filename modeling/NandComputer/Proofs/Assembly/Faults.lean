import NandComputer.Proofs.Assembly.Outline

/-!
What the assembler objects to in a statement, phase by phase. A fault depends on the
commands before the statement and on the symbols of the whole program, and on nothing
else of the source. Each phase stops at the first statement that has one of its faults.
-/

namespace NandComputer.Assembly

/-- The three times that the assembler goes over a source. -/
inductive Phase where
  | form
  | placement
  | encoding
  deriving DecidableEq, Repr, Inhabited

def Phase.rank : Phase → Nat
  | .form => 0
  | .placement => 1
  | .encoding => 2

section Faults

variable (program before : List Command) (line : Nat)

/-- An operand that starts with a digit has to be a number of at most 64 bits, and then a
literal. Another one has to be a symbol, and memory has to hold it if it is new. -/
inductive OperandFault : List Char → AssemblyError → Prop
  | number {operand : List Char} : operand.head?.any Char.isDigit = true →
      ¬ ((∀ c ∈ operand, c.isDigit) ∧ Nat.ofDigitChars 10 operand 0 < UInt64.size) →
      OperandFault operand (.malformed line (.invalidNumber (String.ofList operand)))
  | literal {operand : List Char} : operand.head?.any Char.isDigit = true →
      (∀ c ∈ operand, c.isDigit) → Nat.ofDigitChars 10 operand 0 < UInt64.size →
      32767 < Nat.ofDigitChars 10 operand 0 →
      OperandFault operand (.valueOutOfRange line (Nat.ofDigitChars 10 operand 0))
  | symbol {operand : List Char} : ¬ operand.head?.any Char.isDigit = true → ¬ IsName operand →
      OperandFault operand (.malformed line (.invalidSymbol (String.ofList operand)))
  | variable {name : List Char} : IsName name → isVariable program (String.ofList name) = true →
      String.ofList name ∉ variableNamesIn program before →
      32752 ≤ (variableNamesIn program before).length →
      OperandFault name (.valueOutOfRange line (16 + (variableNamesIn program before).length))

/-- The first field that names nothing, in the order destination, computation, jump. -/
inductive FieldFault : Option String → String → Option String → AssemblyError → Prop
  | dest {text comp : String} {jump? : Option String} :
      text = "" ∨ Dest.ofText? text = none →
      FieldFault (some text) comp jump? (.unknownMnemonic line text)
  | comp {dest? jump? : Option String} {dest : Dest} {text : String} :
      DestWritten dest? dest → Comp.ofText? text = none →
      FieldFault dest? text jump? (.unknownMnemonic line text)
  | jump {dest? : Option String} {dest : Dest} {text : String} {comp : Comp} {jump : String} :
      DestWritten dest? dest → Comp.ofText? text = some comp → Jump.ofText? jump = none →
      FieldFault dest? text (some jump) (.unknownMnemonic line jump)

/-- The faults of a statement on a line, given the commands of the whole program and those
before the statement. -/
inductive Fault (text : List Char) : Phase → AssemblyError → Prop
  | malformed {fault : SyntaxFault} : Malformed text fault →
      Fault text .form (.malformed line fault)
  | label {name : String} : Reads text (.label name) →
      (builtinSymbols.lookup name).isSome = true ∨ name ∈ labelNames before →
      Fault text .placement (.duplicateLabel line name)
  | room {statement : Statement} : Reads text statement → (∀ name, statement ≠ .label name) →
      32768 ≤ instructionCount before →
      Fault text .placement (.programTooLarge (instructionCount before + 1))
  | operand {operand : List Char} {error : AssemblyError} : Reads text (.address operand) →
      OperandFault program before line operand error → Fault text .encoding error
  | fields {dest? jump? : Option String} {comp : String} {error : AssemblyError} :
      Reads text (.compute dest? comp jump?) → FieldFault line dest? comp jump? error →
      Fault text .encoding error

end Faults

section Errors

variable {program before : List Command} {line : Nat} {error : AssemblyError}

/-- A computation in two steps fails with an error if the first step does, or if the second
one does with what the first one gave. -/
theorem bind_eq_error_iff {α β ε : Type} {result : Except ε α} {f : α → Except ε β} {error : ε} :
    (result >>= f) = .error error ↔
      result = .error error ∨ ∃ x, result = .ok x ∧ f x = .error error := by
  cases result <;> simp [bind, Except.bind]

/-- A mnemonic is refused exactly if the parser does not know it, and the error quotes its
text. -/
theorem known_eq_error_iff {α : Type} {parse : String → Option α} {text : String} :
    known line parse text = .error error ↔
      parse text = none ∧ error = .unknownMnemonic line text := by
  unfold known
  split <;> simp_all [eq_comm]

/-- A field that may be absent is refused only if it is written: an absent field has a
default, and a written one is refused as a mnemonic is. -/
theorem known_getD_eq_error_iff {α : Type} {parse : String → Option α} {text? : Option String}
    {absent : α} : (text?.map (known line parse)).getD (.ok absent) = .error error ↔
      ∃ text, text? = some text ∧ parse text = none ∧ error = .unknownMnemonic line text := by
  cases text? with
  | none => simp
  | some text => simp [known_eq_error_iff]

/-- A written destination is refused if it is empty or has a letter that is no register. -/
theorem parseStore_eq_none_iff {text : String} :
    parseStore text = none ↔ text = "" ∨ Dest.ofText? text = none := by
  rw [← not_iff_not, ← ne_eq, Option.ne_none_iff_exists']
  simp [parseStore_eq_some_iff, Option.eq_none_iff_forall_ne_some]

/-- A computation is refused for a fault of one of its fields. The order in which the fields
are looked at decides which of several faults it is. -/
theorem computation_eq_error_iff {dest? jump? : Option String} {comp : String} :
    computation line dest? comp jump? = .error error ↔ FieldFault line dest? comp jump? error := by
  rw [computation]
  simp only [bind_eq_error_iff, known_getD_eq_error_iff, known_getD_eq_ok_iff, known_eq_ok_iff,
    known_eq_error_iff, destination_eq_some_iff, parseStore_eq_none_iff]
  constructor
  · rintro (⟨text, rfl, htext, rfl⟩ | ⟨dest, hdest, ⟨hcomp, rfl⟩ | ⟨field, hcomp,
      ⟨jump, rfl, hjump, rfl⟩ | ⟨jump, -, hok⟩⟩⟩)
    · exact .dest htext
    · exact .comp hdest hcomp
    · exact .jump hdest hcomp hjump
    · cases hok
  · rintro (htext | ⟨hdest, hcomp⟩ | ⟨hdest, hcomp, hjump⟩)
    · exact .inl ⟨_, rfl, htext, rfl⟩
    · exact .inr ⟨_, hdest, .inl ⟨hcomp, rfl⟩⟩
    · exact .inr ⟨_, hdest, .inr ⟨_, hcomp, .inl ⟨_, rfl, hjump, rfl⟩⟩⟩

theorem IsName.not_digit {name : List Char} (h : IsName name) :
    ¬ name.head?.any Char.isDigit = true := by
  obtain ⟨first, rest, rfl⟩ := List.exists_cons_of_ne_nil h.nonempty
  simp [h.head first rfl]

/-- A numeral of at most 64 bits is compared with the greatest literal: above it the value is
reported, and otherwise it is the literal. -/
theorem literal_of_digits {operand : List Char} (hnil : operand ≠ [])
    (hdigits : ∀ c ∈ operand, c.isDigit) (hsize : Nat.ofDigitChars 10 operand 0 < UInt64.size) :
    literal line operand = if 32767 < Nat.ofDigitChars 10 operand 0 then
      .error (.valueOutOfRange line (Nat.ofDigitChars 10 operand 0))
      else .ok (.ofNat 16 (Nat.ofDigitChars 10 operand 0)) := by
  rw [literal, Text.ofDecimal?, if_pos ⟨hnil, List.all_eq_true.mpr hdigits⟩]
  exact if_neg (Nat.not_le.mpr hsize)

/-- A text that begins with a digit and is no numeral of at most 64 bits is reported as a
malformed number, with its text. -/
theorem literal_of_not_number {operand : List Char}
    (h : ¬ ((∀ c ∈ operand, c.isDigit) ∧ Nat.ofDigitChars 10 operand 0 < UInt64.size)) :
    literal line operand = .error (.malformed line (.invalidNumber (String.ofList operand))) := by
  rw [literal, Text.ofDecimal?]
  by_cases hdigits : operand ≠ [] ∧ operand.all Char.isDigit
  · rw [if_pos hdigits]
    exact if_pos (Nat.not_lt.mp fun hsize => h ⟨List.all_eq_true.mp hdigits.2, hsize⟩)
  · rw [if_neg hdigits]

/-- A number that is refused is none, or it is no literal. Both are faults of the operand,
whatever commands there are before it. -/
theorem literal_eq_error_iff (program before : List Command) {operand : List Char}
    (hhead : operand.head?.any Char.isDigit = true) : literal line operand = .error error ↔
      OperandFault program before line operand error := by
  have hnil : operand ≠ [] := by
    rintro rfl
    cases hhead
  by_cases hnumber : (∀ c ∈ operand, c.isDigit) ∧ Nat.ofDigitChars 10 operand 0 < UInt64.size
  · rw [literal_of_digits hnil hnumber.1 hnumber.2]
    constructor
    · intro h
      split at h
      case isTrue hvalue =>
        cases h
        exact .literal hhead hnumber.1 hnumber.2 hvalue
      case isFalse => cases h
    · rintro (⟨_, hno⟩ | ⟨_, _, _, hvalue⟩ | ⟨hno, _⟩ | ⟨hname, _, _, _⟩)
      · exact absurd hnumber hno
      · exact if_pos hvalue
      · exact absurd hhead hno
      · exact absurd hhead hname.not_digit
  · rw [literal_of_not_number hnumber]
    constructor
    · rintro ⟨⟩
      exact .number hhead hnumber
    · rintro (_ | ⟨_, hdigits, hsize, _⟩ | ⟨hno, _⟩ | ⟨hname, _, _, _⟩)
      · rfl
      · exact absurd ⟨hdigits, hsize⟩ hnumber
      · exact absurd hhead hno
      · exact absurd hhead hname.not_digit

variable {output : Output}

/-- A symbol is refused only as a variable: it is new, and the variables before it have taken
all addresses below the screen. -/
theorem Output.Reaches.resolve_eq_error_iff (h : output.Reaches program before) {name : String} :
    output.symbols.resolve line name = .error error ↔
      (isVariable program name = true ∧ name ∉ variableNamesIn program before) ∧
        32752 ≤ (variableNamesIn program before).length ∧
        error = .valueOutOfRange line (16 + (variableNamesIn program before).length) := by
  rw [Symbols.resolve, h.values name, h.nextVariable, Instruction.maxLiteral]
  by_cases hnew : isVariable program name = true ∧ name ∉ variableNamesIn program before
  · rw [if_pos hnew]
    dsimp only
    by_cases hroom : 32752 ≤ (variableNamesIn program before).length
    · rw [if_pos (by omega)]
      simp [hnew, hroom, eq_comm]
    · rw [if_neg (by omega)]
      simp [hroom]
  · rw [if_neg hnew]
    simp [hnew]

/-- An operand is refused exactly for its faults, as a number or as a symbol. The symbols that
the assembler has collected stand for the commands before it. -/
theorem Output.Reaches.operand_eq_error_iff (h : output.Reaches program before)
    {operand : List Char} : output.symbols.operand line operand = .error error ↔
      OperandFault program before line operand error := by
  by_cases hdigit : operand.head?.any Char.isDigit = true
  · rw [Symbols.operand, if_pos hdigit, bind_eq_error_iff,
      literal_eq_error_iff program before hdigit, or_iff_left]
    rintro ⟨value, -, hok⟩
    cases hok
  · by_cases hname : IsName operand
    · rw [Symbols.operand_of_isName _ hname, h.resolve_eq_error_iff]
      constructor
      · rintro ⟨⟨hvariable, hnew⟩, hroom, rfl⟩
        exact .variable hname hvariable hnew hroom
      · rintro (⟨hhead, _⟩ | ⟨hhead, _, _, _⟩ | ⟨_, hsymbol⟩ | ⟨_, hvariable, hnew, hroom⟩)
        · exact absurd hhead hdigit
        · exact absurd hhead hdigit
        · exact absurd hname hsymbol
        · exact ⟨⟨hvariable, hnew⟩, hroom, rfl⟩
    · rw [Symbols.operand, if_neg hdigit, if_neg ((isSymbol_iff operand).not.mpr hname)]
      constructor
      · rintro ⟨⟩
        exact .symbol hdigit hname
      · rintro (⟨hhead, _⟩ | ⟨hhead, _, _, _⟩ | _ | ⟨hsymbol, _, _, _⟩)
        · exact absurd hhead hdigit
        · exact absurd hhead hdigit
        · rfl
        · exact absurd hsymbol hname

end Errors

section Steps

variable {program before : List Command} {line : Nat} {error : AssemblyError} {text : List Char}
  {statement : Statement}

/-- A statement is refused in the third phase exactly for its faults of that phase. What the
phase has collected so far is described by the commands before the statement. -/
theorem Output.Reaches.encode_eq_error_iff {output : Output} (h : output.Reaches program before)
    (hreads : Reads text statement) : output.encode (line, statement) = .error error ↔
      Fault program before line text .encoding error := by
  cases statement with
  | label name =>
    refine iff_of_false (by simp [Output.encode]) fun hfault => ?_
    rcases hfault with _ | _ | _ | ⟨hother, _⟩ | ⟨hother, _⟩
    · cases hreads.unique hother
    · cases hreads.unique hother
  | address operand =>
    have hencode : output.encode (line, .address operand) = .error error ↔
        output.symbols.operand line operand = .error error := by
      rw [Output.encode, bind_eq_error_iff, or_iff_left]
      rintro ⟨value, -, hok⟩
      cases hok
    rw [hencode, h.operand_eq_error_iff]
    refine ⟨.operand hreads, fun hfault => ?_⟩
    rcases hfault with _ | _ | _ | ⟨hother, hoperand⟩ | ⟨hother, _⟩
    · cases hreads.unique hother
      exact hoperand
    · cases hreads.unique hother
  | compute dest? comp jump? =>
    have hencode : output.encode (line, .compute dest? comp jump?) = .error error ↔
        computation line dest? comp jump? = .error error := by
      rw [Output.encode, bind_eq_error_iff, or_iff_left]
      rintro ⟨value, -, hok⟩
      cases hok
    rw [hencode, computation_eq_error_iff]
    refine ⟨.fields hreads, fun hfault => ?_⟩
    rcases hfault with _ | _ | _ | ⟨hother, _⟩ | ⟨hother, hfields⟩
    · cases hreads.unique hother
    · cases hreads.unique hother
      exact hfields

/-- A statement is refused in the second phase exactly for its faults of that phase: a label
that is declared again or predefined, or an instruction without room. -/
theorem Layout.Reaches.place_eq_error_iff {layout : Layout} (h : layout.Reaches before)
    (hreads : Reads text statement) : layout.place (line, statement) = .error error ↔
      Fault program before line text .placement error := by
  by_cases hlabel : ∃ name, statement = .label name
  · obtain ⟨name, rfl⟩ := hlabel
    have htaken : layout.symbols.values.contains name = true ↔
        (builtinSymbols.lookup name).isSome = true ∨ name ∈ labelNames before := by
      rw [Std.HashMap.contains_eq_isSome_getElem?, h.values name]
      cases builtinSymbols.lookup name <;> simp
    rw [Layout.place]
    constructor
    · intro hplace
      split at hplace
      case isTrue hcontains =>
        cases hplace
        exact .label hreads (htaken.mp hcontains)
      case isFalse => cases hplace
    · rintro (_ | ⟨hother, hname⟩ | ⟨hother, hstatement, _⟩)
      · cases hreads.unique hother
        exact if_pos (htaken.mpr hname)
      · exact absurd (hreads.unique hother).symm (hstatement name)
  · have hstatement : ∀ name, statement ≠ .label name := fun name heq => hlabel ⟨name, heq⟩
    rw [layout.place_of_ne_label line hstatement, h.address, romWords]
    constructor
    · intro hplace
      split at hplace
      case isTrue hroom =>
        cases hplace
        exact .room hreads hstatement (by omega)
      case isFalse => cases hplace
    · rintro (_ | ⟨hother, _⟩ | ⟨_, _, hroom⟩)
      · exact absurd (hreads.unique hother) (hstatement _)
      · exact if_pos (by omega)

end Steps

end NandComputer.Assembly
