import Mathlib.Data.List.Forall2
import NandComputer.Proofs.Assembly.Passes

/-!
The outline of a source, and the forms of its statements. An outline has one command
for each statement, whether the assembler accepts it or not. It is known without a
table of symbols, so it says which labels, instructions and variables stand before a
statement even where the source is rejected.
-/

namespace NandComputer.Assembly

section Commands

/-- The command of a statement, if all its parts are accepted. -/
def Statement.command? : Statement → Option Command
  | .label name => some (.label name)
  | .address operand =>
    match Text.ofDecimal? operand with
    | some value => if value ≤ Instruction.maxLiteral then some (.literal value) else none
    | none => if isSymbol operand then some (.symbol (String.ofList operand)) else none
  | .compute dest? comp jump? => do
    let dest ← (dest?.map parseStore).getD (some .nowhere)
    let comp ← Comp.ofText? comp
    let jump ← (jump?.map Jump.ofText?).getD (some .never)
    return .compute comp dest jump

/-- An operand has the command that it means: a literal if it is a numeral that is small
enough, and a symbol if it is a name. -/
theorem Statement.command?_address_eq_some_iff {operand : List Char} {command : Command} :
    (Statement.address operand).command? = some command ↔
      (Statement.address operand).Means command := by
  have hdigits : operand.all Char.isDigit = true ↔ ∀ c ∈ operand, c.isDigit := by simp
  unfold Statement.command?
  dsimp only
  rw [Text.ofDecimal?]
  by_cases hnumeral : operand ≠ [] ∧ operand.all Char.isDigit
  · rw [if_pos hnumeral]
    dsimp only
    rw [Option.ite_none_right_eq_some, Instruction.maxLiteral]
    constructor
    · rintro ⟨hvalue, ⟨⟩⟩
      exact .literal hnumeral.1 (hdigits.mp hnumeral.2) hvalue
    · rintro (_ | ⟨_, _, hvalue⟩ | hname)
      · exact ⟨hvalue, rfl⟩
      · exact absurd (hdigits.mp hnumeral.2) hname.not_forall_isDigit
  · rw [if_neg hnumeral]
    dsimp only
    rw [Option.ite_none_right_eq_some, isSymbol_iff]
    constructor
    · rintro ⟨hname, ⟨⟩⟩
      exact .symbol hname
    · rintro (_ | ⟨hnil, hall, _⟩ | hname)
      · exact absurd ⟨hnil, hdigits.mpr hall⟩ hnumeral
      · exact ⟨hname, rfl⟩

/-- The command of a statement is the one that the statement means, and a statement without a
meaning has none. So meanings can be computed. -/
theorem Statement.command?_eq_some_iff {statement : Statement} {command : Command} :
    statement.command? = some command ↔ statement.Means command := by
  cases statement with
  | label name =>
    constructor
    · rintro ⟨⟩
      exact .label
    · rintro ⟨⟩
      rfl
  | address operand => exact Statement.command?_address_eq_some_iff
  | compute dest? comp jump? =>
    simp only [Statement.command?, Option.bind_eq_bind, Option.bind_eq_some_iff,
      destination_eq_some_iff, jump_eq_some_iff]
    constructor
    · rintro ⟨dest, hdest, comp, hcomp, jump, hjump, ⟨⟩⟩
      exact .compute hdest hcomp hjump
    · rintro (_ | _ | _ | ⟨hdest, hcomp, hjump⟩)
      exact ⟨_, hdest, _, hcomp, _, hjump, rfl⟩

/-- The command that a text is written for. -/
def Command.ofText? (text : List Char) : Option Command :=
  (Statement.ofText text).toOption.bind Statement.command?

/-- The command of a text can be computed, and it is the only command that the text is written
for. -/
theorem Command.ofText?_eq_some_iff {text : List Char} {command : Command} :
    ofText? text = some command ↔ Written text command := by
  rw [written_iff, ofText?]
  cases Statement.ofText text with
  | error fault => simp [Except.toOption]
  | ok statement => simp [Except.toOption, Statement.command?_eq_some_iff]

/-- A text that is not accepted stands for some instruction. -/
def Command.ofText (text : List Char) : Command := (ofText? text).getD (.literal 0)

/-- The commands of the statements of a source. -/
def outline (texts : List (List Char)) : List Command := texts.map Command.ofText

theorem Command.Written.ofText_eq {text : List Char} {command : Command}
    (h : Written text command) : ofText text = command := by
  rw [Command.ofText, ofText?_eq_some_iff.mpr h, Option.getD_some]

/-- The outline of accepted statements is the program that they are written for. So at most
one program is written by given texts. -/
theorem outline_eq_of_forall₂ {texts : List (List Char)} {program : List Command}
    (h : List.Forall₂ Command.Written texts program) : outline texts = program := by
  induction h with
  | nil => rfl
  | cons hwritten _ ih => exact congrArg₂ List.cons hwritten.ofText_eq ih

/-- Texts that all have commands are written for the outline, which consists of these
commands. -/
theorem forall₂_written_outline {texts : List (List Char)}
    (h : ∀ text ∈ texts, (Command.ofText? text).isSome = true) :
    List.Forall₂ Command.Written texts (outline texts) := by
  rw [outline, List.forall₂_map_right_iff, List.forall₂_same]
  intro text member
  obtain ⟨command, hcommand⟩ := Option.isSome_iff_exists.mp (h text member)
  have hwritten := Command.ofText?_eq_some_iff.mp hcommand
  rw [hwritten.ofText_eq]
  exact hwritten

end Commands

section Forms

variable {text : List Char}

/-- A text is cut at the first mark, so the mark is not in the part before it. -/
theorem not_mem_of_cut {mark : Char} {before after : List Char}
    (h : cut mark text = some (before, after)) : mark ∉ before := by
  unfold cut at h
  split at h
  case h_1 => cases h
  case h_2 =>
    cases h
    intro member
    simpa using List.mem_takeWhile_imp member

theorem cut_eq_none_iff {mark : Char} : cut mark text = none ↔ mark ∉ text := by
  refine ⟨fun h member => ?_, cut_eq_none⟩
  obtain ⟨before, after, rfl, hbefore⟩ := List.eq_append_cons_of_mem member
  rw [cut_append hbefore] at h
  cases h

/-- A computation is split at its first semicolon, and what is before that at the first
equals sign. -/
structure SplitsInto (text : List Char) (dest? : Option String) (comp : String)
    (jump? : Option String) : Prop where
  fields : text = fieldsText dest? comp jump?
  body : ';' ∉ bodyText dest? comp
  dest : ∀ dest, dest? = some dest → '=' ∉ dest.toList
  comp : dest? = none → '=' ∉ comp.toList

variable {dest? jump? : Option String} {comp : String}

/-- The part of a statement before its jump has a destination if there is a mark for one. The
mark is not in the destination, and without a destination it is not in the computation either.
-/
theorem splitBody_eq_compute_iff {body : List Char} {cut? : Option String} :
    splitBody body cut? = .compute dest? comp jump? ↔ body = bodyText dest? comp ∧ cut? = jump? ∧
      (∀ dest, dest? = some dest → '=' ∉ dest.toList) ∧ (dest? = none → '=' ∉ comp.toList) := by
  constructor
  · intro h
    obtain ⟨hbody, hjump⟩ := splitBody_eq_compute h
    refine ⟨hbody.symm, hjump, ?_⟩
    unfold splitBody at h
    cases hcut : cut '=' body with
    | none =>
      rw [hcut] at h
      cases h
      simpa using cut_eq_none_iff.mp hcut
    | some parts =>
      rw [hcut] at h
      cases h
      simpa using not_mem_of_cut hcut
  · rintro ⟨rfl, rfl, hdest, hcomp⟩
    rw [splitBody, cut_bodyText hdest hcomp]
    cases dest? <;> simp [bodyText]

/-- How the assembler splits a text into fields, described by the fields: they compose the
text, and none of the marks is further to the left than where it was split. -/
theorem splitCompute_eq_compute_iff :
    splitCompute text = .compute dest? comp jump? ↔ SplitsInto text dest? comp jump? := by
  constructor
  · intro h
    have hfields := fieldsText_of_splitCompute h
    rw [splitCompute] at h
    cases hcut : cut ';' text with
    | none =>
      rw [hcut] at h
      obtain ⟨rfl, -, hdest, hcomp⟩ := splitBody_eq_compute_iff.mp h
      exact ⟨hfields.symm, cut_eq_none_iff.mp hcut, hdest, hcomp⟩
    | some parts =>
      rw [hcut] at h
      obtain ⟨hbody, -, hdest, hcomp⟩ := splitBody_eq_compute_iff.mp h
      refine ⟨hfields.symm, ?_, hdest, hcomp⟩
      rw [← hbody]
      exact not_mem_of_cut hcut
  · rintro ⟨rfl, hbody, hdest, hcomp⟩
    exact splitCompute_of_notMem hdest hcomp hbody

/-- The forms of statements: a label in parentheses, an operand after a mark, and for
every other text the fields of a computation. -/
inductive Reads : List Char → Statement → Prop
  | label {name : List Char} : IsName name →
      Reads ('(' :: (name ++ [')'])) (.label (String.ofList name))
  | address {operand : List Char} : operand ≠ [] → Reads ('@' :: operand) (.address operand)
  | compute {text : List Char} {dest? jump? : Option String} {comp : String} :
      text.head? ≠ some '(' → text.head? ≠ some '@' → SplitsInto text dest? comp jump? →
      Reads text (.compute dest? comp jump?)

/-- The texts that have none of these forms. -/
inductive Malformed : List Char → SyntaxFault → Prop
  | unterminatedLabel {rest : List Char} : rest.getLast? ≠ some ')' →
      Malformed ('(' :: rest) (.unterminatedLabel (String.ofList ('(' :: rest)))
  | invalidLabel {name : List Char} : ¬ IsName name →
      Malformed ('(' :: (name ++ [')'])) (.invalidLabel (String.ofList name))
  | missingOperand : Malformed ['@'] .missingOperand

/-- Every text has one of the forms, or it lacks them all for one of the reasons. With the two
lemmas below this determines what the assembler does with every text. -/
theorem malformed_or_reads (text : List Char) :
    (∃ fault, Malformed text fault) ∨ ∃ statement, Reads text statement := by
  by_cases hparen : text.head? = some '('
  · obtain ⟨rest, rfl⟩ := List.head?_eq_some_iff.mp hparen
    by_cases hlast : rest.getLast? = some ')'
    · obtain ⟨name, rfl⟩ := List.getLast?_eq_some_iff.mp hlast
      by_cases hname : IsName name
      · exact .inr ⟨_, .label hname⟩
      · exact .inl ⟨_, .invalidLabel hname⟩
    · exact .inl ⟨_, .unterminatedLabel hlast⟩
  · by_cases hat : text.head? = some '@'
    · obtain ⟨operand, rfl⟩ := List.head?_eq_some_iff.mp hat
      cases operand with
      | nil => exact .inl ⟨_, .missingOperand⟩
      | cons first rest => exact .inr ⟨_, .address (by simp)⟩
    · obtain ⟨dest?, comp, jump?, hsplit⟩ := exists_splitCompute text
      exact .inr ⟨_, .compute hparen hat (splitCompute_eq_compute_iff.mp hsplit)⟩

/-- A text with a form is read as the statement of this form. -/
theorem Reads.ofText_eq {statement : Statement} (h : Reads text statement) :
    Statement.ofText text = .ok statement := by
  cases h with
  | label hname => exact labelOf_eq_ok_iff.mpr ⟨_, hname, rfl, rfl⟩
  | address hnil =>
    obtain ⟨first, rest, rfl⟩ := List.exists_cons_of_ne_nil hnil
    rfl
  | compute hparen hat hform =>
    rw [Statement.ofText_of_head? hparen hat, splitCompute_eq_compute_iff.mpr hform]

/-- A text that lacks every form is refused, and the reason for it is reported. -/
theorem Malformed.ofText_eq {fault : SyntaxFault} (h : Malformed text fault) :
    Statement.ofText text = .error fault := by
  cases h with
  | unterminatedLabel hlast => exact if_pos hlast
  | @invalidLabel name hname =>
    have hsymbol : ¬ isSymbol name = true := (isSymbol_iff name).not.mpr hname
    change labelOf (name ++ [')']) = _
    simp [labelOf, hsymbol]
  | missingOperand => rfl

/-- The statement that is read is the one whose form the text has. One direction is direct,
the other holds as every text is malformed or has a form. -/
theorem ofText_eq_ok_iff {statement : Statement} :
    Statement.ofText text = .ok statement ↔ Reads text statement := by
  refine ⟨fun h => ?_, Reads.ofText_eq⟩
  rcases malformed_or_reads text with ⟨fault, hfault⟩ | ⟨other, hother⟩
  · rw [hfault.ofText_eq] at h
    cases h
  · rw [hother.ofText_eq] at h
    cases h
    exact hother

/-- The reasons for refusing a text are those for which it has no form, and the assembler
reports no other. -/
theorem ofText_eq_error_iff {fault : SyntaxFault} :
    Statement.ofText text = .error fault ↔ Malformed text fault := by
  refine ⟨fun h => ?_, Malformed.ofText_eq⟩
  rcases malformed_or_reads text with ⟨other, hother⟩ | ⟨statement, hstatement⟩
  · rw [hother.ofText_eq] at h
    cases h
    exact hother
  · rw [hstatement.ofText_eq] at h
    cases h

/-- A text has the form of one statement only, since it is read as that statement. -/
theorem Reads.unique {statement other : Statement} (h : Reads text statement)
    (hother : Reads text other) : statement = other := by
  have hsame := h.ofText_eq.symm.trans hother.ofText_eq
  cases hsame
  rfl

/-- The command of a text, if its statement has one. A statement without a meaning is given a
literal in its place, so it still counts as an instruction. -/
theorem Reads.command_eq {statement : Statement} (h : Reads text statement) :
    Command.ofText text = statement.command?.getD (.literal 0) := by
  rw [Command.ofText, Command.ofText?, h.ofText_eq]
  rfl

theorem Reads.command_eq_of_means {statement : Statement} {command : Command}
    (h : Reads text statement) (hmeans : statement.Means command) :
    Command.ofText text = command := by
  rw [h.command_eq, Statement.command?_eq_some_iff.mpr hmeans, Option.getD_some]

/-- Statements that are no labels count as instructions, accepted or not. This is what the
second phase counts, before the third has looked at them. -/
theorem Reads.isInstruction {statement : Statement} (h : Reads text statement)
    (hstatement : ∀ name, statement ≠ .label name) :
    (Command.ofText text).isInstruction = true := by
  rw [h.command_eq]
  cases hcommand : statement.command? with
  | none => rfl
  | some command =>
    have hmeans := Statement.command?_eq_some_iff.mp hcommand
    cases hmeans with
    | label => exact absurd rfl (hstatement _)
    | _ => rfl

end Forms

end NandComputer.Assembly
