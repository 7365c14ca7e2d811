import Mathlib.Data.List.TakeWhile
import NandComputer.Proofs.Assembly.Grammar

/-!
What a program of commands means as a whole. A symbol has a value wherever its
label is, and a variable gets its address from all uses of variables before it,
so what is added at the end of a program only adds labels and variables to it.
-/

namespace NandComputer.Assembly

namespace Command

def labelName? : Command → Option String
  | .label name => some name
  | _ => none

/-- The symbol that a command uses. -/
def symbol? : Command → Option String
  | .symbol name => some name
  | _ => none

/-- All commands but labels take up a word. -/
def isInstruction : Command → Bool
  | .label _ => false
  | _ => true

end Command

section Meaning

variable (program : List Command)

def labelNames : List String := program.filterMap Command.labelName?

def instructionCount : Nat := program.countP Command.isInstruction

/-- The number of instructions before a label. -/
def labelAddress (name : String) : Nat :=
  instructionCount (program.takeWhile fun command => decide (command ≠ .label name))

/-- Whether a symbol is neither predefined nor a label. -/
def isVariable (name : String) : Bool :=
  (builtinSymbols.lookup name).isNone && decide (name ∉ labelNames program)

/-- The variables of the program that a part of it uses, in the order of first use. -/
def variableNamesIn (part : List Command) : List String :=
  ((part.filterMap Command.symbol?).filter (isVariable program)).eraseDups

/-- The variables of a program, in the order of first use. -/
def variableNames : List String := variableNamesIn program program

/-- The value of a symbol. -/
def symbolValue (name : String) : Nat :=
  match builtinSymbols.lookup name with
  | some value => value.toNat
  | none =>
    if name ∈ labelNames program then labelAddress program name
    else 16 + (variableNames program).idxOf name

/-- The instruction that a command is. -/
def Command.instruction? : Command → Option Instruction
  | .label _ => none
  | .literal value => some (.address (.ofNat 16 value))
  | .symbol name => some (.address (.ofNat 16 (symbolValue program name)))
  | .compute comp dest jump => some (.compute comp dest jump)

/-- The words of some commands of the program. -/
def wordsOf (part : List Command) : List Word :=
  (part.filterMap (Command.instruction? program)).map Instruction.encode

/-- The labels of a program are new, and its instructions find room. -/
structure Placeable : Prop where
  nodup : (labelNames program).Nodup
  fresh : ∀ name ∈ labelNames program, builtinSymbols.lookup name = none
  room : instructionCount program ≤ 32768

/-- A program with a meaning. -/
structure Admissible : Prop extends Placeable program where
  variables_room : (variableNames program).length ≤ 32752

end Meaning

section Labels

variable {program : List Command}

theorem labelNames_append (part rest : List Command) :
    labelNames (part ++ rest) = labelNames part ++ labelNames rest :=
  List.filterMap_append

theorem instructionCount_append (part rest : List Command) :
    instructionCount (part ++ rest) = instructionCount part + instructionCount rest :=
  List.countP_append

/-- The names of the labels of a program are those that it declares. -/
theorem mem_labelNames {name : String} : name ∈ labelNames program ↔ .label name ∈ program := by
  rw [labelNames, List.mem_filterMap]
  constructor
  · rintro ⟨command, member, hname⟩
    cases command <;> cases hname
    exact member
  · exact fun member => ⟨_, member, rfl⟩

/-- What follows a label does not change its address, since the address is the number of
instructions before it. -/
theorem labelAddress_append {part : List Command} {name : String} (rest : List Command)
    (h : name ∈ labelNames part) : labelAddress (part ++ rest) name = labelAddress part name := by
  have hshort : (part.takeWhile fun command => decide (command ≠ .label name)).length ≠
      part.length := by
    intro hlength
    have hall := List.takeWhile_eq_self_iff.mp (List.takeWhile_sublist _ |>.eq_of_length hlength)
    exact absurd (hall _ (mem_labelNames.mp h)) (by simp)
  rw [labelAddress, List.takeWhile_append, if_neg hshort, labelAddress]

/-- A label that is new where it stands has the number of instructions before it as its
address. -/
theorem labelAddress_append_label {part : List Command} {name : String} (rest : List Command)
    (h : name ∉ labelNames part) :
    labelAddress (part ++ .label name :: rest) name = instructionCount part := by
  have hpass : ∀ command ∈ part, decide (command ≠ .label name) = true := by
    intro command member
    rw [decide_eq_true_iff]
    rintro rfl
    exact h (mem_labelNames.mpr member)
  rw [labelAddress, List.takeWhile_append_of_pos hpass]
  simp

theorem labelNames_concat_label (part : List Command) (name : String) :
    labelNames (part ++ [.label name]) = labelNames part ++ [name] :=
  labelNames_append ..

theorem instructionCount_concat_label (part : List Command) (name : String) :
    instructionCount (part ++ [.label name]) = instructionCount part :=
  instructionCount_append ..

/-- A program stays placeable with one more label if the name is neither predefined nor
declared before. -/
theorem placeable_label_iff {part : List Command} (h : Placeable part) (name : String) :
    Placeable (part ++ [.label name]) ↔
      builtinSymbols.lookup name = none ∧ name ∉ labelNames part := by
  constructor
  · rintro ⟨hnodup, hfresh, -⟩
    rw [labelNames_concat_label] at hnodup hfresh
    refine ⟨hfresh name (by simp), fun member => ?_⟩
    exact (List.nodup_append.mp hnodup).2.2 name member name (by simp) rfl
  · rintro ⟨hlookup, hnew⟩
    refine ⟨?_, ?_, (instructionCount_concat_label part name).trans_le h.room⟩
    · rw [labelNames_concat_label, List.nodup_append]
      refine ⟨h.nodup, by simp, fun other member last hlast heq => ?_⟩
      rw [heq, List.mem_singleton.mp hlast] at member
      exact hnew member
    · rw [labelNames_concat_label]
      intro other member
      rcases List.mem_append.mp member with hold | hlast
      · exact h.fresh other hold
      · rwa [List.mem_singleton.mp hlast]

section Instruction

variable {part : List Command} {command : Command} (hcommand : command.isInstruction = true)

include hcommand

theorem labelNames_concat_instruction : labelNames (part ++ [command]) = labelNames part := by
  rw [labelNames_append]
  cases command with
  | label name => cases hcommand
  | _ => exact List.append_nil _

theorem instructionCount_concat_instruction :
    instructionCount (part ++ [command]) = instructionCount part + 1 := by
  rw [instructionCount_append]
  simp [instructionCount, hcommand]

/-- A program stays placeable with one more instruction if there is room for it among the
words of a program. -/
theorem placeable_instruction_iff (h : Placeable part) :
    Placeable (part ++ [command]) ↔ instructionCount part + 1 ≤ 32768 := by
  rw [← instructionCount_concat_instruction hcommand]
  refine ⟨fun hwhole => hwhole.room, fun hroom => ⟨?_, ?_, hroom⟩⟩
  · rw [labelNames_concat_instruction hcommand]
    exact h.nodup
  · rw [labelNames_concat_instruction hcommand]
    exact h.fresh

end Instruction

end Labels

section Variables

variable {program part : List Command}

/-- Uses of symbols later in the program come behind. The variables found so far keep their
places, and so their addresses. -/
theorem exists_variableNamesIn_append (rest : List Command) : ∃ more,
    variableNamesIn program (part ++ rest) = variableNamesIn program part ++ more := by
  rw [variableNamesIn, List.filterMap_append, List.filter_append, List.eraseDups_append]
  exact ⟨_, rfl⟩

/-- Only a variable that is not used before is new at the end of a program, and every other
command leaves the list of variables as it is. -/
theorem variableNamesIn_concat (command : Command) :
    variableNamesIn program (part ++ [command]) = variableNamesIn program part ++
      (command.symbol?.filter fun name =>
        isVariable program name && decide (name ∉ variableNamesIn program part)).toList := by
  simp only [variableNamesIn, List.filterMap_append, List.filter_append, List.eraseDups_append,
    List.mem_eraseDups]
  generalize (part.filterMap Command.symbol?).filter (isVariable program) = used
  congr 1
  cases hsymbol : command.symbol? with
  | none => simp [hsymbol, List.removeAll]
  | some name =>
    cases hname : isVariable program name with
    | false => simp [hsymbol, hname, List.removeAll]
    | true =>
      by_cases hused : name ∈ used
      · simp [hsymbol, hname, hused, List.removeAll]
      · simp [hsymbol, hname, hused, List.removeAll, List.eraseDups_cons, Option.filter_some]

theorem variableNamesIn_concat_new {name : String} (hname : isVariable program name = true)
    (hnew : name ∉ variableNamesIn program part) :
    variableNamesIn program (part ++ [.symbol name]) = variableNamesIn program part ++ [name] := by
  simp [variableNamesIn_concat, Command.symbol?, Option.filter_some, hname, hnew]

theorem variableNamesIn_concat_known {name : String}
    (h : ¬ (isVariable program name = true ∧ name ∉ variableNamesIn program part)) :
    variableNamesIn program (part ++ [.symbol name]) = variableNamesIn program part := by
  rw [variableNamesIn_concat]
  simpa [Command.symbol?, Option.filter_some] using h

/-- The address of a variable is counted at its first use: it is the next one behind the
variables that are used before, whatever follows in the program. -/
theorem symbolValue_of_new {rest : List Command} {name : String}
    (hwhole : program = part ++ .symbol name :: rest) (hname : isVariable program name = true)
    (hnew : name ∉ variableNamesIn program part) :
    symbolValue program name = 16 + (variableNamesIn program part).length := by
  obtain ⟨hlookup, hlabel⟩ : builtinSymbols.lookup name = none ∧ name ∉ labelNames program := by
    simpa [isVariable] using hname
  obtain ⟨more, hmore⟩ : ∃ more, variableNamesIn program ((part ++ [.symbol name]) ++ rest) =
      variableNamesIn program (part ++ [.symbol name]) ++ more := exists_variableNamesIn_append rest
  have hsplit : (part ++ [.symbol name]) ++ rest = program := by simp [hwhole]
  rw [hsplit, variableNamesIn_concat_new hname hnew, ← variableNames] at hmore
  rw [symbolValue, hlookup, hmore]
  simp [hlabel, List.idxOf_append, hnew]

/-- The variables of a part find room in memory. -/
def VariablesFit (program part : List Command) : Prop :=
  (variableNamesIn program part).length ≤ 32752

/-- If the variables of a program find room, those of its first commands do, as these are
among them. -/
theorem variablesFit_of_append {rest : List Command} (h : VariablesFit program (part ++ rest)) :
    VariablesFit program part := by
  obtain ⟨more, hmore⟩ : ∃ more, variableNamesIn program (part ++ rest) =
      variableNamesIn program part ++ more := exists_variableNamesIn_append rest
  rw [VariablesFit, hmore, List.length_append] at h
  exact Nat.le_trans (Nat.le_add_right ..) h

/-- The words of a program are added command by command: a label adds none, and every other
command adds the word of its instruction. -/
theorem wordsOf_concat (command : Command) : wordsOf program (part ++ [command]) =
    wordsOf program part ++ ((command.instruction? program).map Instruction.encode).toList := by
  rw [wordsOf, List.filterMap_append, List.map_append, ← wordsOf]
  cases h : command.instruction? program <;> simp [h]

end Variables

end NandComputer.Assembly
