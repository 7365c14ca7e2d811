import NandComputer.Assembly.Statement
import NandComputer.Proofs.Text.Layout

/-!
The statements of a source, described apart from the assembler: which lines a source has,
what a line holds without its comment and its white space, and which lines are left out
because they hold nothing. The assembler sees exactly the texts that are described.
-/

namespace NandComputer.Assembly

/-- What is left of a line without its comment and its blanks. -/
def strippedLine (line : List Char) : List Char := Text.squeeze (Text.beforeComment line)

/-- The statements of a source: lines without comments and blanks, as far as
anything is left of them. -/
def sourceTexts (source : String) : List (List Char) :=
  Text.rests strippedLine (Text.lines source.toList)

/-- The assembler numbers what is left of each line without its comment and its white space,
and leaves out the lines that hold nothing. -/
theorem statementTexts_eq_numberedRests (source : List Char) :
    statementTexts source = Text.numberedRests strippedLine (Text.lines source) := by
  rw [statementTexts, Text.numberedLines, List.map_map]
  rfl

/-- The texts of the statements of a source, without the numbers of the lines that they stand
on. -/
theorem map_snd_statementTexts (source : String) :
    (statementTexts source.toList).map Prod.snd = sourceTexts source := by
  rw [statementTexts_eq_numberedRests, Text.map_snd_numberedRests, sourceTexts]

/-- The text that a line holds: it is cut where its comment begins, and its white space is
deleted from what is before. -/
def Holds (line text : List Char) : Prop := ∃ kept, Text.CutsTo line kept ∧ Text.Squeezed kept text

/-- The statements on some lines, in their order. A line that holds nothing has none. -/
inductive StatedOn : List (List Char) → List (List Char) → Prop
  | done : StatedOn [] []
  | blank {line : List Char} {lines texts : List (List Char)} : Holds line [] →
      StatedOn lines texts → StatedOn (line :: lines) texts
  | statement {line text : List Char} {lines texts : List (List Char)} : Holds line text →
      text ≠ [] → StatedOn lines texts → StatedOn (line :: lines) (text :: texts)

/-- How a source is laid out: it consists of lines, and the texts are the statements on them. -/
def LaidOut (source : String) (texts : List (List Char)) : Prop :=
  ∃ lines, Text.LinesOf source.toList lines ∧ StatedOn lines texts

/-- A line holds exactly what the assembler finds on it. The comment and the white space are
described by themselves, and each description fits one text only. -/
theorem holds_iff {line text : List Char} : Holds line text ↔ text = strippedLine line := by
  simp only [Holds, Text.cutsTo_iff, Text.squeezed_iff, exists_eq_left, strippedLine]

theorem rests_cons_of_eq_nil {line : List Char} (h : strippedLine line = [])
    (lines : List (List Char)) :
    Text.rests strippedLine (line :: lines) = Text.rests strippedLine lines := by
  rw [Text.rests, List.map_cons, List.filter_cons_of_neg (by simp [h]), Text.rests]

theorem rests_cons_of_ne_nil {line : List Char} (h : strippedLine line ≠ [])
    (lines : List (List Char)) :
    Text.rests strippedLine (line :: lines) =
      strippedLine line :: Text.rests strippedLine lines := by
  rw [Text.rests, List.map_cons, List.filter_cons_of_pos (by simpa using h), Text.rests]

/-- The texts that are stated on lines are those that the assembler finds on them, in the
order of the lines. -/
theorem statedOn_iff {lines texts : List (List Char)} :
    StatedOn lines texts ↔ texts = Text.rests strippedLine lines := by
  constructor
  · intro h
    induction h with
    | done => rfl
    | blank hholds _ ih => rw [rests_cons_of_eq_nil (holds_iff.mp hholds).symm, ih]
    | statement hholds hnil _ ih =>
      have hstripped := holds_iff.mp hholds
      rw [rests_cons_of_ne_nil (hstripped ▸ hnil), ← hstripped, ih]
  · rintro rfl
    induction lines with
    | nil => exact .done
    | cons line lines ih =>
      by_cases hnil : strippedLine line = []
      · rw [rests_cons_of_eq_nil hnil]
        exact .blank (holds_iff.mpr hnil.symm) ih
      · rw [rests_cons_of_ne_nil hnil]
        exact .statement (holds_iff.mpr rfl) hnil ih

/-- The texts that a source is laid out with are the ones that the assembler finds in it. So
there is exactly one layout for every source, and it is described without the assembler. -/
theorem laidOut_iff {source : String} {texts : List (List Char)} :
    LaidOut source texts ↔ texts = sourceTexts source := by
  simp only [LaidOut, Text.linesOf_iff, statedOn_iff, exists_eq_left, sourceTexts]

end NandComputer.Assembly
