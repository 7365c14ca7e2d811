import Mathlib.Logic.Relation
import NandComputer.Proofs.Assembly.Diagnostics

/-!
Blanks and comments mean nothing. What the assembler sees of a source are its lines without
comments and blanks, and their numbers. A blank anywhere but between two slashes leaves these
as they are, and so does another comment, so the words stay the same, or the error with its
line and its texts.
-/

namespace NandComputer.Assembly

/-- A source with one more blank, or with another text behind two slashes. The blank does not
part two slashes that follow each other, and no line is begun or joined to another. -/
inductive Respaced : List Char → List Char → Prop
  | blank (before after : List Char) (c : Char) : Text.isBlank c = true → c ≠ '\n' →
      ¬ (before.getLast? = some '/' ∧ after.head? = some '/') →
      Respaced (before ++ after) (before ++ c :: after)
  | comment (before comment other after : List Char) : '\n' ∉ comment → '\n' ∉ other →
      Respaced (before ++ '/' :: '/' :: (comment ++ after))
        (before ++ '/' :: '/' :: (other ++ after))

section Lines

/-- A carriage return at the end of a line is a blank, so it makes no difference whether it
counts as part of the line. -/
theorem strippedLine_dropReturn (line : List Char) :
    strippedLine (Text.dropReturn line) = strippedLine line := by
  by_cases hreturn : line.getLast? = some '\r'
  · obtain ⟨text, rfl⟩ := List.getLast?_eq_some_iff.mp hreturn
    have hblank : strippedLine (text ++ ['\r']) = strippedLine (text ++ []) :=
      Text.squeeze_beforeComment_blank (by decide) (by simp)
    rw [Text.dropReturn, if_pos hreturn, List.dropLast_concat, hblank, List.append_nil]
  · rw [Text.dropReturn_eq_self hreturn]

/-- The numbered statements depend on what is left of the lines only, since that is what is
numbered. -/
theorem numberedRests_congr {lines others : List (List Char)}
    (h : lines.map strippedLine = others.map strippedLine) :
    Text.numberedRests strippedLine lines = Text.numberedRests strippedLine others := by
  have hnumbered (lines : List (List Char)) : Text.numberedRests strippedLine lines =
      ((lines.map strippedLine).zipIdx.map fun entry => (entry.2 + 1, entry.1)).filter
        fun entry => !entry.2.isEmpty := by
    rw [List.zipIdx_map, List.map_map]
    rfl
  rw [hnumbered, hnumbered, h]

/-- An empty line at the end holds no statement, and the numbers of the others are counted
from the start. -/
theorem numberedRests_concat_nil (lines : List (List Char)) :
    Text.numberedRests strippedLine (lines ++ [[]]) = Text.numberedRests strippedLine lines := by
  rw [Text.numberedRests, List.zipIdx_append, List.map_append, List.filter_append]
  exact List.append_nil _

/-- Carriage returns and an empty last line make no difference. So for the statements the
lines of a source may be taken as the texts between its line feeds. -/
theorem numberedRests_lines (source : List Char) :
    Text.numberedRests strippedLine (Text.lines source) =
      Text.numberedRests strippedLine (source.splitOn '\n') := by
  have hnil : source.splitOn '\n' ≠ [] := List.splitOn_ne_nil '\n' source
  have hpieces := List.dropLast_concat_getLast hnil
  have hstripped (pieces : List (List Char)) :
      (pieces.map Text.dropReturn).map strippedLine = pieces.map strippedLine := by
    rw [List.map_map]
    exact List.map_congr_left fun line _ => strippedLine_dropReturn line
  rw [Text.lines, List.getLast?_eq_some_getLast hnil]
  generalize (source.splitOn '\n').dropLast = front at hpieces ⊢
  generalize (source.splitOn '\n').getLast hnil = last at hpieces ⊢
  rw [← hpieces]
  by_cases hlast : last = []
  · rw [hlast, numberedRests_concat_nil]
    exact numberedRests_congr (by simpa using hstripped front)
  · exact numberedRests_congr (by simpa [hlast] using hstripped front)

/-- The statements of a source depend on what is left of the texts between its line feeds, on
nothing else. -/
theorem statementTexts_congr {source other : List Char}
    (h : (source.splitOn '\n').map strippedLine = (other.splitOn '\n').map strippedLine) :
    statementTexts source = statementTexts other := by
  rw [statementTexts_eq_numberedRests, statementTexts_eq_numberedRests, numberedRests_lines,
    numberedRests_lines, numberedRests_congr h]

end Lines

section Sources

/-- One change touches one line, and nothing that is left of it. A blank within a comment is
in the dropped part, and one outside is squeezed out. -/
theorem Respaced.statementTexts_eq {source other : List Char} (h : Respaced source other) :
    statementTexts source = statementTexts other := by
  apply statementTexts_congr
  cases h with
  | blank before after c hblank hfeed hslashes =>
    obtain ⟨front, back, earlier, later, hfront, hback, hsplit⟩ :=
      Text.exists_splitOn_insert before after
    have hwithout := hsplit [] List.not_mem_nil
    have hwith := hsplit [c] (by simpa using hfeed.symm)
    have hparted : ¬ (front.getLast? = some '/' ∧ back.head? = some '/') := by
      obtain ⟨start, rfl⟩ := hfront
      obtain ⟨stop, rfl⟩ := hback
      rintro ⟨hlast, hhead⟩
      exact hslashes ⟨by simp [List.getLast?_append, hlast], by simp [List.head?_append, hhead]⟩
    have hline : strippedLine (front ++ back) = strippedLine (front ++ c :: back) :=
      (Text.squeeze_beforeComment_blank hblank hparted).symm
    simp only [List.nil_append, List.singleton_append] at hwithout hwith
    rw [hwithout, hwith, List.map_append, List.map_append, List.map_cons, List.map_cons, hline]
  | comment before comment other after hcomment hother =>
    obtain ⟨front, back, earlier, later, -, -, hsplit⟩ := Text.exists_splitOn_insert before after
    have hline (text : List Char) : strippedLine (front ++ ('/' :: '/' :: text ++ back)) =
        strippedLine (front ++ ['/', '/']) :=
      congrArg Text.squeeze (Text.beforeComment_append_slashes front (text ++ back))
    have hpieces (text : List Char) (htext : '\n' ∉ text) :
        ((before ++ '/' :: '/' :: (text ++ after)).splitOn '\n').map strippedLine =
          earlier.map strippedLine ++ strippedLine (front ++ ['/', '/']) ::
            later.map strippedLine := by
      have htext := hsplit ('/' :: '/' :: text) (by simpa using htext)
      rw [List.cons_append, List.cons_append] at htext
      rw [htext, List.map_append, List.map_cons, hline]
    rw [hpieces comment hcomment, hpieces other hother]

/-- Any number of changes, to and fro, leave the statements and their lines as they are. -/
theorem statementTexts_eq_of_respaced {source other : List Char}
    (h : Relation.EqvGen Respaced source other) : statementTexts source = statementTexts other := by
  induction h with
  | rel source other h => exact h.statementTexts_eq
  | refl source => rfl
  | symm source other _ ih => exact ih.symm
  | trans source middle other _ _ ihsource ihother => exact ihsource.trans ihother

/-- Sources that differ in blanks and comments have the same words, or the same error with the
same line and text. They may differ in any number of places, and lines may end in either way.
-/
theorem assemble_eq_of_respaced {source other : String}
    (h : Relation.EqvGen Respaced source.toList other.toList) :
    assemble source = assemble other := by
  have htexts := statementTexts_eq_of_respaced h
  rw [assemble, assemble, statements, statements, htexts]

/-- A jump with a blank in its mnemonic and a malformed operand behind a comment, and the
same without the blank, with another comment and with a carriage return. -/
theorem assemble_eq_of_respaced_operand :
    Relation.EqvGen Respaced "D;J MP//x\n@10x".toList "D;JMP//other\r\n@10x".toList ∧
      assemble "D;J MP//x\n@10x" = assemble "D;JMP//other\r\n@10x" ∧
      assemble "D;JMP//other\r\n@10x" = .error (.malformed 2 (.invalidNumber "10x")) := by
  have hspace : Respaced "D;JMP//x\n@10x".toList "D;J MP//x\n@10x".toList :=
    .blank "D;J".toList "MP//x\n@10x".toList ' ' (by decide) (by decide) (by decide)
  have hcomment : Respaced "D;JMP//x\n@10x".toList "D;JMP//other\n@10x".toList :=
    .comment "D;JMP".toList ['x'] "other".toList "\n@10x".toList (by decide) (by decide)
  have hreturn : Respaced "D;JMP//other\n@10x".toList "D;JMP//other\r\n@10x".toList :=
    .blank "D;JMP//other".toList "\n@10x".toList '\r' (by decide) (by decide) (by decide)
  have hsame : Relation.EqvGen Respaced "D;J MP//x\n@10x".toList "D;JMP//other\r\n@10x".toList :=
    (Relation.EqvGen.rel _ _ hspace).symm.trans _ _ _
      ((Relation.EqvGen.rel _ _ hcomment).trans _ _ _ (.rel _ _ hreturn))
  exact ⟨hsame, assemble_eq_of_respaced hsame, by decide⟩

end Sources

end NandComputer.Assembly
