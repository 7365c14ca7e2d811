import NandComputer.Program
import NandComputer.Proofs.Reports
import NandComputer.Proofs.Text.Layout
import NandComputer.Proofs.Text.Numeral

/-!
Which texts are programs. A line gives a word exactly if the digits of the word are all
that it has between blanks and before its comment, and a line on which nothing is left
gives none. The reader stops at the first other line, before it gets to a numeral that
it could not read. What a program is written as is read back as the program.
-/

namespace NandComputer.Program

section Words

variable {code : List Char}

/-- The text of a word: 16 binary digits. -/
def IsWordText (code : List Char) : Prop := code.length = 16 ∧ ∀ c ∈ code, c = '0' ∨ c = '1'

theorem not_isWordText_iff :
    Text.byteLength code ≠ 16 ∨ (!code.all Text.isBit) = true ↔ ¬ IsWordText code := by
  have hall : code.all Text.isBit = true ↔ ∀ c ∈ code, c = '0' ∨ c = '1' := by
    simp only [List.all_eq_true, Text.isBit_iff]
  rw [Bool.not_eq_true', ← Bool.not_eq_true, ← not_and_or, hall, IsWordText]
  refine not_congr (and_congr_left fun h => ?_)
  rw [Text.byteLength_eq_length h]

theorem readWord_of_not_isWordText (h : ¬ IsWordText code) :
    readWord code = .error (.notDigits (String.ofList code)) := by
  rw [readWord, if_pos (not_isWordText_iff.mpr h)]

/-- Behind the check of the digits there is nothing left to refuse, so the error of a numeral
that does not fit is never seen. -/
theorem IsWordText.exists_word (h : IsWordText code) :
    ∃ word, code = Text.digitsOf word ∧ readWord code = .ok word := by
  have hlt := Text.ofDigitChars_lt h.2
  rw [h.1] at hlt
  have hvalue : Nat.ofDigitChars 2 code 0 < UInt16.size := hlt
  have hnil : code ≠ [] := by
    rintro rfl
    exact absurd h.1 (by decide)
  refine ⟨.ofNat 16 (Nat.ofDigitChars 2 code 0), ?_, ?_⟩
  · rw [Text.eq_digitsOf_iff, BitVec.toNat_ofNat]
    exact ⟨h.1, h.2, (Nat.mod_eq_of_lt hlt).symm⟩
  · rw [readWord, if_neg (not_isWordText_iff.not.mpr (not_not_intro h)),
      Text.readBinary_eq_ok hnil h.2 hvalue]

theorem isWordText_digitsOf (word : Word) : IsWordText (Text.digitsOf word) :=
  (Text.eq_digitsOf_iff.mp rfl).imp_right And.left

end Words

section Lines

/-- What stands on a line before its comment and between blanks. -/
def codeOf (line : List Char) : List Char := Text.trim (Text.beforeComment line)

/-- The code on a line, described apart from the reader: what is left of the line before its
comment and between the white space at the two ends of that. -/
def IsCodeOf (line code : List Char) : Prop :=
  ∃ kept, Text.CutsTo line kept ∧ Text.TrimsTo kept code

theorem isCodeOf_iff {line code : List Char} : IsCodeOf line code ↔ code = codeOf line := by
  simp only [IsCodeOf, Text.cutsTo_iff, Text.trimsTo_iff, exists_eq_left, codeOf]

/-- A line on which there is nothing, or the digits of a word. -/
def IsProgramLine (line : List Char) : Prop := codeOf line = [] ∨ IsWordText (codeOf line)

/-- What stands on the lines of a text that are not empty. -/
def codes (text : String) : List (List Char) := Text.rests codeOf (Text.lines text.toList)

def numberedCodes (text : String) : List (Nat × List Char) :=
  Text.numberedRests codeOf (Text.lines text.toList)

def readEntry (entry : Nat × List Char) : Except ProgramError Word :=
  (readWord entry.2).mapError (ProgramError.mk entry.1)

theorem parse_eq_mapM (text : String) : parse text = (numberedCodes text).mapM readEntry := by
  rw [parse, Text.numberedLines, List.map_map]
  rfl

/-- Whether an entry is refused does not depend on the ones before it. -/
def Refused (_part : List (Nat × List Char)) (entry : Nat × List Char) (error : ProgramError) :
    Prop :=
  ¬ IsWordText entry.2 ∧ error = ⟨entry.1, .notDigits (String.ofList entry.2)⟩

def IsDigitsOf (word : Word) (entry : Nat × List Char) : Prop := entry.2 = Text.digitsOf word

theorem reports_readEntry (part : List (Nat × List Char)) (entry : Nat × List Char) :
    Reports (readEntry entry) (Refused part entry) fun word => IsDigitsOf word entry := by
  by_cases hcode : IsWordText entry.2
  · obtain ⟨word, hdigits, hread⟩ := hcode.exists_word
    rw [readEntry, hread]
    refine ⟨fun error => iff_of_false (by simp [Except.mapError]) fun h => h.1 hcode, ?_⟩
    rintro _ ⟨⟩
    exact hdigits
  · rw [readEntry, readWord_of_not_isWordText hcode]
    refine ⟨fun error => ?_, fun word hword => by cases hword⟩
    rw [Except.mapError, Except.error.injEq, Refused, and_iff_right hcode, eq_comm]

/-- The reader stops at the first line that is no program line. If there is none, it has a
word for each line on which something is left. -/
theorem reports_parse (text : String) :
    Reports (parse text) (FirstBad Refused (numberedCodes text)) fun words =>
      List.Forall₂ IsDigitsOf words (numberedCodes text) ∧ Clean Refused (numberedCodes text) := by
  rw [parse_eq_mapM]
  exact reports_mapM IsDigitsOf reports_readEntry (numberedCodes text)

section Numbered

variable {lines : List (List Char)}

theorem clean_numberedRests_iff :
    Clean Refused (Text.numberedRests codeOf lines) ↔ ∀ line ∈ lines, IsProgramLine line := by
  constructor
  · intro hclean line member
    by_contra hline
    rw [IsProgramLine, not_or] at hline
    obtain ⟨before, after, rfl⟩ := List.append_of_mem member
    obtain ⟨rest, hsplit⟩ := Text.numberedRests_split_iff.mpr
      ⟨before, line, after, rfl, hline.1, rfl, rfl⟩
    exact hclean _ _ rest _ hsplit ⟨hline.2, rfl⟩
  · rintro hlines part entry rest error hsplit ⟨hcode, -⟩
    obtain ⟨before, line, after, rfl, hnil, rfl, -⟩ :=
      Text.numberedRests_split_iff.mp ⟨rest, hsplit⟩
    exact absurd (hlines line (by simp)) (not_or.mpr ⟨hnil, hcode⟩)

theorem firstBad_numberedRests_iff {error : ProgramError} :
    FirstBad Refused (Text.numberedRests codeOf lines) error ↔
      ∃ before line after, lines = before ++ line :: after ∧
        (∀ earlier ∈ before, IsProgramLine earlier) ∧ ¬ IsProgramLine line ∧
        error = ⟨before.length + 1, .notDigits (String.ofList (codeOf line))⟩ := by
  constructor
  · rintro ⟨part, entry, rest, hsplit, ⟨hcode, rfl⟩, hclean⟩
    obtain ⟨before, line, after, rfl, hnil, rfl, rfl⟩ :=
      Text.numberedRests_split_iff.mp ⟨rest, hsplit⟩
    exact ⟨before, line, after, rfl, clean_numberedRests_iff.mp hclean,
      not_or.mpr ⟨hnil, hcode⟩, rfl⟩
  · rintro ⟨before, line, after, rfl, hbefore, hline, rfl⟩
    rw [IsProgramLine, not_or] at hline
    obtain ⟨rest, hsplit⟩ := Text.numberedRests_split_iff.mpr
      ⟨before, line, after, rfl, hline.1, rfl, rfl⟩
    exact ⟨_, _, rest, hsplit, ⟨hline.2, rfl⟩, clean_numberedRests_iff.mpr hbefore⟩

end Numbered

variable {text : String}

/-- A text is refused for its first line that is no program line, with the number of this line
and with what is left on it. -/
theorem parse_eq_error_iff {error : ProgramError} : parse text = .error error ↔
    ∃ before line after, Text.lines text.toList = before ++ line :: after ∧
      (∀ earlier ∈ before, IsProgramLine earlier) ∧ ¬ IsProgramLine line ∧
      error = ⟨before.length + 1, .notDigits (String.ofList (codeOf line))⟩ :=
  ((reports_parse text).error_iff error).trans firstBad_numberedRests_iff

/-- A text is read as a program exactly if all its lines are program lines. -/
theorem exists_parse_eq_ok_iff : (∃ words, parse text = .ok words) ↔
    ∀ line ∈ Text.lines text.toList, IsProgramLine line := by
  constructor
  · rintro ⟨words, hwords⟩
    exact clean_numberedRests_iff.mp ((reports_parse text).of_ok words hwords).2
  · intro hlines
    cases hresult : parse text with
    | ok words => exact ⟨words, rfl⟩
    | error error =>
      obtain ⟨before, line, after, hsplit, -, hline, -⟩ := parse_eq_error_iff.mp hresult
      exact absurd (hlines line (by simp [hsplit])) hline

theorem map_snd_eq_map_digitsOf {words : List Word} {entries : List (Nat × List Char)}
    (h : List.Forall₂ IsDigitsOf words entries) :
    entries.map Prod.snd = words.map Text.digitsOf := by
  induction h with
  | nil => rfl
  | cons hentry _ ih => rw [List.map_cons, List.map_cons, hentry, ih]

theorem codes_of_parse {words : List Word} (h : parse text = .ok words) :
    codes text = words.map Text.digitsOf := by
  rw [codes, ← Text.map_snd_numberedRests]
  exact map_snd_eq_map_digitsOf ((reports_parse text).of_ok words h).1

/-- The words are those whose digits stand on the lines, in their order. -/
theorem parse_eq_ok_iff {words : List Word} :
    parse text = .ok words ↔ codes text = words.map Text.digitsOf := by
  constructor
  · exact codes_of_parse
  · intro hcodes
    have hlines : ∀ line ∈ Text.lines text.toList, IsProgramLine line := by
      intro line member
      by_cases hnil : codeOf line = []
      · exact .inl hnil
      · have hcode : codeOf line ∈ codes text :=
          List.mem_filter.mpr ⟨List.mem_map_of_mem member, by simpa using hnil⟩
        rw [hcodes] at hcode
        obtain ⟨word, -, hword⟩ := List.mem_map.mp hcode
        exact .inr (hword ▸ isWordText_digitsOf word)
    obtain ⟨found, hfound⟩ := exists_parse_eq_ok_iff.mpr hlines
    have hsame := (codes_of_parse hfound).symm.trans hcodes
    rw [hfound, List.map_injective_iff.mpr (fun _ _ h => Text.digitsOf_injective h) hsame]

end Lines

section Render

variable (words : List Word)

theorem isPlain_of_mem_digitsOf {word : Word} {c : Char} (h : c ∈ Text.digitsOf word) :
    Text.IsPlain c :=
  Text.isPlain_of_isDigit
    (Text.isDigit_of_isBit (Text.isBit_iff.mpr ((isWordText_digitsOf word).2 c h)))

/-- Nothing is cut off from a line with the digits of a word. -/
theorem codeOf_digitsOf (word : Word) : codeOf (Text.digitsOf word) = Text.digitsOf word := by
  have hslash : '/' ∉ Text.digitsOf word := fun h => (isPlain_of_mem_digitsOf h).2 rfl
  rw [codeOf, Text.beforeComment_eq_self hslash,
    Text.trim_eq_self fun c h => (isPlain_of_mem_digitsOf h).1]

theorem digitsOf_ne_nil (word : Word) : Text.digitsOf word ≠ [] := by
  intro h
  have hlength := (isWordText_digitsOf word).1
  rw [h] at hlength
  exact absurd hlength (by decide)

theorem toList_render :
    (render words).toList = (words.map Text.digitsOf).flatMap (· ++ ['\n']) := by
  induction words with
  | nil => rfl
  | cons word rest ih =>
    rw [render, List.map_cons, String.join_cons, String.toList_append, ← render, ih]
    simp [renderWord, Text.binary_eq_digitsOf]

/-- The lines of a written program are the digits of its words, without an empty one at the
end. -/
theorem lines_render : Text.lines (render words).toList = words.map Text.digitsOf := by
  have hplain : ∀ text ∈ words.map Text.digitsOf, ∀ c ∈ text, Text.IsPlain c := by
    intro text member c hc
    obtain ⟨word, -, rfl⟩ := List.mem_map.mp member
    exact isPlain_of_mem_digitsOf hc
  rw [toList_render, Text.lines_flatMap]
  · exact fun text member hc => (hplain text member _ hc).ne_newline rfl
  · exact fun text member hc => (hplain text member _ hc).ne_return rfl

theorem codes_render : codes (render words) = words.map Text.digitsOf := by
  have hmap : (words.map Text.digitsOf).map codeOf = words.map Text.digitsOf := by
    rw [List.map_map]
    exact List.map_congr_left fun word _ => codeOf_digitsOf word
  rw [codes, lines_render, Text.rests, hmap, List.filter_eq_self]
  intro code member
  obtain ⟨word, -, rfl⟩ := List.mem_map.mp member
  simpa using digitsOf_ne_nil word

theorem parse_render : parse (render words) = .ok words :=
  parse_eq_ok_iff.mpr (codes_render words)

end Render

/-- A text is a program exactly if all its lines are program lines. The lines are the ones that
the text consists of, and the code of a line is what stands on it before its comment and
between white space. The words are then those whose digits stand on the lines, and otherwise
the first line that is no program line is reported with what stands there, never as a numeral
that cannot be read. Rendered words are read back, so what is rendered from a program that was
read is what is read and rendered again. -/
theorem parse_reads_lines (text : String) :
    (∀ lines, Text.LinesOf text.toList lines ↔ lines = Text.lines text.toList) ∧
    (∀ line code, IsCodeOf line code ↔ code = codeOf line) ∧
    ((∃ words, parse text = .ok words) ↔
      ∀ line ∈ Text.lines text.toList, IsProgramLine line) ∧
    (∀ words, parse text = .ok words ↔ codes text = words.map Text.digitsOf) ∧
    (∀ error, parse text = .error error ↔
      ∃ before line after, Text.lines text.toList = before ++ line :: after ∧
        (∀ earlier ∈ before, IsProgramLine earlier) ∧ ¬ IsProgramLine line ∧
        error = ⟨before.length + 1, .notDigits (String.ofList (codeOf line))⟩) ∧
    (∀ line fault, parse text ≠ .error ⟨line, .unreadable fault⟩) ∧
    (∀ words, parse (render words) = .ok words) ∧
    ∀ words, parse text = .ok words →
      (parse (render words)).map render = .ok (render words) := by
  refine ⟨fun lines => Text.linesOf_iff, fun line code => isCodeOf_iff, exists_parse_eq_ok_iff,
    fun words => parse_eq_ok_iff, fun error => parse_eq_error_iff, fun line fault h => ?_,
    parse_render, fun words _ => ?_⟩
  · obtain ⟨before, culprit, after, -, -, -, herror⟩ := parse_eq_error_iff.mp h
    cases herror
  · rw [parse_render]
    rfl

/-- A word between blanks, in front of a comment and at a carriage return, is read. A numeral
with a sign could be read, but it is refused before. -/
example : parse "\t0000000000000101 // five\r\n\n0000000000000110\r\n" = .ok [5, 6] ∧
    parse "0000000000000101\n\n+000000000000101" = .error ⟨3, .notDigits "+000000000000101"⟩ ∧
    Text.readBinary UInt16.size "+000000000000101".toList = .ok 5 := by
  decide

end NandComputer.Program
