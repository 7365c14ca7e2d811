import Mathlib.Data.List.TakeWhile
import NandComputer.Proofs.Text.Lines

/-!
The parts of a text, described without the functions that find them: its lines, what
stands on a line before a comment, and what is left of it without white space. Each
description fits exactly one result, the one that its function returns. So a statement
about these parts can be read without knowing how they are found.
-/

namespace NandComputer.Text

/-- The code points with the Unicode property White_Space, one by one. -/
def whiteSpace : List Nat :=
  [0x09, 0x0A, 0x0B, 0x0C, 0x0D, 0x20, 0x85, 0xA0, 0x1680, 0x2000, 0x2001, 0x2002, 0x2003, 0x2004,
    0x2005, 0x2006, 0x2007, 0x2008, 0x2009, 0x200A, 0x2028, 0x2029, 0x202F, 0x205F, 0x3000]

def IsWhite (c : Char) : Prop := c.toNat ∈ whiteSpace

/-- The blank characters are the ones that are white space: their ranges have no other code
points in them, and leave none out. -/
theorem isBlank_iff {c : Char} : isBlank c = true ↔ IsWhite c := by
  simp only [isBlank, blankRanges, IsWhite, whiteSpace, List.any_cons, List.any_nil, Bool.or_false,
    Bool.or_eq_true, Bool.and_eq_true, decide_eq_true_eq, List.mem_cons, List.not_mem_nil, or_false]
  omega

theorem isBlank_eq_false_iff {c : Char} : isBlank c = false ↔ ¬ IsWhite c := by
  rw [← isBlank_iff, Bool.not_eq_true]

section Lines

/-- The lines that a text consists of. A line feed ends a line, and so does a carriage return
with a line feed behind it; they don't belong to the line. Behind the last of them there is
another line only if something is left of the text, and a carriage return in it stays. -/
inductive LinesOf : List Char → List (List Char) → Prop
  | done : LinesOf [] []
  | last {line : List Char} : line ≠ [] → '\n' ∉ line → LinesOf line [line]
  | feed {line rest : List Char} {found : List (List Char)} : '\n' ∉ line →
      line.getLast? ≠ some '\r' → LinesOf rest found →
        LinesOf (line ++ '\n' :: rest) (line :: found)
  | returnFeed {line rest : List Char} {found : List (List Char)} : '\n' ∉ line →
      LinesOf rest found → LinesOf (line ++ '\r' :: '\n' :: rest) (line :: found)

/-- Every text has lines. The induction is on its length, since what is behind the first line
feed is no tail of the text by one constructor. -/
theorem linesOf_lines (text : List Char) : LinesOf text (lines text) := by
  induction hlength : text.length using Nat.strongRecOn generalizing text with
  | ind length ih =>
    by_cases hfeed : '\n' ∈ text
    · obtain ⟨line, rest, rfl, hline⟩ := List.eq_append_cons_of_mem hfeed
      have hrest : LinesOf rest (lines rest) := by
        refine ih rest.length ?_ rest rfl
        rw [← hlength, List.length_append, List.length_cons]
        omega
      rw [lines_append_feed hline]
      by_cases hreturn : line.getLast? = some '\r'
      · obtain ⟨front, rfl⟩ := List.getLast?_eq_some_iff.mp hreturn
        rw [dropReturn_concat, List.append_assoc]
        exact .returnFeed (fun member => hline (List.mem_append_left _ member)) hrest
      · rw [dropReturn_eq_self hreturn]
        exact .feed hline hreturn hrest
    · by_cases hnil : text = []
      · subst hnil
        exact .done
      · rw [lines_eq_singleton hnil hfeed]
        exact .last hnil hfeed

theorem LinesOf.eq_lines {text : List Char} {found : List (List Char)} (h : LinesOf text found) :
    found = lines text := by
  induction h with
  | done => rfl
  | last hnil hfeed => exact (lines_eq_singleton hnil hfeed).symm
  | feed hfeed hreturn _ ih => rw [lines_append_feed hfeed, dropReturn_eq_self hreturn, ih]
  | @returnFeed line rest found hfeed _ ih =>
    have hline : '\n' ∉ line ++ ['\r'] := by simpa using hfeed
    have hlines := lines_append_feed hline rest
    rw [dropReturn_concat, ← ih, List.append_assoc] at hlines
    exact hlines.symm

/-- A text has one list of lines, the one that it is split into. -/
theorem linesOf_iff {text : List Char} {found : List (List Char)} :
    LinesOf text found ↔ found = lines text := by
  constructor
  · exact LinesOf.eq_lines
  · rintro rfl
    exact linesOf_lines text

end Lines

section Comment

/-- What stands on a line before its comment. The comment begins at the first two slashes that
follow each other, so no two slashes do so in what is kept, or with the first slash of the
comment behind it. -/
inductive CutsTo : List Char → List Char → Prop
  | whole {line : List Char} : ¬ ['/', '/'] <:+: line → CutsTo line line
  | comment {kept : List Char} (comment : List Char) : ¬ ['/', '/'] <:+: kept ++ ['/'] →
      CutsTo (kept ++ '/' :: '/' :: comment) kept

theorem cutsTo_beforeComment (line : List Char) : CutsTo line (beforeComment line) := by
  rcases beforeComment_first line with ⟨hsame, hnone⟩ | ⟨comment, hsplit, hnone⟩
  · rw [hsame]
    exact .whole hnone
  · have hcut : CutsTo (beforeComment line ++ '/' :: '/' :: comment) (beforeComment line) :=
      .comment comment hnone
    rwa [← hsplit] at hcut

/-- Where no two slashes follow each other earlier, the text before two slashes is the start
of the text before any two slashes of the line. -/
theorem prefix_of_append_slashes {kept other comment rest : List Char}
    (h : kept ++ '/' :: '/' :: comment = other ++ '/' :: '/' :: rest)
    (hnone : ¬ ['/', '/'] <:+: kept ++ ['/']) : kept <+: other := by
  rcases List.append_eq_append_iff.mp h with ⟨more, rfl, -⟩ | ⟨more, rfl, hrest⟩
  · exact List.prefix_append kept more
  · -- were there more before the slashes of `kept`, it would begin with two slashes itself
    cases more with
    | nil =>
      exact ⟨[], by simp⟩
    | cons c more =>
      exfalso
      apply hnone
      cases more with
      | nil =>
        cases hrest
        exact ⟨other, [], by simp⟩
      | cons d more =>
        cases hrest
        exact ⟨other, more ++ ['/'], by simp⟩

/-- A line is cut at one place: of two places, each would have to be before the other. -/
theorem CutsTo.unique {line kept other : List Char} (h : CutsTo line kept)
    (hother : CutsTo line other) : kept = other := by
  have hslashes (front back : List Char) : ['/', '/'] <:+: front ++ '/' :: '/' :: back :=
    ⟨front, back, by simp⟩
  cases h with
  | whole hnone =>
    cases hother with
    | whole => rfl
    | comment comment => exact absurd (hslashes other comment) hnone
  | comment comment hnone =>
    generalize hline : kept ++ '/' :: '/' :: comment = line at hother
    cases hother with
    | whole hwhole => exact absurd (hline ▸ hslashes kept comment) hwhole
    | comment rest hrest =>
      have hprefix := prefix_of_append_slashes hline hnone
      have hback := prefix_of_append_slashes hline.symm hrest
      exact hprefix.eq_of_length_le hback.length_le

/-- What stands before a comment is what the cut at the first two slashes leaves, and nothing
else fits the description. -/
theorem cutsTo_iff {line kept : List Char} : CutsTo line kept ↔ kept = beforeComment line := by
  constructor
  · exact fun h => h.unique (cutsTo_beforeComment line)
  · rintro rfl
    exact cutsTo_beforeComment line

end Comment

section Squeeze

/-- What is left of a text when its white space is deleted: all other characters, each of them
as often as before and in the same order. -/
inductive Squeezed : List Char → List Char → Prop
  | nil : Squeezed [] []
  | white {c : Char} {text kept : List Char} : IsWhite c → Squeezed text kept →
      Squeezed (c :: text) kept
  | keep {c : Char} {text kept : List Char} : ¬ IsWhite c → Squeezed text kept →
      Squeezed (c :: text) (c :: kept)

theorem squeezed_squeeze (text : List Char) : Squeezed text (squeeze text) := by
  induction text with
  | nil => exact .nil
  | cons c text ih =>
    by_cases hc : IsWhite c
    · rw [squeeze_cons_of_isBlank (isBlank_iff.mpr hc)]
      exact .white hc ih
    · have hkeep : squeeze (c :: text) = c :: squeeze text :=
        List.filter_cons_of_pos (by simp [isBlank_eq_false_iff.mpr hc])
      rw [hkeep]
      exact .keep hc ih

/-- What is left without white space is described by the order of the characters that stay,
and only one text fits. -/
theorem squeezed_iff {text kept : List Char} : Squeezed text kept ↔ kept = squeeze text := by
  constructor
  · intro h
    induction h with
    | nil => rfl
    | white hc _ ih => rw [squeeze_cons_of_isBlank (isBlank_iff.mpr hc), ih]
    | keep hc _ ih =>
      rw [ih, squeeze, squeeze, List.filter_cons_of_pos (by simp [isBlank_eq_false_iff.mpr hc])]
  · rintro rfl
    exact squeezed_squeeze text

end Squeeze

section Trim

/-- What stands between the white space at the two ends of a text. White space inside of it
belongs to it, but not at its own ends. -/
structure TrimsTo (text code : List Char) : Prop where
  split : ∃ left right, text = left ++ (code ++ right) ∧ (∀ c ∈ left, IsWhite c) ∧
    ∀ c ∈ right, IsWhite c
  head : ∀ c, code.head? = some c → ¬ IsWhite c
  last : ∀ c, code.getLast? = some c → ¬ IsWhite c

/-- The characters that are dropped at an end are white, and the next one is not. -/
theorem exists_append_dropWhile (text : List Char) : ∃ left, text = left ++ text.dropWhile isBlank ∧
    (∀ c ∈ left, IsWhite c) ∧ ∀ c, (text.dropWhile isBlank).head? = some c → ¬ IsWhite c := by
  refine ⟨text.takeWhile isBlank, List.takeWhile_append_dropWhile.symm, fun c member => ?_,
    fun c hhead => ?_⟩
  · exact isBlank_iff.mp (List.mem_takeWhile_imp member)
  · have hstop := List.head?_dropWhile_not isBlank text
    rw [hhead] at hstop
    exact isBlank_eq_false_iff.mp (by simpa using hstop)

theorem trimsTo_trim (text : List Char) : TrimsTo text (trim text) := by
  obtain ⟨left, hleft, hwhite, hhead⟩ := exists_append_dropWhile text
  obtain ⟨right, hright, hwhite', hlast⟩ := exists_append_dropWhile (text.dropWhile isBlank).reverse
  have hfront : text.dropWhile isBlank = trim text ++ right.reverse := by
    have hboth := congrArg List.reverse hright
    rwa [List.reverse_reverse, List.reverse_append] at hboth
  refine ⟨⟨left, right.reverse, ?_, hwhite, by simpa using hwhite'⟩, fun c hc => ?_, fun c hc => ?_⟩
  · rw [← hfront]
    exact hleft
  · apply hhead c
    rw [hfront, List.head?_append, hc, Option.some_or]
  · apply hlast c
    rwa [trim, List.getLast?_reverse] at hc

/-- White characters before a text whose first one is not white are what is dropped. -/
theorem dropWhile_isBlank_append {left text : List Char} (hleft : ∀ c ∈ left, IsWhite c)
    (hhead : ∀ c, text.head? = some c → ¬ IsWhite c) :
    (left ++ text).dropWhile isBlank = text := by
  rw [List.dropWhile_append_of_pos fun c member => isBlank_iff.mpr (hleft c member)]
  cases text with
  | nil => rfl
  | cons c rest =>
    have hc := isBlank_eq_false_iff.mpr (hhead c rfl)
    exact List.dropWhile_cons_of_neg (by simp [hc])

theorem TrimsTo.eq_trim {text code : List Char} (h : TrimsTo text code) : code = trim text := by
  obtain ⟨⟨left, right, rfl, hleft, hright⟩, hhead, hlast⟩ := h
  have hwhite : ∀ c ∈ right.reverse, IsWhite c := by simpa using hright
  have hback : (right.reverse ++ code.reverse).dropWhile isBlank = code.reverse := by
    apply dropWhile_isBlank_append hwhite
    simpa using hlast
  by_cases hnil : code = []
  · subst hnil
    have hall : (left ++ right).dropWhile isBlank = [] := by
      rw [List.dropWhile_eq_nil_iff]
      intro c member
      exact isBlank_iff.mpr ((List.mem_append.mp member).elim (hleft c) (hright c))
    rw [List.nil_append, trim, hall]
    rfl
  · have hfront : (left ++ (code ++ right)).dropWhile isBlank = code ++ right := by
      apply dropWhile_isBlank_append hleft
      intro c hc
      obtain ⟨first, rest, rfl⟩ := List.exists_cons_of_ne_nil hnil
      exact hhead c hc
    rw [trim, hfront, List.reverse_append, hback, List.reverse_reverse]

/-- What is left between white space begins and ends with other characters, or is empty, and
only one text fits. -/
theorem trimsTo_iff {text code : List Char} : TrimsTo text code ↔ code = trim text := by
  constructor
  · exact TrimsTo.eq_trim
  · rintro rfl
    exact trimsTo_trim text

theorem trim_eq_self {text : List Char} (h : ∀ c ∈ text, isBlank c = false) : trim text = text := by
  have hwhite (c : Char) (member : c ∈ text) : ¬ IsWhite c := isBlank_eq_false_iff.mp (h c member)
  have htrims : TrimsTo text text :=
    ⟨⟨[], [], by simp⟩, fun c hc => hwhite c (List.mem_of_head? hc),
      fun c hc => hwhite c (List.mem_of_getLast? hc)⟩
  exact htrims.eq_trim.symm

end Trim

end NandComputer.Text
