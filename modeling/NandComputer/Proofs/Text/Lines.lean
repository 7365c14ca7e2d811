import Mathlib.Tactic.Common
import NandComputer.Text.Blank
import NandComputer.Text.Lines

/-!
Splitting a text into lines, what is left on numbered lines, and the characters that
pass through the removal of comments and blanks.
-/

namespace NandComputer.Text

/-- Neither blank nor part of the mark of a comment. -/
def IsPlain (c : Char) : Prop := isBlank c = false ∧ c ≠ '/'

instance : DecidablePred IsPlain := fun c =>
  inferInstanceAs (Decidable (isBlank c = false ∧ c ≠ '/'))

/-- Checks of all characters of a text, one after the other, tell a fact about each of them.
-/
theorem forall_mem_of_all {p : Char → Prop} [DecidablePred p] {text : List Char}
    (h : text.all (fun c => decide (p c)) = true) : ∀ c ∈ text, p c := by
  intro c member
  exact of_decide_eq_true (List.all_eq_true.mp h c member)

theorem IsPlain.ne_newline {c : Char} (h : IsPlain c) : c ≠ '\n' := by
  rintro rfl
  exact absurd h.1 (by decide)

theorem IsPlain.ne_return {c : Char} (h : IsPlain c) : c ≠ '\r' := by
  rintro rfl
  exact absurd h.1 (by decide)

theorem isPlain_of_isDigit {c : Char} (h : c.isDigit) : IsPlain c := by
  have hrange : 48 ≤ c.toNat ∧ c.toNat ≤ 57 := by
    simpa [Char.isDigit, UInt32.le_iff_toNat_le] using h
  constructor
  · simp [isBlank, blankRanges]
    omega
  · rintro rfl
    exact absurd hrange (by decide)

/-- Plain characters are no blanks, so a text of these stays as it is. -/
theorem squeeze_eq_self {text : List Char} (h : ∀ c ∈ text, IsPlain c) : squeeze text = text := by
  apply List.filter_eq_self.mpr
  intro c member
  rw [(h c member).1]
  rfl

theorem squeeze_append (first second : List Char) :
    squeeze (first ++ second) = squeeze first ++ squeeze second :=
  List.filter_append first second

theorem squeeze_cons_of_isBlank {c : Char} (hc : isBlank c = true) (text : List Char) :
    squeeze (c :: text) = squeeze text :=
  List.filter_cons_of_neg (by simp [hc])

theorem squeeze_replicate_space (count : Nat) : squeeze (List.replicate count ' ') = [] := by
  apply List.filter_eq_nil_iff.mpr
  intro c member
  rw [List.eq_of_mem_replicate member]
  decide

section Comment

private theorem beforeSlashes_eq_append (collected text : List Char) :
    beforeSlashes collected text = beforeSlashes [] text ++ collected := by
  induction text generalizing collected with
  | nil => rfl
  | cons c rest ih =>
    by_cases hslashes : c = '/' ∧ ∃ tail, rest = '/' :: tail
    · obtain ⟨rfl, tail, rfl⟩ := hslashes
      rfl
    · have hpass (collected : List Char) :
          beforeSlashes collected (c :: rest) = beforeSlashes (c :: collected) rest := by
        rw [beforeSlashes]
        exact fun tail hc hrest => hslashes ⟨hc, tail, hrest⟩
      rw [hpass, hpass, ih (c :: collected), ih [c], List.append_assoc]
      rfl

theorem beforeComment_slashes (tail : List Char) : beforeComment ('/' :: '/' :: tail) = [] := rfl

/-- A character that does not begin a comment stays, and the comment is looked for behind it.
-/
theorem beforeComment_cons {c : Char} {rest : List Char}
    (h : ¬ (c = '/' ∧ ∃ tail, rest = '/' :: tail)) :
    beforeComment (c :: rest) = c :: beforeComment rest := by
  rw [beforeComment, beforeSlashes, beforeSlashes_eq_append, List.reverse_append]
  · rfl
  · exact fun tail hc hrest => h ⟨hc, tail, hrest⟩

/-- What is left of a line ends at its first two slashes. If there are none, all of it is
left. -/
theorem beforeComment_first (line : List Char) :
    beforeComment line = line ∧ ¬ ['/', '/'] <:+: line ∨
      ∃ tail, line = beforeComment line ++ '/' :: '/' :: tail ∧
        ¬ ['/', '/'] <:+: beforeComment line ++ ['/'] := by
  induction line with
  | nil => exact .inl ⟨rfl, by simp⟩
  | cons c rest ih =>
    by_cases hslashes : c = '/' ∧ ∃ tail, rest = '/' :: tail
    · obtain ⟨rfl, tail, rfl⟩ := hslashes
      exact .inr ⟨tail, rfl, by simp [beforeComment_slashes, List.infix_cons_iff]⟩
    · have hhead (hc : '/' = c) (hrest : ['/'] <+: rest) : False := by
        obtain ⟨tail, htail⟩ := hrest
        exact hslashes ⟨hc.symm, tail, htail.symm⟩
      rw [beforeComment_cons hslashes]
      rcases ih with ⟨hsame, hnone⟩ | ⟨tail, hsplit, hnone⟩
      · refine .inl ⟨by rw [hsame], fun hinfix => ?_⟩
        rcases List.infix_cons_iff.mp hinfix with hstarts | hrest
        · obtain ⟨hc, hstarts⟩ := List.cons_prefix_cons.mp hstarts
          exact hhead hc hstarts
        · exact hnone hrest
      · refine .inr ⟨tail, congrArg (c :: ·) hsplit, fun hinfix => ?_⟩
        rcases List.infix_cons_iff.mp hinfix with hstarts | hrest
        · obtain ⟨hc, hstarts⟩ := List.cons_prefix_cons.mp hstarts
          have hfirst : beforeComment rest ++ ['/'] <+: rest :=
            ⟨'/' :: tail, by simpa using hsplit.symm⟩
          exact hhead hc (hstarts.trans hfirst)
        · exact hnone hrest

section Plain

variable {text : List Char} (h : '/' ∉ text)

include h

theorem beforeComment_append (rest : List Char) :
    beforeComment (text ++ '/' :: '/' :: rest) = text := by
  induction text with
  | nil => rfl
  | cons c text ih =>
    rw [List.mem_cons, not_or] at h
    rw [List.cons_append, beforeComment_cons fun hslash => h.1 hslash.1.symm, ih h.2]

theorem beforeComment_eq_self : beforeComment text = text := by
  induction text with
  | nil => rfl
  | cons c text ih =>
    rw [List.mem_cons, not_or] at h
    rw [beforeComment_cons fun hslash => h.1 hslash.1.symm, ih h.2]

end Plain

/-- What is left of a line has the same characters with a blank in it, unless the blank parts
two slashes. In that case the blank keeps a comment from beginning. -/
theorem squeeze_beforeComment_blank {c : Char} (hc : isBlank c = true) {front back : List Char}
    (h : ¬ (front.getLast? = some '/' ∧ back.head? = some '/')) :
    squeeze (beforeComment (front ++ c :: back)) = squeeze (beforeComment (front ++ back)) := by
  have hslash : c ≠ '/' := by
    rintro rfl
    exact absurd hc (by decide)
  induction front with
  | nil =>
    rw [List.nil_append, List.nil_append, beforeComment_cons fun hstart => hslash hstart.1,
      squeeze_cons_of_isBlank hc]
  | cons a front ih =>
    by_cases hslashes : a = '/' ∧ ∃ tail, front ++ back = '/' :: tail
    · obtain ⟨rfl, tail, htail⟩ := hslashes
      cases front with
      | nil => exact absurd ⟨rfl, by rw [← List.nil_append back, htail]; rfl⟩ h
      | cons b front =>
        cases htail
        rfl
    · have hwith : ¬ (a = '/' ∧ ∃ tail, front ++ c :: back = '/' :: tail) := by
        rintro ⟨ha, tail, htail⟩
        cases front with
        | nil =>
          cases htail
          exact hslash rfl
        | cons b front =>
          cases htail
          exact hslashes ⟨ha, _, rfl⟩
      have hrest : ¬ (front.getLast? = some '/' ∧ back.head? = some '/') := by
        rintro ⟨hlast, hhead⟩
        exact h ⟨by simp [List.getLast?_cons, hlast], hhead⟩
      rw [List.cons_append, List.cons_append, beforeComment_cons hwith,
        beforeComment_cons hslashes, squeeze, squeeze, List.filter_cons, List.filter_cons,
        ← squeeze, ← squeeze, ih hrest]

/-- Nothing behind two slashes matters, wherever in the line the comment begins. -/
theorem beforeComment_append_slashes (front comment : List Char) :
    beforeComment (front ++ '/' :: '/' :: comment) = beforeComment (front ++ ['/', '/']) := by
  induction front with
  | nil => rfl
  | cons a front ih =>
    by_cases hslashes : a = '/' ∧ ∃ tail, front ++ ['/', '/'] = '/' :: tail
    · obtain ⟨rfl, tail, htail⟩ := hslashes
      cases front with
      | nil => rfl
      | cons b front =>
        cases htail
        rfl
    · have hwith : ¬ (a = '/' ∧ ∃ tail, front ++ '/' :: '/' :: comment = '/' :: tail) := by
        rintro ⟨ha, tail, htail⟩
        cases front with
        | nil => exact hslashes ⟨ha, _, rfl⟩
        | cons b front =>
          cases htail
          exact hslashes ⟨ha, _, rfl⟩
      rw [List.cons_append, List.cons_append, beforeComment_cons hwith,
        beforeComment_cons hslashes, ih]

end Comment

section Pieces

/-- A place in a text lies in one line of it, with all the lines before complete. -/
theorem exists_splitOn_before (before : List Char) : ∃ front earlier, front <:+ before ∧
    '\n' ∉ front ∧ ∀ rest, (before ++ rest).splitOn '\n' =
      earlier ++ (front ++ rest).splitOn '\n' := by
  by_cases hfeed : '\n' ∈ before
  · obtain ⟨back, first, hsplit, hback⟩ :=
      List.eq_append_cons_of_mem (List.mem_reverse.mpr hfeed)
    have hbefore : before = first.reverse ++ '\n' :: back.reverse := by
      rw [← List.reverse_reverse before, hsplit]
      simp
    refine ⟨back.reverse, first.reverse.splitOn '\n', ?_, by simpa using hback, fun rest => ?_⟩
    · rw [hbefore]
      exact (List.suffix_cons _ _).trans (List.suffix_append _ _)
    · rw [hbefore, List.append_assoc, List.cons_append, List.splitOn_append_cons_self]
  · exact ⟨before, [], List.suffix_refl before, hfeed, fun rest => rfl⟩

/-- The line of a place goes on up to the next line feed, and the lines behind it do not
depend on what is before the place. -/
theorem exists_splitOn_after (after : List Char) : ∃ back later, back <+: after ∧
    ∀ front, '\n' ∉ front → (front ++ after).splitOn '\n' = (front ++ back) :: later := by
  by_cases hfeed : '\n' ∈ after
  · obtain ⟨back, last, rfl, hback⟩ := List.eq_append_cons_of_mem hfeed
    refine ⟨back, last.splitOn '\n', List.prefix_append _ _, fun front hfront => ?_⟩
    rw [← List.append_assoc, List.splitOn_append_cons_self_of_not_mem]
    simp [hfront, hback]
  · refine ⟨after, [], List.prefix_refl after, fun front hfront => ?_⟩
    exact List.splitOn_eq_singleton (by simp [hfront, hfeed])

/-- What is inserted at a place of a text, without line feeds, changes one line only. -/
theorem exists_splitOn_insert (before after : List Char) :
    ∃ front back earlier later, front <:+ before ∧ back <+: after ∧ ∀ middle, '\n' ∉ middle →
      (before ++ (middle ++ after)).splitOn '\n' =
        earlier ++ (front ++ (middle ++ back)) :: later := by
  obtain ⟨front, earlier, hfront, hfeed, hbefore⟩ := exists_splitOn_before before
  obtain ⟨back, later, hback, hafter⟩ := exists_splitOn_after after
  refine ⟨front, back, earlier, later, hfront, hback, fun middle hmiddle => ?_⟩
  rw [hbefore, ← List.append_assoc front middle, hafter _ (by simp [hfeed, hmiddle]),
    List.append_assoc]

end Pieces

theorem dropReturn_eq_self {line : List Char} (h : line.getLast? ≠ some '\r') :
    dropReturn line = line :=
  if_neg h

theorem dropReturn_concat (line : List Char) : dropReturn (line ++ ['\r']) = line := by
  rw [dropReturn, if_pos List.getLast?_concat, List.dropLast_concat]

section Lines

/-- The first line feed of a text ends its first line, and the other lines are those of the
text behind it. -/
theorem lines_append_feed {line : List Char} (hfeed : '\n' ∉ line) (rest : List Char) :
    lines (line ++ '\n' :: rest) = dropReturn line :: lines rest := by
  have hsplit : (line ++ '\n' :: rest).splitOn '\n' = line :: rest.splitOn '\n' :=
    List.splitOn_append_cons_self_of_not_mem hfeed rest
  have hnil := List.splitOn_ne_nil '\n' rest
  rw [lines, hsplit, lines, List.dropLast_cons_of_ne_nil hnil, List.map_cons,
    List.getLast?_cons_of_ne_nil hnil, List.cons_append]

/-- A text without a line feed is one line, and a carriage return at its end stays. -/
theorem lines_eq_singleton {line : List Char} (hnil : line ≠ []) (hfeed : '\n' ∉ line) :
    lines line = [line] := by
  rw [lines, List.splitOn_eq_singleton hfeed]
  simp [hnil]

variable {texts : List (List Char)} (hfeed : ∀ text ∈ texts, '\n' ∉ text)
  (hreturn : ∀ text ∈ texts, '\r' ∉ text)

theorem getLast?_ne_return {text : List Char} (h : '\r' ∉ text) : text.getLast? ≠ some '\r' :=
  fun hlast => h (List.mem_of_getLast? hlast)

include hfeed hreturn

/-- Texts that each end with a line feed are the lines of the text that they make. -/
theorem lines_flatMap : lines (texts.flatMap (· ++ ['\n'])) = texts := by
  induction texts with
  | nil => rfl
  | cons text rest ih =>
    rw [List.forall_mem_cons] at hfeed hreturn
    rw [List.flatMap_cons, List.append_assoc, List.singleton_append, lines_append_feed hfeed.1,
      dropReturn_eq_self (getLast?_ne_return hreturn.1), ih hfeed.2 hreturn.2]

/-- Texts with line feeds between them are the lines of the text that they make, if none of
them is empty: behind the last line feed there would otherwise be no line. -/
theorem lines_intercalate_of_ne_nil (hfull : ∀ text ∈ texts, text ≠ []) :
    lines (['\n'].intercalate texts) = texts := by
  induction texts with
  | nil => rfl
  | cons text rest ih =>
    rw [List.forall_mem_cons] at hfeed hreturn hfull
    by_cases hnil : rest = []
    · subst hnil
      rw [List.intercalate_singleton, lines_eq_singleton hfull.1 hfeed.1]
    · rw [List.intercalate_cons_of_ne_nil hnil, List.append_assoc, List.singleton_append,
        lines_append_feed hfeed.1, dropReturn_eq_self (getLast?_ne_return hreturn.1),
        ih hfeed.2 hreturn.2 hfull.2]

end Lines

section Numbered

variable {strip : List Char → List Char}

/-- What is left on some lines, without the lines on which there is nothing. -/
def rests (strip : List Char → List Char) (lines : List (List Char)) : List (List Char) :=
  (lines.map strip).filter fun text => !text.isEmpty

/-- What is left on some lines, with the numbers of the lines from 1. -/
def numberedRests (strip : List Char → List Char) (lines : List (List Char)) :
    List (Nat × List Char) :=
  (lines.zipIdx.map fun (line, i) => (i + 1, strip line)).filter fun (_, text) => !text.isEmpty

theorem map_snd_numberedRests (lines : List (List Char)) :
    (numberedRests strip lines).map Prod.snd = rests strip lines := by
  have hlines : lines.zipIdx.map Prod.fst = lines := List.zipIdx_map_fst 0 lines
  rw [rests, ← hlines, List.map_map, List.filter_map, hlines, numberedRests, List.filter_map,
    List.map_map]
  rfl

/-- What is left on a line is that of the line with its number, and what is before it is left
on the lines before. -/
theorem numberedRests_split_iff {lines : List (List Char)} {part : List (Nat × List Char)}
    {entry : Nat × List Char} :
    (∃ rest, numberedRests strip lines = part ++ entry :: rest) ↔
      ∃ before physical after, lines = before ++ physical :: after ∧ strip physical ≠ [] ∧
        entry = (before.length + 1, strip physical) ∧ numberedRests strip before = part := by
  constructor
  · rintro ⟨rest, hsplit⟩
    -- back through the removal of empty texts, the stripping of lines and their numbering
    obtain ⟨front, behind, hall, rfl, hbehind⟩ := List.filter_eq_append_iff.mp hsplit
    obtain ⟨blank, after, rfl, hblank, htext, -⟩ := List.filter_eq_cons_iff.mp hbehind
    rw [← List.append_assoc] at hall
    obtain ⟨numbered, tail, hlines, hfront, htail⟩ := List.map_eq_append_iff.mp hall
    obtain ⟨found, last, rfl, rfl, -⟩ := List.map_eq_cons_iff.mp htail
    obtain ⟨before, rest', rfl, rfl, hrest⟩ := List.zipIdx_eq_append_iff.mp hlines
    obtain ⟨physical, others, rfl, rfl, -⟩ := List.zipIdx_eq_cons_iff.mp hrest.symm
    refine ⟨before, physical, others, rfl, by simpa using htext, by simp, ?_⟩
    rw [numberedRests, hfront, List.filter_append, List.append_right_eq_self]
    exact List.filter_eq_nil_iff.mpr hblank
  · rintro ⟨before, physical, after, rfl, hnil, rfl, rfl⟩
    rw [numberedRests, List.zipIdx_append, List.map_append, List.filter_append, List.zipIdx_cons,
      List.map_cons, List.filter_cons_of_pos (by simpa using hnil), Nat.zero_add]
    exact ⟨_, rfl⟩

end Numbered

end NandComputer.Text
