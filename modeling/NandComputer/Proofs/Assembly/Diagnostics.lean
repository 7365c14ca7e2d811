import NandComputer.Proofs.Assembly.Phases

/-!
Which line of a source is reported. Statements are numbered by the lines that they stand
on, so the first fault of a phase is the one on the least line, and the reported error
belongs to the first line with a fault of the earliest phase that has any.
-/

namespace NandComputer.Assembly

section Lines

/-- One of the lines has a fault, given the commands of the whole program and those on the
lines before it. Lines are numbered from 1, with or without a statement. -/
def FaultOn (program : List Command) (lines : List (List Char)) (phase : Phase) (line : Nat)
    (error : AssemblyError) : Prop :=
  ∃ before physical after, lines = before ++ physical :: after ∧ line = before.length + 1 ∧
    strippedLine physical ≠ [] ∧
    Fault program (outline (Text.rests strippedLine before)) line (strippedLine physical)
      phase error

/-- A line of a source has a fault. -/
def Offends (source : String) (phase : Phase) (line : Nat) (error : AssemblyError) : Prop :=
  FaultOn (outline (sourceTexts source)) (Text.lines source.toList) phase line error

/-- The first line with a fault of the earliest phase that has any. -/
structure Culprit (source : String) (phase : Phase) (line : Nat) (error : AssemblyError) :
    Prop where
  offends : Offends source phase line error
  first : ∀ other fault, Offends source phase other fault → line ≤ other
  earliest : ∀ earlier other fault, Offends source earlier other fault → phase.rank ≤ earlier.rank

section Faults

variable {program : List Command} {phase : Phase} {line : Nat} {error : AssemblyError}

/-- A fault on one of the first lines of a source is not changed by the lines behind them.
These are only counted to tell on which side a line is. -/
theorem faultOn_append_iff {before rest : List (List Char)} :
    FaultOn program before phase line error ↔
      FaultOn program (before ++ rest) phase line error ∧ line ≤ before.length := by
  constructor
  · rintro ⟨front, physical, after, rfl, rfl, hnil, hfault⟩
    exact ⟨⟨front, physical, after ++ rest, by simp, rfl, hnil, hfault⟩, by simp⟩
  · rintro ⟨⟨front, physical, after, hsplit, rfl, hnil, hfault⟩, hle⟩
    obtain ⟨middle, rfl⟩ : front <+: before :=
      List.prefix_of_prefix_length_le ⟨physical :: after, hsplit.symm⟩ ⟨rest, rfl⟩ (by omega)
    rw [List.append_assoc, List.append_cancel_left_eq] at hsplit
    cases middle with
    | nil => simp at hle
    | cons first middle =>
      cases hsplit
      exact ⟨front, physical, middle, rfl, rfl, hnil, hfault⟩

/-- No statement of the source has a fault of a phase if no line of it has one. Statements
know the lines that they stand on, and a line holds one statement at most. -/
theorem clean_numberedRests_iff {lines : List (List Char)} :
    Clean (FaultBehind program phase) (Text.numberedRests strippedLine lines) ↔
      ∀ line error, ¬ FaultOn program lines phase line error := by
  constructor
  · rintro hclean _ error ⟨before, physical, after, hlines, rfl, hnil, hfault⟩
    obtain ⟨rest, hsplit⟩ := Text.numberedRests_split_iff.mpr
      ⟨before, physical, after, hlines, hnil, rfl, rfl⟩
    refine hclean _ _ rest error hsplit ?_
    rw [FaultBehind, commandsOf, Text.map_snd_numberedRests]
    exact hfault
  · rintro hnone part entry rest error hsplit hfault
    obtain ⟨before, physical, after, hlines, hnil, rfl, rfl⟩ :=
      Text.numberedRests_split_iff.mp ⟨rest, hsplit⟩
    rw [FaultBehind, commandsOf, Text.map_snd_numberedRests] at hfault
    exact hnone _ error ⟨before, physical, after, hlines, rfl, hnil, hfault⟩

/-- The first faulty statement of a phase is the one on the least line with a fault, since
statements are numbered in the order of their lines. -/
theorem firstBad_numberedRests_iff {lines : List (List Char)} :
    FirstBad (FaultBehind program phase) (Text.numberedRests strippedLine lines) error ↔
      ∃ line, FaultOn program lines phase line error ∧
        ∀ other fault, FaultOn program lines phase other fault → line ≤ other := by
  constructor
  · rintro ⟨part, entry, rest, hsplit, hfault, hclean⟩
    obtain ⟨before, physical, after, rfl, hnil, rfl, rfl⟩ :=
      Text.numberedRests_split_iff.mp ⟨rest, hsplit⟩
    rw [FaultBehind, commandsOf, Text.map_snd_numberedRests] at hfault
    refine ⟨_, ⟨before, physical, after, rfl, rfl, hnil, hfault⟩, fun other error hother => ?_⟩
    by_contra hlt
    have hbefore : FaultOn program before phase other error :=
      faultOn_append_iff.mpr ⟨hother, by omega⟩
    exact clean_numberedRests_iff.mp hclean other error hbefore
  · rintro ⟨_, ⟨before, physical, after, rfl, rfl, hnil, hfault⟩, hfirst⟩
    obtain ⟨rest, hsplit⟩ := Text.numberedRests_split_iff.mpr
      ⟨before, physical, after, rfl, hnil, rfl, rfl⟩
    refine ⟨_, _, rest, hsplit, ?_, clean_numberedRests_iff.mpr fun other error hother => ?_⟩
    · rw [FaultBehind, commandsOf, Text.map_snd_numberedRests]
      exact hfault
    · obtain ⟨hwhole, hle⟩ := faultOn_append_iff.mp hother
      exact absurd (hfirst other error hwhole) (by omega)

/-- What is reported for the commands of a source, in the order of its phases, is the fault of
its culprit: the least line with a fault of the earliest phase that has any. -/
theorem reported_iff_culprit {source : String} :
    Reported (outline (sourceTexts source)) (statementTexts source.toList) error ↔
      ∃ phase line, Culprit source phase line error := by
  simp only [Reported, statementTexts_eq_numberedRests, firstBad_numberedRests_iff,
    clean_numberedRests_iff]
  constructor
  · rintro ⟨phase, ⟨line, hoffends, hfirst⟩, hearlier⟩
    refine ⟨phase, line, hoffends, hfirst, fun earlier other fault hother => ?_⟩
    by_contra hlt
    exact hearlier earlier (Nat.not_le.mp hlt) other fault hother
  · rintro ⟨phase, line, hoffends, hfirst, hearliest⟩
    refine ⟨phase, ⟨line, hoffends, hfirst⟩, fun earlier hlt other fault hother => ?_⟩
    exact absurd (hearliest earlier other fault hother) (Nat.not_le.mpr hlt)

end Faults

end Lines

/-- A fault that names a line names its own. Only the size of a program is reported without
any. -/
theorem Fault.line?_eq {program before : List Command} {line : Nat} {text : List Char}
    {phase : Phase} {error : AssemblyError} (h : Fault program before line text phase error) :
    error.line? = some line ∨ error.line? = none := by
  cases h with
  | room => exact .inr rfl
  | operand _ hfault => cases hfault <;> exact .inl rfl
  | fields _ hfault => cases hfault <;> exact .inl rfl
  | _ => exact .inl rfl

/-- An error with a line is reported exactly if this line is the culprit of the source: it has
this fault of some phase, no line before it has a fault of this phase, and no line at all has
a fault of an earlier phase. So a source with several faults has one that is reported, and it
is known which. -/
theorem assemble_eq_error_iff_culprit {source : String} {line : Nat} {error : AssemblyError}
    (hline : error.line? = some line) :
    assemble source = .error error ↔ ∃ phase, Culprit source phase line error := by
  rw [(reports_assemble source).error_iff error, reported_iff_culprit]
  constructor
  · rintro ⟨phase, other, hculprit⟩
    obtain ⟨before, physical, after, -, -, -, hfault⟩ := hculprit.offends
    rcases hfault.line?_eq with hother | hother
    · rw [hline] at hother
      cases hother
      exact ⟨phase, hculprit⟩
    · rw [hline] at hother
      cases hother
  · exact fun ⟨phase, hculprit⟩ => ⟨phase, line, hculprit⟩

/-- An unknown computation, a label twice and an empty operand, one for each phase. -/
def faultySource : String := "D=Q\n\n(A) // a comment\n(A)\n  // and\n@"

/-- The reported fault of this source is the one on its last line. It belongs to the first
phase, and the faults on the lines before it belong to later ones. -/
theorem assemble_eq_error_iff_culprit_faultySource :
    (AssemblyError.malformed 6 .missingOperand).line? = some 6 ∧
      ∃ phase, Culprit faultySource phase 6 (.malformed 6 .missingOperand) := by
  have hline : (AssemblyError.malformed 6 .missingOperand).line? = some 6 := rfl
  have hreported : assemble faultySource = .error (.malformed 6 .missingOperand) := by
    decide
  exact ⟨hline, (assemble_eq_error_iff_culprit hline).mp hreported⟩

end NandComputer.Assembly
