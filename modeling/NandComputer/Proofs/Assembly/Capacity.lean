import NandComputer.Computer
import NandComputer.Proofs.Assembly.Operands

/-!
Sources with more instructions than a program can have. The second phase counts
instructions only up to the first one without room, so whatever a source needs beyond that
is not in its error. A computer that is given so many words reports their number.
-/

namespace NandComputer.Assembly

/-- All statements of a source have a form, and its labels are new. -/
structure WellLabelled (source : String) : Prop where
  forms : ∀ text ∈ sourceTexts source, ∃ statement, Statement.ofText text = .ok statement
  nodup : (labelNames (outline (sourceTexts source))).Nodup
  fresh : ∀ name ∈ labelNames (outline (sourceTexts source)), builtinSymbols.lookup name = none

/-- Where the number of hits in a list passes a bound, there is a hit with exactly as many
hits before it as the bound says. -/
theorem exists_append_cons_of_lt_countP {α : Type} {p : α → Bool} {items : List α} {bound : Nat}
    (h : bound < items.countP p) : ∃ part item rest, items = part ++ item :: rest ∧
      p item = true ∧ part.countP p = bound := by
  induction items generalizing bound with
  | nil => cases h
  | cons first items ih =>
    by_cases hfirst : p first = true
    · rw [List.countP_cons_of_pos hfirst] at h
      cases bound with
      | zero => exact ⟨[], first, items, rfl, hfirst, rfl⟩
      | succ bound =>
        obtain ⟨part, item, rest, rfl, hitem, hcount⟩ := ih (Nat.lt_of_succ_lt_succ h)
        exact ⟨first :: part, item, rest, rfl, hitem,
          by rw [List.countP_cons_of_pos hfirst, hcount]⟩
    · rw [List.countP_cons_of_neg hfirst] at h
      obtain ⟨part, item, rest, rfl, hitem, hcount⟩ := ih h
      exact ⟨first :: part, item, rest, rfl, hitem, by rw [List.countP_cons_of_neg hfirst, hcount]⟩

section Entries

variable {program : List Command} {entries : List (Nat × List Char)}

/-- The instructions of a program that is read off numbered texts are counted on these texts,
so their lines do not matter. -/
theorem instructionCount_commandsOf (entries : List (Nat × List Char)) :
    instructionCount (commandsOf entries) =
      entries.countP fun entry => (Command.ofText entry.2).isInstruction := by
  rw [instructionCount, commandsOf, outline, List.countP_map, List.countP_map]
  rfl

/-- A statement that reads as a label is no instruction, so an instruction is never the
statement that declares a name. -/
theorem Reads.ne_label {text : List Char} {statement : Statement} (h : Reads text statement)
    (hcommand : (Command.ofText text).isInstruction = true) (name : String) :
    statement ≠ .label name := by
  rintro rfl
  rw [h.command_eq_of_means .label] at hcommand
  cases hcommand

end Entries

section Sources

variable {source : String}

/-- The instruction that finds no room is the one behind 32768 others. Nothing before it is at
fault, so the second phase stops there, with one instruction more than a program can have. -/
theorem WellLabelled.assemble_eq (h : WellLabelled source)
    (hlarge : 32768 < instructionCount (outline (sourceTexts source))) :
    assemble source = .error (.programTooLarge 32769) := by
  have htexts : (statementTexts source.toList).map Prod.snd = sourceTexts source :=
    map_snd_statementTexts source
  have hcommands : commandsOf (statementTexts source.toList) = outline (sourceTexts source) :=
    congrArg outline htexts
  have hreads : ∀ entry ∈ statementTexts source.toList, ∃ statement, Reads entry.2 statement := by
    intro entry member
    obtain ⟨statement, hstatement⟩ := h.forms entry.2 (htexts ▸ List.mem_map_of_mem member)
    exact ⟨statement, ofText_eq_ok_iff.mp hstatement⟩
  rw [← hcommands, instructionCount_commandsOf] at hlarge
  -- the instruction with 32768 others before it, whatever comes behind
  obtain ⟨part, entry, rest, hsplit, hinstruction, hcount⟩ := exists_append_cons_of_lt_countP hlarge
  rw [← instructionCount_commandsOf] at hcount
  have hwhole : outline (sourceTexts source) = commandsOf part ++ commandsOf (entry :: rest) := by
    rw [← hcommands, hsplit, commandsOf_append]
  have hplaceable : Placeable (commandsOf part) := by
    have hnodup := h.nodup
    have hfresh := h.fresh
    rw [hwhole, labelNames_append] at hnodup hfresh
    exact ⟨(List.nodup_append.mp hnodup).1, fun name member => hfresh name (by simp [member]),
      hcount.le⟩
  obtain ⟨statement, hstatement⟩ := hreads entry (by simp [hsplit])
  have hfault : FaultBehind (outline (sourceTexts source)) .placement part entry
      (.programTooLarge 32769) := by
    have hroom : Fault (outline (sourceTexts source)) (commandsOf part) entry.1 entry.2 .placement
        (.programTooLarge (instructionCount (commandsOf part) + 1)) :=
      .room hstatement (hstatement.ne_label hinstruction) hcount.ge
    rwa [hcount] at hroom
  -- it is the first fault of its phase, and the only phase before has none
  refine ((reports_assemble source).error_iff _).mpr ⟨.placement, ?_, fun earlier hrank => ?_⟩
  · exact ⟨part, entry, rest, hsplit, hfault, clean_placement hplaceable⟩
  · cases earlier with
    | form => exact clean_form hreads
    | _ => simp [Phase.rank] at hrank

/-- A computer that is given more words than it can hold refuses them and reports how many it
was given. -/
theorem load_of_too_many {words : Array Word} (c : Computer) (h : 32768 < words.size) :
    c.load words = .error (.programTooLarge words.size) :=
  if_pos h

/-- A source with too many instructions, whose statements have forms and whose labels are new,
is refused with one more word than there is room for. This is what it needs only if there is one
instruction too many, while a computer reports what it needs. -/
theorem assemble_of_too_many (h : WellLabelled source)
    (hlarge : 32768 < instructionCount (outline (sourceTexts source))) :
    assemble source = .error (.programTooLarge 32769) ∧
      (assemble source =
          .error (.programTooLarge (instructionCount (outline (sourceTexts source)))) ↔
        instructionCount (outline (sourceTexts source)) = 32769) ∧
      ∀ (c : Computer) (words : Array Word),
        words.size = instructionCount (outline (sourceTexts source)) →
          c.load words = .error (.programTooLarge
            (instructionCount (outline (sourceTexts source)))) := by
  have hassemble := h.assemble_eq hlarge
  refine ⟨hassemble, ?_, fun c words hwords => ?_⟩
  · rw [hassemble, Except.error.injEq, AssemblyError.programTooLarge.injEq]
    exact eq_comm
  · rw [← hwords] at hlarge ⊢
    exact load_of_too_many c hlarge

end Sources

section EndLabel

variable {zeros : Nat}

/-- The statements of the source have forms, and its only label is no predefined symbol,
however many zeros stand before the label. -/
theorem wellLabelled_endSource : WellLabelled (endSource zeros) := by
  have hlabels : labelNames (outline (sourceTexts (endSource zeros))) = ["END"] := by
    rw [outline_endSource, labelNames_concat_label, labelNames_endInstructions]
    rfl
  have hforms : ∀ line ∈ ["@END", "0", "(END)"], ∃ statement,
      Statement.ofText line.toList = .ok statement := by
    simp only [List.forall_mem_cons]
    exact ⟨⟨_, rfl⟩, ⟨_, rfl⟩, ⟨_, rfl⟩, by simp⟩
  refine ⟨?_, by simp [hlabels], ?_⟩
  · rw [sourceTexts_endSource]
    exact List.forall_mem_map.mpr (forall_mem_endLines hforms)
  · rw [hlabels]
    decide

/-- The source has the instructions of its zeros, and the one that names the label. -/
theorem instructionCount_endSource :
    instructionCount (outline (sourceTexts (endSource zeros))) = zeros + 1 := by
  rw [outline_endSource, instructionCount_concat_label, instructionCount_endInstructions]

/-- A source that is far too large, with a label at its end, is refused with the same number
as a source that is too large by one instruction. -/
theorem assemble_of_too_many_endSource : WellLabelled (endSource 40000) ∧
    32768 < instructionCount (outline (sourceTexts (endSource 40000))) ∧
    assemble (endSource 40000) = .error (.programTooLarge 32769) := by
  have hlarge : 32768 < instructionCount (outline (sourceTexts (endSource 40000))) := by
    rw [instructionCount_endSource]
    decide
  exact ⟨wellLabelled_endSource, hlarge, (assemble_of_too_many wellLabelled_endSource hlarge).1⟩

/-- A source that needs two words more than there is room for is not reported with the number
of words that it needs. -/
theorem not_programTooLarge_endSource : WellLabelled (endSource 32769) ∧
    instructionCount (outline (sourceTexts (endSource 32769))) = 32770 ∧
    assemble (endSource 32769) ≠ .error (.programTooLarge 32770) := by
  have hcount : instructionCount (outline (sourceTexts (endSource 32769))) = 32770 :=
    instructionCount_endSource
  refine ⟨wellLabelled_endSource, hcount, ?_⟩
  rw [wellLabelled_endSource.assemble_eq (by rw [hcount]; decide)]
  decide

end EndLabel

end NandComputer.Assembly
