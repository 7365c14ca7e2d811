import NandComputer.Proofs.Assembly.Layout
import NandComputer.Proofs.Assembly.WordText

/-!
Assembling the texts of words gives back the words, whether the texts stand in a
listing or just one to a line.
-/

namespace NandComputer.Assembly

/-- A statement that is no label takes one word, if there is room for it. -/
theorem Layout.place_of_ne_label (layout : Layout) (line : Nat) {statement : Statement}
    (hstatement : ∀ name, statement ≠ .label name) :
    layout.place (line, statement) =
      if layout.address + 1 > romWords then .error (.programTooLarge (layout.address + 1))
      else .ok { layout with address := layout.address + 1 } := by
  cases statement with
  | label name => exact absurd rfl (hstatement name)
  | _ => rfl

section Program

variable {words : List Word}

/-- The statements of words are instructions, which only take room. So placing them leaves the
table as it is and counts them. -/
theorem foldlM_place (program : List (Nat × Statement)) (layout : Layout)
    (hprogram : ∀ entry ∈ program, ∃ word, entry.2 = .ofInstruction (.decode word))
    (hroom : layout.address + program.length ≤ romWords) :
    program.foldlM Layout.place layout =
      .ok { layout with address := layout.address + program.length } := by
  induction program generalizing layout with
  | nil => rfl
  | cons entry rest ih =>
    obtain ⟨word, hword⟩ := hprogram entry (by simp)
    rw [List.length_cons] at hroom
    have hlabel (name : String) : entry.2 ≠ .label name := by
      rw [hword]
      cases Instruction.decode word <;> simp [Statement.ofInstruction]
    have hplace : layout.place entry = .ok { layout with address := layout.address + 1 } := by
      rw [layout.place_of_ne_label entry.1 hlabel, if_neg (by omega)]
    have hrest := ih { layout with address := layout.address + 1 }
      (fun later member => hprogram later (by simp [member]))
      (by simp only; omega)
    rw [List.foldlM_cons, hplace]
    refine hrest.trans ?_
    rw [List.length_cons, Nat.add_right_comm, ← Nat.add_assoc]

/-- The statements of words are encoded as these words, in their order, and none of them
touches the table. -/
theorem foldlM_encode (program : List (Nat × Statement)) (output : Output)
    (hprogram : program.map Prod.snd = words.map fun word => .ofInstruction (.decode word)) :
    program.foldlM Output.encode output =
      .ok { output with words := output.words ++ words.toArray } := by
  induction program generalizing output words with
  | nil =>
    rw [List.map_nil, eq_comm, List.map_eq_nil_iff] at hprogram
    subst hprogram
    rw [Array.append_empty]
    rfl
  | cons entry rest ih =>
    cases words with
    | nil => cases hprogram
    | cons word words =>
      rw [List.map_cons, List.map_cons, List.cons.injEq] at hprogram
      obtain ⟨line, statement⟩ := entry
      obtain ⟨hstatement, hrest⟩ := hprogram
      dsimp only at hstatement
      have hfirst := output.encode_decode line word
      have hwords : output.words.push word ++ words.toArray =
          output.words ++ (word :: words).toArray := by simp
      rw [List.foldlM_cons, hstatement, hfirst, ← hwords]
      exact ih { output with words := output.words.push word } hrest

/-- The texts of words are read as their statements, on whatever lines they stand. So the
first phase finds no fault in them. -/
theorem mapM_ofText (entries : List (Nat × List Char))
    (hentries : entries.map Prod.snd = words.map fun word => (wordText word).toList) :
    ∃ program : List (Nat × Statement),
      (entries.mapM fun (line, text) =>
        (return (line, ← atLine line (Statement.ofText text)) : Except AssemblyError _)) =
          .ok program ∧
      program.map Prod.snd = words.map fun word => .ofInstruction (.decode word) := by
  induction entries generalizing words with
  | nil =>
    rw [List.map_nil, eq_comm, List.map_eq_nil_iff] at hentries
    subst hentries
    exact ⟨[], rfl, rfl⟩
  | cons entry rest ih =>
    cases words with
    | nil => cases hentries
    | cons word words =>
      rw [List.map_cons, List.map_cons, List.cons.injEq] at hentries
      obtain ⟨line, text⟩ := entry
      obtain ⟨htext, hrest⟩ := hentries
      dsimp only at htext
      subst htext
      obtain ⟨program, hprogram, hstatements⟩ := ih hrest
      refine ⟨(line, .ofInstruction (.decode word)) :: program, ?_, ?_⟩
      · have htext : Statement.ofText (wordText word).toList =
            .ok (.ofInstruction (.decode word)) := Statement.ofText_text _
        rw [List.mapM_cons, hprogram]
        dsimp only
        rw [htext]
        rfl
      · rw [List.map_cons, List.map_cons, hstatements]

/-- A source whose statements are the texts of words assembles to the words, wherever its
lines, blanks and comments are. -/
theorem assemble_of_statementTexts {source : String} (hroom : words.length ≤ romWords)
    (htexts : (statementTexts source.toList).map Prod.snd =
      words.map fun word => (wordText word).toList) :
    assemble source = .ok words := by
  obtain ⟨program, hprogram, hstatements⟩ := mapM_ofText _ htexts
  have hlength : program.length = words.length := by
    have hsame := congrArg List.length hstatements
    rwa [List.length_map, List.length_map] at hsame
  have hinstructions : ∀ entry ∈ program, ∃ word, entry.2 = .ofInstruction (.decode word) := by
    intro entry member
    have hmem : entry.2 ∈ words.map fun word => Statement.ofInstruction (.decode word) := by
      rw [← hstatements]
      exact List.mem_map_of_mem member
    obtain ⟨word, -, hword⟩ := List.mem_map.mp hmem
    exact ⟨word, hword.symm⟩
  have hlabels : labels program = .ok .predefined := by
    rw [labels, foldlM_place program ⟨.predefined, 0⟩ hinstructions (by simp only; omega)]
    rfl
  have hencode : encode .predefined program = .ok words := by
    rw [encode, foldlM_encode program ⟨.predefined, #[]⟩ hstatements]
    change Except.ok (#[] ++ words.toArray).toList = _
    simp
  have hread : statements source.toList = .ok program := hprogram
  rw [assemble, hread]
  change (labels program >>= fun symbols => encode symbols program) = _
  rw [hlabels]
  exact hencode

end Program

section Sources

variable {words : List Word}

theorem wordText_chars (word : Word) :
    (wordText word).toList ≠ [] ∧ ∀ c ∈ (wordText word).toList, Text.IsPlain c :=
  text_chars (.decode word)

/-- The text of a word has no blanks and no comment, so nothing of it is dropped where it
stands on a line. -/
theorem strippedLine_wordText (word : Word) :
    strippedLine (wordText word).toList = (wordText word).toList := by
  have hplain := (wordText_chars word).2
  rw [strippedLine, Text.beforeComment_eq_self fun member => (hplain _ member).2 rfl]
  exact Text.squeeze_eq_self hplain

/-- The line of a word in a listing, without the line feed at its end. -/
def listingText (address : Nat) (word : Word) : List Char :=
  (wordText word).toList.rightpad 16 ' ' ++ ' ' :: '/' :: '/' :: ' ' ::
    (Text.paddedDecimal 5 address ++ ':' :: ' ' :: Text.binary 16 word.toNat)

theorem toList_listingLine (address : Nat) (word : Word) :
    (listingLine address word).toList = listingText address word ++ ['\n'] := by
  simp [listingLine, listingText, padded]

/-- The comment at the end of a line of the listing and the blanks before it vanish, and the
text of the word is left. -/
theorem strippedLine_listingText (address : Nat) (word : Word) :
    strippedLine (listingText address word) = (wordText word).toList := by
  have hplain := (wordText_chars word).2
  obtain ⟨blanks, hpadded⟩ : ∃ blanks, (wordText word).toList.rightpad 16 ' ' ++ [' '] =
      (wordText word).toList ++ List.replicate blanks ' ' := by
    refine ⟨16 - (wordText word).toList.length + 1, ?_⟩
    rw [List.rightpad, List.append_assoc, List.replicate_succ']
  have hslash : '/' ∉ (wordText word).toList ++ List.replicate blanks ' ' := by
    intro member
    rcases List.mem_append.mp member with htext | hblank
    · exact (hplain _ htext).2 rfl
    · exact absurd (List.eq_of_mem_replicate hblank) (by decide)
  have hline : listingText address word = ((wordText word).toList ++ List.replicate blanks ' ') ++
      '/' :: '/' :: ' ' :: (Text.paddedDecimal 5 address ++
        ':' :: ' ' :: Text.binary 16 word.toNat) := by
    rw [← hpadded, listingText, List.append_assoc]
    rfl
  rw [hline, strippedLine, Text.beforeComment_append hslash, Text.squeeze_append,
    Text.squeeze_replicate_space, List.append_nil]
  exact Text.squeeze_eq_self hplain

theorem listingText_chars (address : Nat) (word : Word) :
    ∀ c ∈ listingText address word, Text.IsPlain c ∨ c = ' ' ∨ c = '/' := by
  intro c member
  rcases List.mem_append.mp member with hpadded | htail
  · rcases List.mem_append.mp hpadded with htext | hblank
    · exact .inl ((wordText_chars word).2 c htext)
    · exact .inr (.inl (List.eq_of_mem_replicate hblank))
  · have hmarks : (c = ' ' ∨ c = '/') ∨ c ∈ Text.paddedDecimal 5 address ∨
        c ∈ [':', ' '] ∨ c ∈ Text.binary 16 word.toNat := by
      simp only [List.mem_cons, List.mem_append] at htail
      grind
    rcases hmarks with hmark | hdigit | hmark | hbit
    · exact .inr hmark
    · exact .inl (Text.isPlain_of_isDigit (Text.isDigit_of_mem_paddedDecimal hdigit))
    · rw [List.mem_cons, List.mem_singleton] at hmark
      rcases hmark with rfl | rfl
      · exact .inl (by decide)
      · exact .inr (.inl rfl)
    · have hdigit := Text.isDigit_of_isBit (Text.isBit_of_mem_binary hbit)
      exact .inl (Text.isPlain_of_isDigit hdigit)

/-- The lines of a listing. -/
def listingLines (words : List Word) : List (List Char) :=
  ["// Hack Disassembly".toList, "// ----------------".toList, []] ++
    words.zipIdx.map fun (word, address) => listingText address word

/-- The characters of a listing are those of its lines, each closed by a line feed. -/
theorem toList_listing (words : List Word) :
    (listing words).toList = (listingLines words).flatMap (· ++ ['\n']) := by
  have hheader : listingHeader.toList =
      ["// Hack Disassembly".toList, "// ----------------".toList, []].flatMap (· ++ ['\n']) := by
    decide +kernel
  have hwords : (String.join (words.zipIdx.map fun (word, address) =>
      listingLine address word)).toList =
        (words.zipIdx.map fun (word, address) => listingText address word).flatMap
          (· ++ ['\n']) := by
    rw [String.toList_join, List.flatMap_map, List.flatMap_map]
    simp only [toList_listingLine]
  rw [listing, String.toList_append, hheader, hwords, listingLines, List.flatMap_append]

theorem mem_listingLines {text : List Char} (h : text ∈ listingLines words) :
    ∀ c ∈ text, c ≠ '\n' ∧ c ≠ '\r' := by
  intro c member
  rcases List.mem_append.mp h with hheader | hline
  · have hchars : ∀ line ∈ ["// Hack Disassembly".toList, "// ----------------".toList, []],
        line.all (fun c => decide (c ≠ '\n' ∧ c ≠ '\r')) = true := by
      decide +kernel
    exact Text.forall_mem_of_all (hchars text hheader) c member
  · obtain ⟨⟨word, address⟩, -, rfl⟩ := List.mem_map.mp hline
    rcases listingText_chars address word c member with hplain | rfl | rfl
    · exact ⟨hplain.ne_newline, hplain.ne_return⟩
    · decide
    · decide

theorem filter_wordTexts (words : List Word) :
    (words.map fun word => (wordText word).toList).filter (fun text => !text.isEmpty) =
      words.map fun word => (wordText word).toList := by
  apply List.filter_eq_self.mpr
  intro text member
  obtain ⟨word, -, rfl⟩ := List.mem_map.mp member
  simp [(wordText_chars word).1]

/-- The statements of a listing are the texts of its words, one for each of its lines. -/
theorem map_snd_statementTexts_listing (words : List Word) :
    (statementTexts (listing words).toList).map Prod.snd =
      words.map fun word => (wordText word).toList := by
  have hlines : Text.lines (listing words).toList = listingLines words := by
    rw [toList_listing]
    apply Text.lines_flatMap
    · exact fun text member hfeed => (mem_listingLines member _ hfeed).1 rfl
    · exact fun text member hreturn => (mem_listingLines member _ hreturn).2 rfl
  have hheader : (["// Hack Disassembly".toList, "// ----------------".toList, []].map
      strippedLine) = [[], [], []] := by
    decide +kernel
  have hwords : ((words.zipIdx.map fun (word, address) => listingText address word).map
      strippedLine) =
        words.map fun word => (wordText word).toList := by
    have hword : ∀ entry : Word × Nat,
        strippedLine (listingText entry.2 entry.1) = (wordText entry.1).toList :=
      fun entry => strippedLine_listingText entry.2 entry.1
    have hwhole := congrArg (List.map fun word => (wordText word).toList)
      (List.zipIdx_map_fst 0 words)
    rw [List.map_map] at hwhole
    rw [List.map_map, ← hwhole]
    exact List.map_congr_left fun entry _ => hword entry
  rw [map_snd_statementTexts, sourceTexts, hlines, Text.rests, listingLines, List.map_append,
    hheader, hwords, List.filter_append]
  exact filter_wordTexts words

/-- The texts of words, put on lines of their own without a listing around them, are the
statements of what they make. -/
theorem map_snd_statementTexts_intercalate (words : List Word) :
    (statementTexts ("\n".intercalate (words.map wordText)).toList).map Prod.snd =
      words.map fun word => (wordText word).toList := by
  have hsource : ("\n".intercalate (words.map wordText)).toList =
      ['\n'].intercalate (words.map fun word => (wordText word).toList) := by
    rw [String.toList_intercalate, List.map_map]
    rfl
  have hplain : ∀ text ∈ words.map fun word => (wordText word).toList,
      text ≠ [] ∧ ∀ c ∈ text, Text.IsPlain c := by
    intro text member
    obtain ⟨word, -, rfl⟩ := List.mem_map.mp member
    exact wordText_chars word
  have hlines : Text.lines ("\n".intercalate (words.map wordText)).toList =
      words.map fun word => (wordText word).toList := by
    rw [hsource]
    apply Text.lines_intercalate_of_ne_nil
    · exact fun text member hfeed => ((hplain text member).2 _ hfeed).ne_newline rfl
    · exact fun text member hreturn => ((hplain text member).2 _ hreturn).ne_return rfl
    · exact fun text member => (hplain text member).1
  have hwords : ((words.map fun word => (wordText word).toList).map strippedLine) =
        words.map fun word => (wordText word).toList := by
    rw [List.map_map]
    exact List.map_congr_left fun word _ => strippedLine_wordText word
  rw [map_snd_statementTexts, sourceTexts, hlines, Text.rests, hwords]
  exact filter_wordTexts words

end Sources

/-- Disassembled words assemble to themselves, from the full listing and from their texts
alone. This holds for every list of words that has room, also for words that no mnemonic
stands for. -/
theorem assemble_disassembled (words : List Word) (hroom : words.length ≤ romWords) :
    assemble (listing words) = .ok words ∧
      assemble ("\n".intercalate (words.map wordText)) = .ok words :=
  ⟨assemble_of_statementTexts hroom (map_snd_statementTexts_listing words),
    assemble_of_statementTexts hroom (map_snd_statementTexts_intercalate words)⟩

/-- A literal, a mnemonic of the extended unit, a jump and a raw computation. -/
def fourWords : List Word := [0x7FFF, 0x8010, 0xEA87, 0xE050]

/-- The greatest address, a product, a jump and a field without a mnemonic come back from
their texts. -/
theorem assemble_disassembled_fourWords : fourWords.length ≤ romWords ∧
    assemble (listing fourWords) = .ok fourWords ∧
    assemble ("\n".intercalate ["@32767", "D=D*A", "0;JMP", "D=#110000001"]) = .ok fourWords := by
  have hroom : fourWords.length ≤ romWords := by decide
  have htexts : fourWords.map wordText = ["@32767", "D=D*A", "0;JMP", "D=#110000001"] := by
    decide +kernel
  obtain ⟨hlisting, hjoined⟩ := assemble_disassembled fourWords hroom
  rw [htexts] at hjoined
  exact ⟨hroom, hlisting, hjoined⟩

end NandComputer.Assembly
