import NandComputer.Proofs.Assembly.WordText

/-!
The grammar of assembly statements, apart from the order in which the assembler
reads them. A statement is accepted if its text can be composed from a label, an
operand or the fields of a computation, and it means what it is composed from.
-/

namespace NandComputer

open Assembly

namespace Assembly

/-- A name consists of letters, digits and four marks, and does not start with a digit. -/
structure IsName (name : List Char) : Prop where
  nonempty : name ≠ []
  chars : ∀ c ∈ name, c.isAlphanum ∨ c ∈ ['_', '.', '$', ':']
  head : ∀ first, name.head? = some first → first.isDigit = false

theorem IsName.not_forall_isDigit {name : List Char} (h : IsName name) :
    ¬ ∀ c ∈ name, c.isDigit := by
  obtain ⟨first, rest, rfl⟩ := List.exists_cons_of_ne_nil h.nonempty
  intro hall
  exact absurd (h.head first rfl) (by simp [hall first])

/-- What a statement says. -/
inductive Command where
  | label (name : String)
  | literal (value : Nat)
  | symbol (name : String)
  | compute (comp : Comp) (dest : Dest) (jump : Jump)
  deriving DecidableEq

/-- A destination that is written is not empty. -/
inductive DestWritten : Option String → Dest → Prop
  | absent : DestWritten none .nowhere
  | present {text : String} {dest : Dest} : text ≠ "" → Dest.ofText? text = some dest →
      DestWritten (some text) dest

inductive JumpWritten : Option String → Jump → Prop
  | absent : JumpWritten none .never
  | present {text : String} {jump : Jump} : Jump.ofText? text = some jump →
      JumpWritten (some text) jump

/-- The texts of a command. -/
inductive Command.Written : List Char → Command → Prop
  | label {name : List Char} : IsName name →
      Written ('(' :: (name ++ [')'])) (.label (String.ofList name))
  | literal {digits : List Char} : digits ≠ [] → (∀ c ∈ digits, c.isDigit) →
      Nat.ofDigitChars 10 digits 0 ≤ 32767 →
      Written ('@' :: digits) (.literal (Nat.ofDigitChars 10 digits 0))
  | symbol {name : List Char} : IsName name →
      Written ('@' :: name) (.symbol (String.ofList name))
  | compute {dest? jump? : Option String} {text : String} {comp : Comp} {dest : Dest}
      {jump : Jump} : DestWritten dest? dest → Comp.ofText? text = some comp →
      JumpWritten jump? jump → Written (fieldsText dest? text jump?) (.compute comp dest jump)

/-- The command of a statement whose parts are all accepted. -/
inductive Statement.Means : Statement → Command → Prop
  | label {name : String} : Means (.label name) (.label name)
  | literal {digits : List Char} : digits ≠ [] → (∀ c ∈ digits, c.isDigit) →
      Nat.ofDigitChars 10 digits 0 ≤ 32767 →
      Means (.address digits) (.literal (Nat.ofDigitChars 10 digits 0))
  | symbol {name : List Char} : IsName name → Means (.address name) (.symbol (String.ofList name))
  | compute {dest? jump? : Option String} {text : String} {comp : Comp} {dest : Dest}
      {jump : Jump} : DestWritten dest? dest → Comp.ofText? text = some comp →
      JumpWritten jump? jump → Means (.compute dest? text jump?) (.compute comp dest jump)

/-- The test for symbols is the grammar of names: a letter or a mark at the start, and digits
besides these behind it. -/
theorem isSymbol_iff (name : List Char) : isSymbol name = true ↔ IsName name := by
  have hchar (c : Char) : isSymbolChar c = true ↔ c.isAlphanum ∨ c ∈ ['_', '.', '$', ':'] := by
    simp [isSymbolChar, or_assoc]
  cases name with
  | nil =>
    exact ⟨fun h => absurd h (by decide), fun h => absurd rfl h.nonempty⟩
  | cons first rest =>
    simp only [isSymbol, Bool.and_eq_true, Bool.not_eq_true', List.all_eq_true, hchar]
    constructor
    · rintro ⟨⟨hfirst, hdigit⟩, hrest⟩
      exact ⟨by simp, by simpa using ⟨by simpa using hfirst, by simpa using hrest⟩,
        by simpa using hdigit⟩
    · intro h
      exact ⟨⟨h.chars first (by simp), h.head first rfl⟩,
        fun c member => h.chars c (by simp [member])⟩

/-- A letter of a destination is the name of a register, and a destination that has one is no
longer empty. -/
theorem storeIn_eq_some {dest stored : Dest} {c : Char} (h : storeIn dest c = some stored) :
    c ∈ ['A', 'D', 'M'] ∧ stored.isEmpty = false := by
  unfold storeIn at h
  split at h
  case h_4 => cases h
  all_goals
    split at h
    · cases h
    · cases h
      simp [Dest.isEmpty]

/-- The letters of a destination are register names, and none of them is lost: the destination
is empty only if there were no letters and it was empty before. -/
theorem foldlM_storeIn {letters : List Char} {dest stored : Dest}
    (h : letters.foldlM storeIn dest = some stored) :
    (∀ c ∈ letters, c ∈ ['A', 'D', 'M']) ∧
      (stored.isEmpty = (dest.isEmpty && letters.isEmpty)) := by
  induction letters generalizing dest with
  | nil =>
    cases h
    simp
  | cons c rest ih =>
    obtain ⟨next, hnext, hrest⟩ := Option.bind_eq_some_iff.mp h
    obtain ⟨hletter, hstored⟩ := storeIn_eq_some hnext
    obtain ⟨hletters, hempty⟩ := ih hrest
    exact ⟨List.forall_mem_cons.mpr ⟨hletter, hletters⟩, by simp [hempty, hstored]⟩

/-- A destination that is written must not be empty, and its letters are read as for any
destination. -/
theorem parseStore_eq_some_iff {text : String} {dest : Dest} :
    parseStore text = some dest ↔ text ≠ "" ∧ Dest.ofText? text = some dest := by
  rw [parseStore, Option.filter_eq_some_iff, and_comm]
  refine and_congr_left fun h => ?_
  have hempty : dest.isEmpty = text.toList.isEmpty := (foldlM_storeIn h).2
  simp [hempty]

/-- What the assembler takes for the destination is what is written for one: nothing at all
for none, and otherwise the letters of its registers. -/
theorem destination_eq_some_iff {dest? : Option String} {dest : Dest} :
    (dest?.map parseStore).getD (some .nowhere) = some dest ↔ DestWritten dest? dest := by
  cases dest? with
  | none =>
    constructor
    · rintro ⟨⟩
      exact .absent
    · rintro ⟨⟩
      rfl
  | some text =>
    rw [Option.map_some, Option.getD_some, parseStore_eq_some_iff]
    constructor
    · exact fun h => .present h.1 h.2
    · rintro ⟨⟩
      exact ⟨‹_›, ‹_›⟩

/-- What the assembler takes for the jump is what is written for one: nothing at all for none,
and otherwise a mnemonic. -/
theorem jump_eq_some_iff {jump? : Option String} {jump : Jump} :
    (jump?.map Jump.ofText?).getD (some .never) = some jump ↔ JumpWritten jump? jump := by
  cases jump? with
  | none =>
    constructor
    · rintro ⟨⟩
      exact .absent
    · rintro ⟨⟩
      rfl
  | some text =>
    rw [Option.map_some, Option.getD_some]
    constructor
    · exact .present
    · rintro ⟨⟩
      assumption

theorem destWritten_chars {dest? : Option String} {dest : Dest} (h : DestWritten dest? dest) :
    ∀ text, dest? = some text → ∀ c ∈ text.toList, InField c := by
  cases h with
  | absent => simp
  | present hnil htext =>
    intro text heq c member
    cases heq
    have hletters : ∀ c ∈ ['A', 'D', 'M'], c ∈ mnemonicChars := by simp [mnemonicChars]
    exact inField_of_mem_mnemonicChars (hletters c ((foldlM_storeIn htext).1 c member))

theorem mem_of_lookup_eq_some {α β : Type} [BEq α] [LawfulBEq α] {entries : List (α × β)} {key : α}
    {value : β} (h : entries.lookup key = some value) : (key, value) ∈ entries := by
  obtain ⟨before, after, rfl, -⟩ := List.lookup_eq_some_iff.mp h
  simp

theorem rawField?_chars {raw : List Char} {bits : Word} (h : rawField? raw = some bits) :
    ∀ c ∈ raw, c ∈ mnemonicChars := by
  have hdigits {width : Nat} {digits : List Char} (h : IsBits width digits) :
      ∀ c ∈ digits, c ∈ mnemonicChars :=
    fun c member => mem_mnemonicChars_of_isBit (Text.isBit_iff.mpr (h.2 c member))
  obtain ⟨digits, ⟨hraw, -⟩ | ⟨hsigned, rfl⟩, -⟩ := rawField?_eq_some_iff.mp h
  · exact hdigits hraw
  · have hplus : '+' ∈ mnemonicChars := by decide
    exact List.forall_mem_cons.mpr ⟨hplus, hdigits hsigned⟩

/-- The text of a computation is not empty and has none of the marks that separate fields, so
splitting a statement finds its fields again. -/
theorem comp_chars {text : String} {comp : Comp} (h : Comp.ofText? text = some comp) :
    text.toList ≠ [] ∧ ∀ c ∈ text.toList, InField c := by
  suffices hsuff : text.toList ≠ [] ∧ ∀ c ∈ text.toList, c ∈ mnemonicChars from
    ⟨hsuff.1, fun c member => inField_of_mem_mnemonicChars (hsuff.2 c member)⟩
  rw [Comp.ofText?] at h
  cases hlookup : swappedSpellings.lookup text with
  | some canonical =>
    have hswapped : ∀ entry ∈ swappedSpellings, entry.1.toList ≠ [] ∧
        entry.1.toList.all (fun c => decide (c ∈ mnemonicChars)) = true := by
      decide +kernel
    obtain ⟨hnil, hall⟩ := hswapped _ (mem_of_lookup_eq_some hlookup)
    exact ⟨hnil, Text.forall_mem_of_all hall⟩
  | none =>
    rw [hlookup, Option.getD_none] at h
    split at h
    case h_1 raw htext =>
      obtain ⟨bits, hbits, -⟩ := Option.map_eq_some_iff.mp h
      rw [htext]
      have hmark : '#' ∈ mnemonicChars := by decide
      exact ⟨by simp, List.forall_mem_cons.mpr ⟨hmark, rawField?_chars hbits⟩⟩
    case h_2 => exact mem_mnemonicChars_of_mem_mnemonics (mem_of_lookup_eq_some h)

/-- A text that is cut at a mark consists of what is before it, the mark, and what is behind
it. -/
theorem eq_of_cut {mark : Char} {text before after : List Char}
    (h : cut mark text = some (before, after)) : text = before ++ mark :: after := by
  unfold cut at h
  split at h
  case h_1 => cases h
  case h_2 first rest hdrop =>
    cases h
    have hfirst : ¬ decide (first ≠ mark) = true := by
      have hhead := List.head?_dropWhile_not (fun c => decide (c ≠ mark)) text
      rw [hdrop] at hhead
      simpa using hhead
    obtain rfl : first = mark := by simpa using hfirst
    have hsplit := List.takeWhile_append_dropWhile (p := fun c => decide (c ≠ first)) (l := text)
    rw [hdrop] at hsplit
    exact hsplit.symm

/-- The split of a computation whose jump is split off already. -/
def splitBody (body : List Char) (jump? : Option String) : Statement :=
  match cut '=' body with
  | some (dest, comp) => .compute (some (String.ofList dest)) (String.ofList comp) jump?
  | none => .compute none (String.ofList body) jump?

/-- The part of a statement before its jump is composed again from the fields that it is split
into. -/
theorem splitBody_eq_compute {body : List Char} {cut? dest? jump? : Option String} {comp : String}
    (h : splitBody body cut? = .compute dest? comp jump?) :
    bodyText dest? comp = body ∧ cut? = jump? := by
  unfold splitBody at h
  cases hcut : cut '=' body with
  | none =>
    rw [hcut] at h
    cases h
    simp [bodyText]
  | some parts =>
    rw [hcut] at h
    cases h
    simp [bodyText, eq_of_cut hcut]

/-- A computation is composed again from the fields that it is split into. So splitting is the
only way to read a text as fields that loses nothing. -/
theorem fieldsText_of_splitCompute {text : List Char} {dest? jump? : Option String}
    {comp : String} (h : splitCompute text = .compute dest? comp jump?) :
    fieldsText dest? comp jump? = text := by
  rw [splitCompute] at h
  cases hcut : cut ';' text with
  | none =>
    rw [hcut] at h
    have hsplit : splitBody text none = .compute dest? comp jump? := h
    obtain ⟨hbody, rfl⟩ := splitBody_eq_compute hsplit
    simp [fieldsText, hbody]
  | some parts =>
    rw [hcut] at h
    have hsplit : splitBody parts.1 (some (String.ofList parts.2)) = .compute dest? comp jump? := h
    obtain ⟨hbody, rfl⟩ := splitBody_eq_compute hsplit
    simp [fieldsText, hbody, eq_of_cut hcut]

theorem exists_splitCompute (text : List Char) :
    ∃ dest? comp jump?, splitCompute text = .compute dest? comp jump? := by
  unfold splitCompute
  cases cut ';' text with
  | none => cases hcut : cut '=' text <;> simp [hcut]
  | some parts => cases hcut : cut '=' parts.1 <;> simp [hcut]

/-- A label is accepted if its name is one and the closing bracket is the last character. The
statement then declares this name. -/
theorem labelOf_eq_ok_iff {rest : List Char} {statement : Statement} :
    labelOf rest = .ok statement ↔
      ∃ name, IsName name ∧ rest = name ++ [')'] ∧ statement = .label (String.ofList name) := by
  unfold labelOf
  constructor
  · intro h
    split at h
    case isTrue => cases h
    case isFalse hlast =>
      split at h
      case isFalse => cases h
      case isTrue hname =>
        cases h
        obtain ⟨name, rfl⟩ := List.getLast?_eq_some_iff.mp (not_not.mp hlast)
        rw [List.dropLast_concat] at hname ⊢
        exact ⟨name, (isSymbol_iff name).mp hname, rfl, rfl⟩
  · rintro ⟨name, hname, rfl, rfl⟩
    simp [(isSymbol_iff name).mpr hname]

/-- The texts of a command are those whose statement means it. The grammar composes texts and
the assembler takes them apart, and here the two are shown to agree for every form of
statement. -/
theorem Command.written_iff {text : List Char} {command : Command} :
    Written text command ↔
      ∃ statement, Statement.ofText text = .ok statement ∧ statement.Means command := by
  constructor
  · intro h
    cases h with
    | label hname => exact ⟨_, labelOf_eq_ok_iff.mpr ⟨_, hname, rfl, rfl⟩, .label⟩
    | literal hnil hdigits hvalue =>
      refine ⟨_, ?_, .literal hnil hdigits hvalue⟩
      obtain ⟨first, rest, rfl⟩ := List.exists_cons_of_ne_nil hnil
      rfl
    | symbol hname =>
      refine ⟨_, ?_, .symbol hname⟩
      obtain ⟨first, rest, rfl⟩ := List.exists_cons_of_ne_nil hname.nonempty
      rfl
    | @compute dest? jump? comp _ _ _ hdest hcomp hjump =>
      -- the composed text must not look like a label or an operand, or it would not be split
      obtain ⟨hnil, hchars⟩ := comp_chars hcomp
      refine ⟨_, ?_, .compute hdest hcomp hjump⟩
      rw [← splitCompute_fieldsText (destWritten_chars hdest) hchars]
      obtain ⟨c, hhead, hc⟩ : ∃ c, (fieldsText dest? comp jump?).head? = some c ∧ InBody c :=
        head_fieldsText (destWritten_chars hdest) hchars hnil
      exact Statement.ofText_eq_splitCompute hhead hc
  · rintro ⟨statement, htext, hmeans⟩
    unfold Statement.ofText at htext
    split at htext
    case h_1 rest =>
      obtain ⟨name, hname, rfl, rfl⟩ := labelOf_eq_ok_iff.mp htext
      cases hmeans
      exact .label hname
    case h_2 => cases htext
    case h_3 operand _ =>
      cases htext
      cases hmeans with
      | literal hnil hdigits hvalue => exact .literal hnil hdigits hvalue
      | symbol hname => exact .symbol hname
    case h_4 =>
      cases htext
      obtain ⟨dest?, comp, jump?, hsplit⟩ := exists_splitCompute text
      rw [hsplit] at hmeans
      rw [← fieldsText_of_splitCompute hsplit]
      cases hmeans with
      | compute hdest hcomp hjump => exact .compute hdest hcomp hjump

end Assembly

end NandComputer
