import NandComputer.Assembly.Assembler
import NandComputer.Assembly.Listing
import NandComputer.Proofs.Instruction
import NandComputer.Proofs.Text.Lines
import NandComputer.Proofs.Text.Numeral

/-!
The assembly text of a word is one statement, and the assembler encodes this
statement as the word. Every mnemonic is read back as the field that it was
chosen for, and a field without a mnemonic by its nine bits.
-/

namespace NandComputer

open Assembly

namespace Assembly

/-- The characters of mnemonics. -/
def mnemonicChars : List Char :=
  ['0', '1', '-', '+', '!', '&', '|', '*', '<', '>', '#', 'A', 'D', 'M']

/-- A mnemonic has characters, and all of them are from a small alphabet without blanks,
slashes and marks. -/
theorem mem_mnemonicChars_of_mem_mnemonics {name : String} {comp : Comp}
    (h : (name, comp) ∈ mnemonics) :
    name.toList ≠ [] ∧ ∀ c ∈ name.toList, c ∈ mnemonicChars := by
  have hnames : ∀ entry ∈ mnemonics, entry.1.toList ≠ [] ∧
      entry.1.toList.all (fun c => decide (c ∈ mnemonicChars)) = true := by
    decide +kernel
  obtain ⟨hnil, hall⟩ := hnames _ h
  exact ⟨hnil, Text.forall_mem_of_all hall⟩

/-- Every mnemonic of the table is read as its own field. No earlier entry of the table has
the same text. -/
theorem ofText?_of_mem_mnemonics : ∀ entry ∈ mnemonics, Comp.ofText? entry.1 = some entry.2 := by
  decide +kernel

theorem head_ne_of_mem_swappedSpellings : ∀ entry ∈ swappedSpellings,
    entry.1.toList.head? ≠ some '#' := by
  decide +kernel

theorem mem_mnemonicChars_of_isBit {c : Char} (h : Text.isBit c) : c ∈ mnemonicChars := by
  rcases Text.isBit_iff.mp h with rfl | rfl
  · decide
  · decide

/-- A character that neither ends the part of a computation before the jump nor
starts a statement of another kind. -/
structure InBody (c : Char) : Prop where
  plain : Text.IsPlain c
  ne_semicolon : c ≠ ';'
  ne_paren : c ≠ '('
  ne_at : c ≠ '@'

/-- A character that does not end a destination either. -/
structure InField (c : Char) : Prop extends InBody c where
  ne_equals : c ≠ '='

theorem inField_of_mem_mnemonicChars {c : Char} (h : c ∈ mnemonicChars) : InField c := by
  have hchars : ∀ c ∈ mnemonicChars, Text.IsPlain c ∧ c ≠ '=' ∧ c ≠ ';' ∧ c ≠ '(' ∧ c ≠ '@' := by
    apply Text.forall_mem_of_all
    decide +kernel
  obtain ⟨hplain, hequals, hsemicolon, hparen, hat⟩ := hchars c h
  exact ⟨⟨hplain, hsemicolon, hparen, hat⟩, hequals⟩

section Bits

/-- A text of `width` binary digits. -/
def IsBits (width : Nat) (digits : List Char) : Prop :=
  digits.length = width ∧ ∀ c ∈ digits, c = '0' ∨ c = '1'

variable {width : Nat} {digits raw : List Char}

theorem isBits_iff :
    digits.length = width ∧ digits.all Text.isBit = true ↔ IsBits width digits := by
  simp [IsBits, Text.isBit]

theorem IsBits.ofDigitChars_lt (h : IsBits width digits) :
    Nat.ofDigitChars 2 digits 0 < 2 ^ width := by
  have hlt := Text.ofDigitChars_lt h.2
  rwa [h.1] at hlt

theorem isBits_binary {n : Nat} (hwidth : 0 < width) (h : n < 2 ^ width) :
    IsBits width (Text.binary width n) :=
  ⟨Text.length_binary hwidth h, fun _ member => Text.isBit_iff.mp (Text.isBit_of_mem_binary member)⟩

/-- The reader of a field takes what the reader of numerals takes, if it has nine bytes, and
the number is the field. -/
theorem rawField?_eq_some_iff_readBinary {bits : Word} : rawField? raw = some bits ↔
    ∃ n, Text.readBinary UInt16.size raw = .ok n ∧ Text.byteLength raw = 9 ∧
      bits = .ofNat 16 n := by
  unfold rawField?
  cases Text.readBinary UInt16.size raw with
  | ok n => simp [eq_comm]
  | error fault => simp

/-- The texts of a field are nine bits, or a plus sign and eight bits: the sign of a numeral
counts as one of its nine bytes, and the number of so few digits is always small enough for
the reader. -/
theorem rawField?_eq_some_iff {bits : Word} : rawField? raw = some bits ↔
    ∃ digits, (IsBits 9 raw ∧ digits = raw ∨ IsBits 8 digits ∧ raw = '+' :: digits) ∧
      bits = .ofNat 16 (Nat.ofDigitChars 2 digits 0) := by
  have hbound : 0 < UInt16.size := by decide
  have hsign (digits : List Char) (h : ∀ c ∈ digits, c = '0' ∨ c = '1') :
      Text.byteLength ('+' :: digits) = 1 + digits.length :=
    congrArg (1 + ·) (Text.byteLength_eq_length h)
  rw [rawField?_eq_some_iff_readBinary]
  simp only [Text.readBinary_eq_ok_iff hbound]
  constructor
  · rintro ⟨n, ⟨digits, -, rfl | rfl, hdigits, rfl, -⟩, hlength, rfl⟩
    · rw [Text.byteLength_eq_length hdigits] at hlength
      exact ⟨raw, .inl ⟨⟨hlength, hdigits⟩, rfl⟩, rfl⟩
    · rw [hsign digits hdigits] at hlength
      exact ⟨digits, .inr ⟨⟨by omega, hdigits⟩, rfl⟩, rfl⟩
  · rintro ⟨digits, ⟨hraw, rfl⟩ | ⟨hdigits, rfl⟩, rfl⟩
    · have hlt : Nat.ofDigitChars 2 digits 0 < 512 := hraw.ofDigitChars_lt
      have hsmall : Nat.ofDigitChars 2 digits 0 < UInt16.size := Nat.lt_trans hlt (by decide)
      have hnil : digits ≠ [] := List.ne_nil_of_length_eq_add_one hraw.1
      exact ⟨_, ⟨digits, hnil, .inl rfl, hraw.2, rfl, hsmall⟩,
        (Text.byteLength_eq_length hraw.2).trans hraw.1, rfl⟩
    · have hlt : Nat.ofDigitChars 2 digits 0 < 256 := hdigits.ofDigitChars_lt
      have hsmall : Nat.ofDigitChars 2 digits 0 < UInt16.size := Nat.lt_trans hlt (by decide)
      have hnil : digits ≠ [] := List.ne_nil_of_length_eq_add_one hdigits.1
      refine ⟨_, ⟨digits, hnil, .inr rfl, hdigits.2, rfl, hsmall⟩, ?_, rfl⟩
      rw [hsign digits hdigits.2, hdigits.1]

end Bits

end Assembly

namespace Comp

/-- A text with the mark is read as a raw field and never as a mnemonic, since no mnemonic
begins with the mark. -/
theorem ofText?_mark (raw : List Char) :
    ofText? (String.ofList ('#' :: raw)) = (rawField? raw).map ofBits := by
  have hspelling : swappedSpellings.lookup (String.ofList ('#' :: raw)) = none := by
    rw [List.lookup_eq_none_iff]
    intro entry member
    have hhead := head_ne_of_mem_swappedSpellings entry member
    rw [bne_iff_ne]
    intro heq
    rw [← heq, String.toList_ofList] at hhead
    exact hhead rfl
  rw [ofText?, hspelling, Option.getD_none, String.toList_ofList]
  rfl

/-- A field that is written with its nine bits is read back as itself. -/
theorem ofText?_raw {n : Nat} (h : n < 2 ^ 9) :
    ofText? (String.ofList ('#' :: Text.binary 9 n)) = some (.ofBits (.ofNat 16 n)) := by
  have hraw : rawField? (Text.binary 9 n) = some (.ofNat 16 n) := by
    have hvalue := Text.ofDigitChars_binary 9 n
    exact rawField?_eq_some_iff.mpr ⟨_, .inl ⟨isBits_binary (by decide) h, rfl⟩, by rw [hvalue]⟩
  rw [ofText?_mark, hraw, Option.map_some]

/-- A computation is read back from its mnemonic or, if it has none, from its bits. Nothing
more is needed of the field than that it fits. -/
theorem ofText?_text {comp : Comp} (h : comp.bits.toNat < 2 ^ 9) :
    ofText? comp.text = some comp := by
  unfold text
  split
  case h_1 name known hfind =>
    have hmem := List.mem_of_find?_eq_some hfind
    have hknown := List.find?_some hfind
    rw [decide_eq_true_eq] at hknown
    rw [ofText?_of_mem_mnemonics _ hmem, hknown]
  case h_2 =>
    rw [ofText?_raw h, BitVec.ofNat_toNat, BitVec.setWidth_eq, ofBits_bits h]

/-- The text of a computation is not empty and free of the marks between fields, so a
statement is split where it was composed. -/
theorem text_chars (comp : Comp) :
    comp.text.toList ≠ [] ∧ ∀ c ∈ comp.text.toList, InField c := by
  unfold text
  split
  case h_1 name known hfind =>
    obtain ⟨hnil, hchars⟩ := mem_mnemonicChars_of_mem_mnemonics (List.mem_of_find?_eq_some hfind)
    exact ⟨hnil, fun c member => inField_of_mem_mnemonicChars (hchars c member)⟩
  case h_2 =>
    rw [String.toList_ofList]
    refine ⟨List.cons_ne_nil _ _, ?_⟩
    intro c member
    apply inField_of_mem_mnemonicChars
    rcases List.mem_cons.mp member with rfl | hbit
    · decide
    · exact mem_mnemonicChars_of_isBit (Text.isBit_of_mem_binary hbit)

end Comp

/-- A destination is read back from the letters of its registers. The empty one has no letters
and is not written at all. -/
theorem Dest.parseStore_text (dest : Dest) (h : dest.isEmpty = false) :
    parseStore dest.text = some dest := by
  obtain ⟨a, d, m⟩ := dest
  cases a <;> cases d <;> cases m <;> first | exact absurd h (by decide) | decide +kernel

theorem Dest.text_chars (dest : Dest) : ∀ c ∈ dest.text.toList, InField c := by
  have hletters : ∀ c ∈ dest.text.toList, c ∈ mnemonicChars := by
    apply Text.forall_mem_of_all
    obtain ⟨a, d, m⟩ := dest
    cases a <;> cases d <;> cases m <;> decide +kernel
  exact fun c member => inField_of_mem_mnemonicChars (hletters c member)

/-- A jump with a mnemonic is read back from it. -/
theorem Jump.ofText?_text {jump : Jump} {text : String} (h : jump.text? = some text) :
    ofText? text = some jump := by
  cases jump with
  | never => cases h
  | _ =>
    cases h
    decide +kernel

theorem Jump.text_chars {jump : Jump} {text : String} (h : jump.text? = some text) :
    ∀ c ∈ text.toList, Text.IsPlain c := by
  apply Text.forall_mem_of_all
  cases jump with
  | never => cases h
  | _ =>
    cases h
    decide +kernel

namespace Assembly

section Cut

variable {mark : Char} {before : List Char} (h : mark ∉ before)

include h

/-- A text is cut at a mark if the mark is not before it. -/
theorem cut_append (after : List Char) :
    cut mark (before ++ mark :: after) = some (before, after) := by
  have hpass : ∀ c ∈ before, decide (c ≠ mark) = true := by
    intro c member
    rw [decide_eq_true_iff]
    rintro rfl
    exact h member
  rw [cut, List.dropWhile_append_of_pos hpass, List.takeWhile_append_of_pos hpass]
  simp

theorem cut_eq_none : cut mark before = none := by
  have hpass : ∀ c ∈ before, decide (c ≠ mark) = true := by
    intro c member
    rw [decide_eq_true_iff]
    rintro rfl
    exact h member
  have hall : (before ++ []).dropWhile (fun c => decide (c ≠ mark)) = [] :=
    List.dropWhile_append_of_pos hpass
  rw [List.append_nil] at hall
  rw [cut, hall]

end Cut

/-- The text of a computation before its jump. -/
def bodyText (dest? : Option String) (comp : String) : List Char :=
  (dest?.map fun dest => dest.toList ++ ['=']).getD [] ++ comp.toList

/-- The text of a computation, field by field. -/
def fieldsText (dest? : Option String) (comp : String) (jump? : Option String) : List Char :=
  bodyText dest? comp ++ (jump?.map fun jump => ';' :: jump.toList).getD []

section Fields

variable {dest? jump? : Option String} {comp : String}

section Marks

variable (hdest : ∀ dest, dest? = some dest → '=' ∉ dest.toList)
  (hcomp : dest? = none → '=' ∉ comp.toList)

include hdest hcomp

theorem cut_bodyText :
    cut '=' (bodyText dest? comp) = dest?.map fun dest => (dest.toList, comp.toList) := by
  cases dest? with
  | none => exact cut_eq_none (hcomp rfl)
  | some dest =>
    rw [bodyText, Option.map_some, Option.getD_some, List.append_assoc]
    exact cut_append (hdest dest rfl) comp.toList

/-- A computation is split at its first marks, so the fields must be free of them up to there.
-/
theorem splitCompute_of_notMem (hbody : ';' ∉ bodyText dest? comp) :
    splitCompute (fieldsText dest? comp jump?) = .compute dest? comp jump? := by
  have hstore := cut_bodyText hdest hcomp
  unfold splitCompute
  cases jump? with
  | none =>
    rw [fieldsText, Option.map_none, Option.getD_none, List.append_nil, cut_eq_none hbody]
    dsimp only
    rw [hstore, bodyText]
    cases dest? <;> simp
  | some jump =>
    rw [fieldsText, Option.map_some, Option.getD_some, cut_append hbody]
    dsimp only
    rw [hstore, bodyText]
    cases dest? <;> simp

end Marks

variable (hdest : ∀ dest, dest? = some dest → ∀ c ∈ dest.toList, InField c)
  (hcomp : ∀ c ∈ comp.toList, InField c)

include hdest hcomp

theorem bodyText_chars : ∀ c ∈ bodyText dest? comp, InBody c := by
  intro c member
  rcases List.mem_append.mp member with hfront | hback
  · cases dest? with
    | none => cases hfront
    | some dest =>
      rcases List.mem_append.mp hfront with hletter | hmark
      · exact (hdest dest rfl c hletter).toInBody
      · rw [List.mem_singleton.mp hmark]
        exact ⟨by decide, by decide, by decide, by decide⟩
  · exact (hcomp c hback).toInBody

/-- A computation is split into the fields that it was written from, if they have no marks of
their own. -/
theorem splitCompute_fieldsText :
    splitCompute (fieldsText dest? comp jump?) = .compute dest? comp jump? := by
  refine splitCompute_of_notMem (fun dest heq member => ?_) (fun _ member => ?_) fun member => ?_
  · exact (hdest dest heq _ member).ne_equals rfl
  · exact (hcomp _ member).ne_equals rfl
  · exact (bodyText_chars hdest hcomp _ member).ne_semicolon rfl

theorem head_fieldsText (hnil : comp.toList ≠ []) :
    ∃ c, (fieldsText dest? comp jump?).head? = some c ∧ InBody c := by
  have hbody : bodyText dest? comp ≠ [] := List.append_ne_nil_of_right_ne_nil _ hnil
  obtain ⟨first, rest, hfirst⟩ := List.exists_cons_of_ne_nil hbody
  refine ⟨first, ?_, bodyText_chars hdest hcomp first (by rw [hfirst]; simp)⟩
  rw [fieldsText, hfirst, List.cons_append, List.head?_cons]

end Fields

/-- The destination of an instruction, if it stores anything. -/
def store? (dest : Dest) : Option String := if dest.isEmpty then none else some dest.text

/-- The letters of a destination are registers, so they are no marks. -/
theorem store?_chars {dest : Dest} {text : String} (h : store? dest = some text) :
    ∀ c ∈ text.toList, InField c := by
  unfold store? at h
  split at h
  case isTrue => cases h
  case isFalse =>
    cases h
    exact dest.text_chars

theorem toList_text_address (value : Word) :
    (Instruction.address value).text.toList = '@' :: Text.decimal value.toNat := by
  change ("@" ++ String.ofList (Text.decimal value.toNat)).toList = _
  rw [String.toList_append, String.toList_ofList, String.toList_ofList]
  rfl

/-- The text of a computing instruction is composed from the texts of its fields: an empty
destination and a jump that is never taken are left out. -/
theorem toList_text_compute (comp : Comp) (dest : Dest) (jump : Jump) :
    (Instruction.compute comp dest jump).text.toList =
      fieldsText (store? dest) comp.text jump.text? := by
  have hdest : (if dest.isEmpty then "" else dest.text ++ "=").toList =
      ((store? dest).map fun dest => dest.toList ++ ['=']).getD [] := by
    unfold store?
    cases dest.isEmpty with
    | true => rfl
    | false => exact String.toList_append
  have hjump : ((jump.text?.map (";" ++ ·)).getD "").toList =
      (jump.text?.map fun jump => ';' :: jump.toList).getD [] := by
    cases jump.text? with
    | none => rfl
    | some text => exact String.toList_append
  rw [Instruction.text, String.toList_append, String.toList_append, hdest, hjump]
  rfl

/-- The statement that an instruction is written as. -/
def Statement.ofInstruction : Instruction → Statement
  | .address value => .address (Text.decimal value.toNat)
  | .compute comp dest jump => .compute (store? dest) comp.text jump.text?

/-- A text that does not start like a label or an operand is a computation, and its fields are
not looked at yet. -/
theorem Statement.ofText_of_head? {text : List Char} (hparen : text.head? ≠ some '(')
    (hat : text.head? ≠ some '@') : ofText text = .ok (splitCompute text) := by
  unfold ofText
  split
  case h_1 => exact absurd rfl hparen
  case h_2 => exact absurd rfl hat
  case h_3 => exact absurd rfl hat
  case h_4 => rfl

theorem Statement.ofText_eq_splitCompute {text : List Char} {c : Char}
    (hhead : text.head? = some c) (hc : InBody c) : ofText text = .ok (splitCompute text) := by
  refine ofText_of_head? ?_ ?_
  · rw [hhead, ne_eq, Option.some_inj]
    exact hc.ne_paren
  · rw [hhead, ne_eq, Option.some_inj]
    exact hc.ne_at

/-- The text of an instruction is read as one statement: an operand of its address, or the
fields of its computation. -/
theorem Statement.ofText_text (instruction : Instruction) :
    ofText instruction.text.toList = .ok (ofInstruction instruction) := by
  cases instruction with
  | address value =>
    rw [toList_text_address]
    have hnil : Text.decimal value.toNat ≠ [] := Nat.toDigits_ne_nil
    obtain ⟨first, rest, hfirst⟩ := List.exists_cons_of_ne_nil hnil
    rw [ofInstruction, hfirst]
    rfl
  | compute comp dest jump =>
    obtain ⟨hnil, hcomp⟩ := comp.text_chars
    have hdest (text : String) (h : store? dest = some text) := store?_chars h
    rw [toList_text_compute, ofInstruction, ← splitCompute_fieldsText hdest hcomp]
    obtain ⟨c, hhead, hc⟩ : ∃ c, (fieldsText (store? dest) comp.text jump.text?).head? = some c ∧
        InBody c := head_fieldsText hdest hcomp hnil
    exact ofText_eq_splitCompute hhead hc

/-- The text of an instruction has characters, and none of them is blank or a slash. So it
stays as it is where blanks and comments are dropped. -/
theorem text_chars (instruction : Instruction) :
    instruction.text.toList ≠ [] ∧ ∀ c ∈ instruction.text.toList, Text.IsPlain c := by
  cases instruction with
  | address value =>
    rw [toList_text_address]
    refine ⟨List.cons_ne_nil _ _, ?_⟩
    intro c member
    rcases List.mem_cons.mp member with rfl | hdigit
    · decide
    · exact Text.isPlain_of_isDigit (Text.isDigit_of_mem_decimal hdigit)
  | compute comp dest jump =>
    obtain ⟨hnil, hcomp⟩ := comp.text_chars
    have hdest (text : String) (h : store? dest = some text) := store?_chars h
    rw [toList_text_compute]
    constructor
    · exact List.append_ne_nil_of_left_ne_nil (List.append_ne_nil_of_right_ne_nil _ hnil) _
    · intro c member
      rcases List.mem_append.mp member with hbody | htail
      · exact (bodyText_chars hdest hcomp c hbody).plain
      · cases hjump : jump.text? with
        | none =>
          rw [hjump] at htail
          cases htail
        | some text =>
          rw [hjump] at htail
          rcases List.mem_cons.mp htail with rfl | hletter
          · decide
          · exact Jump.text_chars hjump c hletter

/-- A number that is at most the greatest literal is the value of its decimal numeral, and no
symbol is looked up for it. -/
theorem operand_decimal (symbols : Symbols) (line : Nat) {value : Word}
    (h : value.toNat ≤ Instruction.maxLiteral) :
    symbols.operand line (Text.decimal value.toNat) = .ok (value, symbols) := by
  have hnil : Text.decimal value.toNat ≠ [] := Nat.toDigits_ne_nil
  obtain ⟨first, rest, hfirst⟩ := List.exists_cons_of_ne_nil hnil
  have hdigit : first.isDigit := by
    apply Text.isDigit_of_mem_decimal
    rw [hfirst]
    simp
  have hliteral : literal line (Text.decimal value.toNat) = .ok value := by
    have hlarge : ¬ value.toNat ≥ UInt64.size := by
      rw [Instruction.maxLiteral] at h
      rw [UInt64.size]
      omega
    rw [literal, Text.ofDecimal?_decimal]
    dsimp only
    rw [if_neg hlarge, if_neg (Nat.not_lt.mpr h), BitVec.ofNat_toNat, BitVec.setWidth_eq]
  rw [Symbols.operand, hliteral, hfirst, if_pos (by simpa using hdigit)]
  rfl

/-- The fields of a computing instruction are read back from their texts. -/
theorem computation_text (line : Nat) {comp : Comp} (h : comp.bits.toNat < 2 ^ 9) (dest : Dest)
    (jump : Jump) : computation line (store? dest) comp.text jump.text? =
      .ok (.compute comp dest jump) := by
  have hdest : ((store? dest).map (known line parseStore)).getD (.ok .nowhere) = .ok dest := by
    unfold store?
    cases hempty : dest.isEmpty with
    | true =>
      obtain ⟨a, d, m⟩ := dest
      cases a <;> cases d <;> cases m <;> first | rfl | exact absurd hempty (by decide)
    | false =>
      change known line parseStore dest.text = _
      rw [known, dest.parseStore_text hempty]
  have hcomp : known line Comp.ofText? comp.text = .ok comp := by
    rw [known, Comp.ofText?_text h]
  have hjump : (jump.text?.map (known line Jump.ofText?)).getD (.ok .never) = .ok jump := by
    cases htext : jump.text? with
    | none =>
      cases jump <;> first | rfl | cases htext
    | some text =>
      rw [Option.map_some, Option.getD_some, known, Jump.ofText?_text htext]
  rw [computation, hdest, hcomp, hjump]
  rfl

/-- Encoding the statement of a word appends the word. It may have any sixteen bits, as
decoding keeps all that encoding needs. -/
theorem Output.encode_decode (output : Output) (line : Nat) (word : Word) :
    output.encode (line, .ofInstruction (.decode word)) =
      .ok { output with words := output.words.push word } := by
  have hword := Instruction.encode_decode word
  cases hmsb : word.msb with
  | true =>
    have hdecode : Instruction.decode word =
        .compute (.ofBits (word >>> 6)) (.ofBits (word >>> 3)) (.ofBits word) := if_pos hmsb
    rw [hdecode] at hword ⊢
    rw [Statement.ofInstruction, Output.encode,
      computation_text line (Comp.toNat_bits_ofBits_lt _)]
    dsimp only [bind, Except.bind]
    rw [hword]
    rfl
  | false =>
    have hdecode : Instruction.decode word = .address word := if_neg (by simp [hmsb])
    have hvalue : word.toNat ≤ Instruction.maxLiteral := by
      rw [BitVec.msb_eq_false_iff_two_mul_lt] at hmsb
      rw [Instruction.maxLiteral]
      omega
    rw [hdecode] at hword ⊢
    rw [Statement.ofInstruction, Output.encode, operand_decimal _ line hvalue]
    dsimp only [bind, Except.bind]
    rw [hword]
    rfl

end Assembly

end NandComputer
