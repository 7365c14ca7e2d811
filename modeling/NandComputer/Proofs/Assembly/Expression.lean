import Mathlib.Data.BitVec
import NandComputer.Proofs.Assembly.Grammar
import NandComputer.Proofs.Computer.Variants

/-!
The meaning of mnemonics. A mnemonic is an expression over the registers and the memory
word, and the field that the assembler chooses for it makes the arithmetic unit compute
the value of this expression. The control bits know neither subtraction nor negation nor
disjunction: these are complements before and after an addition or a conjunction.
-/

namespace NandComputer

/-- What the text of a computation says. -/
inductive Expression where
  | zero
  | one
  | d
  | a
  | m
  | not (operand : Expression)
  | negate (operand : Expression)
  | add (left right : Expression)
  | sub (left right : Expression)
  | and (left right : Expression)
  | or (left right : Expression)
  | mul (left right : Expression)
  | shiftRight (operand : Expression)
  | shiftLeft (operand : Expression)
  deriving DecidableEq, Repr

namespace Expression

/-- The value of an expression in a state, in words that wrap around. -/
def value (m : WordMachine) : Expression → Word
  | .zero => 0
  | .one => 1
  | .d => m.d
  | .a => m.a
  | .m => m.readM
  | .not operand => ~~~operand.value m
  | .negate operand => -operand.value m
  | .add left right => left.value m + right.value m
  | .sub left right => left.value m - right.value m
  | .and left right => left.value m &&& right.value m
  | .or left right => left.value m ||| right.value m
  | .mul left right => left.value m * right.value m
  | .shiftRight operand => operand.value m >>> 1
  | .shiftLeft operand => operand.value m <<< 1

/-- A constant, a register or the memory word. -/
def operand? : Char → Option Expression
  | '0' => some .zero
  | '1' => some .one
  | 'D' => some .d
  | 'A' => some .a
  | 'M' => some .m
  | _ => none

def operator? : Char → Option (Expression → Expression → Expression)
  | '+' => some .add
  | '-' => some .sub
  | '&' => some .and
  | '|' => some .or
  | '*' => some .mul
  | _ => none

/-- An operand, or one operator with its operands. -/
def ofChars? : List Char → Option Expression
  | [c] => operand? c
  | ['!', c] => (operand? c).map .not
  | ['-', c] => (operand? c).map .negate
  | [c, '>', '>'] => (operand? c).map .shiftRight
  | [c, '<', '<'] => (operand? c).map .shiftLeft
  | [left, operator, right] => do
    return (← operator? operator) (← operand? left) (← operand? right)
  | _ => none

/-- The expression that a text is. -/
def ofText? (text : String) : Option Expression := ofChars? text.toList

/-- The second operand of the arithmetic unit. -/
def secondOperand (memoryOperand : Bool) : Expression := if memoryOperand then .m else .a

/-- Control bits, with what the standard unit makes of D and the second operand. -/
def controls (y : Expression) : List (BitVec 6 × Expression) :=
  [(0b101010, .zero),
    (0b111111, .one),
    (0b111010, .negate .one),
    (0b001100, .d),
    (0b110000, y),
    (0b001101, .not .d),
    (0b110001, .not y),
    (0b001111, .negate .d),
    (0b110011, .negate y),
    (0b011111, .add .d .one),
    (0b110111, .add y .one),
    (0b001110, .sub .d .one),
    (0b110010, .sub y .one),
    (0b000010, .add .d y),
    (0b010011, .sub .d y),
    (0b000111, .sub y .d),
    (0b000000, .and .d y),
    (0b010101, .or .d y)]

/-- Fields of the extended unit, with what they compute. -/
def extensions : List (Word × Expression) :=
  [(0b000000000, .mul .d .a),
    (0b001000000, .mul .d .m),
    (0b010000000, .shiftRight .a),
    (0b010100000, .shiftRight .d),
    (0b011000000, .shiftLeft .m),
    (0b011100000, .shiftLeft .d)]

/-- The operands of a commutative operator the other way round. -/
def swapped : Expression → Expression
  | .add left right => .add right left
  | .and left right => .and right left
  | .or left right => .or right left
  | e => e

/-- Swapping the operands of a commutative operation does not change its value. This is why
second spellings of mnemonics mean the same. -/
theorem value_swapped (m : WordMachine) (e : Expression) : e.swapped.value m = e.value m := by
  cases e with
  | add left right => exact BitVec.add_comm _ _
  | and left right => exact BitVec.and_comm _ _
  | or left right => exact BitVec.or_comm _ _
  | _ => rfl

end Expression

namespace Word

/-! The complements that the control bits are made of. -/

variable (x y : Word)

theorem not_zero : (~~~0 : Word) = -1 := rfl

theorem and_not_zero : x &&& ~~~0 = x := BitVec.and_allOnes

theorem not_zero_and : ~~~0 &&& x = x := BitVec.allOnes_and

theorem add_not_zero : x + ~~~0 = x - 1 := by
  rw [not_zero, BitVec.sub_eq_add_neg]

theorem not_zero_add : ~~~0 + x = x - 1 := by
  rw [BitVec.add_comm, add_not_zero]

/-- A subtraction as the unit performs it: complement the first operand, add the second and
complement the sum. -/
theorem not_not_add : ~~~(~~~x + y) = x - y := by
  rw [BitVec.not_add_eq_not_neg, BitVec.not_not]

theorem not_add_not : ~~~(x + ~~~y) = y - x := by
  rw [BitVec.add_comm, not_not_add]

theorem not_add_not_zero : ~~~(x + ~~~0) = -x := by
  rw [not_add_not, zero_sub]

theorem not_not_zero_add : ~~~(~~~0 + x) = -x := by
  rw [not_not_add, zero_sub]

/-- An increment by complements: with both operands complemented before and the sum
complemented after, minus one becomes plus one. -/
theorem not_not_add_not_zero : ~~~(~~~x + ~~~0) = x + 1 := by
  rw [not_not_add, not_zero]
  ring

theorem not_not_zero_add_not : ~~~(~~~0 + ~~~x) = x + 1 := by
  rw [BitVec.add_comm, not_not_add_not_zero]

/-- De Morgan's law on words. The unit has no disjunction of its own and builds it from a
conjunction of complements. -/
theorem not_not_and_not : ~~~(~~~x &&& ~~~y) = x ||| y := by
  rw [BitVec.not_and, BitVec.not_not, BitVec.not_not]

end Word

namespace Expression

open Word

variable (m : WordMachine)

/-- The second operand of a computation is the memory word or the address register, as the
field selects. -/
theorem value_secondOperand (memoryOperand : Bool) :
    (secondOperand memoryOperand).value m = if memoryOperand then m.readM else m.a := by
  cases memoryOperand <;> rfl

/-- What the standard unit does with the control bits of the table: for every entry, its
output is the value of the expression that the entry names, whatever the operands are. -/
theorem alu_of_mem_controls (y : Expression) : ∀ entry ∈ controls y,
    (alu m.d (y.value m) entry.1).out = entry.2.value m := by
  simp only [controls, List.forall_mem_cons, List.not_mem_nil, false_implies, implies_true,
    and_true]
  exact ⟨rfl,
    not_not_add 0 (~~~0),
    (BitVec.add_zero (~~~0)).trans not_zero,
    and_not_zero m.d,
    not_zero_and (y.value m),
    congrArg (~~~·) (and_not_zero m.d),
    congrArg (~~~·) (not_zero_and (y.value m)),
    not_add_not_zero m.d,
    not_not_zero_add (y.value m),
    not_not_add_not_zero m.d,
    not_not_zero_add_not (y.value m),
    add_not_zero m.d,
    not_zero_add (y.value m),
    rfl,
    not_not_add m.d (y.value m),
    not_add_not m.d (y.value m),
    rfl,
    not_not_and_not m.d (y.value m)⟩

end Expression

namespace WordMachine

variable (m : WordMachine)

/-- Every machine computes a canonical field with the standard unit. On a machine with the
extended unit this is a matter of the mode bits, which are the canonical ones here. -/
theorem result_canonical (memoryOperand : Bool) (control : BitVec 6) :
    m.result (.canonical memoryOperand control) =
      (Word.alu m.d (if memoryOperand then m.readM else m.a) control).out := by
  have hfield : (Comp.canonical memoryOperand control).canonicalized =
      .canonical memoryOperand control := by
    rw [Comp.canonicalized, Comp.canonical]
    congr 1
    rw [BitVec.or_comm, ← BitVec.or_assoc, ← BitVec.or_assoc, BitVec.or_self]
  have hoperand : (Comp.canonical memoryOperand control).memoryOperand = memoryOperand := by
    rw [Comp.memoryOperand, Comp.canonical]
    cases memoryOperand <;> simp [Comp.canonicalExtension]
  have hcontrol : (Comp.canonical memoryOperand control).control = control := by
    rw [Comp.control, Comp.canonical]
    apply BitVec.eq_of_getLsbD_eq
    intro i hi
    cases memoryOperand <;> interval_cases i <;> simp [Comp.canonicalExtension]
  have hunit (y : Word) :
      Word.extendedAlu m.d y ((Comp.canonical memoryOperand control).bits.setWidth 9) =
        Word.alu m.d y control := by
    have hextended := Word.extendedAlu_canonicalized m.d y (.canonical memoryOperand control)
    rwa [hfield, hcontrol] at hextended
  rw [result, hoperand, hcontrol, hunit]
  cases m.alu <;> rfl

/-- What the extended unit does with the fields that only it knows: shifts and the product,
each the value of the expression that the table names. -/
theorem result_of_mem_extensions (h : m.alu = .extended) : ∀ entry ∈ Expression.extensions,
    m.result (.ofBits entry.1) = entry.2.value m := by
  have hresult (comp : Comp) : m.result comp =
      (Word.extendedAlu m.d (if comp.memoryOperand then m.readM else m.a)
        (comp.bits.setWidth 9)).out := by
    rw [result, h]
  simp only [Expression.extensions, List.forall_mem_cons, List.not_mem_nil, false_implies,
    implies_true, and_true, hresult]
  exact ⟨rfl, rfl, rfl, rfl, rfl, rfl⟩

end WordMachine

namespace Assembly

/-- The canonical mnemonics are expressions, and the control bits that the assembler has for a
mnemonic are those that the table of expressions has for it. -/
theorem lookup_controls : ∀ entry ∈ canonicalMnemonics, Expression.ofText? entry.1 ≠ none ∧
    (Expression.controls (.secondOperand entry.2.1)).lookup entry.2.2 =
      Expression.ofText? entry.1 := by
  decide

/-- The mnemonics of the extended unit are expressions too, and their fields are those of the
table of expressions. -/
theorem lookup_extensions : ∀ entry ∈ extendedMnemonics, Expression.ofText? entry.1 ≠ none ∧
    Expression.extensions.lookup entry.2 = Expression.ofText? entry.1 := by
  decide

/-- A second spelling is the expression of the first one with its operands swapped. -/
theorem ofText?_swapped : ∀ entry ∈ swappedSpellings,
    Expression.ofText? entry.1 = (Expression.ofText? entry.2).map .swapped := by
  decide

theorem isCanonical_extended : ∀ entry ∈ extendedMnemonics,
    (Comp.ofBits entry.2).isCanonical = false := by
  decide

/-- No mnemonic has a field of more than nine bits, so encoding it loses nothing. -/
theorem toNat_bits_lt : ∀ entry ∈ mnemonics, entry.2.bits.toNat < 2 ^ 9 := by
  decide

/-- The spellings that do not need the extended unit. -/
def standardTexts : List String := canonicalMnemonics.map Prod.fst ++ swappedSpellings.map Prod.fst

theorem isCanonical_standard : ∀ text ∈ standardTexts,
    (Comp.ofText? text).all Comp.isCanonical = true := by
  decide

theorem head_ne_of_mem_swappedSpellings_snd : ∀ entry ∈ swappedSpellings,
    entry.2.toList.head? ≠ some '#' := by
  decide

/-- Without the mark of a raw field, a text that is accepted for a computation is a mnemonic
of the table or a second spelling of one. -/
theorem mem_mnemonics_of_ofText? {text : String} {comp : Comp} (h : Comp.ofText? text = some comp)
    (hmark : text.toList.head? ≠ some '#') : (text, comp) ∈ mnemonics ∨
      ∃ name, (text, name) ∈ swappedSpellings ∧ (name, comp) ∈ mnemonics := by
  rw [Comp.ofText?] at h
  cases hlookup : swappedSpellings.lookup text with
  | none =>
    rw [hlookup, Option.getD_none] at h
    split at h
    case h_1 raw htext => exact absurd (by rw [htext]; rfl) hmark
    case h_2 => exact .inl (mem_of_lookup_eq_some h)
  | some name =>
    have hswapped := mem_of_lookup_eq_some hlookup
    rw [hlookup, Option.getD_some] at h
    split at h
    case h_1 raw htext =>
      exact absurd (by rw [htext]; rfl) (head_ne_of_mem_swappedSpellings_snd _ hswapped)
    case h_2 => exact .inr ⟨name, hswapped, mem_of_lookup_eq_some h⟩

/-- Every mnemonic of the table is an expression, and a machine that has the unit for its
field computes the value of this expression. -/
theorem exists_expression_of_mem {name : String} {comp : Comp} (h : (name, comp) ∈ mnemonics) :
    ∃ e, Expression.ofText? name = some e ∧ ∀ m : WordMachine,
      m.alu = .extended ∨ comp.isCanonical = true → m.result comp = e.value m := by
  rcases List.mem_append.mp h with hmem | hmem
  · obtain ⟨⟨_, memoryOperand, control⟩, hentry, heq⟩ := List.mem_map.mp hmem
    cases heq
    obtain ⟨hsome, hlookup⟩ := lookup_controls _ hentry
    obtain ⟨e, he⟩ := Option.ne_none_iff_exists'.mp hsome
    refine ⟨e, he, fun m _ => ?_⟩
    have hcontrol := mem_of_lookup_eq_some (hlookup.trans he)
    rw [WordMachine.result_canonical, ← Expression.value_secondOperand]
    exact Expression.alu_of_mem_controls m _ _ hcontrol
  · obtain ⟨⟨_, bits⟩, hentry, heq⟩ := List.mem_map.mp hmem
    cases heq
    obtain ⟨hsome, hlookup⟩ := lookup_extensions _ hentry
    obtain ⟨e, he⟩ := Option.ne_none_iff_exists'.mp hsome
    refine ⟨e, he, fun m hunit => ?_⟩
    have hextended : m.alu = .extended :=
      hunit.resolve_right (by rw [isCanonical_extended _ hentry]; exact Bool.false_ne_true)
    have hfield := mem_of_lookup_eq_some (hlookup.trans he)
    have hresult := m.result_of_mem_extensions hextended _ hfield
    exact hresult

/-- A text that is accepted without the mark of a raw field is an expression, also in its
second spelling. Its field fits into nine bits and computes the value of the expression. -/
theorem exists_expression {text : String} {comp : Comp} (h : Comp.ofText? text = some comp)
    (hmark : text.toList.head? ≠ some '#') : ∃ e, Expression.ofText? text = some e ∧
      comp.bits.toNat < 2 ^ 9 ∧ ∀ m : WordMachine,
        m.alu = .extended ∨ comp.isCanonical = true → m.result comp = e.value m := by
  rcases mem_mnemonics_of_ofText? h hmark with hmem | ⟨name, hswapped, hmem⟩
  · obtain ⟨e, he, hresult⟩ := exists_expression_of_mem hmem
    exact ⟨e, he, toNat_bits_lt _ hmem, hresult⟩
  · obtain ⟨e, he, hresult⟩ := exists_expression_of_mem hmem
    have hread := ofText?_swapped _ hswapped
    rw [he] at hread
    refine ⟨e.swapped, hread, toNat_bits_lt _ hmem, fun m hunit => ?_⟩
    rw [Expression.value_swapped]
    exact hresult m hunit

end Assembly

/-- A jump is taken on the sign of the output: its three bits stand for a negative, a zero and
a positive one. -/
theorem Jump.taken_iff (jump : Jump) (out : Word) : jump.taken out = true ↔
    jump.bits.getLsbD 2 = true ∧ out.toInt < 0 ∨ jump.bits.getLsbD 1 = true ∧ out.toInt = 0 ∨
      jump.bits.getLsbD 0 = true ∧ 0 < out.toInt := by
  have hzero : out = 0 ↔ out.toInt = 0 := BitVec.toInt_inj.symm
  simp only [taken, Bool.or_eq_true, Bool.and_eq_true, BitVec.slt_iff_toInt_lt, beq_iff_eq, hzero,
    or_assoc]
  rfl

namespace Assembly

/-- What the jump mnemonics say of a signed number. -/
def jumpConditions : List (String × (Int → Prop)) :=
  [("JGT", fun out => 0 < out),
    ("JEQ", fun out => out = 0),
    ("JGE", fun out => 0 ≤ out),
    ("JLT", fun out => out < 0),
    ("JNE", fun out => out ≠ 0),
    ("JLE", fun out => out ≤ 0),
    ("JMP", fun _ => True)]

/-- Each jump mnemonic of the table has a jump, and this jump is taken exactly on the outputs
that its condition describes. -/
theorem exists_jump_of_condition : ∀ entry ∈ jumpConditions,
    ∃ jump, Jump.ofText? entry.1 = some jump ∧
      ∀ out : Word, jump.taken out = true ↔ entry.2 out.toInt := by
  simp only [jumpConditions, List.forall_mem_cons, List.not_mem_nil, false_implies, implies_true,
    and_true]
  refine ⟨⟨.gt, Jump.ofText?_text rfl, fun out => ?_⟩, ⟨.eq, Jump.ofText?_text rfl, fun out => ?_⟩,
    ⟨.ge, Jump.ofText?_text rfl, fun out => ?_⟩, ⟨.lt, Jump.ofText?_text rfl, fun out => ?_⟩,
    ⟨.ne, Jump.ofText?_text rfl, fun out => ?_⟩, ⟨.le, Jump.ofText?_text rfl, fun out => ?_⟩,
    .always, Jump.ofText?_text rfl, fun out => ?_⟩
  all_goals
    rw [Jump.taken_iff]
    simp [Jump.bits]
  all_goals omega

/-- A text of a computation without the mark of a raw field is an expression, and the
computation gives the value of this expression in every state: on the extended unit always,
and on the standard one for the canonical mnemonics and their second spellings. The
instruction word keeps the computation, since decoding what is encoded gives it back. The jump
mnemonics are taken on the results that they name, as signed numbers. -/
theorem mnemonics_mean :
    (∀ (text : String) (comp : Comp), Comp.ofText? text = some comp →
      text.toList.head? ≠ some '#' → ∃ e, Expression.ofText? text = some e ∧
        ∀ (m : WordMachine) (dest : Dest) (jump : Jump),
          Instruction.decode (Instruction.encode (.compute comp dest jump)) =
              .compute comp dest jump ∧
            (m.alu = .extended ∨ text ∈ standardTexts → m.result comp = e.value m)) ∧
      ∀ entry ∈ jumpConditions, ∃ jump, Jump.ofText? entry.1 = some jump ∧
        ∀ out : Word, jump.taken out = true ↔ entry.2 out.toInt := by
  refine ⟨?_, exists_jump_of_condition⟩
  intro text comp hread hmark
  obtain ⟨e, he, hbits, hresult⟩ := exists_expression hread hmark
  refine ⟨e, he, fun m dest jump => ⟨Instruction.decode_encode_compute dest jump hbits, ?_⟩⟩
  intro hunit
  apply hresult m
  apply hunit.imp_right
  intro hstandard
  have hcanonical := isCanonical_standard text hstandard
  rwa [hread] at hcanonical

/-- With five in the data register and seven in memory, the difference of the two is minus
two, and the jump on less than zero is taken on it. -/
theorem mnemonics_mean_difference : ∃ comp, Comp.ofText? "D-M" = some comp ∧
    (⟨1, 5, 0, #[0, 7], .standard⟩ : WordMachine).result comp = -2 ∧
    ∃ jump, Jump.ofText? "JLT" = some jump ∧ jump.taken (-2) = true := by
  have hread : Comp.ofText? "D-M" = some (.canonical true 0b010011) := by decide
  obtain ⟨e, he, hmeans⟩ := mnemonics_mean.1 "D-M" _ hread (by decide)
  have hexpression : Expression.ofText? "D-M" = some (.sub .d .m) := by decide
  cases Option.some.inj (he.symm.trans hexpression)
  have hresult := (hmeans ⟨1, 5, 0, #[0, 7], .standard⟩ .nowhere .never).2
    (.inr (by decide))
  obtain ⟨jump, hjump, htaken⟩ := mnemonics_mean.2 ("JLT", fun out => out < 0)
    (by simp [jumpConditions])
  exact ⟨_, hread, hresult, jump, hjump, (htaken (-2)).mpr (by decide)⟩

end Assembly

end NandComputer
