import Mathlib.Algebra.Group.Nat.Defs
import NandComputer.Instruction.Json
import NandComputer.Proofs.Instruction
import NandComputer.Proofs.Json.Reading

/-!
Instructions that are built from parts or read from JSON, against the words that they are
encoded as. A part is built with the bits that a word has room for. JSON is taken at its
word: every instruction is read from its own text, also one whose computation field is too
wide, and its word is then the word of another instruction.
-/

namespace NandComputer

section Text

/-- A word is read back from its number, which is in the range that words are read from. -/
theorem Json.word?_ofWord (word : Word) : (Json.ofWord word).word? = some word := by
  have hnatural : (Json.ofWord word).natural? = some word.toNat := rfl
  have hbound : decide (word.toNat < UInt16.size) = true := decide_eq_true word.isLt
  rw [Json.word?, Json.naturalBelow?, hnatural, Option.filter_some, hbound, if_pos rfl,
    Option.map_some, BitVec.ofNat_toNat, BitVec.setWidth_eq]

theorem Comp.ofJson?_toJson (comp : Comp) : ofJson? comp.toJson = some comp := by
  have hfields : comp.toJson.fields? ["bits"] false = some [some (.ofWord comp.bits)] := rfl
  simp [ofJson?, hfields, Json.word?_ofWord]

theorem Dest.ofJson?_toJson (dest : Dest) : ofJson? dest.toJson = some dest := rfl

theorem Jump.ofJson?_toJson (jump : Jump) : ofJson? jump.toJson = some jump := by
  cases jump <;> rfl

namespace Instruction

variable (i : Instruction)

theorem ofJson?_toJson : ofJson? i.toJson = some i := by
  cases i with
  | address value =>
    have hvariant : (toJson (.address value)).variant? =
        some ("Address", some (.ofWord value)) := rfl
    simp [ofJson?, hvariant, Json.word?_ofWord]
  | compute comp dest jump =>
    have hvariant : (toJson (.compute comp dest jump)).variant? =
        some ("Compute", some (.ofFields [("comp", comp.toJson), ("dest", dest.toJson),
          ("jump", jump.toJson)])) := rfl
    have hfields : (Json.ofFields [("comp", comp.toJson), ("dest", dest.toJson),
        ("jump", jump.toJson)]).fields? ["comp", "dest", "jump"] false =
        some [some comp.toJson, some dest.toJson, some jump.toJson] := rfl
    simp [ofJson?, hvariant, hfields, Comp.ofJson?_toJson, Dest.ofJson?_toJson,
      Jump.ofJson?_toJson]

theorem plain_toJson : i.toJson.Plain := by
  have hone {name : String} {value : Json} (h : value.Plain) :
      (Json.ofFields [(name, value)]).Plain :=
    .object (List.forall_mem_singleton.mpr h)
  have hthree {first second third : String} {a b c : Json} (ha : a.Plain) (hb : b.Plain)
      (hc : c.Plain) : (Json.ofFields [(first, a), (second, b), (third, c)]).Plain :=
    .object (by simpa using ⟨ha, hb, hc⟩)
  cases i with
  | address value => exact hone (.natural _)
  | compute comp dest jump =>
    exact hone (hthree (hone (.natural _)) (hthree (.bool _) (.bool _) (.bool _)) (.string _))

/-- Every instruction is read from its own text, whatever its fields hold: what is read is not
checked against the width of a field. -/
theorem parseJson_compact : parseJson i.toJson.compact = some i := by
  rw [parseJson, Json.parse_compact i.plain_toJson, Option.bind_some, ofJson?_toJson]

end Instruction

end Text

/-- The computations that are built from an operand bit and control bits, or from a field. -/
inductive Comp.IsBuilt : Comp → Prop
  | canonical (memoryOperand : Bool) (control : BitVec 6) :
    IsBuilt (.canonical memoryOperand control)
  | ofBits (bits : Word) : IsBuilt (.ofBits bits)

/-- A computation that is built, from control bits or from the bits of a word, has nine bits
at most. -/
theorem Comp.IsBuilt.toNat_bits_lt {comp : Comp} (h : comp.IsBuilt) :
    comp.bits.toNat < 2 ^ 9 := by
  cases h with
  | canonical memoryOperand control =>
    have hcontrol : control.toNat < 2 ^ 9 := Nat.lt_trans control.isLt (by decide)
    have hselector : ((canonicalExtension <<< 7 : Word) |||
        (BitVec.ofBool memoryOperand).setWidth 16 <<< 6).toNat < 2 ^ 9 := by
      cases memoryOperand <;> decide
    rw [Comp.canonical, BitVec.toNat_or, BitVec.toNat_setWidth_of_le (by decide)]
    exact Nat.or_lt_two_pow hselector hcontrol
  | ofBits bits => exact toNat_bits_ofBits_lt bits

namespace Instruction

/-- The instructions that are built from a literal, or from a computation and the bits of a
destination and a jump. -/
inductive IsBuilt : Instruction → Prop
  | address (value : Word) : IsBuilt (.address value)
  | compute {comp : Comp} (hcomp : comp.IsBuilt) (dest jump : Word) :
    IsBuilt (.compute comp (.ofBits dest) (.ofBits jump))

/-- The instruction with its literal reduced to the 15 bits of an instruction word. -/
def reduced : Instruction → Instruction
  | .address value => .address (BitVec.ofNat 16 (value.toNat % 2 ^ 15))
  | .compute comp dest jump => .compute comp dest jump

/-- Whether the computation field, if there is one, has nine bits. -/
def HasNarrowField : Instruction → Prop
  | .address _ => True
  | .compute comp _ _ => comp.bits.toNat < 2 ^ 9

variable (i : Instruction)

theorem IsBuilt.hasNarrowField {i : Instruction} (h : i.IsBuilt) : i.HasNarrowField := by
  cases h with
  | address value => trivial
  | compute hcomp dest jump => exact hcomp.toNat_bits_lt

/-- A literal comes back without its highest bit, which tells literals from computations. -/
theorem decode_encode_address (value : Word) :
    decode (encode (.address value)) = reduced (.address value) := by
  have hvalue : value &&& 0x7FFF = BitVec.ofNat 16 (value.toNat % 2 ^ 15) := by
    apply BitVec.eq_of_toNat_eq
    have hlt : value.toNat % 2 ^ 15 < 2 ^ 16 := Nat.lt_trans (Nat.mod_lt _ (by decide)) (by decide)
    rw [BitVec.toNat_and, BitVec.toNat_ofNat, Nat.mod_eq_of_lt hlt]
    exact Nat.and_two_pow_sub_one_eq_mod _ 15
  have hmsb : (value &&& 0x7FFF).msb = false := by
    rw [BitVec.msb_and]
    exact Bool.and_false _
  rw [encode, decode, hmsb, if_neg Bool.false_ne_true, hvalue]
  rfl

/-- A word loses a computation exactly if its field has more than nine bits, since a word has
no room for these. -/
theorem decode_encode_compute_iff {comp : Comp} (dest : Dest) (jump : Jump) :
    decode (encode (.compute comp dest jump)) = .compute comp dest jump ↔
      comp.bits.toNat < 2 ^ 9 := by
  constructor
  · intro hsame
    rw [decode_encode_ofBits, compute.injEq] at hsame
    rw [← hsame.1]
    exact Comp.toNat_bits_ofBits_lt comp.bits
  · exact decode_encode_compute dest jump

/-- Every instruction is read from a text, and is the instruction of its word, with a literal
reduced to 15 bits, exactly if its computation field has nine bits. All that are built have.
So the only instructions that are lost are read from texts with a wider field. -/
theorem decode_encode_eq_reduced_iff :
    parseJson i.toJson.compact = some i ∧
      (decode i.encode = i.reduced ↔ i.HasNarrowField) ∧
      (i.IsBuilt → i.HasNarrowField) := by
  refine ⟨i.parseJson_compact, ?_, IsBuilt.hasNarrowField⟩
  cases i with
  | address value => exact iff_of_true (decode_encode_address value) trivial
  | compute comp dest jump => exact decode_encode_compute_iff dest jump

/-- A literal of 16 bits is reduced, and a computation that is built comes back whole. -/
theorem decode_encode_eq_reduced_iff_wideLiteral :
    decode (encode (.address 0x8005)) = .address 5 ∧
      decode (encode (.compute (.canonical true 0b010011) (.ofBits 0b010) (.ofBits 0b001))) =
        .compute (.canonical true 0b010011) (.ofBits 0b010) (.ofBits 0b001) := by
  have hcomp : (Comp.canonical true 0b010011).IsBuilt := .canonical _ _
  obtain ⟨-, hliteral, hbuiltLiteral⟩ := decode_encode_eq_reduced_iff (.address 0x8005)
  obtain ⟨-, hcompute, hbuiltCompute⟩ := decode_encode_eq_reduced_iff
    (.compute (.canonical true 0b010011) (.ofBits 0b010) (.ofBits 0b001))
  exact ⟨hliteral.mpr (hbuiltLiteral (.address _)),
    hcompute.mpr (hbuiltCompute (.compute hcomp _ _))⟩

/-- A computation field of ten bits. -/
def wideField : Comp := ⟨0x200⟩

/-- The text of an instruction with a field of ten bits is accepted. Its word is that of
another instruction, and no word has this one. -/
theorem decode_encode_ne_wideField :
    parseJson ("\x7b\"Compute\":\x7b\"comp\":\x7b\"bits\":512\x7d,\"dest\":\x7b\"a\":false," ++
      "\"d\":false,\"m\":false\x7d,\"jump\":\"Never\"\x7d\x7d") =
        some (.compute wideField .nowhere .never) ∧
      decode (encode (.compute wideField .nowhere .never)) = .compute ⟨0⟩ .nowhere .never ∧
      ∀ word, decode word ≠ .compute wideField .nowhere .never := by
  refine ⟨(.compute wideField .nowhere .never : Instruction).parseJson_compact, by decide, ?_⟩
  intro word hword
  have hback := encode_decode word
  have hlost : decode (encode (.compute wideField .nowhere .never)) ≠
      .compute wideField .nowhere .never := by decide
  rw [hword] at hback
  rw [← hback] at hword
  exact hlost hword

end Instruction

end NandComputer
