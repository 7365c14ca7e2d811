import Mathlib.Tactic.IntervalCases
import NandComputer.Instruction.Basic

/-!
The fields of an instruction word, bit by bit. Encoding inverts decoding, since
no bit of a word is dropped, and decoding inverts encoding on computations whose
field has nine bits. Of a wider field, the low nine bits are left.
-/

namespace NandComputer

theorem Dest.getLsbD_bits (dest : Dest) (i : Nat) :
    dest.bits.getLsbD i =
      (i == 2 && dest.a || i == 1 && dest.d || i == 0 && dest.m) := by
  obtain ⟨a, d, m⟩ := dest
  by_cases hi : i < 16
  · cases a <;> cases d <;> cases m <;> interval_cases i <;> rfl
  · rw [BitVec.getLsbD_of_ge _ _ (by omega)]
    have hne (j : Nat) (hj : j ≤ 2) : (i == j) = false := by
      rw [beq_eq_false_iff_ne]
      omega
    simp [hne]

theorem Dest.bits_ofBits (word : Word) : (Dest.ofBits word).bits = word &&& 7 := by
  apply BitVec.eq_of_getLsbD_eq
  intro i hi
  rw [Dest.getLsbD_bits, BitVec.getLsbD_and, Dest.ofBits]
  interval_cases i <;> simp

theorem Jump.bits_ofBits (word : Word) : (Jump.ofBits word).bits = word &&& 7 := by
  rw [← Dest.bits_ofBits, Dest.ofBits, Jump.ofBits]
  cases word.getLsbD 2 <;> cases word.getLsbD 1 <;> cases word.getLsbD 0 <;> rfl

theorem Dest.ofBits_bits (dest : Dest) : Dest.ofBits dest.bits = dest := by
  rw [Dest.ofBits, Dest.getLsbD_bits, Dest.getLsbD_bits, Dest.getLsbD_bits]
  simp

theorem Jump.ofBits_bits (jump : Jump) : Jump.ofBits jump.bits = jump := by
  cases jump <;> rfl

/-- Decoding loses nothing: every bit of a word is in one of the fields, so each word is that
of its instruction. -/
theorem Instruction.encode_decode (word : Word) : (decode word).encode = word := by
  unfold decode
  split
  case isTrue hmsb =>
    rw [BitVec.msb_eq_getLsbD_last] at hmsb
    rw [encode, Dest.bits_ofBits, Jump.bits_ofBits, Comp.ofBits]
    apply BitVec.eq_of_getLsbD_eq
    intro i hi
    interval_cases i <;> simp_all
  case isFalse hmsb =>
    rw [BitVec.msb_eq_getLsbD_last] at hmsb
    rw [encode]
    apply BitVec.eq_of_getLsbD_eq
    intro i hi
    interval_cases i <;> simp_all

theorem Comp.ofBits_bits {comp : Comp} (h : comp.bits.toNat < 2 ^ 9) :
    ofBits comp.bits = comp := by
  have hmask : comp.bits &&& 0x1FF = comp.bits := by
    apply BitVec.eq_of_toNat_eq
    rw [BitVec.toNat_and]
    exact (Nat.and_two_pow_sub_one_eq_mod _ 9).trans (Nat.mod_eq_of_lt h)
  rw [ofBits, hmask]

theorem Comp.toNat_bits_ofBits_lt (bits : Word) : (ofBits bits).bits.toNat < 2 ^ 9 := by
  rw [ofBits, BitVec.toNat_and]
  exact Nat.lt_of_le_of_lt Nat.and_le_right (by decide)

section Computation

/-- A number below a power of 2 has no bits from there on. -/
theorem Word.getLsbD_eq_false {word : Word} {width i : Nat} (h : word.toNat < 2 ^ width)
    (hi : width ≤ i) : word.getLsbD i = false :=
  Nat.testBit_lt_two_pow (Nat.lt_of_lt_of_le h (Nat.pow_le_pow_right Nat.two_pos hi))

theorem Dest.toNat_bits_lt (dest : Dest) : dest.bits.toNat < 2 ^ 3 := by
  obtain ⟨a, d, m⟩ := dest
  cases a <;> cases d <;> cases m <;> decide

theorem Jump.toNat_bits_lt (jump : Jump) : jump.bits.toNat < 2 ^ 3 := by
  cases jump <;> decide

variable {comp : Comp} (dest : Dest) (jump : Jump) {i : Nat}

/-- The bits of an encoded computation: the highest, and those of the three fields in their
places. A field that is too wide reaches into the place above. -/
theorem Instruction.getLsbD_encode_compute (hi : i < 16) :
    (encode (.compute comp dest jump)).getLsbD i =
      (i == 15 || 6 ≤ i && comp.bits.getLsbD (i - 6) || 3 ≤ i && dest.bits.getLsbD (i - 3) ||
        jump.bits.getLsbD i) := by
  rw [encode, BitVec.getLsbD_or, BitVec.getLsbD_or, BitVec.getLsbD_or, BitVec.getLsbD_shiftLeft,
    BitVec.getLsbD_shiftLeft]
  interval_cases i <;> simp

/-- The fields of a word do not overlap, so the jump has its own bits. -/
theorem Jump.ofBits_encode : Jump.ofBits (Instruction.encode (.compute comp dest jump)) = jump := by
  have hbit {i : Nat} (hi : i < 3) :
      (Instruction.encode (.compute comp dest jump)).getLsbD i = jump.bits.getLsbD i := by
    rw [Instruction.getLsbD_encode_compute dest jump (by omega)]
    interval_cases i <;> simp
  rw [ofBits, hbit (by omega), hbit (by omega), hbit (by omega)]
  exact jump.ofBits_bits

theorem Dest.ofBits_encode :
    Dest.ofBits (Instruction.encode (.compute comp dest jump) >>> 3) = dest := by
  have hbit {i : Nat} (hi : i < 3) :
      (Instruction.encode (.compute comp dest jump) >>> 3).getLsbD i = dest.bits.getLsbD i := by
    have hjump := Word.getLsbD_eq_false jump.toNat_bits_lt (i := 3 + i) (by omega)
    rw [BitVec.getLsbD_ushiftRight, Instruction.getLsbD_encode_compute dest jump (by omega), hjump]
    interval_cases i <;> simp
  rw [ofBits, hbit (by omega), hbit (by omega), hbit (by omega)]
  exact dest.ofBits_bits

theorem Comp.ofBits_encode :
    Comp.ofBits (Instruction.encode (.compute comp dest jump) >>> 6) = .ofBits comp.bits := by
  rw [ofBits, ofBits]
  congr 1
  apply BitVec.eq_of_getLsbD_eq
  intro i hi
  rw [BitVec.getLsbD_and, BitVec.getLsbD_and, BitVec.getLsbD_ushiftRight]
  by_cases hlow : i < 9
  · have hdest := Word.getLsbD_eq_false dest.toNat_bits_lt (i := 6 + i - 3) (by omega)
    have hjump := Word.getLsbD_eq_false jump.toNat_bits_lt (i := 6 + i) (by omega)
    rw [Instruction.getLsbD_encode_compute dest jump (by omega), hdest, hjump]
    interval_cases i <;> simp
  · have hhigh : (0x1FF : Word).getLsbD i = false :=
      Word.getLsbD_eq_false (show (0x1FF : Word).toNat < 2 ^ 9 by decide) (by omega)
    rw [hhigh, Bool.and_false, Bool.and_false]

/-- A computation keeps the low nine bits of its field, and all else. Only the bits above
these are lost. -/
theorem Instruction.decode_encode_ofBits :
    decode (encode (.compute comp dest jump)) = .compute (.ofBits comp.bits) dest jump := by
  have hmsb : (encode (.compute comp dest jump)).msb = true := by
    rw [BitVec.msb_eq_getLsbD_last, getLsbD_encode_compute dest jump (by omega)]
    rfl
  rw [decode, if_pos hmsb, Comp.ofBits_encode, Dest.ofBits_encode, Jump.ofBits_encode]

/-- Encoding loses nothing of a computation whose field has nine bits. -/
theorem Instruction.decode_encode_compute (hcomp : comp.bits.toNat < 2 ^ 9) :
    decode (encode (.compute comp dest jump)) = .compute comp dest jump := by
  rw [decode_encode_ofBits, Comp.ofBits_bits hcomp]

end Computation

end NandComputer
