import NandComputer.Proofs.Chip.Cpu
import NandComputer.WordMachine

/-!
A step of the word machine by the bits of the instruction word: it changes the
registers as the processor does, and one memory word at most. An address outside
the memory reads as 0 and is not written.
-/

namespace NandComputer.WordMachine

/-- The registers, without the bit of the program counter that is always 0. -/
def registers (m : WordMachine) : Registers := ⟨m.a, m.d, m.pc.setWidth 15⟩

/-- A step that is followed by a reset of the program counter on demand. -/
def tick (m : WordMachine) (word : Word) (reset : Bool) : WordMachine :=
  if reset then { m.step word with pc := 0 } else m.step word

variable (m : WordMachine) (word : Word)

theorem toNat_addressOf : (addressOf word).toNat = word.toNat % 2 ^ 15 := by
  rw [addressOf, BitVec.toNat_and]
  exact Nat.and_two_pow_sub_one_eq_mod word.toNat 15

/-- An address has no other bits than its low 15, so taking these leaves it as it is. -/
theorem addressOf_eq_self {word : Word} (h : word.toNat < 2 ^ 15) : addressOf word = word := by
  apply BitVec.eq_of_toNat_eq
  rw [toNat_addressOf, Nat.mod_eq_of_lt h]

theorem setWidth_addressOf : (addressOf word).setWidth 15 = word.extractLsb' 0 15 := by
  apply BitVec.eq_of_toNat_eq
  rw [BitVec.toNat_setWidth, toNat_addressOf, Nat.mod_mod, BitVec.extractLsb'_toNat,
    Nat.shiftRight_zero]

theorem readM_of_le (h : m.ram.size ≤ (addressOf m.a).toNat) : m.readM = 0 := by
  rw [readM, Array.getD_eq_getD_getElem?, Array.getElem?_eq_none h, Option.getD_none]

theorem getElem?_readM (h : (addressOf m.a).toNat < m.ram.size) :
    m.ram[(addressOf m.a).toNat]? = some m.readM := by
  rw [readM, Array.getD_eq_getD_getElem?, Array.getElem?_eq_getElem h, Option.getD_some]

section Result

theorem memoryOperand_ofBits : (Comp.ofBits (word >>> 6)).memoryOperand = word.getLsbD 12 := by
  simp [Comp.memoryOperand, Comp.ofBits]

theorem control_ofBits : (Comp.ofBits (word >>> 6)).control = word.extractLsb' 6 6 := by
  apply BitVec.eq_of_getLsbD_eq
  intro i hi
  interval_cases i <;> simp [Comp.control, Comp.ofBits]

theorem setWidth_bits_ofBits :
    (Comp.ofBits (word >>> 6)).bits.setWidth 9 = word.extractLsb' 6 9 := by
  apply BitVec.eq_of_getLsbD_eq
  intro i hi
  interval_cases i <;> simp [Comp.ofBits]

/-- The computation field of a word gives what the processor computes for the word, with
either unit. -/
theorem result_ofBits :
    m.result (.ofBits (word >>> 6)) = m.registers.result m.alu m.readM word := by
  rw [result, Registers.result, memoryOperand_ofBits, control_ofBits, setWidth_bits_ofBits]
  cases m.alu <;> rfl

end Result

section Step

theorem setWidth_successor : m.successor.setWidth 15 = m.registers.pc + 1 := by
  rw [successor, setWidth_addressOf, registers]
  apply BitVec.eq_of_toNat_eq
  simp

/-- A step changes the registers as the processor does at a tick without reset. Literals and
computations are told apart by the highest bit. -/
theorem registers_step :
    (m.step word).registers = m.registers.next m.alu m.readM word false := by
  rw [step, Registers.next, Instruction.decode]
  cases word.msb with
  | false =>
    rw [if_neg Bool.false_ne_true, execute, registers, setWidth_successor]
    rfl
  | true =>
    rw [if_pos rfl, execute, compute, result_ofBits, registers]
    dsimp only
    congr 1
    split
    case isTrue => exact setWidth_addressOf m.a
    case isFalse => exact m.setWidth_successor

/-- A tick changes the registers as the processor does, with reset or without. -/
theorem registers_tick (reset : Bool) :
    (m.tick word reset).registers = m.registers.next m.alu m.readM word reset := by
  cases reset with
  | false => exact m.registers_step word
  | true =>
    rw [Registers.next_true, ← registers_step]
    rfl

theorem alu_tick (reset : Bool) : (m.tick word reset).alu = m.alu := by
  have hstep : (m.tick word reset).alu = (m.step word).alu := by
    cases reset <;> rfl
  rw [hstep, step]
  cases Instruction.decode word <;> rfl

/-- Memory changes only at the address in A, and only if the instruction stores there. Reset
does not keep it from doing so. -/
theorem ram_tick (reset : Bool) : (m.tick word reset).ram =
    if Registers.stores word then
      m.ram.setIfInBounds (addressOf m.a).toNat (m.registers.result m.alu m.readM word)
    else m.ram := by
  have hstep : (m.tick word reset).ram = (m.step word).ram := by
    cases reset <;> rfl
  rw [hstep, step, Registers.stores, Instruction.decode]
  cases word.msb with
  | false => rfl
  | true =>
    rw [if_pos rfl, execute, compute, result_ofBits]

theorem ram_tick_of_le (reset : Bool) (h : m.ram.size ≤ (addressOf m.a).toNat) :
    (m.tick word reset).ram = m.ram := by
  rw [ram_tick, Array.setIfInBounds_eq_of_size_le h, ite_self]

theorem size_ram_tick (reset : Bool) : (m.tick word reset).ram.size = m.ram.size := by
  rw [ram_tick]
  split
  case isTrue => exact Array.size_setIfInBounds
  case isFalse => rfl

/-- The program counter stays an address: it goes around behind the last one, and jumps drop
the highest bit of A. -/
theorem pc_tick_lt (reset : Bool) : (m.tick word reset).pc.toNat < 2 ^ 15 := by
  have haddress (value : Word) : (addressOf value).toNat < 2 ^ 15 := by
    rw [toNat_addressOf]
    exact Nat.mod_lt _ (by omega)
  cases reset with
  | true => exact Nat.two_pow_pos 15
  | false =>
    rw [tick, if_neg Bool.false_ne_true, step]
    cases Instruction.decode word with
    | address value => exact haddress (m.pc + 1)
    | compute comp dest jump =>
      rw [execute, compute]
      dsimp only
      split
      case isTrue => exact haddress m.a
      case isFalse => exact haddress (m.pc + 1)

end Step

end NandComputer.WordMachine
