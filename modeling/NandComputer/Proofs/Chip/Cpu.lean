import NandComputer.Chip.Cpu
import NandComputer.Proofs.Chip.Alu
import NandComputer.Proofs.Chip.Register
import NandComputer.Proofs.Instruction

/-!
The processor executes one instruction word at each tick. What it reads of its
registers is what they held before the tick, although the gates that compute
their next values come before them in the circuit.
-/

namespace NandComputer

/-- The result of the arithmetic unit that an instruction word controls. -/
def Word.arithmetic (variant : AluKind) (x y instruction : Word) : AluResult :=
  match variant with
  | .standard => alu x y (instruction.extractLsb' 6 6)
  | .extended => extendedAlu x y (instruction.extractLsb' 6 9)

/-- The jump bits ask for a negative, a zero and a positive result, and a jump is taken if one
of the asked for conditions holds. -/
theorem Jump.taken_ofBits (bits out : Word) : (Jump.ofBits bits).taken out =
    (bits.getLsbD 2 && out.msb || bits.getLsbD 1 && out == 0 ||
      bits.getLsbD 0 && !(out == 0 || out.msb)) := by
  have hbit (i : Nat) (hi : i < 3) : (Jump.ofBits bits).bits.getLsbD i = bits.getLsbD i := by
    rw [Jump.bits_ofBits, BitVec.getLsbD_and]
    interval_cases i <;> simp
  have hpositive : (0 : Word).slt out = !(out == 0 || out.msb) := by
    rw [BitVec.slt_eq_sle_and_ne, show (0 : Word) = 0#16 from rfl, BitVec.zero_sle_eq_not_msb,
      bne, BEq.comm, Bool.not_or, Bool.and_comm]
  have hnegative : out.slt 0 = out.msb := BitVec.slt_zero_eq_msb
  rw [Jump.taken, hbit 2 (by omega), hbit 1 (by omega), hbit 0 (by omega), hpositive, hnegative]

theorem Word.arithmetic_zr (variant : AluKind) (x y instruction : Word) :
    (arithmetic variant x y instruction).zr = ((arithmetic variant x y instruction).out == 0) := by
  cases variant <;> rfl

theorem Word.arithmetic_ng (variant : AluKind) (x y instruction : Word) :
    (arithmetic variant x y instruction).ng = (arithmetic variant x y instruction).out.msb := by
  cases variant <;> rfl

/-- The state of a processor. Its program counter has no sixteenth bit. -/
structure Registers where
  a : Word
  d : Word
  pc : BitVec 15

namespace Registers

/-- What the processor computes for an instruction and an addressed memory word,
also if nothing takes it. -/
def result (r : Registers) (variant : AluKind) (inM instruction : Word) : Word :=
  (Word.arithmetic variant r.d (if instruction.getLsbD 12 then inM else r.a) instruction).out

/-- Whether an instruction stores its result in memory. -/
def stores (instruction : Word) : Bool :=
  match Instruction.decode instruction with
  | .address _ => false
  | .compute _ dest _ => dest.m

/-- The registers after a tick. -/
def next (r : Registers) (variant : AluKind) (inM instruction : Word) (reset : Bool) : Registers :=
  let out := r.result variant inM instruction
  match Instruction.decode instruction with
  | .address value => { r with a := value, pc := if reset then 0 else r.pc + 1 }
  | .compute _ dest jump =>
    { a := if dest.a then out else r.a
      d := if dest.d then out else r.d
      pc :=
        if reset then 0
        else if jump.taken out then r.a.extractLsb' 0 15 else r.pc + 1 }

/-- Reset comes before everything else that the program counter could do. The other registers
take their next contents as without it. -/
theorem next_true (r : Registers) (variant : AluKind) (inM instruction : Word) :
    r.next variant inM instruction true =
      { r.next variant inM instruction false with pc := 0 } := by
  rw [next, next]
  cases Instruction.decode instruction <;> rfl

theorem stores_eq (instruction : Word) :
    stores instruction = (instruction.getLsbD 15 && instruction.getLsbD 3) := by
  rw [stores, Instruction.decode, ← BitVec.msb_eq_getLsbD_last]
  cases instruction.msb with
  | false => rfl
  | true => simp [Dest.ofBits]

/-- The next registers by the bits of the instruction. The gates look at these bits one by
one, while the machine on words decodes the instruction first. -/
theorem next_eq (r : Registers) (variant : AluKind) (inM instruction : Word) (reset : Bool) :
    r.next variant inM instruction reset =
      { a :=
          if !instruction.getLsbD 15 || instruction.getLsbD 15 && instruction.getLsbD 5 then
            if instruction.getLsbD 15 && instruction.getLsbD 5 then
              r.result variant inM instruction
            else instruction
          else r.a
        d :=
          if instruction.getLsbD 15 && instruction.getLsbD 4 then r.result variant inM instruction
          else r.d
        pc :=
          if reset then 0
          else if instruction.getLsbD 15 &&
              (instruction.getLsbD 2 && (r.result variant inM instruction).msb ||
                instruction.getLsbD 1 && r.result variant inM instruction == 0 ||
                instruction.getLsbD 0 && !(r.result variant inM instruction == 0 ||
                  (r.result variant inM instruction).msb)) then
            r.a.extractLsb' 0 15
          else r.pc + 1 } := by
  rw [next, Instruction.decode, ← BitVec.msb_eq_getLsbD_last]
  cases hclass : instruction.msb with
  | false => simp
  | true =>
    have hload (store : Bool) (x y z : Word) :
        (if store then if store then x else z else y) = if store then x else y := by
      cases store <;> rfl
    simp [Jump.taken_ofBits, Dest.ofBits, hload]

end Registers

namespace Chip

open Build

-- the instances of an action grow with its length
set_option synthInstance.maxSize 100000

section Grows

instance (variant : AluKind) (x y instruction : Bus) :
    Grows (arithmetic variant x y instruction) := by
  cases variant
  · exact inferInstanceAs (Grows (alu _ _ _))
  · exact inferInstanceAs (Grows (extendedAlu _ _ _))

instance (instruction : Bus) (zr ng : Wire) : Grows (jumpWanted instruction zr ng) := by
  unfold jumpWanted
  infer_instance

instance (inM instruction : Bus) (reset : Wire) (variant : AluKind) :
    Grows (cpu inM instruction reset variant) := by
  unfold cpu
  dsimp only
  infer_instance

end Grows

/-- The wires of a processor hold its registers. -/
structure Cpu.Holds (v : Wire → Bool) (c : Cpu) (r : Registers) : Prop where
  a : c.a.Carries v r.a
  d : c.d.Carries v r.d
  pc : c.pc.Carries v r.pc

theorem Cpu.exists_holds {v : Wire → Bool} {c : Cpu} (ha : c.a.length = 16)
    (hd : c.d.length = 16) (hpc : c.pc.length = 15) : ∃ r : Registers, c.Holds v r := by
  obtain ⟨a, ha⟩ := Bus.exists_carries (v := v) ha
  obtain ⟨d, hd⟩ := Bus.exists_carries (v := v) hd
  obtain ⟨pc, hpc⟩ := Bus.exists_carries (v := v) hpc
  exact ⟨⟨a, d, pc⟩, ha, hd, hpc⟩

/-- A state of the wires has only one set of registers, so registers may be read off the
wires. -/
theorem Cpu.Holds.unique {v : Wire → Bool} {c : Cpu} {r other : Registers} (h : c.Holds v r)
    (hother : c.Holds v other) : r = other := by
  obtain ⟨a, d, pc⟩ := r
  obtain ⟨a', d', pc'⟩ := other
  obtain rfl : a = a' := h.a.unique hother.a
  obtain rfl : d = d' := h.d.unique hother.d
  obtain rfl : pc = pc' := h.pc.unique hother.pc
  rfl

/-- A processor does what its registers, the instruction and the addressed
memory word say: within the tick, and to its registers at the tick. -/
structure Cpu.Works (v after : Wire → Bool) (variant : AluKind) (inM instruction : Word)
    (reset : Wire) (c : Cpu) (r : Registers) : Prop where
  outM : c.outM.Carries v (r.result variant inM instruction)
  writeM : v c.writeM = Registers.stores instruction
  addressM : c.addressM.Carries v (r.a.extractLsb' 0 15)
  next : c.Holds after (r.next variant inM instruction (v reset))

section Values

variable {N : Netlist} {v after : Wire → Bool} (hN : N.Finished) (hv : N.Settled v)

include hN hv

theorem ensures_arithmetic (variant : AluKind) {x y instruction : Bus} {first second word : Word}
    (hx : x.Carries v first) (hy : y.Carries v second) (hword : instruction.Carries v word) :
    Ensures N (arithmetic variant x y instruction) fun output =>
      output.Shows v (Word.arithmetic variant first second word) := by
  cases variant with
  | standard => exact ensures_alu hv hN hx hy (hword.slice 6 6 (by omega))
  | extended => exact ensures_extendedAlu hv hN hx hy (hword.slice 6 9 (by omega))

omit hN in
/-- The gates of a jump agree with its condition on the flags. A result that is zero is not
negative, so the flags are never both on. -/
theorem ensures_jumpWanted {instruction : Bus} {word : Word} (hword : instruction.Carries v word)
    (zr ng : Wire) : Ensures N (jumpWanted instruction zr ng) fun wanted =>
      v wanted = (word.getLsbD 2 && v ng || word.getLsbD 1 && v zr ||
        word.getLsbD 0 && !(v zr || v ng)) := by
  have hbit (i : Nat) (hi : i < 16) : v (instruction.bit i) = word.getLsbD i := hword.bit hi
  apply (ensures_and hv (instruction.bit jumpNegativeBit) ng).bind
  intro onNegative honNegative
  apply (ensures_and hv (instruction.bit jumpZeroBit) zr).bind
  intro onZero honZero
  apply (ensures_or hv zr ng).bind
  intro notPositive hnotPositive
  apply (ensures_not hv notPositive).bind
  intro positive hpositive
  apply (ensures_and hv (instruction.bit jumpPositiveBit) positive).bind
  intro onPositive honPositive
  apply (ensures_or hv onNegative onZero).bind
  intro notOnPositive hnotOnPositive
  apply (ensures_or hv notOnPositive onPositive).imp
  intro wanted hwanted
  rw [hwanted, hnotOnPositive, honNegative, honZero, honPositive, hpositive, hnotPositive,
    hbit jumpNegativeBit (by decide), hbit jumpZeroBit (by decide),
    hbit jumpPositiveBit (by decide)]
  rfl

variable (hafter : N.Ticked v after)

include hafter

/-- Before a tick the outputs of the processor are those of its registers and inputs, and
after it the registers hold the next ones. The forward wires carry what their registers held,
whichever gates come first in the circuit. -/
theorem ensures_cpu (variant : AluKind) {inM instruction : Bus} {m word : Word} (reset : Wire)
    (hinM : inM.Carries v m) (hword : instruction.Carries v word) :
    Ensures N (cpu inM instruction reset variant) fun c =>
      c.a.length = 16 ∧ c.d.length = 16 ∧ c.pc.length = 15 ∧
        ∀ r : Registers, c.Holds v r → c.Works v after variant m word reset r := by
  have hbit (i : Nat) (hi : i < 16) : v (instruction.bit i) = word.getLsbD i := hword.bit hi
  unfold cpu
  dsimp only
  apply (ensures_not hv (instruction.bit classBit)).bind
  intro literal hliteral
  apply (ensures_forwardBus 16).bind
  intro a ha
  -- whatever the bus carries, it is named now and turns out to be the register in the end
  obtain ⟨oldA, ha⟩ := Bus.exists_carries (v := v) ha
  apply (ensures_forwardBus 16).bind
  intro d hd
  obtain ⟨oldD, hd⟩ := Bus.exists_carries (v := v) hd
  apply (ensures_muxBus_carries hv ha hinM (instruction.bit memoryOperandBit)).bind
  intro y hy
  rw [hbit memoryOperandBit (by decide)] at hy
  apply (ensures_arithmetic hN hv variant hd hy hword).bind
  intro result hflags
  apply (ensures_and hv (instruction.bit classBit) (instruction.bit storeABit)).bind
  intro storeA hstoreA
  apply (ensures_muxBus_carries hv hword hflags.out storeA).bind
  intro inA hinA
  apply (ensures_or hv literal storeA).bind
  intro loadA hloadA
  apply (ensures_register_carries hN hv hafter hinA loadA).bind
  rintro outA ⟨hlengthA, houtA⟩
  apply (ensures_driveBus hN hv (ha.length.trans hlengthA.symm)).bind
  intro _ hfeedA
  apply (ensures_and hv (instruction.bit classBit) (instruction.bit storeDBit)).bind
  intro storeD hstoreD
  apply (ensures_register_carries hN hv hafter hflags.out storeD).bind
  rintro outD ⟨hlengthD, houtD⟩
  apply (ensures_driveBus hN hv (hd.length.trans hlengthD.symm)).bind
  intro _ hfeedD
  apply (ensures_and hv (instruction.bit classBit) (instruction.bit storeMBit)).bind
  intro writeM hwriteM
  apply (ensures_jumpWanted hv hword result.zr result.ng).bind
  intro wanted hwanted
  apply (ensures_and hv (instruction.bit classBit) wanted).bind
  intro jump hjump
  have haddress := ha.slice 0 15 (by omega)
  apply (ensures_one hN hv).bind
  intro always halways
  apply (ensures_programCounter hN hv hafter haddress jump always reset).bind
  rintro pc ⟨hlengthPc, hpc⟩
  apply ensures_pure
  refine ⟨hlengthA, hlengthD, hlengthPc, ?_⟩
  intro r hr
  -- the forward wires repeat the registers, so what the gates have read are the registers
  have hsameA : a.Carries v r.a := hfeedA.trans hr.a
  have hsameD : d.Carries v r.d := hfeedD.trans hr.d
  obtain rfl := ha.unique hsameA
  obtain rfl := hd.unique hsameD
  have hzr : v result.zr = (r.result variant m word == 0) :=
    hflags.zr.trans (Word.arithmetic_zr variant _ _ word)
  have hng : v result.ng = (r.result variant m word).msb :=
    hflags.ng.trans (Word.arithmetic_ng variant _ _ word)
  rw [hbit classBit (by decide)] at hliteral hstoreA hstoreD hwriteM hjump
  rw [hbit storeABit (by decide)] at hstoreA
  rw [hbit storeDBit (by decide)] at hstoreD
  rw [hbit storeMBit (by decide)] at hwriteM
  rw [hwanted, hzr, hng] at hjump
  refine ⟨hflags.out, ?_, haddress, ?_, ?_, ?_⟩
  · rw [hwriteM, Registers.stores_eq]
    rfl
  · have hafterA := houtA r.a hr.a
    rw [hloadA, hliteral, hstoreA] at hafterA
    rw [Registers.next_eq]
    exact hafterA
  · have hafterD := houtD r.d hr.d
    rw [hstoreD] at hafterD
    rw [Registers.next_eq]
    exact hafterD
  · have hafterPc := hpc r.pc hr.pc
    rw [hjump, halways, if_pos rfl] at hafterPc
    rw [Registers.next_eq]
    exact hafterPc

end Values

end Chip

end NandComputer
