import NandComputer.Proofs.Computer.Halting

/-!
The standard and the extended computer on one program. With the selector of the
standard unit in every computing word, the extended computer does what the
standard one does, and the standard one does not look at the selector at all.
Their circuits differ, so the comparison goes through the word computers.
-/

namespace NandComputer

/-- The computation with the selector of the standard unit. -/
def Comp.canonicalized (comp : Comp) : Comp := ⟨comp.bits ||| canonicalExtension <<< 7⟩

def Instruction.canonicalized : Instruction → Instruction
  | .address value => .address value
  | .compute comp dest jump => .compute comp.canonicalized dest jump

/-- The word with bits 14 and 13 set, if it computes. -/
def Word.canonicalized (word : Word) : Word := if word.msb then word ||| 0x6000 else word

/-- The call with these bits set in the program that it loads. -/
def ComputerCall.canonicalized : ComputerCall → ComputerCall
  | .load program => .load (program.map Word.canonicalized)
  | call => call

def ComputerAnswer.canonicalized : ComputerAnswer → ComputerAnswer
  | .executed instruction => .executed instruction.canonicalized
  | answer => answer

section Words

theorem Word.msb_canonicalized (word : Word) : (canonicalized word).msb = word.msb := by
  cases hmsb : word.msb with
  | false => rw [canonicalized, hmsb, if_neg Bool.false_ne_true, hmsb]
  | true => rw [canonicalized, hmsb, if_pos rfl, BitVec.msb_or, hmsb, Bool.true_or]

/-- Setting the bits again changes nothing, so a program may be rewritten twice. -/
theorem Word.canonicalized_canonicalized (word : Word) :
    canonicalized (canonicalized word) = canonicalized word := by
  rw [canonicalized, msb_canonicalized]
  split
  case isTrue hmsb => rw [canonicalized, if_pos hmsb, BitVec.or_assoc, BitVec.or_self]
  case isFalse => rfl

theorem Comp.ofBits_or (word : Word) :
    ofBits ((word ||| 0x6000) >>> 6) = (ofBits (word >>> 6)).canonicalized := by
  rw [ofBits, ofBits, canonicalized]
  congr 1
  apply BitVec.eq_of_getLsbD_eq
  intro i hi
  interval_cases i <;> simp [canonicalExtension]

/-- The fields of a word are the same but for the selector. A literal has no selector and is
not changed. -/
theorem Instruction.decode_canonicalized (word : Word) :
    decode (Word.canonicalized word) = (decode word).canonicalized := by
  rw [decode, decode, Word.msb_canonicalized]
  split
  case isTrue hmsb =>
    have hdest : Dest.ofBits ((word ||| 0x6000) >>> 3) = .ofBits (word >>> 3) := by
      simp [Dest.ofBits]
    have hjump : Jump.ofBits (word ||| 0x6000) = .ofBits word := by
      simp [Jump.ofBits]
    rw [Word.canonicalized, if_pos hmsb, Comp.ofBits_or, hdest, hjump]
    rfl
  case isFalse hmsb =>
    rw [Word.canonicalized, if_neg hmsb]
    rfl

theorem Instruction.isPlainJump_canonicalized (instruction : Instruction) :
    instruction.canonicalized.isPlainJump = instruction.isPlainJump := by
  cases instruction with
  | address value => rfl
  | compute comp dest jump => cases jump <;> rfl

end Words

namespace Comp

variable (comp : Comp)

theorem memoryOperand_canonicalized : comp.canonicalized.memoryOperand = comp.memoryOperand := by
  simp [memoryOperand, canonicalized, canonicalExtension]

theorem control_canonicalized : comp.canonicalized.control = comp.control := by
  apply BitVec.eq_of_getLsbD_eq
  intro i hi
  interval_cases i <;> simp [control, canonicalized, canonicalExtension]

end Comp

/-- On the selector of the standard unit, multiplier and shifts do not count, and the other
bits of the field are its control. -/
theorem Word.extendedAlu_canonicalized (x y : Word) (comp : Comp) :
    extendedAlu x y (comp.canonicalized.bits.setWidth 9) = alu x y comp.control := by
  have hhigh : (comp.canonicalized.bits.setWidth 9).getLsbD 8 = true := by
    simp [Comp.canonicalized, Comp.canonicalExtension]
  have hlow : (comp.canonicalized.bits.setWidth 9).getLsbD 7 = true := by
    simp [Comp.canonicalized, Comp.canonicalExtension]
  have hcontrol : (comp.canonicalized.bits.setWidth 9).setWidth 6 = comp.control := by
    rw [← Comp.control_canonicalized, Comp.control, BitVec.setWidth_setWidth_of_le _ (by decide)]
  rw [extendedAlu, hhigh, hlow, hcontrol]
  rfl

namespace WordMachine

/-- The same machine with the extended unit. -/
def extended (m : WordMachine) : WordMachine := { m with alu := .extended }

variable {m : WordMachine} (h : m.alu = .standard)

include h

/-- The standard unit does not read the selector, and the extended unit reads the one of the
standard unit, so both compute the same. -/
theorem result_extended (comp : Comp) :
    m.extended.result comp.canonicalized = m.result comp := by
  have hread : m.extended.readM = m.readM := rfl
  rw [result, result, Comp.memoryOperand_canonicalized, hread, h]
  dsimp only [extended]
  rw [Word.extendedAlu_canonicalized]

theorem execute_extended (instruction : Instruction) :
    m.extended.execute instruction.canonicalized = (m.execute instruction).extended := by
  cases instruction with
  | address value => rfl
  | compute comp dest jump =>
    rw [Instruction.canonicalized, execute, execute, compute, compute, result_extended h]
    rfl

theorem tick_extended (word : Word) (reset : Bool) :
    m.extended.tick (Word.canonicalized word) reset = (m.tick word reset).extended := by
  rw [tick, tick, step, step, Instruction.decode_canonicalized, execute_extended h]
  cases reset <;> rfl

end WordMachine

namespace WordComputer

/-- The same computer with the extended unit, and its program canonicalized. -/
def extended (c : WordComputer) : WordComputer :=
  { c with machine := c.machine.extended, rom := c.rom.map Word.canonicalized }

variable (c : WordComputer)

theorem fetch_extended (address : Word) :
    c.extended.fetch address = Word.canonicalized (c.fetch address) := by
  rw [fetch, fetch, extended, Array.getD_eq_getD_getElem?, Array.getD_eq_getD_getElem?,
    Array.getElem?_map]
  cases c.rom[address.toNat]? <;> rfl

theorem next_extended : c.extended.next = c.next.canonicalized := by
  rw [next, next, fetch_extended, Instruction.decode_canonicalized]
  rfl

/-- An idle loop is noticed on both computers at once: its words are a literal and a plain
jump, and the selector does not make a jump less plain. -/
theorem isIdle_extended : c.extended.isIdle = c.isIdle := by
  rw [isIdle, isIdle, next_extended, fetch_extended, Instruction.decode_canonicalized,
    Instruction.isPlainJump_canonicalized, Instruction.isPlainJump_canonicalized]
  cases c.next <;> rfl

theorem noteIdle_extended : c.extended.noteIdle = c.noteIdle.extended := by
  rw [noteIdle, noteIdle, isIdle_extended]
  split <;> rfl

theorem extended_initial (bits : Nat) :
    (initial ⟨bits, .standard⟩).extended = initial ⟨bits, .extended⟩ := by
  simp [extended, initial, WordMachine.extended, WordMachine.zeroed, Config.dataWords]

variable {c} (h : c.machine.alu = .standard)

include h

/-- A tick of the two computers keeps them alike. The program word is the same but for the
selector, which makes no difference to either. -/
theorem tick_extended (reset : Bool) : c.extended.tick reset = (c.tick reset).extended := by
  have hmachine : c.extended.machine.tick (Word.canonicalized (c.fetch c.machine.pc)) reset =
      (c.machine.tick (c.fetch c.machine.pc) reset).extended := WordMachine.tick_extended h _ reset
  have hpc : c.extended.machine.pc = c.machine.pc := rfl
  rw [tick, tick, hpc, fetch_extended, hmachine]
  rfl

theorem step_extended : c.extended.step = c.step.extended := by
  rw [step, step, tick_extended h, noteIdle_extended]

theorem alu_step : c.step.machine.alu = .standard := by
  rw [step, machine_noteIdle, tick, WordMachine.alu_tick, h]

/-- The steps of a run, by induction on those that it may take: both computers take equally
many. -/
theorem advance_extended (fuel cycles : Nat) :
    advance fuel cycles c.extended =
        ((advance fuel cycles c).1, (advance fuel cycles c).2.extended) ∧
      (advance fuel cycles c).2.machine.alu = .standard := by
  induction fuel generalizing cycles c with
  | zero => exact ⟨rfl, h⟩
  | succ fuel ih =>
    have hstate : c.extended.state = c.state := rfl
    rw [advance, advance, hstate, step_extended h]
    split
    case isTrue => exact ih (alu_step h) (cycles + 1)
    case isFalse => exact ⟨rfl, h⟩

theorem run_extended (maxCycles : Nat) :
    c.extended.run maxCycles = ((c.run maxCycles).1, (c.run maxCycles).2.extended) ∧
      (c.run maxCycles).2.machine.alu = .standard := by
  have hnoted : c.noteIdle.machine.alu = .standard := by rw [machine_noteIdle, h]
  obtain ⟨hadvance, hlast⟩ := advance_extended hnoted maxCycles 0
  rw [run, noteIdle_extended, hadvance]
  exact ⟨rfl, hlast⟩

/-- A call is answered alike, and leaves the computers alike. The answer of a step has the
selector set, as it is part of the instruction. -/
theorem call_extended (call : ComputerCall) :
    c.extended.call call.canonicalized =
        ((c.call call).1.canonicalized, (c.call call).2.extended) ∧
      (c.call call).2.machine.alu = .standard := by
  cases call with
  | load program =>
    have hsize : (program.map Word.canonicalized).size = program.size := Array.size_map
    dsimp only [ComputerCall.canonicalized, call]
    rw [load, load, hsize]
    by_cases hlarge : romWords < program.size
    · rw [if_pos hlarge, if_pos hlarge]
      exact ⟨rfl, h⟩
    · rw [if_neg hlarge, if_neg hlarge]
      exact ⟨rfl, h⟩
  | poke address value =>
    have hram : c.extended.machine.ram = c.machine.ram := rfl
    dsimp only [ComputerCall.canonicalized, call]
    rw [poke, poke, hram]
    by_cases hlt : address < c.machine.ram.size
    · rw [if_pos hlt, if_pos hlt]
      exact ⟨rfl, h⟩
    · rw [if_neg hlt, if_neg hlt]
      exact ⟨rfl, h⟩
  | step =>
    dsimp only [ComputerCall.canonicalized, call]
    rw [next_extended, step_extended h]
    exact ⟨rfl, alu_step h⟩
  | run maxCycles =>
    obtain ⟨hrun, halu⟩ := run_extended h maxCycles
    dsimp only [ComputerCall.canonicalized, call]
    rw [hrun]
    exact ⟨rfl, halu⟩
  | reset =>
    dsimp only [ComputerCall.canonicalized, call]
    rw [reset, tick_extended h]
    exact ⟨rfl, (c.machine.alu_tick _ true).trans h⟩

/-- The extended computer goes through calls with the standard one, and all their answers are
alike. -/
theorem interact_extended (calls : List ComputerCall) :
    (interact WordComputer.call c.extended (calls.map ComputerCall.canonicalized)).1 =
        (interact WordComputer.call c calls).1.map ComputerAnswer.canonicalized ∧
      (interact WordComputer.call c.extended (calls.map ComputerCall.canonicalized)).2 =
        (interact WordComputer.call c calls).2.extended := by
  have hstep (s t : WordComputer) (hs : s.machine.alu = .standard ∧ t = s.extended)
      (call : ComputerCall) :
      (t.call call.canonicalized).1 = (s.call call).1.canonicalized ∧
        (s.call call).2.machine.alu = .standard ∧
          (t.call call.canonicalized).2 = (s.call call).2.extended := by
    obtain ⟨hstandard, rfl⟩ := hs
    obtain ⟨hcall, halu⟩ := call_extended hstandard call
    rw [hcall]
    exact ⟨rfl, halu, rfl⟩
  obtain ⟨hanswers, -, hlast⟩ := interact_translates hstep ⟨h, rfl⟩ calls
  exact ⟨hanswers, hlast⟩

end WordComputer

theorem ComputerCall.canonicalized_canonicalized (call : ComputerCall) :
    call.canonicalized.canonicalized = call.canonicalized := by
  cases call with
  | load program =>
    have hwords : Word.canonicalized ∘ Word.canonicalized = Word.canonicalized :=
      funext Word.canonicalized_canonicalized
    rw [canonicalized, canonicalized, Array.map_map, hwords]
  | _ => rfl

namespace Computer

/-- Nothing that is observed of the computers tells them apart. -/
structure Alike (c other : Computer) : Prop where
  pc : c.pc = other.pc
  a : c.a = other.a
  d : c.d = other.d
  cells : ∀ i, c.cell? i = other.cell? i
  size : c.dataSize = other.dataSize
  ticks : c.ticks = other.ticks
  state : c.state = other.state

theorem Alike.symm {c other : Computer} (h : c.Alike other) : other.Alike c :=
  ⟨h.pc.symm, h.a.symm, h.d.symm, fun i => (h.cells i).symm, h.size.symm, h.ticks.symm,
    h.state.symm⟩

theorem Alike.trans {c other last : Computer} (h : c.Alike other) (hother : other.Alike last) :
    c.Alike last :=
  ⟨h.pc.trans hother.pc, h.a.trans hother.a, h.d.trans hother.d,
    fun i => (h.cells i).trans (hother.cells i), h.size.trans hother.size,
    h.ticks.trans hother.ticks, h.state.trans hother.state⟩

/-- A standard and an extended computer that show the same word computer, the one with its
unit exchanged, look alike themselves. -/
theorem Shows.alike {c other : Computer} {w : WordComputer} (h : c.Shows w)
    (hother : other.Shows w.extended) : c.Alike other where
  pc := h.pc.trans hother.pc.symm
  a := h.a.trans hother.a.symm
  d := h.d.trans hother.d.symm
  cells := fun i => (h.cells i).trans (hother.cells i).symm
  size := h.size.trans hother.size.symm
  ticks := h.ticks.trans hother.ticks.symm
  state := h.state.trans hother.state.symm

/-- Through any calls, the standard computer and the extended one with bits 14 and 13 set in
all computing words of its programs give the same answers and look alike. The answer of a step
names its instruction, and there the bits show. To the standard computer they make no
difference at all, as it never reads them. -/
theorem interact_canonicalized {bits : Nat} (hvalid : Config.IsValid ⟨bits, .standard⟩) :
    ∃ standard extended, build ⟨bits, .standard⟩ = .ok standard ∧
      build ⟨bits, .extended⟩ = .ok extended ∧ ∀ calls : List ComputerCall,
        (interact Computer.call extended (calls.map ComputerCall.canonicalized)).1 =
          (interact Computer.call standard calls).1.map ComputerAnswer.canonicalized ∧
        (interact Computer.call standard calls).2.Alike
          (interact Computer.call extended (calls.map ComputerCall.canonicalized)).2 ∧
        (interact Computer.call standard calls).2.Alike
          (interact Computer.call standard (calls.map ComputerCall.canonicalized)).2 := by
  obtain ⟨N, circuit, ports, hstandard, hrealized⟩ := exists_build hvalid
  have hvalid' : Config.IsValid ⟨bits, .extended⟩ := hvalid
  obtain ⟨N', circuit', ports', hextended, hrealized'⟩ := exists_build hvalid'
  have hfollows := follows_ofCircuit hrealized
  have hfollows' := follows_ofCircuit hrealized'
  rw [← WordComputer.extended_initial] at hfollows'
  have halike (calls : List ComputerCall) :=
    (hfollows.interact calls).2.shows.alike <| by
      have hlast := (hfollows'.interact (calls.map ComputerCall.canonicalized)).2.shows
      rwa [(WordComputer.interact_extended rfl calls).2] at hlast
  refine ⟨_, _, hstandard, hextended, fun calls => ⟨?_, halike calls, ?_⟩⟩
  · rw [(hfollows'.interact _).1, (WordComputer.interact_extended rfl calls).1,
      (hfollows.interact calls).1]
  · have hagain := halike (calls.map ComputerCall.canonicalized)
    rw [List.map_map, funext (f := ComputerCall.canonicalized ∘ ComputerCall.canonicalized)
      ComputerCall.canonicalized_canonicalized] at hagain
    exact (halike calls).trans hagain.symm

/-- A program that stores 5 and comes to rest, with bits 14 and 13 clear. -/
def plainProgram : Array Word := #[0x0005, 0x8C10, 0x0001, 0x8308, 0x0004, 0x8A87]

/-- The same program with the bits set. -/
def canonicalProgram : Array Word := #[0x0005, 0xEC10, 0x0001, 0xE308, 0x0004, 0xEA87]

/-- A program that adds to a memory word and then loops, with the bits clear and with the bits
set: both computers halt with the same in memory. -/
theorem interact_canonicalized_store : Config.IsValid ⟨3, .standard⟩ ∧
    ∃ standard extended, build ⟨3, .standard⟩ = .ok standard ∧
      build ⟨3, .extended⟩ = .ok extended ∧
      (interact Computer.call standard [.load plainProgram, .run 9, .poke 2 7]).2.state = .halted ∧
      (interact Computer.call standard [.load plainProgram, .run 9, .poke 2 7]).2.cell? 1 = some 5 ∧
      (interact Computer.call standard [.load plainProgram, .run 9, .poke 2 7]).2.Alike
        (interact Computer.call extended [.load canonicalProgram, .run 9, .poke 2 7]).2 := by
  have hvalid : Config.IsValid ⟨3, .standard⟩ := by decide
  obtain ⟨standard, extended, hstandard, hextended, hcalls⟩ := interact_canonicalized hvalid
  obtain ⟨-, halike, -⟩ := hcalls [.load plainProgram, .run 9, .poke 2 7]
  obtain ⟨N, circuit, hfollows⟩ := exists_follows hstandard
  have hshows := (hfollows.interact [.load plainProgram, .run 9, .poke 2 7]).2.shows
  refine ⟨hvalid, standard, extended, hstandard, hextended, ?_, ?_, ?_⟩
  · rw [hshows.state]
    decide +kernel
  · rw [hshows.cells]
    decide +kernel
  · have hprogram : plainProgram.map Word.canonicalized = canonicalProgram := by decide +kernel
    rw [← hprogram]
    exact halike

end Computer

end NandComputer
