import NandComputer.Proofs.Computer.Refinement

/-!
A computer that counts as halted never leaves its idle loop. The loop is noticed
at one of its addresses only, while the machine may go on between the two words
of it, so the invariant has to cover both places. Every step in the loop is a
jump that stores nothing or loads A with the value that it has there anyway.
-/

namespace NandComputer

/-- The word at an address jumps unconditionally and stores nothing. -/
def PlainJumpAt (rom : Array Word) (address : Word) : Prop :=
  (Instruction.decode (rom.getD address.toNat 0)).isPlainJump = true

/-- The word at an address loads this address, and the next one jumps. -/
structure LoopAt (rom : Array Word) (address : Word) : Prop where
  load : Instruction.decode (rom.getD address.toNat 0) = .address address
  jump : PlainJumpAt rom (address + 1)

/-- The machine is in an idle loop of the program that starts at the address. -/
inductive WordMachine.Parked (rom : Array Word) (k : Word) (m : WordMachine) : Prop
  | load (loop : LoopAt rom k) (pc : m.pc = k)
  | jump (loop : LoopAt rom k) (pc : m.pc = k + 1) (a : m.a = k)
  | spin (jump : PlainJumpAt rom k) (pc : m.pc = k) (a : addressOf m.a = k)

/-- Neither replaces the program nor resets. -/
def ComputerCall.Continues : ComputerCall → Prop
  | .step | .run _ | .poke .. => True
  | .load _ | .reset => False

theorem Jump.taken_always (out : Word) : Jump.always.taken out = true := by
  have h := Jump.taken_ofBits 7 out
  cases hzero : out == 0 <;> cases hsign : out.msb <;> simp_all [Jump.ofBits]

/-- Past the end of a program there are no jumps, as the words there are 0. -/
theorem PlainJumpAt.lt_size {rom : Array Word} {address : Word} (h : PlainJumpAt rom address) :
    address.toNat < rom.size := by
  by_contra hge
  have hzero : rom.getD address.toNat 0 = 0 := by
    simp [Array.getElem?_eq_none (Nat.le_of_not_lt hge)]
  rw [PlainJumpAt, hzero] at h
  exact absurd h (by decide)

/-- A literal has 15 bits. -/
theorem Instruction.toNat_lt_of_decode_eq_address {word value : Word}
    (h : Instruction.decode word = .address value) : value.toNat < 2 ^ 15 := by
  rw [Instruction.decode] at h
  split at h
  case isTrue => cases h
  case isFalse hmsb =>
    cases h
    simpa [BitVec.msb_eq_decide] using hmsb

theorem LoopAt.toNat_successor {rom : Array Word} {k : Word} (h : LoopAt rom k) :
    (k + 1).toNat = k.toNat + 1 := by
  have hload := Instruction.toNat_lt_of_decode_eq_address h.load
  simp only [BitVec.toNat_add, BitVec.reduceToNat]
  omega

namespace WordMachine

theorem step_of_isPlainJump {word : Word} (h : (Instruction.decode word).isPlainJump = true)
    (m : WordMachine) : m.step word = { m with pc := addressOf m.a } := by
  rw [step]
  cases hdecode : Instruction.decode word with
  | address value => simp [hdecode, Instruction.isPlainJump] at h
  | compute comp dest jump =>
    cases jump with
    | always =>
      obtain ⟨⟨ha, hd⟩, hm⟩ : (dest.a = false ∧ dest.d = false) ∧ dest.m = false := by
        simpa [hdecode, Instruction.isPlainJump, Dest.isEmpty] using h
      simp [execute, compute, Jump.taken_always, ha, hd, hm]
    | _ => simp [hdecode, Instruction.isPlainJump] at h

/-- A step in an idle loop stays in it and changes neither D nor memory. The literal of the
loop loads A with the place of the loop, and its jump goes there. -/
theorem Parked.step {rom : Array Word} {k : Word} {m : WordMachine} (h : Parked rom k m)
    (hrom : rom.size ≤ romWords) :
    Parked rom k (m.step (rom.getD m.pc.toNat 0)) ∧
      (m.step (rom.getD m.pc.toNat 0)).d = m.d ∧
      (m.step (rom.getD m.pc.toNat 0)).ram = m.ram := by
  cases h with
  | load loop pc =>
    have hnext := loop.jump.lt_size
    rw [romWords] at hrom
    have hstep : m.step (rom.getD m.pc.toNat 0) = { m with a := k, pc := k + 1 } := by
      rw [WordMachine.step, pc, loop.load, execute, successor, pc, addressOf_eq_self (by omega)]
    rw [hstep]
    exact ⟨.jump loop rfl rfl, rfl, rfl⟩
  | jump loop pc a =>
    have hload := Instruction.toNat_lt_of_decode_eq_address loop.load
    have hstep : m.step (rom.getD m.pc.toNat 0) = { m with pc := k } := by
      rw [step_of_isPlainJump (by rw [pc]; exact loop.jump), a, addressOf_eq_self hload]
    rw [hstep]
    exact ⟨.load loop rfl, rfl, rfl⟩
  | spin jump pc a =>
    have hstep : m.step (rom.getD m.pc.toNat 0) = { m with pc := k } := by
      rw [step_of_isPlainJump (by rw [pc]; exact jump), a]
    rw [hstep]
    exact ⟨.spin jump rfl a, rfl, rfl⟩

end WordMachine

namespace WordComputer

/-- Where a loop is noticed, the machine is within it: at a jump to itself, at the literal of
a loop, or at its jump. -/
theorem exists_parked_of_isIdle {c : WordComputer} (h : c.isIdle = true) :
    ∃ k, c.machine.Parked c.rom k := by
  refine ⟨c.machine.pc, ?_⟩
  have hfetch (address : Word) : c.fetch address = c.rom.getD address.toNat 0 := rfl
  rw [isIdle, next] at h
  cases hdecode : Instruction.decode (c.fetch c.machine.pc) with
  | address target =>
    simp only [hdecode, Bool.and_eq_true, beq_iff_eq] at h
    obtain ⟨rfl, hjump⟩ := h
    exact .load ⟨hdecode, hjump⟩ rfl
  | compute comp dest jump =>
    simp only [hdecode, Bool.and_eq_true, beq_iff_eq] at h
    obtain ⟨hjump, ha⟩ := h
    refine .spin ?_ rfl ha
    rw [PlainJumpAt, ← hfetch, hdecode]
    exact hjump

/-- A computer counts as halted only while it is in an idle loop. -/
structure Consistent (c : WordComputer) : Prop where
  rom : c.rom.size ≤ romWords
  halted : c.state = .halted → ∃ k, c.machine.Parked c.rom k

/-- A halted computer in the idle loop at an address. -/
structure Rests (c : WordComputer) (k d : Word) : Prop where
  rom : c.rom.size ≤ romWords
  state : c.state = .halted
  parked : c.machine.Parked c.rom k
  d : c.machine.d = d

variable {c : WordComputer}

section Rests

variable {k d : Word} (h : c.Rests k d)

include h

theorem Rests.noteIdle : c.noteIdle = c := by
  rw [WordComputer.noteIdle, ← h.state, ite_self]

theorem Rests.tick : (c.tick false).Rests k d ∧ (c.tick false).machine.ram = c.machine.ram := by
  obtain ⟨hparked, hd, hram⟩ := h.parked.step h.rom
  exact ⟨⟨h.rom, h.state, hparked, hd.trans h.d⟩, hram⟩

theorem Rests.step : c.step.Rests k d ∧ c.step.machine.ram = c.machine.ram := by
  obtain ⟨htick, hram⟩ := h.tick
  rw [WordComputer.step, htick.noteIdle]
  exact ⟨htick, hram⟩

/-- A run takes no steps, since a halted computer stops before the first. -/
theorem Rests.run (maxCycles : Nat) : (c.run maxCycles).2 = c := by
  have hadvance : advance maxCycles 0 c = (0, c) := by
    cases maxCycles with
    | zero => rfl
    | succ fuel => simp [advance, h.state]
  simp [WordComputer.run, h.noteIdle, hadvance]

/-- Any call that continues keeps the machine in its loop. A loop reads no memory, so a write
to memory changes nothing there. -/
theorem Rests.call {call : ComputerCall} (hcall : call.Continues) : (c.call call).2.Rests k d := by
  cases call with
  | load program => cases hcall
  | reset => cases hcall
  | step => exact h.step.1
  | run maxCycles =>
    rw [WordComputer.call, h.run]
    exact h
  | poke address value =>
    rw [WordComputer.call, WordComputer.poke]
    split
    case h_1 c' hpoke =>
      split at hpoke
      case isTrue =>
        cases hpoke
        refine ⟨h.rom, h.state, ?_, h.d⟩
        cases h.parked with
        | load loop pc => exact .load loop pc
        | jump loop pc a => exact .jump loop pc a
        | spin jump pc a => exact .spin jump pc a
      case isFalse => cases hpoke
    case h_2 => exact h

theorem Rests.interact {calls : List ComputerCall} (hcalls : ∀ call ∈ calls, call.Continues) :
    (interact WordComputer.call c calls).2.Rests k d :=
  interact_preserves (I := (Rests · k d)) (fun _ h call member => h.call (hcalls call member)) h

end Rests

section Consistent

variable (h : c.Consistent)

include h

theorem Consistent.rests (hhalted : c.state = .halted) : ∃ k, c.Rests k c.machine.d := by
  obtain ⟨k, hparked⟩ := h.halted hhalted
  exact ⟨k, h.rom, hhalted, hparked, rfl⟩

theorem Consistent.noteIdle : c.noteIdle.Consistent := by
  rw [WordComputer.noteIdle]
  split
  case isTrue hidle => exact ⟨h.rom, fun _ => exists_parked_of_isIdle hidle⟩
  case isFalse => exact h

/-- After a step a computer that counts as halted is in an idle loop, since the loop is looked
for after every step. -/
theorem Consistent.step : c.step.Consistent := by
  cases hstate : c.state with
  | running =>
    have htick : (c.tick false).Consistent :=
      ⟨h.rom, fun hhalted => by cases hstate.symm.trans hhalted⟩
    exact htick.noteIdle
  | halted =>
    obtain ⟨k, hrests⟩ := h.rests hstate
    have hstep := hrests.step.1
    exact ⟨hstep.rom, fun _ => ⟨k, hstep.parked⟩⟩

theorem Consistent.advance (fuel cycles : Nat) : (advance fuel cycles c).2.Consistent := by
  induction fuel generalizing cycles c with
  | zero => exact h
  | succ fuel ih =>
    rw [WordComputer.advance]
    split
    case isTrue => exact ih h.step (cycles + 1)
    case isFalse => exact h

/-- Every call keeps it true that a computer which counts as halted is in an idle loop.
Loading and resetting make it running again. -/
theorem Consistent.call (call : ComputerCall) : (c.call call).2.Consistent := by
  cases call with
  | load program =>
    rw [WordComputer.call, WordComputer.load]
    split
    case h_1 c' hload =>
      split at hload
      case isTrue => cases hload
      case isFalse hsize =>
        cases hload
        exact ⟨Nat.le_of_not_lt hsize, by simp⟩
    case h_2 => exact h
  | poke address value =>
    cases hstate : c.state with
    | halted =>
      obtain ⟨k, hrests⟩ := h.rests hstate
      have hcontinues : (ComputerCall.poke address value).Continues := trivial
      have hpoke := hrests.call hcontinues
      exact ⟨hpoke.rom, fun _ => ⟨k, hpoke.parked⟩⟩
    | running =>
      rw [WordComputer.call, WordComputer.poke]
      split
      case h_1 c' hpoke =>
        split at hpoke
        case isTrue =>
          cases hpoke
          exact ⟨h.rom, by simp [hstate]⟩
        case isFalse => cases hpoke
      case h_2 => exact h
  | step => exact h.step
  | run maxCycles => exact h.noteIdle.advance maxCycles 0
  | reset => exact ⟨h.rom, by simp [WordComputer.call, WordComputer.reset]⟩

theorem Consistent.interact (calls : List ComputerCall) :
    (interact WordComputer.call c calls).2.Consistent :=
  interact_preserves (fun _ h call _ => h.call call) h

end Consistent

theorem consistent_initial (config : Config) : (initial config).Consistent :=
  ⟨Nat.zero_le _, by simp [initial]⟩

end WordComputer

namespace Computer

/-- A halted computer at one of the two words from an address on, where the
program loops. Steps and runs leave the data memory, and a write from outside
changes the addressed cell only. -/
structure AtRest (c : Computer) (k d : Word) : Prop where
  state : c.state = .halted
  loop : LoopAt c.rom k ∨ PlainJumpAt c.rom k
  pc : c.pc.toNat = k.toNat ∨ c.pc.toNat = k.toNat + 1
  d : c.d = d
  step : ∀ i, c.step.cell? i = c.cell? i
  run : ∀ maxCycles i, (c.run maxCycles).2.cell? i = c.cell? i
  poke : ∀ address value c', c.poke address value = .ok c' →
    ∀ i, c'.cell? i = if i = address then some value else c.cell? i

variable {config : Config} {N : Netlist} {circuit : Circuit} {c : Computer} {w : WordComputer}

theorem exists_follows (hbuild : build config = .ok c) :
    ∃ N circuit, c.Follows config N circuit false (.initial config) := by
  have hvalid : config.IsValid := by
    by_contra hinvalid
    simp [build, Config.validate, hinvalid, Except.mapError, bind, Except.bind] at hbuild
  obtain ⟨N, circuit, ports, hok, hrealized⟩ := exists_build hvalid
  obtain rfl : ofCircuit config ports circuit = c := by simpa [hok] using hbuild
  exact ⟨N, circuit, follows_ofCircuit hrealized⟩

/-- A write to a cell leaves the other cells, and the cell that is written has the value. -/
theorem Follows.cell?_of_poke (h : c.Follows config N circuit false w) {address : Nat}
    {value : Word} {c' : Computer} (hpoke : c.poke address value = .ok c') (i : Nat) :
    c'.cell? i = if i = address then some value else c.cell? i := by
  rw [poke] at hpoke
  split at hpoke
  case h_1 cell hcell =>
    cases hpoke
    have hlt : address < w.machine.ram.size := by
      have hbound := (Array.getElem?_eq_some_iff.mp hcell).1
      have hsize : c.cells.size = w.machine.ram.size := h.shows.size
      omega
    rw [(h.overwrite hcell value).shows.cells, h.shows.cells, Array.getElem?_setIfInBounds]
    by_cases heq : address = i
    · simp [heq ▸ hlt, heq]
    · simp [heq, Ne.symm heq]
  case h_2 => cases hpoke

theorem Follows.atRest (h : c.Follows config N circuit false w) {k d : Word}
    (hrests : w.Rests k d) :
    c.AtRest k d where
  state := h.state.trans hrests.state
  loop := by
    rw [h.rom]
    cases hrests.parked with
    | load loop _ => exact .inl loop
    | jump loop _ _ => exact .inl loop
    | spin jump _ _ => exact .inr jump
  pc := by
    rw [h.shows.pc]
    cases hrests.parked with
    | load _ pc => exact .inl (congrArg BitVec.toNat pc)
    | spin _ pc _ => exact .inl (congrArg BitVec.toNat pc)
    | jump loop pc _ =>
      exact .inr ((congrArg BitVec.toNat pc).trans loop.toNat_successor)
  d := h.shows.d.trans hrests.d
  step := by
    intro i
    rw [(h.step rfl).shows.cells, hrests.step.2, h.shows.cells]
  run := by
    intro maxCycles i
    rw [(h.run maxCycles).2.shows.cells, hrests.run, h.shows.cells]
  poke := fun _ _ _ => h.cell?_of_poke

/-- Once halted, a computer stays at rest in one idle loop, whatever steps, runs and writes to
memory follow: it stays halted, its program counter stays in the loop, and D and the cells
that nobody writes keep their contents. This holds after any calls, on every valid
configuration. -/
theorem exists_atRest_of_halted (hbuild : build config = .ok c) (calls : List ComputerCall)
    (hhalted : (interact Computer.call c calls).2.state = .halted) :
    ∃ k, ∀ later : List ComputerCall, (∀ call ∈ later, call.Continues) →
      (interact Computer.call (interact Computer.call c calls).2 later).2.AtRest k
        (interact Computer.call c calls).2.d := by
  obtain ⟨N, circuit, hinitial⟩ := exists_follows hbuild
  have hfollows := (hinitial.interact calls).2
  have hconsistent := (WordComputer.consistent_initial config).interact calls
  obtain ⟨k, hrests⟩ := hconsistent.rests (hfollows.state.symm.trans hhalted)
  refine ⟨k, fun later hlater => ?_⟩
  rw [hfollows.shows.d]
  exact (hfollows.interact later).2.atRest (hrests.interact hlater)

/-- A program that ends with a loop at the address 2. -/
def loopProgram : Array Word := #[0x0007, 0xEC10, 0x0002, 0xEA87]

/-- A program that puts seven into D and then jumps to where it is. It halts, and is at rest
after steps, a write to memory and a run that takes no steps. -/
theorem exists_atRest_of_halted_loopProgram : ∃ c k, build ⟨3, .extended⟩ = .ok c ∧
    (interact Computer.call c [.load loopProgram, .run 9]).2.state = .halted ∧
    (interact Computer.call (interact Computer.call c [.load loopProgram, .run 9]).2
      [.step, .poke 2 5, .run 9, .step, .step]).2.AtRest k 7 := by
  have hvalid : (⟨3, .extended⟩ : Config).IsValid := by decide
  obtain ⟨N, circuit, ports, hbuild, hrealized⟩ := exists_build hvalid
  have hfollows := ((follows_ofCircuit hrealized).interact [.load loopProgram, .run 9]).2
  have hlast : (interact WordComputer.call (.initial ⟨3, .extended⟩)
      [.load loopProgram, .run 9]).2.state = .halted ∧
    (interact WordComputer.call (.initial ⟨3, .extended⟩)
      [.load loopProgram, .run 9]).2.machine.d = 7 := by decide +kernel
  have hhalted := hfollows.state.trans hlast.1
  have hd := hfollows.shows.d.trans hlast.2
  obtain ⟨k, hrest⟩ := exists_atRest_of_halted hbuild [.load loopProgram, .run 9] hhalted
  refine ⟨_, k, hbuild, hhalted, ?_⟩
  rw [← hd]
  apply hrest
  simp [ComputerCall.Continues]

end Computer

end NandComputer
