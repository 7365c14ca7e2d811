import NandComputer.Proofs.Computer.Halting

/-!
Which idle loops are noticed. The detection of idle loops looks at the program from
outside, and it agrees with what the circuit does next in all states but those at
one instruction. The program counter has 15 bits and goes around from the last
address to 0, whereas the detection looks for the word after the last one.
-/

namespace NandComputer

namespace WordComputer

/-- A plain jump that leads back to its own address is next, or the instruction that
loads its own address is next and a plain jump follows. -/
def Idles (c : WordComputer) : Prop :=
  (c.next.isPlainJump = true ∧ c.step.machine.pc = c.machine.pc) ∨
    (c.next = .address c.machine.pc ∧ c.step.next.isPlainJump = true)

/-- The instruction at the last address, which loads this address, is next. -/
def LoadsLastAddress (c : WordComputer) : Prop :=
  c.machine.pc = 0x7FFF ∧ c.next = .address 0x7FFF

section Step

variable {c : WordComputer}

theorem next_step : c.step.next = .decode (c.rom.getD c.step.machine.pc.toNat 0) := by
  rw [next, fetch, step, rom_noteIdle]
  rfl

theorem pc_step_of_address {value : Word} (h : c.next = .address value) :
    c.step.machine.pc = c.machine.successor := by
  have hexecute : c.machine.step (c.fetch c.machine.pc) = c.machine.execute (.address value) :=
    congrArg c.machine.execute h
  rw [step, machine_noteIdle]
  exact congrArg WordMachine.pc hexecute

theorem pc_step_of_isPlainJump (h : c.next.isPlainJump = true) :
    c.step.machine.pc = WordMachine.addressOf c.machine.a := by
  rw [step, machine_noteIdle]
  exact congrArg WordMachine.pc (WordMachine.step_of_isPlainJump h c.machine)

/-- Below the last address the next word is the one that the program counter goes on to. At
the last address the two part: the word behind it is none, and the counter goes on to 0. -/
theorem plainJumpAt_successor_iff (hrom : c.rom.size ≤ romWords)
    (hpc : c.machine.pc.toNat < 2 ^ 15) :
    PlainJumpAt c.rom (c.machine.pc + 1) ↔
      PlainJumpAt c.rom c.machine.successor ∧ c.machine.pc ≠ 0x7FFF := by
  by_cases hlast : c.machine.pc = 0x7FFF
  · have hend : ¬ PlainJumpAt c.rom (c.machine.pc + 1) := by
      intro hjump
      have hlt := hjump.lt_size
      rw [hlast] at hlt
      exact Nat.not_lt_of_le hrom hlt
    exact iff_of_false hend fun h => h.2 hlast
  · have hbelow : c.machine.pc.toNat + 1 < 2 ^ 15 := by
      have hne : c.machine.pc.toNat ≠ 0x7FFF := fun heq => hlast (BitVec.eq_of_toNat_eq heq)
      omega
    have hnext : c.machine.successor = c.machine.pc + 1 := by
      apply WordMachine.addressOf_eq_self
      rw [BitVec.toNat_add]
      exact Nat.lt_of_le_of_lt (Nat.mod_le _ _) hbelow
    rw [hnext]
    exact (and_iff_left hlast).symm

/-- An idle loop is noticed unless it goes around from the last address. The two cases are the
words of the loop: at its jump the detection looks back, and at its literal it looks ahead. -/
theorem isIdle_iff (hrom : c.rom.size ≤ romWords) :
    c.isIdle = true ↔ c.Idles ∧ ¬ c.LoadsLastAddress := by
  cases hnext : c.next with
  | address value =>
    have hidle : c.isIdle = true ↔ value = c.machine.pc ∧ PlainJumpAt c.rom (c.machine.pc + 1) := by
      rw [isIdle, hnext, Bool.and_eq_true, beq_iff_eq]
      rfl
    have hidles : c.Idles ↔ value = c.machine.pc ∧ PlainJumpAt c.rom c.machine.successor := by
      rw [Idles, next_step, pc_step_of_address hnext, hnext, Instruction.address.injEq]
      exact or_iff_right fun h => Bool.false_ne_true h.1
    have hlast : c.LoadsLastAddress ↔ c.machine.pc = 0x7FFF ∧ value = 0x7FFF := by
      rw [LoadsLastAddress, hnext, Instruction.address.injEq]
    rw [hidle, hidles, hlast, and_assoc]
    apply and_congr_right
    rintro rfl
    rw [plainJumpAt_successor_iff hrom (Instruction.toNat_lt_of_decode_eq_address hnext), and_self]
  | compute comp dest jump =>
    have hidle : c.isIdle = true ↔
        c.next.isPlainJump = true ∧ WordMachine.addressOf c.machine.a = c.machine.pc := by
      rw [isIdle]
      simp [hnext]
    have hidles : c.Idles ↔
        c.next.isPlainJump = true ∧ WordMachine.addressOf c.machine.a = c.machine.pc := by
      have hload : ¬ (c.next = .address c.machine.pc ∧ c.step.next.isPlainJump = true) := by
        simp [hnext]
      rw [Idles, or_iff_left hload]
      exact and_congr_right fun hjump => by rw [pc_step_of_isPlainJump hjump]
    have hlast : ¬ c.LoadsLastAddress := by
      simp [LoadsLastAddress, hnext]
    rw [hidle, hidles, and_iff_left hlast]

end Step

/-- A jump to the address in A at the first address, and at the last one the
instruction that loads that address. -/
def aroundProgram : Array Word :=
  ((Array.replicate romWords 0).setIfInBounds 0 0xEA87).setIfInBounds 0x7FFF 0x7FFF

theorem size_aroundProgram : aroundProgram.size = romWords := by
  simp only [aroundProgram, Array.size_setIfInBounds, Array.size_replicate]

theorem getD_aroundProgram_first : aroundProgram.getD 0 0 = 0xEA87 := by
  have hfirst : aroundProgram[0]? = some 0xEA87 := by
    rw [aroundProgram, Array.getElem?_setIfInBounds_ne (by decide),
      Array.getElem?_setIfInBounds_self_of_lt]
    simp only [Array.size_replicate, romWords, Nat.reduceShiftLeft, Nat.ofNat_pos]
  rw [Array.getD_eq_getD_getElem?, hfirst, Option.getD_some]

theorem getD_aroundProgram_last : aroundProgram.getD 0x7FFF 0 = 0x7FFF := by
  have hlast : aroundProgram[0x7FFF]? = some 0x7FFF := by
    rw [aroundProgram, Array.getElem?_setIfInBounds_self_of_lt]
    simp only [Array.size_setIfInBounds, Array.size_replicate, romWords, Nat.reduceShiftLeft,
      Nat.reduceLT]
  rw [Array.getD_eq_getD_getElem?, hlast, Option.getD_some]

theorem call_load_of_le {c : WordComputer} {program : Array Word} (h : program.size ≤ romWords) :
    (c.call (.load program)).2.rom = program ∧ (c.call (.load program)).2.state = .running ∧
      (c.call (.load program)).2.machine = c.machine := by
  rw [call, load, if_neg (Nat.not_lt_of_le h)]
  exact ⟨rfl, rfl, rfl⟩

/-- The program around the last address idles, and does so with the literal at that address.
-/
theorem idles_around {c : WordComputer} (hrom : c.rom = aroundProgram)
    (hpc : c.machine.pc = 0x7FFF) : c.Idles ∧ c.LoadsLastAddress := by
  have hzero : (0 : Word).toNat = 0 := rfl
  have haddress : (0x7FFF : Word).toNat = 0x7FFF := rfl
  have hnext : c.next = .address 0x7FFF := by
    rw [next, fetch, hrom, hpc, haddress, getD_aroundProgram_last]
    rfl
  have hfirst : c.machine.successor = 0 := by
    rw [WordMachine.successor, hpc]
    rfl
  have hjump : c.step.next.isPlainJump = true := by
    rw [next_step, pc_step_of_address hnext, hrom, hfirst, hzero, getD_aroundProgram_first]
    rfl
  exact ⟨.inr ⟨by rw [hnext, hpc], hjump⟩, hpc, hnext⟩

/-- Leads to the last address. -/
def leadCalls : List ComputerCall := [.load #[0x7FFF, 0xEA87], .step, .step]

/-- Puts the loop that goes around in place there. -/
def aroundCalls : List ComputerCall := leadCalls ++ [.load aroundProgram]

theorem idles_aroundCalls {c : WordComputer}
    (hpc : (interact call c leadCalls).2.machine.pc = 0x7FFF) :
    (interact call c aroundCalls).2.state = .running ∧
      (interact call c aroundCalls).2.Idles ∧ (interact call c aroundCalls).2.LoadsLastAddress := by
  rw [aroundCalls, interact_concat]
  obtain ⟨hrom, hstate, hmachine⟩ := call_load_of_le (Nat.le_of_eq size_aroundProgram)
  exact ⟨hstate, idles_around hrom (by rw [hmachine, hpc])⟩

end WordComputer

namespace Computer

/-- A plain jump that leads back to its own address is next, or the instruction that
loads its own address is next and the computer executes a plain jump after it. -/
def Idles (c : Computer) : Prop :=
  (c.next.isPlainJump = true ∧ c.step.pc = c.pc) ∨
    (c.next = .address c.pc ∧ c.step.next.isPlainJump = true)

/-- The instruction at the last address, which loads this address, is next. -/
def LoadsLastAddress (c : Computer) : Prop := c.pc = 0x7FFF ∧ c.next = .address 0x7FFF

variable {config : Config} {N : Netlist} {circuit : Circuit} {start c : Computer} {w : WordComputer}

theorem Follows.idles_iff (h : c.Follows config N circuit false w) : c.Idles ↔ w.Idles := by
  have hstep := h.step rfl
  rw [Idles, WordComputer.Idles, h.next_eq, hstep.next_eq, h.shows.pc, hstep.shows.pc]

theorem Follows.loadsLastAddress_iff (h : c.Follows config N circuit false w) :
    c.LoadsLastAddress ↔ w.LoadsLastAddress := by
  rw [LoadsLastAddress, WordComputer.LoadsLastAddress, h.next_eq, h.shows.pc]

theorem state_run_zero (hrunning : c.state = .running) :
    (c.run 0).1.state = .halted ↔ c.isIdle = true := by
  have hrun : (c.run 0).1.state = c.noteIdle.state := rfl
  rw [hrun, noteIdle]
  cases c.isIdle <;> simp [hrunning]

/-- After any calls, exactly those idle loops are noticed that do not go around from the last
address, whatever the program is and whatever A and the program counter hold. A run that may
take no steps tells the same. -/
theorem isIdle_iff_idles (hbuild : build config = .ok start) (calls : List ComputerCall)
    (hc : (interact Computer.call start calls).2 = c) :
    (c.isIdle = true ↔ c.Idles ∧ ¬ c.LoadsLastAddress) ∧
      (c.state = .running →
        ((c.run 0).1.state = .halted ↔ c.Idles ∧ ¬ c.LoadsLastAddress)) := by
  obtain ⟨N, circuit, hinitial⟩ := exists_follows hbuild
  have hfollows := (hinitial.interact calls).2
  have hconsistent := (WordComputer.consistent_initial config).interact calls
  rw [hc] at hfollows
  have hidle : c.isIdle = true ↔ c.Idles ∧ ¬ c.LoadsLastAddress := by
    rw [hfollows.isIdle_eq, hfollows.idles_iff, hfollows.loadsLastAddress_iff]
    exact WordComputer.isIdle_iff hconsistent.rom
  exact ⟨hidle, fun hrunning => (state_run_zero hrunning).trans hidle⟩

/-- A loop at low addresses is noticed from its first word on, also where the program was
loaded again and the registers are those of the loop. -/
theorem isIdle_iff_idles_loopProgram : ∃ start c, build ⟨3, .extended⟩ = .ok start ∧
    (interact Computer.call start [.load loopProgram, .run 9, .load loopProgram]).2 = c ∧
    c.state = .running ∧ (c.run 0).1.state = .halted ∧ c.Idles ∧ ¬ c.LoadsLastAddress := by
  have hvalid : (⟨3, .extended⟩ : Config).IsValid := by decide
  obtain ⟨N, circuit, ports, hbuild, hrealized⟩ := exists_build hvalid
  have hfollows := ((follows_ofCircuit hrealized).interact
    [.load loopProgram, .run 9, .load loopProgram]).2
  have hlast : (interact WordComputer.call (.initial ⟨3, .extended⟩)
      [.load loopProgram, .run 9, .load loopProgram]).2.state = .running ∧
    (interact WordComputer.call (.initial ⟨3, .extended⟩)
      [.load loopProgram, .run 9, .load loopProgram]).2.isIdle = true := by decide +kernel
  have hrunning := hfollows.state.trans hlast.1
  obtain ⟨hidle, hrun⟩ :=
    isIdle_iff_idles hbuild [.load loopProgram, .run 9, .load loopProgram] rfl
  have hloop := hidle.mp (hfollows.isIdle_eq.trans hlast.2)
  exact ⟨_, _, hbuild, rfl, hrunning, (hrun hrunning).mpr hloop, hloop⟩

/-- At the last address the computer misses a loop that the machine is in, so a run there goes
on instead of halting. -/
theorem not_isIdle_aroundCalls : ∃ start c, build ⟨3, .standard⟩ = .ok start ∧
    (interact Computer.call start WordComputer.aroundCalls).2 = c ∧
    c.state = .running ∧ c.Idles ∧ c.isIdle = false ∧ (c.run 0).1.state ≠ .halted := by
  have hvalid : (⟨3, .standard⟩ : Config).IsValid := by decide
  obtain ⟨N, circuit, ports, hbuild, hrealized⟩ := exists_build hvalid
  have hfollows := ((follows_ofCircuit hrealized).interact WordComputer.aroundCalls).2
  have hconsistent :=
    (WordComputer.consistent_initial ⟨3, .standard⟩).interact WordComputer.aroundCalls
  have hbefore : (interact WordComputer.call (.initial ⟨3, .standard⟩)
      WordComputer.leadCalls).2.machine.pc = 0x7FFF := by decide +kernel
  obtain ⟨hrunning, hidles, hlast⟩ := WordComputer.idles_aroundCalls hbefore
  have hstate := hfollows.state.trans hrunning
  have hmissed : (interact Computer.call (ofCircuit ⟨3, .standard⟩ ports circuit)
      WordComputer.aroundCalls).2.isIdle = false := by
    rw [hfollows.isIdle_eq, Bool.eq_false_iff]
    exact fun hidle => ((WordComputer.isIdle_iff hconsistent.rom).mp hidle).2 hlast
  refine ⟨_, _, hbuild, rfl, hstate, hfollows.idles_iff.mpr hidles, hmissed, ?_⟩
  rw [Ne, state_run_zero hstate, hmissed]
  exact Bool.false_ne_true

end Computer

end NandComputer
