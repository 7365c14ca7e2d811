import NandComputer.Proofs.Computer.Registers
import NandComputer.Proofs.Computer.WordComputer

/-!
The gate-level computer answers every call like the word machine with a program
beside it. The two are kept in step by what the flip-flops hold, at every tick
and at every write from outside.
-/

namespace NandComputer

/-- The circuit of a computer in an accepted netlist. -/
structure ComputerPorts.Realized (config : Config) (N : Netlist) (circuit : Circuit)
    (ports : ComputerPorts) : Prop where
  accepted : N.Accepted circuit
  sized : ports.Sized config
  instruction : ports.instruction.Nodup ∧ ports.instruction.length = 16
  inputs : ∀ w ∈ ports.reset :: ports.instruction, N.IsInput w
  reset : ports.reset ∉ ports.instruction
  nodup : ports.flipFlops.Nodup
  flipFlops : ∀ w ∈ ports.flipFlops, N.IsFlipFlop w
  tick : ∀ (state : CircuitState) (m : WordMachine) (word : Word), m.alu = config.alu →
    m.ram.size = config.dataWords → ports.instruction.Carries (N.value state) word →
    ports.Holds (N.value state) m →
    ports.Holds (N.value (state.tick N)) (m.tick word (N.value state ports.reset))

theorem Computer.build_eq_ok {config : Config} (hvalid : config.IsValid) {ports : ComputerPorts}
    {N : Netlist} {circuit : Circuit} (hrun : (Chip.computer config).run .empty = (ports, N))
    (hcompile : N.compile = .ok circuit) : build config = .ok (ofCircuit config ports circuit) := by
  have hvalidate : config.validate = .ok config := if_pos hvalid
  simp only [build, hvalidate, Except.mapError, bind, Except.bind, hrun, hcompile]
  rfl

/-- A valid configuration is built, and the ports of the computer are those of its circuit. -/
theorem Computer.exists_build {config : Config} (hvalid : config.IsValid) :
    ∃ N circuit ports, build config = .ok (ofCircuit config ports circuit) ∧
      ports.Realized config N circuit := by
  obtain ⟨hsize, frame, h⟩ := Chip.reaches_computer hvalid
  have hvalues (circuit : Circuit) (state : CircuitState)
      (haccepted : ((Chip.computer config).run .empty).2.Accepted circuit) :=
    (Chip.ensures_computer h.finished (haccepted.settled state)
      (Netlist.ticked_value _ state) hvalid).result .empty (Netlist.le_refl _)
  cases hrun : (Chip.computer config).run .empty with
  | mk ports N =>
    rw [hrun] at hsize h hvalues
    obtain ⟨circuit, haccepted⟩ := h.accepted hsize
    have hvalue := fun state => hvalues circuit state haccepted
    refine ⟨N, circuit, ports, build_eq_ok hvalid hrun haccepted.compile, haccepted,
      (hvalue .initial).1, ?_, h.inputs, h.reset, ?_, ?_, ?_⟩
    · rw [h.instruction]
      exact ⟨List.nodup_range', List.length_range'⟩
    · exact h.latched.sorted.imp Nat.ne_of_lt
    · exact h.latched.flipFlops
    · exact fun state => (hvalue state).2

namespace Computer

/-- The ports of the circuit of a computer. -/
def ports (c : Computer) : ComputerPorts := ⟨c.instruction, c.resetWire, c.cpu, c.cells.toList⟩

/-- The computer is in the state of the word computer, with its reset wire held at a value. -/
structure Follows (config : Config) (N : Netlist) (circuit : Circuit) (held : Bool)
    (c : Computer) (w : WordComputer) : Prop where
  realized : c.ports.Realized config N circuit
  wires : ∃ state, c.simulation.Matches N circuit state ∧ state.inputs c.resetWire = held ∧
    c.ports.Holds (N.value state) w.machine
  alu : w.machine.alu = config.alu
  size : w.machine.ram.size = config.dataWords
  rom : c.rom = w.rom
  state : c.state = w.state
  ticks : c.ticks = w.ticks

/-- What can be observed of a computer is as the word computer has it. -/
structure Shows (c : Computer) (w : WordComputer) : Prop where
  pc : c.pc = w.machine.pc
  a : c.a = w.machine.a
  d : c.d = w.machine.d
  cells : ∀ i, c.cell? i = w.machine.ram[i]?
  size : c.dataSize = w.machine.ram.size
  rom : c.rom = w.rom
  state : c.state = w.state
  ticks : c.ticks = w.ticks

/-- The registers, as far as the processor has them. -/
def registers (c : Computer) : Registers := ⟨c.a, c.d, c.pc.setWidth 15⟩

/-- Beyond the limits of a configuration nothing is stored and everything is 0,
for the computer as for the word computer. -/
structure Bounded (config : Config) (c : Computer) (w : WordComputer) : Prop where
  load : ∀ program : Array Word, romWords < program.size →
    c.call (.load program) = (.refused (.programTooLarge program.size), c)
  poke : ∀ (address : Nat) (value : Word), config.dataWords ≤ address →
    c.call (.poke address value) = (.refused (.addressOutOfRange address config.dataWords), c)
  read : config.dataWords ≤ (WordMachine.addressOf c.a).toNat →
    c.step.registers = c.registers.next config.alu 0 (c.fetch c.pc) false ∧
      c.reset.registers = c.registers.next config.alu 0 (c.fetch c.pc) true ∧
      w.machine.readM = 0
  write : config.dataWords ≤ (WordMachine.addressOf c.a).toNat →
    (∀ i, c.step.cell? i = c.cell? i ∧ c.reset.cell? i = c.cell? i) ∧
      w.step.machine.ram = w.machine.ram ∧ w.reset.machine.ram = w.machine.ram

variable {config : Config} {N : Netlist} {circuit : Circuit} {held : Bool} {c : Computer}
  {w : WordComputer}

theorem Shows.registers_eq (h : c.Shows w) : c.registers = w.machine.registers := by
  rw [registers, h.a, h.d, h.pc]
  rfl

/-- The word on flip-flops is read without settling, and widened to a word of the machine. -/
theorem peek_eq {state : CircuitState} (hmatches : c.simulation.Matches N circuit state) {bus : Bus}
    (hflops : ∀ w ∈ bus, N.IsFlipFlop w) {width : Nat} {word : BitVec width}
    (hword : bus.Carries (N.value state) word) : c.peek bus = word.setWidth 16 := by
  rw [peek, hmatches.peek_flipFlops hflops, (Bus.carries_iff.mp hword).2, BitVec.ofNat_toNat]

/-- A new computer follows the word computer at its start, when all registers and the memory
are 0. -/
theorem follows_ofCircuit {ports : ComputerPorts} (h : ports.Realized config N circuit) :
    (ofCircuit config ports circuit).Follows config N circuit false (.initial config) where
  realized := h
  wires := by
    refine ⟨.initial, Simulation.matches_ofCircuit h.accepted, rfl, h.sized.holds_zeroed ?_⟩
    intro w hw
    rw [Netlist.value_flipFlop (h.flipFlops w hw)]
    rfl
  alu := rfl
  size := Array.size_replicate
  rom := rfl
  state := rfl
  ticks := rfl

namespace Follows

variable (h : c.Follows config N circuit held w)

include h

/-- What is read from a computer that follows a word computer is what this one holds:
registers, memory cells, program and state. -/
theorem shows : c.Shows w := by
  obtain ⟨state, hmatches, -, hholds⟩ := h.wires
  have hflops := h.realized.flipFlops
  have hregister (bus : Bus) (hbus : bus ⊆ c.cpu.a ++ c.cpu.d ++ c.cpu.pc) :
      ∀ w ∈ bus, N.IsFlipFlop w :=
    fun w hw => hflops w (List.mem_append_left _ (hbus hw))
  refine ⟨?_, ?_, ?_, ?_, ?_, h.rom, h.state, h.ticks⟩
  · have hpc := peek_eq hmatches (hregister c.cpu.pc (by simp)) hholds.cpu.pc
    have hlt := hholds.pc
    apply BitVec.eq_of_toNat_eq
    rw [pc, hpc, BitVec.toNat_setWidth, WordMachine.registers, BitVec.toNat_setWidth]
    omega
  · have ha := peek_eq hmatches (hregister c.cpu.a (by simp)) hholds.cpu.a
    rwa [BitVec.setWidth_eq] at ha
  · have hd := peek_eq hmatches (hregister c.cpu.d (by simp)) hholds.cpu.d
    rwa [BitVec.setWidth_eq] at hd
  · intro i
    have hcount : c.cells.size = w.machine.ram.size := hholds.count
    cases hcell : c.cells[i]? with
    | none =>
      rw [Array.getElem?_eq_none_iff, hcount] at hcell
      rw [cell?, Array.getElem?_eq_none (by omega), Array.getElem?_eq_none hcell, Option.map_none]
    | some cell =>
      have hlt := (Array.getElem?_eq_some_iff.mp hcell).1
      rw [hcount] at hlt
      have hword := Array.getElem?_eq_getElem hlt
      have hport : c.ports.cells[i]? = some cell := Array.getElem?_toList.trans hcell
      have hmem := List.mem_of_getElem? hport
      have hpeek := peek_eq hmatches
        (fun w hw => hflops w (ComputerPorts.mem_flipFlops_of_cell hmem hw))
        (hholds.cells i cell _ hport hword)
      rw [BitVec.setWidth_eq] at hpeek
      rw [cell?, hcell, Option.map_some, hpeek, hword]
  · exact hholds.count

theorem fetch_eq (address : Word) : c.fetch address = w.fetch address := by
  rw [fetch, WordComputer.fetch, h.rom]

theorem next_eq : c.next = w.next := by
  rw [next, WordComputer.next, h.fetch_eq, h.shows.pc]

theorem isIdle_eq : c.isIdle = w.isIdle := by
  rw [isIdle, WordComputer.isIdle, h.next_eq, h.shows.pc, h.shows.a, h.fetch_eq]
  rfl

theorem withState (state : RunState) :
    Follows config N circuit held { c with state } { w with state } :=
  ⟨h.realized, h.wires, h.alu, h.size, h.rom, rfl, h.ticks⟩

theorem noteIdle : c.noteIdle.Follows config N circuit held w.noteIdle := by
  rw [Computer.noteIdle, WordComputer.noteIdle, h.isIdle_eq]
  split
  case isTrue => exact h.withState .halted
  case isFalse => exact h

/-- A tick of the circuit on the word at the program counter is one of the word machine. The
circuit ensures this for the values before and after the tick, and the simulation has these
values. -/
theorem tick : Follows config N circuit held
    { c with simulation := (c.simulation.setBus c.instruction (c.fetch c.pc).toNat).tick }
    (w.tick held) := by
  obtain ⟨state, hmatches, hreset, hholds⟩ := h.wires
  have hr := h.realized
  rw [h.fetch_eq, h.shows.pc]
  have hinputs : ∀ w ∈ c.instruction, N.IsInput w :=
    fun w hw => hr.inputs w (List.mem_cons_of_mem _ hw)
  have hresetInput : N.IsInput c.resetWire := hr.inputs c.resetWire (List.mem_cons_self ..)
  generalize hword : w.fetch w.machine.pc = word
  -- the tick starts from the state in which the instruction has been put on its inputs
  let driven : CircuitState :=
    { state with inputs := overlays state.inputs [(c.instruction, word.toNat)] }
  have hdriven : (c.simulation.setBus c.instruction word.toNat).Matches N circuit driven :=
    hmatches.drive (by simpa using hinputs)
  have hinstruction : c.instruction.Carries (N.value driven) word := by
    have hnodup : c.instruction.Nodup := hr.instruction.1
    have hcarries : c.instruction.Carries driven.inputs word :=
      carries_overlays state.inputs (by simpa using hnodup) hr.instruction.2 (by simp)
    apply hcarries.congr
    intro w hw
    rw [Netlist.value_input (hinputs w hw)]
  have hkept : c.ports.Holds (N.value driven) w.machine := by
    apply hholds.congr
    intro w hw
    have hflop := hr.flipFlops w hw
    rw [Netlist.value_flipFlop hflop, Netlist.value_flipFlop hflop]
  have hresetDriven : driven.inputs c.resetWire = held := by
    have hapart : c.resetWire ∉ c.instruction := hr.reset
    exact (overlays_of_notMem state.inputs (by simpa using hapart)).trans hreset
  -- what the circuit ensures of any values before and after a tick, for the values of this state
  have hafter := hr.tick driven w.machine word h.alu h.size hinstruction hkept
  have hvalue : N.value driven c.ports.reset = held :=
    (Netlist.value_input hresetInput).trans hresetDriven
  rw [hvalue] at hafter
  have hticks : (c.simulation.setBus c.instruction word.toNat).tick.ticks = w.ticks + 1 := by
    have hsettle := Simulation.ticks_settle (c.simulation.setBus c.instruction word.toNat)
    rw [Simulation.ticks_setBus] at hsettle
    exact congrArg (· + 1) (hsettle.trans h.ticks)
  have hmachine : (w.tick held).machine = w.machine.tick word held := by
    rw [WordComputer.tick, hword]
  refine ⟨hr, ⟨driven.tick N, hdriven.tick hr.accepted, hresetDriven, ?_⟩, ?_, ?_, h.rom, h.state,
    hticks⟩
  · rw [hmachine]
    exact hafter
  · rw [hmachine, WordMachine.alu_tick]
    exact h.alu
  · rw [hmachine, WordMachine.size_ram_tick]
    exact h.size

theorem step (hheld : held = false) : c.step.Follows config N circuit held w.step := by
  subst hheld
  exact h.tick.noteIdle

theorem driveReset (value : Bool) :
    (c.driveReset value).Follows config N circuit value w := by
  obtain ⟨state, hmatches, -, hholds⟩ := h.wires
  have hr := h.realized
  have hinput : N.IsInput c.resetWire := hr.inputs c.resetWire (List.mem_cons_self ..)
  have hticks : (c.simulation.setWire c.resetWire value).ticks = w.ticks := by
    rw [← h.ticks]
    unfold Simulation.setWire
    split <;> rfl
  refine ⟨hr, ⟨state.setInput c.resetWire value, hmatches.setWire hinput value, ?_, ?_⟩, h.alu,
    h.size, h.rom, h.state, hticks⟩
  · exact Function.update_self ..
  · apply hholds.congr
    intro w hw
    have hflop := hr.flipFlops w hw
    rw [Netlist.value_flipFlop hflop, Netlist.value_flipFlop hflop]
    rfl

theorem reset : c.reset.Follows config N circuit false w.reset := by
  have hticked := (h.driveReset true).tick.noteIdle
  have hreleased := (hticked.driveReset false).withState .running
  rw [WordComputer.withState_noteIdle] at hreleased
  exact hreleased

theorem withRom (rom : Array Word) :
    Follows config N circuit held { c with rom } { w with rom } :=
  ⟨h.realized, h.wires, h.alu, h.size, rfl, h.state, h.ticks⟩

/-- Overwriting the flip-flops of a cell writes the word to memory, and nothing else is stored
there. -/
theorem overwrite {address : Nat} {cell : Bus} (hcell : c.cells[address]? = some cell)
    (value : Word) : Follows config N circuit held
      { c with simulation := c.simulation.overwrite cell value.toNat }
      { w with machine :=
          { w.machine with ram := w.machine.ram.setIfInBounds address value } } := by
  obtain ⟨state, hmatches, hheld, hholds⟩ := h.wires
  have hr := h.realized
  have hport : c.ports.cells[address]? = some cell := Array.getElem?_toList.trans hcell
  have hmem := List.mem_of_getElem? hport
  have hflops : ∀ w ∈ cell, N.IsFlipFlop w :=
    fun w hw => hr.flipFlops w (ComputerPorts.mem_flipFlops_of_cell hmem hw)
  refine ⟨hr, ⟨_, hmatches.overwrite hflops value.toNat, ?_, ?_⟩, h.alu, ?_, h.rom, h.state,
    h.ticks⟩
  · rw [CircuitState.inputs_setFlipFlops]
    exact hheld
  · have hflipFlops : c.ports.Holds state.flipFlops w.machine := by
      apply hholds.congr
      intro w hw
      exact Netlist.value_flipFlop (hr.flipFlops w hw)
    apply (hflipFlops.overlay_cell hr.sized hr.nodup hport value).congr
    intro w hw
    rw [Netlist.value_flipFlop (hr.flipFlops w hw), CircuitState.flipFlops_setFlipFlops]
  · rw [Array.size_setIfInBounds]
    exact h.size

end Follows

section Calls

variable (h : c.Follows config N circuit false w)

include h

/-- The steps of a run, by induction on those that it may take. Both computers look for the
idle loop after each of them and find the same. -/
theorem Follows.advance (fuel cycles : Nat) :
    (Computer.advance fuel cycles c).1 = (WordComputer.advance fuel cycles w).1 ∧
      (Computer.advance fuel cycles c).2.Follows config N circuit false
        (WordComputer.advance fuel cycles w).2 := by
  induction fuel generalizing cycles c w with
  | zero => exact ⟨rfl, h⟩
  | succ fuel ih =>
    rw [Computer.advance, WordComputer.advance, h.state]
    split
    case isTrue => exact ih (h.step rfl) (cycles + 1)
    case isFalse => exact ⟨rfl, h⟩

theorem Follows.run (maxCycles : Nat) : (c.run maxCycles).1 = (w.run maxCycles).1 ∧
    (c.run maxCycles).2.Follows config N circuit false (w.run maxCycles).2 := by
  obtain ⟨hcycles, hlast⟩ := h.noteIdle.advance maxCycles 0
  refine ⟨?_, hlast⟩
  dsimp only [Computer.run, WordComputer.run, Computer.result]
  rw [hcycles, hlast.state, hlast.shows.pc, hlast.shows.a, hlast.shows.d]

/-- A call gets the answer of the word computer and stays with its state. There is one case
for each kind of call, those that are refused among them. -/
theorem Follows.call (call : ComputerCall) : (c.call call).1 = (w.call call).1 ∧
    (c.call call).2.Follows config N circuit false (w.call call).2 := by
  cases call with
  | load program =>
    dsimp only [Computer.call, WordComputer.call]
    rw [Computer.load, WordComputer.load]
    by_cases hsize : romWords < program.size
    · rw [if_pos hsize, if_pos hsize]
      exact ⟨rfl, h⟩
    · rw [if_neg hsize, if_neg hsize]
      exact ⟨rfl, (h.withRom program).withState .running⟩
  | poke address value =>
    have hsize : c.cells.size = w.machine.ram.size := h.shows.size
    dsimp only [Computer.call, WordComputer.call]
    rw [Computer.poke, WordComputer.poke]
    by_cases hlt : address < c.cells.size
    · rw [Array.getElem?_eq_getElem hlt, if_pos (by omega)]
      exact ⟨rfl, h.overwrite (Array.getElem?_eq_getElem hlt) value⟩
    · rw [Array.getElem?_eq_none (by omega), if_neg (by omega), dataSize, hsize]
      exact ⟨rfl, h⟩
  | step =>
    refine ⟨?_, h.step rfl⟩
    exact congrArg ComputerAnswer.executed h.next_eq
  | run maxCycles =>
    obtain ⟨hresult, hlast⟩ := h.run maxCycles
    exact ⟨congrArg ComputerAnswer.ran hresult, hlast⟩
  | reset => exact ⟨rfl, h.reset⟩

theorem Follows.interact (calls : List ComputerCall) :
    (interact Computer.call c calls).1 = (interact WordComputer.call w calls).1 ∧
      (interact Computer.call c calls).2.Follows config N circuit false
        (interact WordComputer.call w calls).2 :=
  interact_simulates (fun _ _ h call _ => h.call call) h

theorem Follows.bounded : c.Bounded config w where
  load := by
    intro program hsize
    dsimp only [Computer.call]
    rw [Computer.load, if_pos hsize]
  poke := by
    intro address value hle
    have hsize : c.cells.size = config.dataWords := h.shows.size.trans h.size
    dsimp only [Computer.call]
    rw [Computer.poke, Array.getElem?_eq_none (by omega), dataSize, hsize]
  read := by
    intro houtside
    have hread : w.machine.readM = 0 := by
      apply WordMachine.readM_of_le
      rwa [h.size, ← h.shows.a]
    have hnext (reset : Bool) : (w.tick reset).machine.registers =
        w.machine.registers.next config.alu 0 (w.fetch w.machine.pc) reset := by
      rw [← h.alu, ← hread]
      exact w.machine.registers_tick _ reset
    rw [h.shows.registers_eq, (h.step rfl).shows.registers_eq, h.reset.shows.registers_eq,
      h.fetch_eq, h.shows.pc, WordComputer.step, WordComputer.machine_noteIdle]
    exact ⟨hnext false, hnext true, hread⟩
  write := by
    intro houtside
    have hram (reset : Bool) : (w.tick reset).machine.ram = w.machine.ram := by
      apply WordMachine.ram_tick_of_le
      rwa [h.size, ← h.shows.a]
    have hstep : w.step.machine.ram = w.machine.ram := by
      rw [WordComputer.step, WordComputer.machine_noteIdle, hram]
    refine ⟨?_, hstep, hram true⟩
    intro i
    rw [(h.step rfl).shows.cells, h.reset.shows.cells, h.shows.cells, hstep]
    exact ⟨rfl, congrArg (·[i]?) (hram true)⟩

end Calls

/-- The computer of every valid configuration is built, and after any calls it has answered
them like the word computer and shows the same registers and memory. A run of the word
computer is as many steps of the word machine as it counts. So the gates do what the machine
on words does, with either arithmetic unit and every size of memory, from loading a program to
the state that is left. -/
theorem interact_eq_wordComputer {config : Config} (hvalid : config.IsValid) :
    (∃ c, build config = .ok c ∧ ∀ calls : List ComputerCall,
      (interact Computer.call c calls).1 =
        (interact WordComputer.call (.initial config) calls).1 ∧
      (interact Computer.call c calls).2.Shows
        (interact WordComputer.call (.initial config) calls).2 ∧
      (interact Computer.call c calls).2.Bounded config
        (interact WordComputer.call (.initial config) calls).2) ∧
    ∀ (w : WordComputer) (maxCycles : Nat), (w.run maxCycles).1.cycles ≤ maxCycles ∧
      (w.run maxCycles).2.machine =
        WordMachine.run w.rom (w.run maxCycles).1.cycles w.machine := by
  refine ⟨?_, fun w maxCycles => w.machine_run maxCycles⟩
  obtain ⟨N, circuit, ports, hbuild, hrealized⟩ := exists_build hvalid
  refine ⟨_, hbuild, ?_⟩
  intro calls
  obtain ⟨hanswers, hlast⟩ := (follows_ofCircuit hrealized).interact calls
  exact ⟨hanswers, hlast.shows, hlast.bounded⟩

/-- A program that stores 5 inside and outside a memory of eight words. -/
def storeProgram : Array Word := #[0x0005, 0xEC10, 0x0002, 0xE308, 0x0009, 0xE308]

/-- Calls that run the program, write memory from outside, and reset. -/
def storeCalls : List ComputerCall :=
  [.load storeProgram, .run 4, .poke 1 7, .poke 8 1, .run 2, .reset, .step]

/-- A program that stores to memory, with writes from outside, one of them beyond the memory,
and with a reset in between. -/
theorem interact_eq_wordComputer_store : (⟨3, .standard⟩ : Config).IsValid ∧
    ∃ c, build ⟨3, .standard⟩ = .ok c ∧
      (interact Computer.call c storeCalls).1 =
        [.done, .ran ⟨4, .running, 4, 2, 5⟩, .done, .refused (.addressOutOfRange 8 8),
          .ran ⟨2, .running, 6, 9, 5⟩, .done, .executed (.address 5)] ∧
      (interact Computer.call c storeCalls).2.pc = 1 ∧
      (interact Computer.call c storeCalls).2.a = 5 ∧
      (interact Computer.call c storeCalls).2.cell? 1 = some 7 ∧
      (interact Computer.call c storeCalls).2.cell? 2 = some 5 := by
  have hvalid : (⟨3, .standard⟩ : Config).IsValid := by decide
  obtain ⟨⟨c, hbuild, hcalls⟩, -⟩ := interact_eq_wordComputer hvalid
  obtain ⟨hanswers, hshows, -⟩ := hcalls storeCalls
  refine ⟨hvalid, c, hbuild, ?_, ?_, ?_, ?_, ?_⟩
  · rw [hanswers]
    decide +kernel
  · rw [hshows.pc]
    decide +kernel
  · rw [hshows.a]
    decide +kernel
  · rw [hshows.cells]
    decide +kernel
  · rw [hshows.cells]
    decide +kernel

end Computer

end NandComputer
