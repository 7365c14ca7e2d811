import NandComputer.Proofs.Chip.Bench
import NandComputer.Proofs.Chip.Cpu
import NandComputer.Proofs.Chip.Wiring

/-!
The processor on its own. Whatever its registers hold and whatever is put on its
inputs, in a memory or not, every tick shows and stores what the arithmetic unit
and the instruction say on words.
-/

namespace NandComputer

/-- What a processor reads in a tick. -/
structure CpuInput where
  inM : Word
  instruction : Word
  reset : Bool

/-- What a processor shows during a tick, and its registers after it. -/
@[ext]
structure CpuOutput where
  outM : Word
  writeM : Bool
  addressM : BitVec 15
  after : Registers

/-- A tick on words. -/
def Registers.cycle (variant : AluKind) (r : Registers) (input : CpuInput) :
    CpuOutput × Registers :=
  let after := r.next variant input.inM input.instruction input.reset
  ({ outM := r.result variant input.inM input.instruction
     writeM := input.instruction.getLsbD 15 && input.instruction.getLsbD 3
     addressM := r.a.extractLsb' 0 15
     after }, after)

namespace Chip

/-- The flip-flops of a processor. -/
def Cpu.registerWires (c : Cpu) : Bus := c.a ++ c.d ++ c.pc

/-- A processor behind its inputs. -/
def processor (variant : AluKind) : Build (Bench Cpu) :=
  bench ("inM", 16) ("instruction", 16) "reset" fun inM instruction reset =>
    cpu inM instruction reset variant

end Chip

namespace Bench

variable (b : Bench Chip.Cpu)

/-- The registers as the flip-flops have them. -/
def registers (s : Simulation) : Registers where
  a := .ofNat 16 (s.peek b.chip.a)
  d := .ofNat 16 (s.peek b.chip.d)
  pc := .ofNat 15 (s.peek b.chip.pc)

/-- Overwrites the registers. -/
def setRegisters (s : Simulation) (r : Registers) : Simulation :=
  s.preset [(b.chip.a, r.a.toNat), (b.chip.d, r.d.toNat), (b.chip.pc, r.pc.toNat)]

/-- A tick of the circuit. The outputs are read before it and the registers after it. -/
def cycle (s : Simulation) (input : CpuInput) : CpuOutput × Simulation :=
  let s := b.drive s input.inM input.instruction input.reset
  let (outM, s) := s.bus b.chip.outM
  let (writeM, s) := s.wire b.chip.writeM
  let (addressM, s) := s.bus b.chip.addressM
  let s := s.tick
  ({ outM := .ofNat 16 outM
     writeM
     addressM := .ofNat 15 addressM
     after := b.registers s }, s)

/-- A processor in a circuit, where it does what a processor does. -/
structure Computes (variant : AluKind) (N : Netlist) (circuit : Circuit) : Prop where
  realized : b.Realized 16 16 N circuit b.chip.registerWires
  a : b.chip.a.length = 16
  d : b.chip.d.length = 16
  pc : b.chip.pc.length = 15
  works : ∀ (state : CircuitState) (m word : Word) (r : Registers),
    b.first.Carries (N.value state) m → b.second.Carries (N.value state) word →
      b.chip.Holds (N.value state) r →
        b.chip.Works (N.value state) (N.value (state.tick N)) variant m word b.wire r

/-- The flip-flops of the simulation hold the registers. -/
def Stores (N : Netlist) (circuit : Circuit) (s : Simulation) (r : Registers) : Prop :=
  ∃ state, s.Matches N circuit state ∧ b.chip.Holds (N.value state) r

end Bench

namespace Chip

open Build

variable (variant : AluKind)

theorem reaches_processor : Reaches .empty (processor variant) (16 + 16 + 1 + 7000) fun b n =>
    b.Alone 16 16 b.chip.registerWires n := by
  apply reaches_bench (by simp)
  intro n frame inM instruction reset h hinM hinMLength hinstruction hlength hreset
  apply (reaches_cpu h variant hinM hinMLength hinstruction hlength hreset).imp
  intro c n' _ hcpu
  exact ⟨hcpu.outM.sound, hcpu.latched⟩

/-- What the processor ensures behind inputs: its registers, outputs and next registers for
any word of memory and any instruction. -/
theorem ensures_processor {N : Netlist} {v after : Wire → Bool} (hN : N.Finished)
    (hv : N.Settled v) (hafter : N.Ticked v after) : Ensures N (processor variant) fun b =>
      b.chip.a.length = 16 ∧ b.chip.d.length = 16 ∧ b.chip.pc.length = 15 ∧
        ∀ (m word : Word) (r : Registers), b.first.Carries v m → b.second.Carries v word →
          b.chip.Holds v r → b.chip.Works v after variant m word b.wire r := by
  apply ensures_bench
  intro inM instruction reset hinM hinstruction
  obtain ⟨m, hm⟩ := Bus.exists_carries (v := v) hinM
  obtain ⟨word, hword⟩ := Bus.exists_carries (v := v) hinstruction
  apply (ensures_cpu hN hv hafter variant reset hm hword).imp
  rintro c ⟨ha, hd, hpc, hworks⟩
  refine ⟨ha, hd, hpc, ?_⟩
  intro m' word' r hm' hword' hr
  obtain rfl := hm.unique hm'
  obtain rfl := hword.unique hword'
  exact hworks r hr

theorem exists_processor : ∃ b N circuit,
    (processor variant).run .empty = (b, N) ∧ b.Computes variant N circuit := by
  obtain ⟨hsize, halone⟩ := reaches_processor variant
  cases hrun : (processor variant).run .empty with
  | mk b N =>
    rw [hrun] at hsize halone
    obtain ⟨circuit, hrealized⟩ := halone.exists_realized (by omega)
    have hworks (state : CircuitState) := (ensures_processor variant halone.finished
      (hrealized.accepted.settled state) (N.ticked_value state)).result .empty
        (by rw [hrun])
    rw [hrun] at hworks
    obtain ⟨ha, hd, hpc, -⟩ := hworks .initial
    exact ⟨b, N, circuit, rfl, hrealized, ha, hd, hpc, fun state => (hworks state).2.2.2⟩

end Chip

namespace Bench

variable {variant : AluKind} {b : Bench Chip.Cpu} {N : Netlist} {circuit : Circuit}
  (h : b.Computes variant N circuit)

include h

theorem Computes.holds_congr {v after : Wire → Bool} {r : Registers} (hr : b.chip.Holds v r)
    (hsame : ∀ w, N.IsFlipFlop w → v w = after w) : b.chip.Holds after r := by
  have hflop (bus : Bus) (hbus : bus ⊆ b.chip.registerWires) : ∀ w ∈ bus, v w = after w :=
    fun w hw => hsame w (h.realized.flipFlops w (hbus hw))
  refine ⟨hr.a.congr (hflop _ ?_), hr.d.congr (hflop _ ?_), hr.pc.congr (hflop _ ?_)⟩
  all_goals simp [Chip.Cpu.registerWires]

theorem Computes.registers_eq {s : Simulation} {r : Registers} (hs : b.Stores N circuit s r) :
    b.registers s = r := by
  obtain ⟨state, hmatches, hr⟩ := hs
  have hpeek {width : Nat} {bus : Bus} {word : BitVec width} (hbus : bus ⊆ b.chip.registerWires)
      (hword : bus.Carries (N.value state) word) : BitVec.ofNat width (s.peek bus) = word :=
    hmatches.peek_eq (fun w hw => h.realized.flipFlops w (hbus hw)) hword
  rw [registers, hpeek _ hr.a, hpeek _ hr.d, hpeek _ hr.pc]
  all_goals simp [Chip.Cpu.registerWires]

/-- Any registers can be put into the circuit, so sessions start from all of them and not from
a reset only. -/
theorem Computes.stores_setRegisters {s : Simulation} {state : CircuitState}
    (hs : s.Matches N circuit state) (r : Registers) :
    b.Stores N circuit (b.setRegisters s r) r := by
  let buses := [(b.chip.a, r.a.toNat), (b.chip.d, r.d.toNat), (b.chip.pc, r.pc.toNat)]
  have hbuses : buses.flatMap Prod.fst = b.chip.registerWires := by
    simp [buses, Chip.Cpu.registerWires]
  obtain ⟨preset, hmatches, hcarries⟩ := h.realized.exists_preset hs hbuses
  refine ⟨preset, hmatches, hcarries h.a ?_, hcarries h.d ?_, hcarries h.pc ?_⟩
  all_goals simp [buses]

/-- A tick of the circuit is one on words: it shows the same outputs, and then the circuit
stores the next registers. This is the step of the induction over a session. -/
theorem Computes.cycle {s : Simulation} {r : Registers} (hs : b.Stores N circuit s r)
    (input : CpuInput) : (b.cycle s input).1 = (r.cycle variant input).1 ∧
      b.Stores N circuit (b.cycle s input).2 (r.cycle variant input).2 := by
  obtain ⟨state, hmatches, hr⟩ := hs
  have haccepted := h.realized.accepted
  obtain ⟨driven, hdriven, hcarries⟩ := h.realized.wired.exists_driven hmatches input.inM
    input.instruction input.reset
  have hheld : b.chip.Holds (N.value driven) r :=
    h.holds_congr hr fun w hw => (hcarries.kept w hw).symm
  have hworks := h.works driven _ _ r hcarries.first hcarries.second hheld
  have hsettled := hdriven.settle haccepted
  have hafter : b.Stores N circuit (b.cycle s input).2 (r.cycle variant input).2 := by
    refine ⟨driven.tick N, ((hsettled.settle haccepted).settle haccepted).tick haccepted, ?_⟩
    have hnext := hworks.next
    rw [hcarries.wire] at hnext
    exact hnext
  refine ⟨?_, hafter⟩
  apply CpuOutput.ext
  · exact hdriven.bus_eq haccepted hworks.outM
  · have hwriteM := hsettled.wire_eq haccepted b.chip.writeM
    exact hwriteM.trans (hworks.writeM.trans (Registers.stores_eq input.instruction))
  · exact (hsettled.settle haccepted).bus_eq haccepted hworks.addressM
  · exact h.registers_eq hafter

end Bench

namespace Chip

/-- For every arithmetic unit, all registers and any inputs at each tick, the circuit of the
processor shows and stores what it does on words. Reset may be given at any tick, and the word
from memory need not belong to the address that is shown. -/
theorem interact_cycle_eq_registers (variant : AluKind) : ∃ b N circuit,
    (processor variant).run .empty = (b, N) ∧ N.compile = .ok circuit ∧
      ∀ (r : Registers) (inputs : List CpuInput),
        (interact b.cycle (b.setRegisters (.ofCircuit circuit) r) inputs).1 =
          (interact (Registers.cycle variant) r inputs).1 ∧
        b.registers (interact b.cycle (b.setRegisters (.ofCircuit circuit) r) inputs).2 =
          (interact (Registers.cycle variant) r inputs).2 := by
  obtain ⟨b, N, circuit, hrun, h⟩ := exists_processor variant
  refine ⟨b, N, circuit, hrun, h.realized.accepted.compile, ?_⟩
  intro r inputs
  have hstart := h.stores_setRegisters (Simulation.matches_ofCircuit h.realized.accepted) r
  obtain ⟨hanswers, hlast⟩ :=
    interact_simulates (R := b.Stores N circuit) (fun _ _ hs input _ => h.cycle hs input) hstart
  exact ⟨hanswers, h.registers_eq hlast⟩

end Chip

end NandComputer
