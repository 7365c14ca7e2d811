import NandComputer.Proofs.Chip.Bench
import NandComputer.Proofs.Chip.Memory
import NandComputer.Proofs.Chip.Wiring

/-!
The memory on its own is a flat array of words. A tick shows the entry at the
address as it was, whether or not it is written at the end of the tick, and
writes no other entry.
-/

namespace NandComputer

/-- What a memory reads in a tick. -/
structure MemoryInput (bits : Nat) where
  data : Word
  address : BitVec bits
  load : Bool

/-- The word that a memory shows during a tick, and what its cells hold during
and after it. -/
@[ext]
structure MemoryOutput (bits : Nat) where
  out : Word
  during : BitVec bits → Word
  after : BitVec bits → Word

/-- The entries of an array after a tick. -/
def MemoryInput.write {bits : Nat} (input : MemoryInput bits) (contents : BitVec bits → Word) :
    BitVec bits → Word :=
  if input.load then Function.update contents input.address input.data else contents

/-- A tick of an array. -/
def MemoryInput.cycle {bits : Nat} (contents : BitVec bits → Word) (input : MemoryInput bits) :
    MemoryOutput bits × (BitVec bits → Word) :=
  ({ out := contents input.address
     during := contents
     after := input.write contents }, input.write contents)

namespace Chip

/-- A memory behind its inputs. -/
def memoryAlone (bits : Nat) : Build (Bench Memory) :=
  bench ("in", 16) ("address", bits) "load" fun input address load => memory input load address

/-- The flip-flops of a memory. -/
def Memory.cellWires (m : Memory) : Bus := m.cells.flatten

/-- The wires of the cell at an address. -/
def Memory.cell (m : Memory) {bits : Nat} (address : BitVec bits) : Bus :=
  m.cells.getD address.toNat []

end Chip

namespace Bench

variable {bits : Nat} (b : Bench Chip.Memory)

/-- The words as the flip-flops have them. -/
def contents (s : Simulation) (address : BitVec bits) : Word :=
  .ofNat 16 (s.peek (b.chip.cell address))

/-- The cells with the words that they are to hold. -/
def entries (contents : BitVec bits → Word) : List (Bus × Nat) :=
  b.chip.cells.zipIdx.map fun entry => (entry.1, (contents (.ofNat bits entry.2)).toNat)

/-- A tick of the circuit. The wires are read before and after it. -/
def memoryCycle (s : Simulation) (input : MemoryInput bits) : MemoryOutput bits × Simulation :=
  let s := b.drive s input.data input.address input.load
  let (out, s) := s.bus b.chip.out
  let during := b.contents s
  let s := s.tick
  ({ out := .ofNat 16 out
     during
     after := b.contents s }, s)

/-- A memory in a circuit, where it does what a memory does. -/
structure Remembers (bits : Nat) (N : Netlist) (circuit : Circuit) : Prop where
  realized : b.Realized 16 bits N circuit b.chip.cellWires
  count : b.chip.cells.length = 2 ^ bits
  width : ∀ cell ∈ b.chip.cells, cell.length = 16
  works : ∀ state : CircuitState,
    b.chip.Works (N.value state) (N.value (state.tick N)) b.first b.second b.wire

/-- In a state, the cells carry the entries of an array. -/
def CellsCarry (v : Wire → Bool) (contents : BitVec bits → Word) : Prop :=
  ∀ address : BitVec bits, (b.chip.cell address).Carries v (contents address)

/-- The flip-flops of the simulation hold an array. -/
def HoldsArray (N : Netlist) (circuit : Circuit) (s : Simulation) (contents : BitVec bits → Word) :
    Prop :=
  ∃ state, s.Matches N circuit state ∧ b.CellsCarry (N.value state) contents

end Bench

namespace Chip

open Build

theorem reaches_memoryAlone {bits : Nat} (hbits : bits ≤ 15) :
    Reaches .empty (memoryAlone bits) (2 ^ 30) fun b n =>
      b.Alone 16 bits b.chip.cellWires n := by
  have hbench : Reaches .empty (memoryAlone bits)
      (16 + bits + 1 + 2 ^ bits * (16 * 5 + bits * (16 * 3 + 6))) fun b n =>
        b.Alone 16 bits b.chip.cellWires n := by
    apply reaches_bench (by simp)
    intro n frame input address load h hinput hlength haddress hwidth hload
    have hmemory := reaches_memory h hinput hlength hload haddress
    rw [hwidth] at hmemory
    exact hmemory.imp fun m n' _ hm => ⟨hm.out.sound, hm.latched⟩
  have hcost := memory_cost_le hbits
  exact hbench.weaken (by omega)

theorem ensures_memoryAlone {bits : Nat} {N : Netlist} {v after : Wire → Bool} (hN : N.Finished)
    (hv : N.Settled v) (hafter : N.Ticked v after) : Ensures N (memoryAlone bits) fun b =>
      b.first.length = 16 ∧ b.second.length = bits ∧
        b.chip.Works v after b.first b.second b.wire := by
  apply ensures_bench
  intro input address load hinput haddress
  apply (ensures_memory hN hv hafter input load address).imp
  exact fun m hm => ⟨hinput, haddress, hm⟩

/-- A memory behind inputs of its own compiles, for all the address widths that there are, and
its cells can be found by their addresses. -/
theorem exists_memoryAlone {bits : Nat} (hbits : bits ≤ 15) : ∃ b N circuit,
    (memoryAlone bits).run .empty = (b, N) ∧ b.Remembers bits N circuit := by
  obtain ⟨hsize, halone⟩ := reaches_memoryAlone hbits
  cases hrun : (memoryAlone bits).run .empty with
  | mk b N =>
    rw [hrun] at hsize halone
    obtain ⟨circuit, hrealized⟩ := halone.exists_realized hsize
    have hensures (state : CircuitState) : b.first.length = 16 ∧ b.second.length = bits ∧
        b.chip.Works (N.value state) (N.value (state.tick N)) b.first b.second b.wire := by
      have hbench := (ensures_memoryAlone halone.finished (hrealized.accepted.settled state)
        (N.ticked_value state)).result .empty (by rw [hrun])
      rwa [hrun] at hbench
    obtain ⟨hfirst, hsecond, hworks⟩ := hensures .initial
    refine ⟨b, N, circuit, rfl, hrealized, ?_, ?_, fun state => (hensures state).2.2⟩
    · rw [hworks.count, hsecond]
    · intro cell member
      rw [hworks.width cell member, hfirst]

end Chip

namespace Bench

variable {bits : Nat} {b : Bench Chip.Memory} {N : Netlist} {circuit : Circuit}

section Remembers

variable (h : b.Remembers bits N circuit)

include h

theorem Remembers.getElem?_cells (address : BitVec bits) :
    b.chip.cells[address.toNat]? = some (b.chip.cell address) := by
  have hlt : address.toNat < b.chip.cells.length := by
    rw [h.count]
    exact address.isLt
  rw [Chip.Memory.cell, List.getElem?_eq_getElem hlt, List.getD_eq_getElem?_getD,
    List.getElem?_eq_getElem hlt, Option.getD_some]

theorem Remembers.cell_mem (address : BitVec bits) : b.chip.cell address ∈ b.chip.cells :=
  List.mem_of_getElem? (h.getElem?_cells address)

theorem Remembers.flipFlops_cell (address : BitVec bits) :
    ∀ w ∈ b.chip.cell address, N.IsFlipFlop w :=
  fun _ hw => h.realized.flipFlops _ (List.mem_flatten_of_mem (h.cell_mem address) hw)

/-- The contents that are read from the cells of the circuit are the array that it holds. -/
theorem Remembers.contents_eq {s : Simulation} {contents : BitVec bits → Word}
    (hs : b.HoldsArray N circuit s contents) : b.contents s = contents := by
  obtain ⟨state, hmatches, hcells⟩ := hs
  funext address
  exact hmatches.peek_eq (h.flipFlops_cell address) (hcells address)

/-- Every array can be put into the cells, so the theorem on sessions starts from any
contents. -/
theorem Remembers.holds_preset {s : Simulation} {state : CircuitState}
    (hs : s.Matches N circuit state) (contents : BitVec bits → Word) :
    b.HoldsArray N circuit (s.preset (b.entries contents)) contents := by
  have hentries : (b.entries contents).flatMap Prod.fst = b.chip.cellWires := by
    have hcells : (b.entries contents).map Prod.fst = b.chip.cells := by
      rw [entries, List.map_map]
      exact List.zipIdx_map_fst 0 b.chip.cells
    rw [List.flatMap_def, hcells, Chip.Memory.cellWires]
  obtain ⟨preset, hmatches, hcarries⟩ := h.realized.exists_preset hs hentries
  refine ⟨preset, hmatches, fun address => hcarries (h.width _ (h.cell_mem address)) ?_⟩
  have hindex := List.mk_mem_zipIdx_iff_getElem?.mpr (h.getElem?_cells address)
  refine List.mem_map.mpr ⟨_, hindex, ?_⟩
  simp

/-- The memory shows the addressed entry, whether or not it is written at the end of the tick.
-/
theorem Remembers.carries_out {state : CircuitState} {contents : BitVec bits → Word}
    {address : BitVec bits} (hcells : b.CellsCarry (N.value state) contents)
    (haddress : b.second.Carries (N.value state) address) :
    b.chip.out.Carries (N.value state) (contents address) := by
  obtain ⟨cell, hcell, hout⟩ := (h.works state).out
  rw [(Bus.carries_iff.mp haddress).2, h.getElem?_cells address] at hcell
  cases hcell
  exact hout.trans (hcells address)

/-- A tick writes the addressed entry or none, and all the others keep what they have. The
cell of an address is the one at its number. -/
theorem Remembers.cellsCarry_tick {state : CircuitState} {contents : BitVec bits → Word}
    {input : MemoryInput bits} (hcells : b.CellsCarry (N.value state) contents)
    (hdata : b.first.Carries (N.value state) input.data)
    (haddress : b.second.Carries (N.value state) input.address)
    (hload : N.value state b.wire = input.load) :
    b.CellsCarry (N.value (state.tick N)) (input.write contents) := by
  intro address
  have hcell := (h.works state).cells address.toNat _ (h.getElem?_cells address)
  have hsame : (address.toNat == input.address.toNat) = (address == input.address) := by
    simp [BitVec.toNat_eq]
  rw [(Bus.carries_iff.mp haddress).2, hload, hsame] at hcell
  rw [Bus.Carries, hcell, MemoryInput.write]
  cases input.load with
  | false => exact hcells address
  | true =>
    by_cases heq : address = input.address
    · subst heq
      simp only [beq_self_eq_true, Bool.and_true, if_true, Function.update_self]
      exact hdata
    · simp only [beq_eq_false_iff_ne.mpr heq, Bool.and_false, if_true, Function.update_of_ne heq]
      exact hcells address

/-- A tick of the circuit is one of the array: it shows the same entry, and then circuit and
array hold the same again. This is the step of the induction over a session. -/
theorem Remembers.memoryCycle {s : Simulation} {contents : BitVec bits → Word}
    (hs : b.HoldsArray N circuit s contents) (input : MemoryInput bits) :
    (b.memoryCycle s input).1 = (input.cycle contents).1 ∧
      b.HoldsArray N circuit (b.memoryCycle s input).2 (input.cycle contents).2 := by
  obtain ⟨state, hmatches, hcells⟩ := hs
  have haccepted := h.realized.accepted
  obtain ⟨driven, hdriven, hcarries⟩ := h.realized.wired.exists_driven hmatches input.data
    input.address input.load
  have hheld : b.CellsCarry (N.value driven) contents := fun address =>
    (hcells address).congr fun w hw => (hcarries.kept w (h.flipFlops_cell address w hw)).symm
  have hsettled := hdriven.settle haccepted
  have hafter : b.HoldsArray N circuit (b.memoryCycle s input).2 (input.write contents) :=
    ⟨driven.tick N, hsettled.tick haccepted,
      h.cellsCarry_tick hheld hcarries.first hcarries.second hcarries.wire⟩
  refine ⟨MemoryOutput.ext ?_ ?_ ?_, hafter⟩
  · exact hdriven.bus_eq haccepted (h.carries_out hheld hcarries.second)
  · exact h.contents_eq ⟨driven, hsettled, hheld⟩
  · exact h.contents_eq hafter

end Remembers

end Bench

namespace Chip

/-- For every address width that memories are built with, all contents and any inputs at each
tick, the circuit of the memory is a flat array: it shows the entry at the address before the
tick, and has the written entry from the next tick on. No width is left out, as none is
refused. -/
theorem interact_memoryCycle_eq_array {bits : Nat} (hbits : 3 ≤ bits ∧ bits ≤ 15) :
    (∀ (input address : Bus) (load : Wire), address.length = bits →
      memory? input load address = some (memory input load address)) ∧
    ∃ b N circuit, (memoryAlone bits).run .empty = (b, N) ∧ N.compile = .ok circuit ∧
      b.chip.cells.length = 2 ^ bits ∧
      ∀ (contents : BitVec bits → Word) (inputs : List (MemoryInput bits)),
        (interact b.memoryCycle ((Simulation.ofCircuit circuit).preset (b.entries contents))
          inputs).1 = (interact MemoryInput.cycle contents inputs).1 ∧
        b.contents (interact b.memoryCycle
          ((Simulation.ofCircuit circuit).preset (b.entries contents)) inputs).2 =
            (interact MemoryInput.cycle contents inputs).2 := by
  refine ⟨fun input address load hlength => if_pos (by omega), ?_⟩
  obtain ⟨b, N, circuit, hrun, h⟩ := exists_memoryAlone hbits.2
  refine ⟨b, N, circuit, hrun, h.realized.accepted.compile, h.count, ?_⟩
  intro contents inputs
  have hstart := h.holds_preset (Simulation.matches_ofCircuit h.realized.accepted) contents
  obtain ⟨hanswers, hlast⟩ := interact_simulates (R := b.HoldsArray N circuit)
    (fun _ _ hs input _ => h.memoryCycle hs input) hstart
  exact ⟨hanswers, h.contents_eq hlast⟩

/-- A write and two reads. -/
def writeThenRead : List (MemoryInput 3) := [⟨7, 5, true⟩, ⟨0, 5, false⟩, ⟨0, 4, false⟩]

/-- Eight words that are first their own addresses. One of them is written and read again, and
another one is read unchanged. -/
theorem interact_memoryCycle_eq_array_writeThenRead : (3 ≤ 3 ∧ 3 ≤ 15) ∧
    ∃ b N circuit, (memoryAlone 3).run .empty = (b, N) ∧ N.compile = .ok circuit ∧
      (interact b.memoryCycle ((Simulation.ofCircuit circuit).preset
        (b.entries fun address : BitVec 3 => address.setWidth 16)) writeThenRead).1.map (·.out) =
          [5, 7, 4] := by
  have hbits : 3 ≤ 3 ∧ 3 ≤ 15 := by omega
  obtain ⟨-, b, N, circuit, hrun, hcompile, -, hcycles⟩ := interact_memoryCycle_eq_array hbits
  refine ⟨hbits, b, N, circuit, hrun, hcompile, ?_⟩
  rw [(hcycles _ writeThenRead).1]
  simp [writeThenRead, interact, MemoryInput.cycle, MemoryInput.write]

end Chip

end NandComputer
