import NandComputer.Proofs.Chip.Memory
import NandComputer.Proofs.Computer.Circuit
import NandComputer.Proofs.Computer.Step

/-!
A tick of the computer executes one instruction of the word machine. The high
bits of the address say whether it is inside the data memory; only then do the
others address a cell.
-/

namespace NandComputer

/-- Buses of a computer have the widths of the words that they carry. -/
structure ComputerPorts.Sized (config : Config) (ports : ComputerPorts) : Prop where
  a : ports.cpu.a.length = 16
  d : ports.cpu.d.length = 16
  pc : ports.cpu.pc.length = 15
  count : ports.cells.length = config.dataWords
  cells : ∀ cell ∈ ports.cells, cell.length = 16

/-- The wires of a computer hold the state of a word machine. -/
structure ComputerPorts.Holds (v : Wire → Bool) (ports : ComputerPorts) (m : WordMachine) :
    Prop where
  cpu : ports.cpu.Holds v m.registers
  pc : m.pc.toNat < 2 ^ 15
  count : ports.cells.length = m.ram.size
  cells : ∀ (i : Nat) (cell : Bus) (word : Word), ports.cells[i]? = some cell →
    m.ram[i]? = some word → cell.Carries v word

namespace Chip

open Build

-- the instances of an action grow with its length
set_option synthInstance.maxSize 100000

section Window

variable {v after : Wire → Bool} {address : Bus} {bits : Nat}

/-- The high bits of an address are clear exactly if it is below the window, and then the low
bits are the whole of it. -/
theorem any_drop_address (hbits : bits ≤ address.length) :
    ((address.drop bits).map v).any id = !decide (numberOf (address.map v) < 2 ^ bits) ∧
      (numberOf (address.map v) < 2 ^ bits →
        numberOf ((address.take bits).map v) = numberOf (address.map v)) := by
  have htake : ((address.take bits).map v).length = bits := by
    rw [List.length_map, List.length_take, Nat.min_eq_left hbits]
  have hlow := numberOf_lt ((address.take bits).map v)
  have hsplit : numberOf (address.map v) = numberOf ((address.take bits).map v) +
      2 ^ bits * numberOf ((address.drop bits).map v) := by
    rw [← List.take_append_drop bits (address.map v), numberOf_append, ← List.map_take,
      ← List.map_drop, htake]
  rw [htake] at hlow
  rw [any_eq_numberOf_ne_zero, hsplit]
  cases numberOf ((address.drop bits).map v) with
  | zero =>
    rw [Nat.mul_zero, Nat.add_zero, decide_eq_true hlow]
    exact ⟨rfl, fun _ => rfl⟩
  | succ high =>
    have hge : 2 ^ bits ≤ 2 ^ bits * (high + 1) := Nat.le_mul_of_pos_right _ (Nat.succ_pos high)
    have hnot : ¬ numberOf ((address.take bits).map v) + 2 ^ bits * (high + 1) < 2 ^ bits := by
      omega
    rw [decide_eq_false hnot]
    exact ⟨rfl, fun hlt => absurd hlt hnot⟩

theorem numberOf_addressM {address : Bus} {word : Word}
    (haddress : address.Carries v (word.extractLsb' 0 15)) :
    numberOf (address.map v) = (WordMachine.addressOf word).toNat := by
  have hlt := (WordMachine.addressOf word).isLt
  rw [(Bus.carries_iff.mp haddress).2, ← WordMachine.setWidth_addressOf, BitVec.toNat_setWidth,
    WordMachine.toNat_addressOf, Nat.mod_mod]

variable {m : WordMachine} {input : Bus} {load : Wire} {memory : Memory}
  (hbits : bits ≤ 15) (hsize : m.ram.size = 2 ^ bits)
  (haddress : address.Carries v (m.a.extractLsb' 0 15))
  (hmemory : memory.Works v after input (address.take bits) load)
  (hcells : ∀ (i : Nat) (cell : Bus) (word : Word), memory.cells[i]? = some cell →
    m.ram[i]? = some word → cell.Carries v word)

include hbits hsize haddress hmemory hcells

/-- The memory shows the addressed word, as far as the address is inside, and beyond it what
is read is 0. -/
theorem readM_eq {word : Word} (hword : memory.out.Carries v word) :
    m.readM = if (WordMachine.addressOf m.a).toNat < 2 ^ bits then word else 0 := by
  have hlow := (any_drop_address (v := v) (hbits.trans_eq haddress.length.symm)).2
  rw [numberOf_addressM haddress] at hlow
  split
  case isTrue hinside =>
    obtain ⟨cell, hcell, hout⟩ := hmemory.out
    rw [hlow hinside] at hcell
    have hread := m.getElem?_readM (by omega)
    have hshown : memory.out.Carries v m.readM := hout.trans (hcells _ cell _ hcell hread)
    exact hshown.unique hword
  case isFalse houtside =>
    rw [WordMachine.readM_of_le]
    omega

/-- A word is stored in the addressed cell if the address is inside. Beyond the memory the
load wire is held down. -/
theorem carries_after {out : Word} {stores : Bool} (hinput : input.Carries v out)
    (hload : v load = (stores && decide ((WordMachine.addressOf m.a).toNat < 2 ^ bits)))
    {i : Nat} {cell : Bus} {word : Word} (hcell : memory.cells[i]? = some cell)
    (hword : (if stores then m.ram.setIfInBounds (WordMachine.addressOf m.a).toNat out
      else m.ram)[i]? = some word) : cell.Carries after word := by
  have hlow := (any_drop_address (v := v) (hbits.trans_eq haddress.length.symm)).2
  rw [numberOf_addressM haddress] at hlow
  rw [Bus.Carries, hmemory.cells i cell hcell, hload]
  cases stores with
  | false => exact hcells i cell word hcell hword
  | true =>
    rw [if_pos rfl] at hword
    by_cases hinside : (WordMachine.addressOf m.a).toNat < 2 ^ bits
    · rw [decide_eq_true hinside, hlow hinside, Bool.and_true, Bool.true_and]
      by_cases hi : (WordMachine.addressOf m.a).toNat = i
      · subst hi
        rw [Array.getElem?_setIfInBounds_self_of_lt (by omega)] at hword
        cases hword
        rw [beq_self_eq_true, if_pos rfl]
        exact hinput
      · rw [Array.getElem?_setIfInBounds_ne hi] at hword
        rw [beq_eq_false_iff_ne.mpr (Ne.symm hi)]
        exact hcells i cell word hcell hword
    · rw [Array.setIfInBounds_eq_of_size_le (by omega)] at hword
      rw [decide_eq_false hinside]
      exact hcells i cell word hcell hword

end Window

section Values

variable {N : Netlist} {v after : Wire → Bool} (hN : N.Finished) (hv : N.Settled v)
  (hafter : N.Ticked v after)

include hN hv hafter

/-- A tick of the computer executes one instruction of the word machine: whatever machine its
flip-flops hold before it, they hold the next one after it. -/
theorem ensures_computer {config : Config} (hvalid : config.IsValid) :
    Ensures N (computer config) fun ports => ports.Sized config ∧
      ∀ (m : WordMachine) (word : Word), m.alu = config.alu → m.ram.size = config.dataWords →
        ports.instruction.Carries v word → ports.Holds v m →
          ports.Holds after (m.tick word (v ports.reset)) := by
  obtain ⟨-, hbits⟩ := hvalid
  unfold computer
  apply (ensures_input "instruction" 16).bind
  intro instruction hinstruction
  obtain ⟨current, hinstruction⟩ := Bus.exists_carries (v := v) hinstruction
  apply (ensures_true (inputWire "reset")).bind
  intro reset _
  apply (ensures_forwardBus 16).bind
  intro inM hinM
  -- the memory word is read here and driven behind the memory
  obtain ⟨shown, hinM⟩ := Bus.exists_carries (v := v) hinM
  apply (ensures_cpu hN hv hafter config.alu reset hinM hinstruction).bind
  rintro cpu ⟨ha, hd, hpc, hcpu⟩
  obtain ⟨r, hr⟩ := Cpu.exists_holds (v := v) ha hd hpc
  have hworks := hcpu r hr
  have haddressLength := hworks.addressM.length
  apply (ensures_anyOf hv hN (cpu.addressM.drop config.addressBits)).bind
  intro outside houtside
  apply (ensures_not hv outside).bind
  intro inside hinside
  apply (ensures_and hv cpu.writeM inside).bind
  intro load hload
  apply (ensures_memory hN hv hafter cpu.outM load (cpu.addressM.take config.addressBits)).bind
  intro memory hmemory
  have hout := hmemory.length_out.trans hworks.outM.length
  obtain ⟨addressed, haddressed⟩ := Bus.exists_carries (v := v) hout
  apply (ensures_enableBus_carries hv haddressed inside).bind
  intro visible hvisible
  apply (ensures_driveBus hN hv (hinM.length.trans hvisible.length.symm)).bind
  intro _ hfeed
  apply (ensures_true (output "pc" cpu.pc)).bind
  intro _ _
  apply (ensures_true (output "a" cpu.a)).bind
  intro _ _
  apply (ensures_true (output "d" cpu.d)).bind
  intro _ _
  apply (ensures_true (output "outM" cpu.outM)).bind
  intro _ _
  apply (ensures_true (output "writeM" [cpu.writeM])).bind
  intro _ _
  apply (ensures_true (output "addressM" cpu.addressM)).bind
  intro _ _
  apply ensures_pure
  refine ⟨⟨ha, hd, hpc, ?_, ?_⟩, ?_⟩
  · rw [hmemory.count, List.length_take, haddressLength, Nat.min_eq_left hbits, Config.dataWords,
      Nat.one_shiftLeft]
  · intro cell hcell
    exact (hmemory.width cell hcell).trans hworks.outM.length
  · intro m word halu hsize hword hm
    rw [Config.dataWords, Nat.one_shiftLeft] at hsize
    obtain rfl := hinstruction.unique hword
    obtain rfl := hr.unique hm.cpu
    have haddress : cpu.addressM.Carries v (m.a.extractLsb' 0 15) := hworks.addressM
    have hwindow := (any_drop_address (v := v) (hbits.trans_eq haddressLength.symm)).1
    rw [numberOf_addressM haddress, ← houtside] at hwindow
    rw [hwindow, Bool.not_not] at hinside
    -- now the forward bus is known to carry the word that the machine reads
    have hread := readM_eq hbits hsize haddress hmemory hm.cells haddressed
    have hshown : inM.Carries v (if v inside then addressed else 0) := hfeed.trans hvisible
    rw [hinside] at hshown
    simp only [decide_eq_true_eq] at hshown
    rw [← hread] at hshown
    obtain rfl := hinM.unique hshown
    refine ⟨?_, m.pc_tick_lt current _, ?_, ?_⟩
    · rw [m.registers_tick, halu]
      exact hworks.next
    · rw [m.size_ram_tick]
      exact hm.count
    · intro i cell word hcell hget
      rw [m.ram_tick, halu] at hget
      rw [hworks.writeM, hinside] at hload
      exact carries_after hbits hsize haddress hmemory hm.cells hworks.outM hload hcell hget

end Values

end Chip

end NandComputer
