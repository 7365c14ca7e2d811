import NandComputer.Computer
import NandComputer.Proofs.Chip.Steady
import NandComputer.Proofs.Chip.Wiring

/-!
The circuit of every valid configuration compiles. The only wires that lead back
from later to earlier gates are those of the addressed memory word, which ends at
the cells and the address within a tick.
-/

namespace NandComputer.Chip

open Build

-- the instances of an action grow with its length
set_option synthInstance.maxSize 100000

/-- A netlist with a computer and nothing else. Only the wires of the addressed
memory word are loose. -/
structure HasComputer (frame : Frame) (ports : ComputerPorts) (n : Netlist) : Prop where
  sound : n.Sound frame
  closed : frame.opened = ∅
  instruction : ports.instruction = List.range' 0 16
  inputs : ∀ w ∈ ports.reset :: ports.instruction, n.IsInput w
  reset : ports.reset ∉ ports.instruction
  latched : Netlist.empty.Latched n
    (ports.cpu.a ++ ports.cpu.d ++ ports.cpu.pc ++ ports.cells.flatten)
  addressM : ∀ w ∈ ports.cpu.addressM,
    w ∉ frame.loose ∧ ∃ source?, n.nodes[w]? = some (.forward source?)
  visible : ∀ N : Netlist, N.Finished → n ≤ N → (∀ w ∈ ports.cpu.addressM, N.Steady w) →
    ∀ w source : Wire, w ∈ frame.loose → N.nodes[w]? = some (.forward (some source)) →
      N.Steady source

theorem exists_mem_zip {α β : Type} {first : List α} {second : List β} {x : α}
    (hlength : first.length = second.length) (hx : x ∈ first) :
    ∃ y ∈ second, (x, y) ∈ first.zip second := by
  obtain ⟨i, hi, rfl⟩ := List.getElem_of_mem hx
  have hsecond : i < second.length := by rwa [← hlength]
  have hzip : i < (first.zip second).length := by
    rw [List.length_zip]
    omega
  refine ⟨second[i], List.getElem_mem hsecond, ?_⟩
  have hpair := List.getElem_mem hzip
  rwa [List.getElem_zip] at hpair

/-- The circuit of every valid configuration is sound and far from the size limit. The memory
word is a loose wire: it is driven after the processor has read it, and by gates that read the
address. -/
theorem reaches_computer {config : Config} (hvalid : config.IsValid) :
    Reaches .empty (computer config) (2 ^ 30) fun ports n =>
      ∃ frame, HasComputer frame ports n := by
  obtain ⟨-, hbits⟩ := hvalid
  have hempty := Netlist.sound_empty
  have hzero : Netlist.empty.size = 0 := rfl
  unfold computer
  apply (reaches_input hempty (by simp) 16).bind
  rintro instruction n₁ - hsize₁ ⟨h₁, hinstruction, hinputs₁⟩
  have hlive₁ : n₁.Has instruction := fun w hw => (hinputs₁ w hw).lt
  apply (reaches_inputWire h₁ (by simp [Frame.ports_declaring])).bind
  rintro reset n₂ hle₂ hsize₂ ⟨h₂, hreset, hinput₂⟩
  apply (reaches_forwardBus h₂ 16).bind
  rintro inM n₃ hle₃ hsize₃ ⟨hwaits₃, hinM, hfresh, hinMLength⟩
  -- the wires of the addressed word wait until the memory is there, and may read what it shows
  have hawaiting := hwaits₃.loosen {w | w ∈ inM} (Set.empty_subset _)
  have hinstruction₃ : n₃.Has instruction := hlive₁.mono (by omega)
  have hlength : instruction.length = 16 := by rw [hinstruction, List.length_range']
  apply (reaches_cpu hawaiting.sound config.alu hinM hinMLength hinstruction₃ hlength
    (Nat.lt_of_lt_of_le hinput₂.lt hsize₃.1)).bind
  rintro cpu n₄ hle₄ hsize₄ ⟨⟨h₄, houtM, houtMLength⟩, ⟨-, hwriteM⟩, ⟨-, haddressM, haddressLength⟩,
    hforward, hregisters⟩
  have hhigh : n₄.Has (cpu.addressM.drop config.addressBits) :=
    haddressM.sublist (List.drop_subset _ _)
  have hlow : n₄.Has (cpu.addressM.take config.addressBits) :=
    haddressM.sublist (List.take_subset _ _)
  -- from here to the memory every chip also says on which wires its outputs wait within a tick
  have hanyOf (N : Netlist) (hN : N.Finished) :
      Ensures N (anyOf (cpu.addressM.drop config.addressBits)) fun outside =>
        (∀ w ∈ cpu.addressM.drop config.addressBits, N.Steady w) → N.Steady outside :=
    ensures_of_imp fun hsteady => steady_anyOf hsteady hN
  apply ((reaches_anyOf h₄ hhigh).and_ensures hanyOf).bind
  rintro outside n₅ hle₅ hsize₅ ⟨⟨h₅, houtside⟩, hsteady₅⟩
  rw [List.length_drop, haddressLength] at hsize₅
  have hnot (N : Netlist) (_ : N.Finished) :
      Ensures N (not outside) fun inside => N.Steady outside → N.Steady inside :=
    ensures_of_imp fun hsteady => steady_not hsteady
  apply ((reaches_not h₅ houtside).and_ensures hnot).bind
  rintro inside n₆ hle₆ hsize₆ ⟨⟨h₆, hinside⟩, hsteady₆⟩
  apply (reaches_and h₆ (Nat.lt_of_lt_of_le hwriteM (by omega)) hinside).bind
  rintro load n₇ hle₇ hsize₇ ⟨h₇, hload⟩
  have houtM₇ : n₇.Has cpu.outM := houtM.mono (by omega)
  have hlow₇ : n₇.Has (cpu.addressM.take config.addressBits) := hlow.mono (by omega)
  have hmemory (N : Netlist) (hN : N.Finished) :
      Ensures N (memory cpu.outM load (cpu.addressM.take config.addressBits)) fun memory =>
        (∀ w ∈ cpu.addressM.take config.addressBits, N.Steady w) → ∀ w ∈ memory.out, N.Steady w :=
    ensures_of_imp fun hsteady => steady_memory hN cpu.outM load hsteady
  apply ((reaches_memory h₇ houtM₇ houtMLength hload hlow₇).and_ensures hmemory).bind
  rintro memory n₈ hle₈ hsize₈ ⟨⟨⟨h₈, hout, houtLength⟩, hcells⟩, hsteady₈⟩
  have hcost := memory_cost_le hbits
  rw [List.length_take, haddressLength, Nat.min_eq_left hbits] at hsize₈
  have hinside₈ : inside < n₈.size := Nat.lt_of_lt_of_le hinside (by omega)
  have henable (N : Netlist) (_ : N.Finished) :
      Ensures N (enableBus memory.out inside) fun visible =>
        (∀ w ∈ memory.out, N.Steady w) ∧ N.Steady inside → ∀ w ∈ visible, N.Steady w :=
    ensures_of_imp fun hsteady => steady_enableBus hsteady.1 hsteady.2
  apply ((reaches_enableBus h₈ hout houtLength hinside₈).and_ensures henable).bind
  rintro visible n₉ hle₉ hsize₉ ⟨⟨h₉, hvisible, hvisibleLength⟩, hsteady₉⟩
  have hle := hle₄.trans <| hle₅.trans <| hle₆.trans <| hle₇.trans <| hle₈.trans hle₉
  have hlast := hawaiting.later hle h₉
  have hdrive (N : Netlist) (hN : N.Finished) := ensures_driveBus_nodes hN inM visible
  apply ((reaches_driveBus hlast (hinMLength.trans hvisibleLength.symm) hvisible
    (.inl fun w hw => hw)).and_ensures hdrive).bind
  rintro _ n₁₀ hle₁₀ hsize₁₀ ⟨h₁₀, hnodes⟩
  apply (reaches_output h₁₀ (by simp [Frame.ports_declaring, Frame.ports_loosening]) cpu.pc).bind
  rintro _ n₁₁ hle₁₁ hsize₁₁ h₁₁
  apply (reaches_output h₁₁ (by simp [Frame.ports_declaring, Frame.ports_loosening]) cpu.a).bind
  rintro _ n₁₂ hle₁₂ hsize₁₂ h₁₂
  apply (reaches_output h₁₂ (by simp [Frame.ports_declaring, Frame.ports_loosening]) cpu.d).bind
  rintro _ n₁₃ hle₁₃ hsize₁₃ h₁₃
  apply (reaches_output h₁₃ (by simp [Frame.ports_declaring, Frame.ports_loosening]) cpu.outM).bind
  rintro _ n₁₄ hle₁₄ hsize₁₄ h₁₄
  apply (reaches_output h₁₄ (by simp [Frame.ports_declaring, Frame.ports_loosening])
    [cpu.writeM]).bind
  rintro _ n₁₅ hle₁₅ hsize₁₅ h₁₅
  apply (reaches_output h₁₅ (by simp [Frame.ports_declaring, Frame.ports_loosening])
    cpu.addressM).bind
  rintro _ n₁₆ hle₁₆ hsize₁₆ h₁₆
  have houtputs := hle₁₁.trans <| hle₁₂.trans <| hle₁₃.trans <| hle₁₄.trans <| hle₁₅.trans hle₁₆
  have hend := hle₁₀.trans houtputs
  refine reaches_pure ⟨_, h₁₆, rfl, hinstruction, ?_, ?_, ?_, ?_, ?_⟩ (by omega)
  · have hfirst := hle₂.trans <| hle₃.trans <| hle.trans hend
    intro w hw
    rcases List.mem_cons.mp hw with rfl | hmem
    · exact hinput₂.of_le (hle₃.trans <| hle.trans hend)
    · exact (hinputs₁ w hmem).of_le hfirst
  · intro hmem
    have hlt := hlive₁ reset hmem
    rw [hreset] at hlt
    exact Nat.lt_irrefl _ hlt
  · have hstart (m : Netlist) : Netlist.empty.size ≤ m.size := Nat.zero_le _
    have hbefore := hregisters.mono (hstart n₃) (hle₅.trans <| hle₆.trans hle₇)
    have hall := hbefore.append hcells (hstart n₇) hle₈
    exact hall.mono (Nat.le_refl _) (hle₉.trans hend)
  · intro w hw
    obtain ⟨hnew, source?, hnode⟩ := hforward w hw
    refine ⟨fun hmem => ?_, Netlist.forward_of_le ?_ hnode⟩
    · exact Nat.lt_irrefl _ (Nat.lt_of_lt_of_le (hinM w hmem) hnew)
    · exact hle₅.trans <| hle₆.trans <| hle₇.trans <| hle₈.trans <| hle₉.trans hend
  · intro N hN hgrown haddress w source hw hnode
    obtain ⟨v, hv, hpair⟩ := exists_mem_zip (hinMLength.trans hvisibleLength.symm) hw
    have hdriven := hnodes N hN (houtputs.trans hgrown) _ hpair
    rw [hdriven] at hnode
    cases hnode
    have h₉N := hend.trans hgrown
    have houtside := hsteady₅ N hN (hle₆.trans <| hle₇.trans <| hle₈.trans <| hle₉.trans h₉N)
      fun w hw => haddress w (List.mem_of_mem_drop hw)
    have hinside := hsteady₆ N hN (hle₇.trans <| hle₈.trans <| hle₉.trans h₉N) houtside
    have hshown := hsteady₈ N hN (hle₉.trans h₉N) fun w hw => haddress w (List.mem_of_mem_take hw)
    exact hsteady₉ N hN h₉N ⟨hshown, hinside⟩ v hv

namespace HasComputer

variable {frame : Frame} {ports : ComputerPorts} {n : Netlist} (h : HasComputer frame ports n)

include h

theorem finished : n.Finished :=
  .of_wellFormed h.sound.wellFormed h.sound.defects

/-- The address is what register A holds, so it waits for nothing within a tick. This is what
lets the memory word end somewhere. -/
theorem steady_addressM {w : Nat} (hw : w ∈ ports.cpu.addressM) : n.Steady w := by
  obtain ⟨hloose, source?, hnode⟩ := h.addressM w hw
  cases source? with
  | none => exact absurd (.inl hnode) (h.sound.not_openSlot h.closed w)
  | some source =>
    have hflop : n.IsFlipFlop source := (h.sound.forward w source hnode).resolve_left hloose
    apply Netlist.steady_of_operands hnode
    intro v hv
    obtain rfl : v = source := List.mem_singleton.mp hv
    exact Netlist.steady_of_flipFlop hflop

theorem accepted (hsize : n.size ≤ 2 ^ 30) : ∃ circuit, n.Accepted circuit :=
  h.sound.accepted h.closed
    (h.visible n h.finished (Netlist.le_refl n) fun _ hw => h.steady_addressM hw) hsize

end HasComputer

end NandComputer.Chip
