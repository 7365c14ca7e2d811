import NandComputer.Proofs.Chip.Wiring

/-!
Chips compose without wiring mistakes. A netlist that is put together from ports under
names of their own and from chips, each of them on wires that exist, has nothing open and
no loop that avoids the flip-flops, so it always compiles.
-/

namespace NandComputer

open Build Chip

/-- The actions that add a chip, with the wires that they are given. The buses are as
wide as the chip needs them. -/
inductive IsChip : {α : Type} → Build α → Bus → Prop
  | zero : IsChip zero []
  | one : IsChip one []
  | constant (width value : Nat) : IsChip (constant width value) []
  | nand (a b : Wire) : IsChip (nand a b) [a, b]
  | not (a : Wire) : IsChip (Chip.not a) [a]
  | and (a b : Wire) : IsChip (Chip.and a b) [a, b]
  | or (a b : Wire) : IsChip (Chip.or a b) [a, b]
  | xor (a b : Wire) : IsChip (Chip.xor a b) [a, b]
  | mux (a b sel : Wire) : IsChip (mux a b sel) [a, b, sel]
  | demux (input sel : Wire) : IsChip (demux input sel) [input, sel]
  | notBus (a : Bus) : IsChip (notBus a) a
  | andBus {a b : Bus} (hwidth : a.length = b.length) : IsChip (andBus a b) (a ++ b)
  | orBus {a b : Bus} (hwidth : a.length = b.length) : IsChip (orBus a b) (a ++ b)
  | muxBus {a b : Bus} (sel : Wire) (hwidth : a.length = b.length) :
      IsChip (muxBus a b sel) (sel :: (a ++ b))
  | enableBus (a : Bus) (enable : Wire) : IsChip (enableBus a enable) (enable :: a)
  | anyOf (inputs : List Wire) : IsChip (anyOf inputs) inputs
  | allOf (inputs : List Wire) : IsChip (allOf inputs) inputs
  | select {inputs : List Bus} {sel : Bus} {width : Nat} {chip : Build Bus}
      (hfan : select? inputs sel = some chip) (hwidth : ∀ input ∈ inputs, input.length = width) :
      IsChip chip (sel ++ inputs.flatten)
  | route (input : Wire) (sel : Bus) : IsChip (route input sel) (input :: sel)
  | halfAdder (a b : Wire) : IsChip (halfAdder a b) [a, b]
  | fullAdder (a b c : Wire) : IsChip (fullAdder a b c) [a, b, c]
  | add {a b : Bus} (hwidth : a.length = b.length) : IsChip (add a b) (a ++ b)
  | increment (a : Bus) : IsChip (increment a) a
  | shiftLeftLogical (a : Bus) : IsChip (shiftLeftLogical a) a
  | shiftRightLogical (a : Bus) : IsChip (shiftRightLogical a) a
  | shiftLeftArithmetic (a : Bus) : IsChip (shiftLeftArithmetic a) a
  | shiftRightArithmetic (a : Bus) : IsChip (pure (shiftRightArithmetic a)) a
  | multiply {x y : Bus} (hwidth : x.length = y.length) : IsChip (multiply x y) (x ++ y)
  | alu {x y control : Bus} (hx : x.length = 16) (hy : y.length = 16)
      (hcontrol : control.length = 6) : IsChip (alu x y control) (x ++ (y ++ control))
  | extendedAlu {x y control : Bus} (hx : x.length = 16) (hy : y.length = 16)
      (hcontrol : control.length = 9) : IsChip (extendedAlu x y control) (x ++ (y ++ control))
  | bit (input load : Wire) : IsChip (Chip.bit input load) [input, load]
  | register (input : Bus) (load : Wire) : IsChip (register input load) (load :: input)
  | programCounter (input : Bus) (load inc reset : Wire) :
      IsChip (programCounter input load inc reset) (load :: inc :: reset :: input)
  | memory {input : Bus} {load : Wire} {address : Bus} {chip : Build Memory}
      (hinput : input.length = 16) (haddress : memory? input load address = some chip) :
      IsChip chip (load :: (input ++ address))
  | cpu (variant : AluKind) {inM instruction : Bus} (hinM : inM.length = 16)
      (hinstruction : instruction.length = 16) (reset : Wire) :
      IsChip (cpu inM instruction reset variant) (reset :: (inM ++ instruction))

namespace Netlist

/-- The netlists that are put together from inputs, outputs and chips. -/
inductive Composed : Netlist → Prop
  | empty : Composed empty
  | input {n : Netlist} (h : Composed n) (name : String) (width : Nat)
      (hname : ∀ port ∈ n.ports, port.name ≠ name) : Composed ((input name width).run n).2
  | inputWire {n : Netlist} (h : Composed n) (name : String)
      (hname : ∀ port ∈ n.ports, port.name ≠ name) : Composed ((inputWire name).run n).2
  | output {n : Netlist} (h : Composed n) (name : String) {wires : Bus}
      (hname : ∀ port ∈ n.ports, port.name ≠ name) (hwires : n.Has wires) :
      Composed ((output name wires).run n).2
  | chip {n : Netlist} (h : Composed n) {α : Type} {m : Build α} {given : Bus}
      (hchip : IsChip m given) (hgiven : n.Has given) : Composed (m.run n).2

variable {n : Netlist} {bus more : Bus}

theorem has_nil : n.Has [] := by
  simp [Has]

theorem has_cons {w : Wire} : n.Has (w :: bus) ↔ w < n.size ∧ n.Has bus :=
  List.forall_mem_cons

theorem has_append : n.Has (bus ++ more) ↔ n.Has bus ∧ n.Has more :=
  List.forall_mem_append

theorem has_flatten {buses : List Bus} : n.Has buses.flatten ↔ ∀ bus ∈ buses, n.Has bus := by
  simp only [Has, List.mem_flatten]
  grind

end Netlist

/-- Whatever a netlist is like around it, a chip makes no mistake and leaves nothing open, if
it is given wires that exist. There is one case for each chip of the library. -/
theorem IsChip.sound {α : Type} {m : Build α} {given : Bus} (h : IsChip m given) {n : Netlist}
    {frame : Frame} (hn : n.Sound frame) (hgiven : n.Has given) : (m.run n).2.Sound frame := by
  cases h <;> simp -failIfUnchanged only [Netlist.has_cons, Netlist.has_append,
    Netlist.has_flatten, Netlist.has_nil, and_true] at hgiven
  case zero => exact (reaches_zero hn).result.sound
  case one => exact (reaches_one hn).result.sound
  case constant width value => exact (reaches_constant hn width value).result.sound
  case nand a b => exact (reaches_nand hn hgiven.1 hgiven.2).result.sound
  case not a => exact (reaches_not hn hgiven).result.sound
  case and a b => exact (reaches_and hn hgiven.1 hgiven.2).result.sound
  case or a b => exact (reaches_or hn hgiven.1 hgiven.2).result.sound
  case xor a b => exact (reaches_xor hn hgiven.1 hgiven.2).result.sound
  case mux a b sel =>
    obtain ⟨ha, hb, hsel⟩ := hgiven
    exact (reaches_mux hn ha hb hsel).result.sound
  case demux input sel => exact (reaches_demux hn hgiven.1 hgiven.2).result.1.sound
  case notBus => exact (reaches_notBus hn hgiven rfl).result.sound
  case andBus hwidth => exact (reaches_andBus hn hgiven.1 hwidth hgiven.2 rfl).result.sound
  case orBus hwidth => exact (reaches_orBus hn hgiven.1 hwidth hgiven.2 rfl).result.sound
  case muxBus sel hwidth =>
    obtain ⟨hsel, ha, hb⟩ := hgiven
    exact (reaches_muxBus hn ha hwidth hb rfl hsel).result.sound
  case enableBus a enable => exact (reaches_enableBus hn hgiven.2 rfl hgiven.1).result.sound
  case anyOf => exact (reaches_anyOf hn hgiven).result.sound
  case allOf => exact (reaches_allOf hn hgiven).result.sound
  case select inputs sel width _ hfan hwidth =>
    obtain ⟨hcount, hchip⟩ := Option.ite_none_right_eq_some.mp hfan
    cases hchip
    rw [Nat.one_shiftLeft] at hcount
    have hinputs : ∀ input ∈ inputs, n.Has input ∧ input.length = width :=
      fun input member => ⟨hgiven.2 input member, hwidth input member⟩
    exact (reaches_select hn hgiven.1 hcount hinputs).result.sound
  case route input sel => exact (reaches_route hn hgiven.1 hgiven.2).result.sound
  case halfAdder a b => exact (reaches_halfAdder hn hgiven.1 hgiven.2).result.1.sound
  case fullAdder a b c =>
    obtain ⟨ha, hb, hc⟩ := hgiven
    exact (reaches_fullAdder hn ha hb hc).result.1.sound
  case add hwidth => exact (reaches_add hn hgiven.1 hwidth hgiven.2 rfl).result.sound
  case increment => exact (reaches_increment hn hgiven rfl).result.sound
  case shiftLeftLogical => exact (reaches_shiftLeftLogical hn hgiven rfl).result.sound
  case shiftRightLogical => exact (reaches_shiftRightLogical hn hgiven rfl).result.sound
  case shiftLeftArithmetic => exact (reaches_shiftLeftArithmetic hn hgiven rfl).result.sound
  case shiftRightArithmetic => exact hn
  case multiply => exact (reaches_multiply hn hgiven.1 rfl hgiven.2).result.sound
  case alu hx hy hcontrol =>
    obtain ⟨hxs, hys, hcontrols⟩ := hgiven
    exact (reaches_alu hn hxs hx hys hy hcontrols hcontrol).result.1.sound
  case extendedAlu hx hy hcontrol =>
    obtain ⟨hxs, hys, hcontrols⟩ := hgiven
    exact (reaches_extendedAlu hn hxs hx hys hy hcontrols hcontrol).result.1.sound
  case bit input load => exact (reaches_bit hn hgiven.1 hgiven.2).result.1
  case register input load => exact (reaches_register hn hgiven.2 rfl hgiven.1).result.sound
  case programCounter input load inc reset =>
    obtain ⟨hload, hinc, hreset, hinput⟩ := hgiven
    exact (reaches_programCounter hn hinput rfl hload hinc hreset).result.sound
  case memory input load address _ hinput haddress =>
    obtain ⟨hload, hinputs, haddresses⟩ := hgiven
    obtain ⟨-, hchip⟩ := Option.ite_none_right_eq_some.mp haddress
    cases hchip
    exact (reaches_memory hn hinputs hinput hload haddresses).result.out.sound
  case cpu variant _ _ hinM hinstruction reset =>
    obtain ⟨hreset, hinMs, hinstructions⟩ := hgiven
    exact (reaches_cpu hn variant hinMs hinM hinstructions hinstruction hreset).result.outM.sound

namespace Netlist

variable {n : Netlist}

/-- Nothing waits to be connected in a composed netlist, and every forward wire in it ends at
a flip-flop. The induction is on the steps of the composition: ports with new names, and chips
on wires that exist. -/
theorem Composed.exists_sound (h : n.Composed) : ∃ ports, n.Sound ⟨ports, ∅, ∅⟩ := by
  induction h with
  | empty => exact ⟨_, sound_empty⟩
  | input _ _ width hname ih =>
    obtain ⟨ports, hsound⟩ := ih
    rw [hsound.ports] at hname
    exact ⟨_, (reaches_input hsound hname width).result.1⟩
  | inputWire _ _ hname ih =>
    obtain ⟨ports, hsound⟩ := ih
    rw [hsound.ports] at hname
    exact ⟨_, (reaches_inputWire hsound hname).result.1⟩
  | output _ _ hname _ ih =>
    obtain ⟨ports, hsound⟩ := ih
    rw [hsound.ports] at hname
    exact ⟨_, (reaches_output hsound hname _).result⟩
  | chip _ hchip hgiven ih =>
    obtain ⟨ports, hsound⟩ := ih
    exact ⟨ports, hchip.sound hsound hgiven⟩

/-- Composition never makes a wiring mistake. However chips are put together, as long as names
are new and wires exist, the netlist compiles, if it stays below the number of nodes that can
be counted. -/
theorem Composed.exists_circuit (h : n.Composed) (hsize : n.size < 2 ^ 31) :
    ∃ circuit, n.compile = .ok circuit := by
  obtain ⟨ports, hsound⟩ := h.exists_sound
  exact hsound.exists_compile rfl (by simp) hsize

/-- Two words and nine more wires to work on. -/
def operandInputs : Netlist := empty.after [.input "x" 16, .input "y" 16, .input "control" 9]

theorem composed_operandInputs : operandInputs.Composed := by
  have hx := Composed.empty.input "x" 16 (by simp [empty])
  have hy := hx.input "y" 16 (by decide +kernel)
  exact hy.input "control" 9 (by decide +kernel)

theorem size_operandInputs : operandInputs.size = 41 := by
  decide +kernel

theorem has_operandInputs {start len : Nat} (hlen : start + len ≤ 41) :
    operandInputs.Has (List.range' start len) := by
  intro w hw
  rw [size_operandInputs]
  exact Nat.lt_of_lt_of_le (List.mem_range'_1.mp hw).2 hlen

/-- A processor whose memory word, instruction and reset are inputs. -/
def processorOnOperands : Build Cpu := cpu (List.range' 0 16) (List.range' 16 16) 32 .extended

/-- A processor behind the ports of its operands is composed, small enough and compiles. -/
theorem exists_circuit_processor : (processorOnOperands.run operandInputs).2.Composed ∧
    (processorOnOperands.run operandInputs).2.size < 2 ^ 31 ∧
    ∃ circuit, (processorOnOperands.run operandInputs).2.compile = .ok circuit := by
  have hinM : operandInputs.Has (List.range' 0 16) := has_operandInputs (by omega)
  have hinstruction : operandInputs.Has (List.range' 16 16) := has_operandInputs (by omega)
  have hreset : 32 < operandInputs.size := by
    rw [size_operandInputs]
    omega
  have hchip : IsChip processorOnOperands (32 :: (List.range' 0 16 ++ List.range' 16 16)) :=
    .cpu .extended List.length_range' List.length_range' 32
  have hcomposed := composed_operandInputs.chip hchip
    (has_cons.mpr ⟨hreset, has_append.mpr ⟨hinM, hinstruction⟩⟩)
  obtain ⟨ports, hsound⟩ := composed_operandInputs.exists_sound
  have hreaches : Reaches operandInputs processorOnOperands (operandInputs.size + 7000) _ :=
    reaches_cpu hsound .extended hinM List.length_range' hinstruction List.length_range' hreset
  have hsize : (processorOnOperands.run operandInputs).2.size < 2 ^ 31 := by
    have hbound := hreaches.size
    rw [size_operandInputs] at hbound
    omega
  exact ⟨hcomposed, hsize, hcomposed.exists_circuit hsize⟩

end Netlist

end NandComputer
