import NandComputer.Proofs.Chip.Cpu
import NandComputer.Proofs.Chip.Memory
import NandComputer.Proofs.Netlist.Territory

/-!
All chips keep to the territory of the wires that they are given: none of them
connects its nodes to another wire of the netlist.
-/

namespace NandComputer

/-- Some wires of a bus of the territory are a bus of the territory again, as wide as they are
many. -/
theorem Netlist.Territory.Spans.slice {N : Netlist} {t : N.Territory} {width : Nat} {bus : Bus}
    (h : t.Spans width bus) (start len : Nat) (hfits : start + len ≤ width) :
    t.Spans len (bus.slice start len) where
  wires := fun w hw => h.wires w (List.mem_of_mem_drop (List.mem_of_mem_take hw))
  length := Bus.length_slice (by rw [h.length]; exact hfits)

namespace Chip

open Build

-- the instances of an action grow with its length
set_option synthInstance.maxSize 100000

variable {N : Netlist} {t : N.Territory}

section Gates

variable {a b sel : Wire} (ha : a ∈ t.wires)

include ha

theorem keeps_not : Keeps t (not a) (· ∈ t.wires) := keeps_nand ha ha

variable (hb : b ∈ t.wires)

include hb

theorem keeps_and : Keeps t (and a b) (· ∈ t.wires) := by
  apply (keeps_nand ha hb).bind
  intro both hboth
  exact keeps_not hboth

theorem keeps_or : Keeps t (or a b) (· ∈ t.wires) := by
  apply (keeps_not ha).bind
  intro notA hnotA
  apply (keeps_not hb).bind
  intro notB hnotB
  exact keeps_nand hnotA hnotB

theorem keeps_xor : Keeps t (xor a b) (· ∈ t.wires) := by
  apply (keeps_nand ha hb).bind
  intro both hboth
  apply (keeps_nand ha hboth).bind
  intro left hleft
  apply (keeps_nand hb hboth).bind
  intro right hright
  exact keeps_nand hleft hright

variable (hsel : sel ∈ t.wires)

include hsel

theorem keeps_muxPair {notSel : Wire} (hnotSel : notSel ∈ t.wires) :
    Keeps t (muxPair a b sel notSel) (· ∈ t.wires) := by
  apply (keeps_nand ha hnotSel).bind
  intro left hleft
  apply (keeps_nand hb hsel).bind
  intro right hright
  exact keeps_nand hleft hright

theorem keeps_mux : Keeps t (mux a b sel) (· ∈ t.wires) := by
  apply (keeps_not hsel).bind
  intro notSel hnotSel
  exact keeps_muxPair ha hb hsel hnotSel

end Gates

theorem keeps_demux {input sel : Wire} (hinput : input ∈ t.wires) (hsel : sel ∈ t.wires) :
    Keeps t (demux input sel) fun pair => pair.1 ∈ t.wires ∧ pair.2 ∈ t.wires := by
  apply (keeps_not hsel).bind
  intro notSel hnotSel
  apply (keeps_and hinput hnotSel).bind
  intro low hlow
  apply (keeps_and hinput hsel).bind
  intro high hhigh
  exact keeps_pure ⟨hlow, hhigh⟩

section Buses

variable {width : Nat} {a b : Bus} (ha : t.Spans width a)

include ha

theorem keeps_notBus : Keeps t (notBus a) (t.Spans width) := by
  apply (Keeps.mapM a fun w hw => keeps_not (ha.wires w hw)).imp
  rintro bus ⟨hwires, hlength⟩
  exact ⟨hwires, hlength.trans ha.length⟩

variable (hb : t.Spans width b)

include hb

/-- One gate for each pair of bits keeps to the territory if a single gate does, and gives a
bus as wide as the two. -/
theorem keeps_mapM_zip {f : Wire × Wire → Build Wire} [∀ pair, Grows (f pair)]
    (hf : ∀ x y, x ∈ t.wires → y ∈ t.wires → Keeps t (f (x, y)) (· ∈ t.wires)) :
    Keeps t ((a.zip b).mapM f) (t.Spans width) := by
  have hmap := Keeps.mapM (t := t) (f := f) (Q := (· ∈ t.wires)) (a.zip b) ?_
  · apply hmap.imp
    rintro bus ⟨hwires, hlength⟩
    exact ⟨hwires, by rw [hlength, List.length_zip, ha.length, hb.length, Nat.min_self]⟩
  · rintro ⟨x, y⟩ member
    obtain ⟨hx, hy⟩ := List.of_mem_zip member
    exact hf x y (ha.wires x hx) (hb.wires y hy)

theorem keeps_andBus : Keeps t (andBus a b) (t.Spans width) :=
  keeps_mapM_zip ha hb fun _ _ hx hy => keeps_and hx hy

theorem keeps_muxBus {sel : Wire} (hsel : sel ∈ t.wires) :
    Keeps t (muxBus a b sel) (t.Spans width) := by
  apply (keeps_not hsel).bind
  intro notSel hnotSel
  exact keeps_mapM_zip ha hb fun _ _ hx hy => keeps_muxPair hx hy hsel hnotSel

omit hb

theorem keeps_enableBus {enable : Wire} (henable : enable ∈ t.wires) :
    Keeps t (enableBus a enable) (t.Spans width) := by
  have hsplat : t.Spans width (Bus.splat a.length enable) := by
    refine ⟨?_, by rw [Bus.splat, List.length_replicate, ha.length]⟩
    intro w hw
    rw [List.eq_of_mem_replicate hw]
    exact henable
  exact keeps_andBus ha hsplat

/-- A balanced tree keeps to the territory if its joins do. The induction is on the levels,
which are not visible in the result. -/
theorem keeps_balanced {unit : Build Wire} {join : Wire → Wire → Build Wire} [Grows unit]
    [∀ a b, Grows (join a b)] (hunit : Keeps t unit (· ∈ t.wires))
    (hjoin : ∀ a b, a ∈ t.wires → b ∈ t.wires → Keeps t (join a b) (· ∈ t.wires)) :
    Keeps t (balanced unit join a) (· ∈ t.wires) := by
  have hwires := ha.wires
  clear ha
  induction a using balanced.induct with
  | case1 =>
    rw [balanced]
    exact hunit
  | case2 single =>
    rw [balanced]
    exact keeps_pure (hwires single (by simp))
  | case3 first second rest half ihlow ihhigh =>
    rw [balanced]
    apply (ihlow fun w hw => hwires w (List.mem_of_mem_take hw)).bind
    intro low hlow
    apply (ihhigh fun w hw => hwires w (List.mem_of_mem_drop hw)).bind
    intro high hhigh
    exact hjoin low high hlow hhigh

theorem keeps_anyOf (hN : N.Finished) : Keeps t (anyOf a) (· ∈ t.wires) :=
  keeps_balanced ha (keeps_zero hN) fun _ _ hx hy => keeps_or hx hy

end Buses

section Arithmetic

variable {a b c : Wire} (ha : a ∈ t.wires) (hb : b ∈ t.wires)

include ha hb

theorem keeps_halfAdder :
    Keeps t (halfAdder a b) fun cell => cell.sum ∈ t.wires ∧ cell.carry ∈ t.wires := by
  apply (keeps_xor ha hb).bind
  intro sum hsum
  apply (keeps_and ha hb).bind
  intro carry hcarry
  exact keeps_pure ⟨hsum, hcarry⟩

theorem keeps_fullAdder (hc : c ∈ t.wires) :
    Keeps t (fullAdder a b c) fun cell => cell.sum ∈ t.wires ∧ cell.carry ∈ t.wires := by
  apply (keeps_halfAdder ha hb).bind
  rintro first ⟨hfirstSum, hfirstCarry⟩
  apply (keeps_halfAdder hfirstSum hc).bind
  rintro second ⟨hsecondSum, hsecondCarry⟩
  apply (keeps_or hfirstCarry hsecondCarry).bind
  intro carry hcarry
  exact keeps_pure ⟨hsecondSum, hcarry⟩

omit ha hb

/-- A chain of adders keeps to the territory: each cell is given its bits and the carry of the
cell before it. -/
theorem keeps_ripple {carry : Wire} (hcarry : carry ∈ t.wires) {pairs : List (Wire × Wire)}
    (hpairs : ∀ pair ∈ pairs, pair.1 ∈ t.wires ∧ pair.2 ∈ t.wires) :
    Keeps t (ripple carry pairs) (t.Spans pairs.length) := by
  induction pairs generalizing carry with
  | nil => exact keeps_pure .nil
  | cons pair rest ih =>
    obtain ⟨⟨hx, hy⟩, hrest⟩ := List.forall_mem_cons.mp hpairs
    rw [ripple]
    apply (keeps_fullAdder hx hy hcarry).bind
    rintro cell ⟨hsum, hnext⟩
    apply (ih hnext hrest).bind
    intro bus hbus
    exact keeps_pure (hbus.cons hsum)

variable {width : Nat} {x y : Bus} (hx : t.Spans width x) (hy : t.Spans width y)

include hx

include hy in
theorem keeps_add : Keeps t (add x y) (t.Spans width) := by
  have hpairs : ∀ pair ∈ x.zip y, pair.1 ∈ t.wires ∧ pair.2 ∈ t.wires := by
    rintro ⟨v, w⟩ member
    obtain ⟨hv, hw⟩ := List.of_mem_zip member
    exact ⟨hx.wires v hv, hy.wires w hw⟩
  have hcount : (x.zip y).length = width := by
    rw [List.length_zip, hx.length, hy.length, Nat.min_self]
  rw [← hcount, add]
  clear hcount
  cases hzip : x.zip y with
  | nil => exact keeps_pure .nil
  | cons pair rest =>
    rw [hzip] at hpairs
    obtain ⟨⟨hv, hw⟩, hrest⟩ := List.forall_mem_cons.mp hpairs
    apply (keeps_halfAdder hv hw).bind
    rintro cell ⟨hsum, hnext⟩
    apply (keeps_ripple hnext hrest).bind
    intro bus hbus
    exact keeps_pure (hbus.cons hsum)

variable (hN : N.Finished)

include hN

theorem keeps_increment : Keeps t (increment x) (t.Spans width) := by
  apply (keeps_constant hN x.length 1).bind
  intro unit hunit
  rw [hx.length] at hunit
  exact keeps_add hx hunit

theorem keeps_shiftLeftLogical : Keeps t (shiftLeftLogical x) (t.Spans width) := by
  apply (keeps_zero hN).bind
  intro low hlow
  apply keeps_pure
  refine ⟨fun w hw => (hx.cons hlow).wires w (List.mem_of_mem_take hw), ?_⟩
  rw [List.length_take, List.length_cons, hx.length]
  omega

theorem keeps_shiftRightLogical : Keeps t (shiftRightLogical x) (t.Spans width) := by
  apply (keeps_zero hN).bind
  intro high hhigh
  apply keeps_pure
  have hlonger := hx.append (.cons hhigh .nil)
  refine ⟨fun w hw => hlonger.wires w (List.mem_of_mem_drop hw), ?_⟩
  rw [List.length_drop, hlonger.length]
  omega

theorem keeps_partialProducts {acc : Bus} (hacc : t.Spans width acc) {enables : List Wire}
    (henables : ∀ w ∈ enables, w ∈ t.wires) :
    Keeps t (partialProducts acc x enables) (t.Spans width) := by
  induction enables generalizing acc x with
  | nil => exact keeps_pure hacc
  | cons enable rest ih =>
    obtain ⟨henable, hrest⟩ := List.forall_mem_cons.mp henables
    rw [partialProducts]
    apply (keeps_enableBus hx henable).bind
    intro product hproduct
    apply (keeps_add hacc hproduct).bind
    intro total htotal
    apply (keeps_shiftLeftLogical hx hN).bind
    intro double hdouble
    exact ih hdouble htotal hrest

theorem keeps_multiply (hy : ∀ w ∈ y, w ∈ t.wires) : Keeps t (multiply x y) (t.Spans width) := by
  apply (keeps_constant hN x.length 0).bind
  intro acc hacc
  rw [hx.length] at hacc
  exact keeps_partialProducts hx hN hacc hy

end Arithmetic

section Selection

theorem keeps_selectTree {width : Nat} {bits : List Wire} (hbits : ∀ w ∈ bits, w ∈ t.wires)
    (inputs : List Bus) (hcount : inputs.length = 2 ^ bits.length)
    (hinputs : ∀ input ∈ inputs, t.Spans width input) :
    Keeps t (selectTree bits inputs) (t.Spans width) := by
  induction bits generalizing inputs with
  | nil =>
    obtain ⟨single, rfl⟩ := List.length_eq_one_iff.mp hcount
    exact keeps_pure (hinputs single (by simp))
  | cons top rest ih =>
    obtain ⟨htop, hrest⟩ := List.forall_mem_cons.mp hbits
    rw [List.length_cons, Nat.pow_succ] at hcount
    have hhalf : inputs.length / 2 = 2 ^ rest.length := by omega
    rw [selectTree, hhalf]
    have hlows := ih hrest (inputs.take (2 ^ rest.length)) (by rw [List.length_take]; omega)
      fun input member => hinputs input (List.mem_of_mem_take member)
    have hhighs := ih hrest (inputs.drop (2 ^ rest.length)) (by rw [List.length_drop]; omega)
      fun input member => hinputs input (List.mem_of_mem_drop member)
    apply hlows.bind
    intro low hlow
    apply hhighs.bind
    intro high hhigh
    exact keeps_muxBus hlow hhigh htop

theorem keeps_select {width count : Nat} {sel : Bus} (hsel : t.Spans count sel) {inputs : List Bus}
    (hcount : inputs.length = 2 ^ count) (hinputs : ∀ input ∈ inputs, t.Spans width input) :
    Keeps t (select inputs sel) (t.Spans width) := by
  have hreverse := hsel.reverse
  exact keeps_selectTree hreverse.wires inputs (by rw [hreverse.length, hcount]) hinputs

theorem keeps_routeTree {bits : List Wire} (hbits : ∀ w ∈ bits, w ∈ t.wires) {input : Wire}
    (hinput : input ∈ t.wires) :
    Keeps t (routeTree bits input) (t.Spans (2 ^ bits.length)) := by
  induction bits generalizing input with
  | nil => exact keeps_pure (.cons hinput .nil)
  | cons top rest ih =>
    obtain ⟨htop, hrest⟩ := List.forall_mem_cons.mp hbits
    rw [routeTree]
    apply (keeps_demux hinput htop).bind
    rintro ⟨low, high⟩ ⟨hlow, hhigh⟩
    apply (ih hrest hlow).bind
    intro lows hlows
    apply (ih hrest hhigh).bind
    intro highs hhighs
    apply keeps_pure
    rw [List.length_cons, Nat.pow_succ, Nat.mul_two]
    exact hlows.append hhighs

theorem keeps_route {count : Nat} {sel : Bus} (hsel : t.Spans count sel) {input : Wire}
    (hinput : input ∈ t.wires) : Keeps t (route input sel) (t.Spans (2 ^ count)) := by
  have hreverse := hsel.reverse
  have htree := keeps_routeTree hreverse.wires hinput
  rwa [hreverse.length] at htree

end Selection

section Units

/-- The result and the flags are wires of the territory. -/
structure AluOutput.Within (t : N.Territory) (output : AluOutput) : Prop where
  out : t.Spans 16 output.out
  zr : output.zr ∈ t.wires
  ng : output.ng ∈ t.wires

variable (hN : N.Finished)

include hN

theorem keeps_withFlags {out : Bus} (hout : t.Spans 16 out) :
    Keeps t (withFlags out) (AluOutput.Within t) := by
  apply (keeps_anyOf hout hN).bind
  intro any hany
  apply (keeps_not hany).bind
  intro zr hzr
  exact keeps_pure ⟨hout, hzr, hout.bit (by decide)⟩

omit hN in
theorem keeps_invertIf {width : Nat} {a : Bus} (ha : t.Spans width a) {negate : Wire}
    (hnegate : negate ∈ t.wires) : Keeps t (invertIf a negate) (t.Spans width) := by
  apply (keeps_notBus ha).bind
  intro inverted hinverted
  exact keeps_muxBus ha hinverted hnegate

theorem keeps_prepare {operand : Bus} (hoperand : t.Spans 16 operand) {clear negate : Wire}
    (hclear : clear ∈ t.wires) (hnegate : negate ∈ t.wires) :
    Keeps t (prepare operand clear negate) (t.Spans 16) := by
  apply (keeps_constant hN 16 0).bind
  intro zeros hzeros
  apply (keeps_muxBus hoperand hzeros hclear).bind
  intro cleared hcleared
  exact keeps_invertIf hcleared hnegate

variable {x y control : Bus} (hx : t.Spans 16 x) (hy : t.Spans 16 y)

include hx hy

theorem keeps_alu (hcontrol : t.Spans 6 control) :
    Keeps t (alu x y control) (AluOutput.Within t) := by
  apply (keeps_prepare hN hx (hcontrol.bit (by decide)) (hcontrol.bit (by decide))).bind
  intro left hleft
  apply (keeps_prepare hN hy (hcontrol.bit (by decide)) (hcontrol.bit (by decide))).bind
  intro right hright
  apply (keeps_add hleft hright).bind
  intro sum hsum
  apply (keeps_andBus hleft hright).bind
  intro conjunction hconjunction
  apply (keeps_muxBus hconjunction hsum (hcontrol.bit (by decide))).bind
  intro chosen hchosen
  apply (keeps_invertIf hchosen (hcontrol.bit (by decide))).bind
  intro out hout
  exact keeps_withFlags hN hout

theorem keeps_extendedAlu (hcontrol : t.Spans 9 control) :
    Keeps t (extendedAlu x y control) (AluOutput.Within t) := by
  apply (keeps_multiply hx hN hy.wires).bind
  intro product hproduct
  apply (keeps_shiftRightLogical hy hN).bind
  intro yRight hyRight
  apply (keeps_shiftRightLogical hx hN).bind
  intro xRight hxRight
  apply (keeps_shiftLeftLogical hy hN).bind
  intro yLeft hyLeft
  apply (keeps_shiftLeftLogical hx hN).bind
  intro xLeft hxLeft
  have hshifts : ∀ input ∈ [yRight, xRight, yLeft, xLeft], t.Spans 16 input := by
    simp [hyRight, hxRight, hyLeft, hxLeft]
  apply (keeps_select (hcontrol.slice 5 2 (by decide)) rfl hshifts).bind
  intro shifted hshifted
  apply (keeps_alu hN hx hy (hcontrol.slice 0 6 (by decide))).bind
  rintro standard ⟨hstandard, -, -⟩
  have hresults : ∀ input ∈ [product, shifted, product, standard.out], t.Spans 16 input := by
    simp [hproduct, hshifted, hstandard]
  apply (keeps_select (hcontrol.slice 7 2 (by decide)) rfl hresults).bind
  intro out hout
  exact keeps_withFlags hN hout

theorem keeps_arithmetic (variant : AluKind) {instruction : Bus}
    (hinstruction : t.Spans 16 instruction) :
    Keeps t (arithmetic variant x y instruction) (AluOutput.Within t) := by
  cases variant with
  | standard => exact keeps_alu hN hx hy (hinstruction.slice 6 6 (by decide))
  | extended => exact keeps_extendedAlu hN hx hy (hinstruction.slice 6 9 (by decide))

end Units

section Registers

theorem keeps_bit {input load : Wire} (hinput : input ∈ t.wires) (hload : load ∈ t.wires) :
    Keeps t (bit input load) (· ∈ t.wires) := by
  apply keeps_flipFlop.bind
  intro out hout
  apply (keeps_mux hout hinput hload).bind
  intro next hnext
  apply (keeps_latch out hnext).bind
  intro _ _
  exact keeps_pure hout

variable {width : Nat} {input : Bus} (hinput : t.Spans width input) {load : Wire}
  (hload : load ∈ t.wires)

include hinput hload

theorem keeps_register : Keeps t (register input load) (t.Spans width) := by
  apply (Keeps.mapM input fun w hw => keeps_bit (hinput.wires w hw) hload).imp
  rintro out ⟨hwires, hlength⟩
  exact ⟨hwires, hlength.trans hinput.length⟩

theorem keeps_programCounter (hN : N.Finished) {inc reset : Wire} (hinc : inc ∈ t.wires)
    (hreset : reset ∈ t.wires) :
    Keeps t (programCounter input load inc reset) (t.Spans width) := by
  have hwidth := hinput.length
  apply (keeps_forwardBus input.length).bind
  intro current hcurrent
  rw [hwidth] at hcurrent
  apply (keeps_increment hcurrent hN).bind
  intro successor hsuccessor
  apply (keeps_muxBus hcurrent hsuccessor hinc).bind
  intro stepped hstepped
  apply (keeps_muxBus hstepped hinput hload).bind
  intro loaded hloaded
  apply (keeps_constant hN input.length 0).bind
  intro zeros hzeros
  rw [hwidth] at hzeros
  apply (keeps_muxBus hloaded hzeros hreset).bind
  intro next hnext
  apply (keeps_one hN).bind
  intro always halways
  apply (keeps_register hnext halways).bind
  intro out hout
  apply (keeps_driveBus current hout.wires).bind
  intro _ _
  exact keeps_pure hout

/-- What a memory shows is in the territory, and so are its cells. At each level the banks are
given the wires of a router, and the selector is given what the banks show. -/
theorem keeps_memoryBank {groups : List Bus} (hgroups : ∀ bits ∈ groups, ∀ w ∈ bits, w ∈ t.wires) :
    Keeps t (memoryBank input groups load) fun m => t.Spans width m.out := by
  induction groups generalizing load with
  | nil =>
    rw [memoryBank]
    apply (keeps_register hinput hload).bind
    intro out hout
    exact keeps_pure hout
  | cons bits lower ih =>
    obtain ⟨hbits, hlower⟩ := List.forall_mem_cons.mp hgroups
    have hspan : t.Spans bits.length bits := ⟨hbits, rfl⟩
    rw [memoryBank]
    apply (keeps_route hspan hload).bind
    intro loads hloads
    apply (Keeps.mapM loads fun load hmem => ih (hloads.wires load hmem) hlower).bind
    rintro banks ⟨hbanks, hcount⟩
    have houts : ∀ out ∈ banks.map (·.out), t.Spans width out := by
      intro out member
      obtain ⟨bank, hbank, rfl⟩ := List.mem_map.mp member
      exact hbanks bank hbank
    have hlength : (banks.map (·.out)).length = 2 ^ bits.length := by
      rw [List.length_map, hcount, hloads.length]
    apply (keeps_select hspan hlength houts).bind
    intro out hout
    exact keeps_pure hout

theorem keeps_memory {address : Bus} (haddress : ∀ w ∈ address, w ∈ t.wires) :
    Keeps t (memory input load address) fun m => t.Spans width m.out := by
  apply keeps_memoryBank hinput hload
  intro bits member w hw
  apply haddress
  rw [← flatten_inThrees address]
  exact List.mem_flatten.mpr ⟨bits, List.mem_reverse.mp member, hw⟩

end Registers

section Processor

variable {instruction : Bus} (hinstruction : t.Spans 16 instruction)

include hinstruction

theorem keeps_jumpWanted {zr ng : Wire} (hzr : zr ∈ t.wires) (hng : ng ∈ t.wires) :
    Keeps t (jumpWanted instruction zr ng) (· ∈ t.wires) := by
  apply (keeps_and (hinstruction.bit (by decide)) hng).bind
  intro onNegative honNegative
  apply (keeps_and (hinstruction.bit (by decide)) hzr).bind
  intro onZero honZero
  apply (keeps_or hzr hng).bind
  intro notPositive hnotPositive
  apply (keeps_not hnotPositive).bind
  intro positive hpositive
  apply (keeps_and (hinstruction.bit (by decide)) hpositive).bind
  intro onPositive honPositive
  apply (keeps_or honNegative honZero).bind
  intro notOnPositive hnotOnPositive
  exact keeps_or hnotOnPositive honPositive

/-- The processor keeps to the territory of its inputs, although it connects forward wires of
its own: these are the only slots that it fills. -/
theorem keeps_cpu (hN : N.Finished) (variant : AluKind) {inM : Bus} (hinM : t.Spans 16 inM)
    {reset : Wire} (hreset : reset ∈ t.wires) :
    Keeps t (cpu inM instruction reset variant) fun _ => True := by
  have hcompute : instruction.bit classBit ∈ t.wires := hinstruction.bit (by decide)
  unfold cpu
  dsimp only
  apply (keeps_not hcompute).bind
  intro literal hliteral
  apply (keeps_forwardBus 16).bind
  intro a ha
  apply (keeps_forwardBus 16).bind
  intro d hd
  apply (keeps_muxBus ha hinM (hinstruction.bit (by decide))).bind
  intro y hy
  apply (keeps_arithmetic hN hd hy variant hinstruction).bind
  rintro result ⟨hresult, hzr, hng⟩
  apply (keeps_and hcompute (hinstruction.bit (by decide))).bind
  intro storeA hstoreA
  apply (keeps_muxBus hinstruction hresult hstoreA).bind
  intro inA hinA
  apply (keeps_or hliteral hstoreA).bind
  intro loadA hloadA
  apply (keeps_register hinA hloadA).bind
  intro outA houtA
  apply (keeps_driveBus a houtA.wires).bind
  intro _ _
  apply (keeps_and hcompute (hinstruction.bit (by decide))).bind
  intro storeD hstoreD
  apply (keeps_register hresult hstoreD).bind
  intro outD houtD
  apply (keeps_driveBus d houtD.wires).bind
  intro _ _
  apply (keeps_and hcompute (hinstruction.bit (by decide))).bind
  intro writeM _
  apply (keeps_jumpWanted hinstruction hzr hng).bind
  intro wanted hwanted
  apply (keeps_and hcompute hwanted).bind
  intro jump hjump
  apply (keeps_one hN).bind
  intro always halways
  have haddress : t.Spans 15 (a.slice 0 15) := ha.slice 0 15 (by decide)
  apply (keeps_programCounter haddress hjump hN halways hreset).bind
  intro pc _
  exact keeps_pure trivial

end Processor

end Chip

end NandComputer
