import NandComputer.Proofs.Chip.Memory

/-!
What a memory shows doesn't wait for its input or its load wire, although its
registers read them: within a tick it ends at the cells and the address.
-/

namespace NandComputer.Chip

open Build

variable {N : Netlist}

section Gates

variable {a b : Wire} (ha : N.Steady a) (hb : N.Steady b)

include ha hb

/-- Whatever a gate waits for within a tick one of its operands waits for, so it ends if it
does for these. -/
theorem steady_nand : Ensures N (nand a b) N.Steady := by
  apply (ensures_emit fun _ => rfl).imp
  intro w hw
  apply Netlist.steady_of_operands hw
  intro v hv
  have hoperand : v = a ∨ v = b := by simpa [Node.operands] using hv
  rcases hoperand with rfl | rfl
  · exact ha
  · exact hb

omit hb in
theorem steady_not : Ensures N (not a) N.Steady := steady_nand ha ha

theorem steady_and : Ensures N (and a b) N.Steady := by
  apply (steady_nand ha hb).bind
  intro both hboth
  exact steady_not hboth

theorem steady_or : Ensures N (or a b) N.Steady := by
  apply (steady_not ha).bind
  intro notA hnotA
  apply (steady_not hb).bind
  intro notB hnotB
  exact steady_nand hnotA hnotB

theorem steady_muxPair {sel notSel : Wire} (hsel : N.Steady sel) (hnotSel : N.Steady notSel) :
    Ensures N (muxPair a b sel notSel) N.Steady := by
  apply (steady_nand ha hnotSel).bind
  intro left hleft
  apply (steady_nand hb hsel).bind
  intro right hright
  exact steady_nand hleft hright

end Gates

theorem steady_zero (hN : N.Finished) : Ensures N zero N.Steady := by
  apply (ensures_zero_node hN).imp
  intro w hw
  apply Netlist.steady_of_operands hw
  simp [Node.operands]

theorem steady_mapM_zip {f : Wire × Wire → Build Wire} [∀ pair, Grows (f pair)] {a b : Bus}
    (ha : ∀ w ∈ a, N.Steady w) (hb : ∀ w ∈ b, N.Steady w)
    (hf : ∀ x y, N.Steady x → N.Steady y → Ensures N (f (x, y)) N.Steady) :
    Ensures N ((a.zip b).mapM f) fun bus => ∀ w ∈ bus, N.Steady w := by
  apply Ensures.forall_mapM
  rintro ⟨x, y⟩ member
  obtain ⟨hx, hy⟩ := List.of_mem_zip member
  exact hf x y (ha x hx) (hb y hy)

section Buses

variable {a b : Bus} (ha : ∀ w ∈ a, N.Steady w)

include ha

theorem steady_muxBus (hb : ∀ w ∈ b, N.Steady w) {sel : Wire} (hsel : N.Steady sel) :
    Ensures N (muxBus a b sel) fun bus => ∀ w ∈ bus, N.Steady w := by
  apply (steady_not hsel).bind
  intro notSel hnotSel
  exact steady_mapM_zip ha hb fun x y hx hy => steady_muxPair hx hy hsel hnotSel

theorem steady_enableBus {enable : Wire} (henable : N.Steady enable) :
    Ensures N (enableBus a enable) fun bus => ∀ w ∈ bus, N.Steady w := by
  have hsplat : ∀ w ∈ Bus.splat a.length enable, N.Steady w := by
    intro w hw
    rw [List.eq_of_mem_replicate hw]
    exact henable
  exact steady_mapM_zip ha hsplat fun x y hx hy => steady_and hx hy

theorem steady_anyOf (hN : N.Finished) : Ensures N (anyOf a) N.Steady := by
  unfold anyOf
  induction a using balanced.induct with
  | case1 =>
    rw [balanced]
    exact steady_zero hN
  | case2 single =>
    rw [balanced]
    exact ensures_pure (ha single (by simp))
  | case3 first second rest half ihlow ihhigh =>
    rw [balanced]
    apply (ihlow fun w hw => ha w (List.mem_of_mem_take hw)).bind
    intro low hlow
    apply (ihhigh fun w hw => ha w (List.mem_of_mem_drop hw)).bind
    intro high hhigh
    exact steady_or hlow hhigh

end Buses

/-- What a selection waits for ends if it does for the select wires and for all inputs, those
included that are not selected. -/
theorem steady_selectTree {bits : List Wire} (hbits : ∀ w ∈ bits, N.Steady w) (inputs : List Bus)
    (hinputs : ∀ input ∈ inputs, ∀ w ∈ input, N.Steady w) :
    Ensures N (selectTree bits inputs) fun bus => ∀ w ∈ bus, N.Steady w := by
  induction bits generalizing inputs with
  | nil =>
    apply ensures_pure
    cases inputs with
    | nil => simp
    | cons first rest => exact hinputs first (by simp)
  | cons top rest ih =>
    obtain ⟨htop, hrest⟩ := List.forall_mem_cons.mp hbits
    rw [selectTree]
    apply (ih hrest _ fun input member => hinputs input (List.mem_of_mem_take member)).bind
    intro low hlow
    apply (ih hrest _ fun input member => hinputs input (List.mem_of_mem_drop member)).bind
    intro high hhigh
    exact steady_muxBus hlow hhigh htop

section Memories

variable (hN : N.Finished)

include hN

/-- A register shows its flip-flops, which wait for nothing within a tick, whatever is on its
input and its load wire. -/
theorem steady_register (input : Bus) (load : Wire) :
    Ensures N (register input load) fun out => ∀ w ∈ out, N.Steady w := by
  have hbit (wire : Wire) : Ensures N (bit wire load) N.Steady := by
    apply (ensures_true flipFlop).bind
    intro out _
    apply (ensures_true (mux out wire load)).bind
    intro next _
    apply (ensures_latch hN out next).bind
    intro _ hflop
    exact ensures_pure (Netlist.steady_of_flipFlop ⟨_, hflop⟩)
  exact .forall_mapM input fun wire _ => hbit wire

/-- What a memory shows ends at its cells and at the address, at every level. The input and
the load wire go into registers only. -/
theorem steady_memoryBank (input : Bus) {groups : List Bus}
    (hgroups : ∀ bits ∈ groups, ∀ w ∈ bits, N.Steady w) (load : Wire) :
    Ensures N (memoryBank input groups load) fun m => ∀ w ∈ m.out, N.Steady w := by
  induction groups generalizing load with
  | nil =>
    rw [memoryBank]
    apply (steady_register hN input load).bind
    intro out hout
    exact ensures_pure hout
  | cons bits lower ih =>
    obtain ⟨hbits, hlower⟩ := List.forall_mem_cons.mp hgroups
    rw [memoryBank]
    apply (ensures_true (route load bits)).bind
    intro loads _
    apply (Ensures.forall_mapM loads fun load _ => ih hlower load).bind
    intro banks houts
    have hinputs : ∀ out ∈ banks.map (·.out), ∀ w ∈ out, N.Steady w := by
      intro out member
      obtain ⟨bank, hbank, rfl⟩ := List.mem_map.mp member
      exact houts bank hbank
    have hreverse : ∀ w ∈ bits.reverse, N.Steady w := by
      intro w hw
      exact hbits w (List.mem_reverse.mp hw)
    apply (steady_selectTree hreverse _ hinputs).bind
    intro out hout
    exact ensures_pure hout

theorem steady_memory (input : Bus) (load : Wire) {address : Bus}
    (haddress : ∀ w ∈ address, N.Steady w) :
    Ensures N (memory input load address) fun m => ∀ w ∈ m.out, N.Steady w := by
  apply steady_memoryBank hN
  intro bits member w hw
  apply haddress
  rw [← flatten_inThrees address]
  exact List.mem_flatten.mpr ⟨bits, List.mem_reverse.mp member, hw⟩

end Memories

end NandComputer.Chip
