import NandComputer.Proofs.Chip.Confinement
import NandComputer.Proofs.Chip.Wiring
import NandComputer.Proofs.Netlist.Sharing

/-!
Chips in one netlist that share nothing but constants and the clock. A chip that is
used twice, behind inputs of its own each time, has two states: what is driven into
one of the copies, loaded into it or read from it makes no difference to the other.
-/

namespace NandComputer

/-- The territory of a chip that is added to `n` and that is given some wires. -/
def Netlist.territory (N n : Netlist) (given : Bus) : N.Territory where
  base := n.size
  wires := {w | n.size ≤ w ∨ w ∈ given ∨ N.IsConstant w}
  own := fun _ h => .inl h
  constant := fun _ value h => .inr (.inr ⟨value, h⟩)

namespace Build

variable {α : Type}

/-- The wires of a chip in a larger netlist: those that it added to `n`, those that it
was given, and the constants. -/
def region (m : Build α) (given : Bus) (n N : Netlist) : Set Wire :=
  {w | (n.size ≤ w ∧ w < (m.run n).2.size) ∨ w ∈ given ∨ N.IsConstant w}

/-- An action that adds a chip: wherever the wires exist that it is given, it connects
all that it adds, and within its own region. -/
structure SelfContained (m : Build α) (given : Bus) : Prop where
  le : ∀ n : Netlist, n ≤ (m.run n).2
  closed : ∀ n : Netlist, n.WellFormed → n.defects = #[] → n.Has given →
    ∀ w : Nat, n.size ≤ w → ¬ (m.run n).2.OpenSlot w
  wires : ∀ n : Netlist, n.WellFormed → n.defects = #[] → n.Has given →
    ∀ (w : Nat) (node : Node), n.size ≤ w → (m.run n).2.nodes[w]? = some node →
      ∀ v ∈ node.wires, v ∈ m.region given n (m.run n).2

/-- A chip in a netlist, behind inputs and constants. -/
structure Instance (m : Build α) (given : Bus) (n N : Netlist) : Prop where
  chip : m.SelfContained given
  wellFormed : n.WellFormed
  given : ∀ w ∈ given, n.IsInput w ∨ n.IsConstant w
  le : (m.run n).2 ≤ N

/-- A chip that is sound and keeps to its territory is self-contained: it leaves nothing open
that somebody else could fill, and connects nothing outside. -/
theorem selfContained_of {m : Build α} {given : Bus} [Grows m]
    (hsound : ∀ {n : Netlist} {frame : Frame}, n.Sound frame → n.Has given →
      (m.run n).2.Sound frame)
    (hkeeps : ∀ {N : Netlist} (t : N.Territory), N.Finished → (∀ w ∈ given, w ∈ t.wires) →
      Keeps t m fun _ => True) : m.SelfContained given := by
  have hrun (n : Netlist) (hwell : n.WellFormed) (hdefects : n.defects = #[])
      (hgiven : n.Has given) : (m.run n).2.Sound ⟨n.ports, {w | n.OpenSlot w}, Set.univ⟩ :=
    hsound (hwell.sound hdefects) hgiven
  refine ⟨Grows.le, ?_, ?_⟩
  · intro n hwell hdefects hgiven w hw hopen
    have hold := ((hrun n hwell hdefects hgiven).opened w).mp hopen
    exact Nat.not_lt_of_le hw (Netlist.OpenSlot.lt hold)
  · intro n hwell hdefects hgiven w node hw hnode v hv
    have hlater := hrun n hwell hdefects hgiven
    have hstart : (Netlist.territory (m.run n).2 n given).Closed n := by
      intro u other hu hother
      exact absurd (Array.getElem?_eq_some_iff.mp hother).1 (Nat.not_lt_of_le hu)
    have hkept := hkeeps (Netlist.territory (m.run n).2 n given)
      (.of_wellFormed hlater.wellFormed hlater.defects) fun u hu => .inr (.inl hu)
    have hclosed := hkept.closed n (Nat.le_refl _) (Netlist.le_refl _) hstart
    rcases hclosed w node hw hnode v hv with hown | hother
    · exact .inl ⟨hown, hlater.wellFormed.lt_of_mem_wires hnode hv⟩
    · exact .inr hother

theorem Instance.has {m : Build α} {given : Bus} {n N : Netlist} (h : m.Instance given n N) :
    n.Has given := by
  intro w hw
  rcases h.given w hw with hinput | ⟨value, hconstant⟩
  · exact hinput.lt
  · exact (Array.getElem?_eq_some_iff.mp hconstant).1

/-- The region of a chip reads nothing but itself. What the chip was given belongs to the
region, as far as it is inputs, and everything else that it reads it has added. -/
theorem Instance.shares {m : Build α} {given : Bus} {n N : Netlist} {circuit : Circuit}
    (h : m.Instance given n N) (hN : N.Accepted circuit) :
    N.Shares N (m.region given n N) where
  node := by
    have hle := Netlist.le_trans (h.chip.le n) h.le
    have hclean := Netlist.defects_eq_of_le hle hN.defects
    have hsource (w : Wire) (hw : N.IsInput w ∨ N.IsConstant w) : ∃ node,
        N.nodes[w]? = some node ∧ N.nodes[w]? = some node ∧
          ∀ v ∈ node.wires, v ∈ m.region given n N := by
      rcases hw with hinput | ⟨value, hconstant⟩
      · exact ⟨_, hinput, hinput, by simp [Node.wires, Node.operands]⟩
      · exact ⟨_, hconstant, hconstant, by simp [Node.wires, Node.operands]⟩
    rintro w (⟨hlow, hhigh⟩ | hgiven | hconstant)
    · have hclosed := h.chip.closed n h.wellFormed hclean h.has w hlow
      obtain ⟨node, hnode, hlater⟩ := Netlist.exists_node_of_le h.le hhigh hclosed
      refine ⟨node, hlater, hlater, fun v hv => ?_⟩
      have hregion := h.chip.wires n h.wellFormed hclean h.has w node hlow hnode v hv
      exact hregion.imp_right fun hold => hold.imp_right fun hconstant => hconstant.of_le h.le
    · exact hsource w
        ((h.given w hgiven).imp (fun hold => hold.of_le hle) fun hold => hold.of_le hle)
    · exact hsource w (.inr hconstant)
  port := fun _ _ hport => hport

end Build

/-! The chips with state are self-contained. -/

namespace Chip

open Build

theorem selfContained_bit (input load : Wire) : (bit input load).SelfContained [input, load] := by
  apply selfContained_of
  · intro n frame h hgiven
    exact (reaches_bit h (hgiven input (by simp)) (hgiven load (by simp))).result.1
  · intro N t _ hwires
    exact (keeps_bit (hwires input (by simp)) (hwires load (by simp))).imp fun _ _ => trivial

theorem selfContained_register (input : Bus) (load : Wire) :
    (register input load).SelfContained (load :: input) := by
  apply selfContained_of
  · intro n frame h hgiven
    obtain ⟨hload, hinput⟩ := List.forall_mem_cons.mp hgiven
    exact (reaches_register h hinput rfl hload).result.sound
  · intro N t _ hwires
    obtain ⟨hload, hinput⟩ := List.forall_mem_cons.mp hwires
    exact (keeps_register ⟨hinput, rfl⟩ hload).imp fun _ _ => trivial

theorem selfContained_programCounter (input : Bus) (load inc reset : Wire) :
    (programCounter input load inc reset).SelfContained (load :: inc :: reset :: input) := by
  apply selfContained_of
  · intro n frame h hgiven
    simp only [Netlist.Has, List.forall_mem_cons] at hgiven
    obtain ⟨hload, hinc, hreset, hinput⟩ := hgiven
    exact (reaches_programCounter h hinput rfl hload hinc hreset).result.sound
  · intro N t hN hwires
    simp only [List.forall_mem_cons] at hwires
    obtain ⟨hload, hinc, hreset, hinput⟩ := hwires
    exact (keeps_programCounter ⟨hinput, rfl⟩ hload hN hinc hreset).imp fun _ _ => trivial

theorem selfContained_memory (input : Bus) (load : Wire) (address : Bus) :
    (memory input load address).SelfContained (load :: (input ++ address)) := by
  apply selfContained_of
  · intro n frame h hgiven
    obtain ⟨hload, hbuses⟩ := List.forall_mem_cons.mp hgiven
    obtain ⟨hinput, haddress⟩ := List.forall_mem_append.mp hbuses
    exact (reaches_memory h hinput rfl hload haddress).result.out.sound
  · intro N t hN hwires
    obtain ⟨hload, hbuses⟩ := List.forall_mem_cons.mp hwires
    obtain ⟨hinput, haddress⟩ := List.forall_mem_append.mp hbuses
    exact (keeps_memory ⟨hinput, rfl⟩ hload haddress).imp fun _ _ => trivial

theorem selfContained_cpu (variant : AluKind) {inM instruction : Bus} (hinM : inM.length = 16)
    (hinstruction : instruction.length = 16) (reset : Wire) :
    (cpu inM instruction reset variant).SelfContained (reset :: (inM ++ instruction)) := by
  apply selfContained_of
  · intro n frame h hgiven
    obtain ⟨hreset, hbuses⟩ := List.forall_mem_cons.mp hgiven
    obtain ⟨hfirst, hsecond⟩ := List.forall_mem_append.mp hbuses
    exact (reaches_cpu h variant hfirst hinM hsecond hinstruction hreset).result.outM.sound
  · intro N t hN hwires
    obtain ⟨hreset, hbuses⟩ := List.forall_mem_cons.mp hwires
    obtain ⟨hfirst, hsecond⟩ := List.forall_mem_append.mp hbuses
    exact keeps_cpu ⟨hsecond, hinstruction⟩ hN variant ⟨hfirst, hinM⟩ hreset

/-- The chips with state, each with the wires that it is given. -/
inductive Stateful : {α : Type} → Build α → Bus → Prop
  | bit (input load : Wire) : Stateful (Chip.bit input load) [input, load]
  | register (input : Bus) (load : Wire) :
      Stateful (Chip.register input load) (load :: input)
  | programCounter (input : Bus) (load inc reset : Wire) :
      Stateful (Chip.programCounter input load inc reset) (load :: inc :: reset :: input)
  | memory (input : Bus) (load : Wire) (address : Bus) :
      Stateful (Chip.memory input load address) (load :: (input ++ address))
  | cpu (variant : AluKind) {inM instruction : Bus} (reset : Wire) : inM.length = 16 →
      instruction.length = 16 →
      Stateful (Chip.cpu inM instruction reset variant) (reset :: (inM ++ instruction))

/-- Every chip with state keeps to itself, from a single bit to the whole processor: it reads
what it added, what it was given and the constants, and leaves no slot of its own open. -/
theorem Stateful.selfContained {α : Type} {m : Build α} {given : Bus} (h : Stateful m given) :
    m.SelfContained given := by
  cases h with
  | bit input load => exact selfContained_bit input load
  | register input load => exact selfContained_register input load
  | programCounter input load inc reset => exact selfContained_programCounter input load inc reset
  | memory input load address => exact selfContained_memory input load address
  | cpu variant reset hinM hinstruction => exact selfContained_cpu variant hinM hinstruction reset

end Chip

namespace Netlist

/-- The regions of two chips have only constants in common, if the second was added after the
first and is behind inputs of its own. -/
theorem region_inter_region {α β : Type} {first : Build α} {second : Build β} {as bs : Bus}
    {p q N : Netlist} (hp : first.Instance as p N) (hq : second.Instance bs q N)
    (hbefore : (first.run p).2 ≤ q) (hapart : ∀ w ∈ bs, N.IsInput w → w ∉ first.region as p N)
    {w : Wire} (hfirst : w ∈ first.region as p N) (hsecond : w ∈ second.region bs q N) :
    N.IsConstant w := by
  have hle := le_trans (hq.chip.le q) hq.le
  rcases hsecond with ⟨hlow, -⟩ | hgiven | hconstant
  · have hnew : (first.run p).2.size ≤ w := Nat.le_trans (size_le hbefore) hlow
    rcases hfirst with ⟨-, hhigh⟩ | hgiven | hconstant
    · exact absurd hhigh (Nat.not_lt_of_le hnew)
    · have hold : p.size ≤ w := Nat.le_trans (size_le (hp.chip.le p)) hnew
      exact absurd (hp.has w hgiven) (Nat.not_lt_of_le hold)
    · exact hconstant
  · rcases hq.given w hgiven with hinput | hconstant
    · exact absurd hfirst (hapart w hgiven (hinput.of_le hle))
    · exact hconstant.of_le hle
  · exact hconstant

/-- What a netlist computes does not change while it grows, whatever calls and chips add to it
(`le_after`): in a session with its inputs, its flip-flops and its clock, every wire has the
values that it has without the additions, whatever is done with these in between. And chips in
one netlist that are behind inputs of their own are independent, two copies of the same chip
among them: a session with one gives the same answers whatever is called on the other. All
chips with state are such chips. -/
theorem sessions_conserved {N : Netlist} {circuit : Circuit} (hN : N.Accepted circuit) :
    (∀ (n : Netlist) (alone : Circuit), n.Accepted alone → n ≤ N →
      n.Conserves alone N circuit {w | w < n.size}) ∧
    (∀ {α β : Type} (first : Build α) (second : Build β) (as bs : Bus) (p q : Netlist),
      first.Instance as p N → second.Instance bs q N → (first.run p).2 ≤ q →
      (∀ w ∈ bs, N.IsInput w → w ∉ first.region as p N) →
      N.Independent circuit (first.region as p N) (second.region bs q N)) ∧
    ∀ {α : Type} (chip : Build α) (given : Bus), Chip.Stateful chip given →
      chip.SelfContained given := by
  refine ⟨?_, ?_, fun chip given => Chip.Stateful.selfContained⟩
  · intro n alone hn hle
    exact (hn.shares hle).conserves hn hN
  · intro α β first second as bs p q hp hq hbefore hapart
    exact (hp.shares hN).independent hN (hq.shares hN) fun w =>
      region_inter_region hp hq hbefore hapart

section Cells

/-- A register of two bits behind its inputs, -/
def cellInputs : Netlist := empty.after [.input "cell" 3]

def cell : Netlist := ((Chip.register [0, 1] 2).run cellInputs).2

/-- and another one added to it. -/
def copyInputs : Netlist := cell.after [.input "copy" 3]

def cells : Netlist := ((Chip.register [13, 14] 15).run copyInputs).2

/-- The first register is loaded and read while somebody clears an input of the second one and
sets one of its bits. -/
def cellTurns : List Turn :=
  [.own (.setPort "cell" 7), .other (.setWire 13 false), .own .tick, .other (.overwrite [16] 1),
    .own (.bus [3, 8])]

theorem wellFormed_run_register {n : Netlist} (h : n.WellFormed) (hdefects : n.defects = #[])
    {input : Bus} {load : Nat} (hinput : n.Has input) (hload : load < n.size) :
    ((Chip.register input load).run n).2.WellFormed :=
  (Chip.reaches_register (h.sound hdefects) hinput rfl hload).result.sound.wellFormed

/-- The netlists of this example are well formed: the inputs, the register, and what is added
to it. -/
theorem wellFormed_cells :
    (cellInputs.WellFormed ∧ cell.WellFormed) ∧ copyInputs.WellFormed ∧ cells.WellFormed := by
  have hinputs : cellInputs.WellFormed := wellFormed_empty.after _ (by decide +kernel)
  have hcell : cell.WellFormed := by
    have hgiven : ∀ w ∈ [0, 1], w < cellInputs.size := by decide +kernel
    exact wellFormed_run_register hinputs (by decide +kernel) hgiven (by decide +kernel)
  have hcopy : copyInputs.WellFormed := hcell.after _ (by decide +kernel)
  have hgiven : ∀ w ∈ [13, 14], w < copyInputs.size := by decide +kernel
  exact ⟨⟨hinputs, hcell⟩, hcopy,
    wellFormed_run_register hcopy (by decide +kernel) hgiven (by decide +kernel)⟩

/-- The inputs and the flip-flop that somebody else writes, by their places. -/
theorem nodes_cells : cell.size = 13 ∧
    (∀ w ∈ [2, 0, 1], cellInputs.nodes[w]? = some .input ∧ cell.nodes[w]? = some .input) ∧
    (∀ w ∈ [15, 13, 14], copyInputs.nodes[w]? = some .input) ∧
    cells.nodes[13]? = some .input ∧ cells.nodes[16]? = some (.flipFlop (some 20)) ∧
    cell.ports.find? (·.name == "cell") = some ⟨"cell", .input, [0, 1, 2]⟩ := by
  decide +kernel

/-- A register compiles alone, and so does the netlist with its copy. -/
theorem exists_accepted_cells : ∃ alone circuit, cell.Accepted alone ∧ cells.Accepted circuit := by
  have halone := wellFormed_cells.1.2.accepted (by decide +kernel)
    (compile_eq_ok_iff.mpr ⟨by decide +kernel, by decide +kernel, rfl⟩)
  have hcircuit := wellFormed_cells.2.2.accepted (by decide +kernel)
    (compile_eq_ok_iff.mpr ⟨by decide +kernel, by decide +kernel, rfl⟩)
  exact ⟨_, _, halone, hcircuit⟩

theorem cell_le_cells : cell ≤ cells :=
  le_trans (le_after _ _) (Build.Grows.le (m := Chip.register [13, 14] 15) copyInputs)

theorem instance_cell : (Chip.register [0, 1] 2).Instance [2, 0, 1] cellInputs cells where
  chip := (Chip.Stateful.register [0, 1] 2).selfContained
  wellFormed := wellFormed_cells.1.1
  given w hw := .inl (nodes_cells.2.1 w hw).1
  le := cell_le_cells

theorem instance_copy :
    (Chip.register [13, 14] 15).Instance [15, 13, 14] copyInputs cells where
  chip := (Chip.Stateful.register [13, 14] 15).selfContained
  wellFormed := wellFormed_cells.2.1
  given w hw := .inl (nodes_cells.2.2.1 w hw)
  le := le_refl _

theorem copyInputs_notMem_region : ∀ w ∈ [15, 13, 14], cells.IsInput w →
    w ∉ (Chip.register [0, 1] 2).region [2, 0, 1] cellInputs cells := by
  have hsize := nodes_cells.1
  have hnew : ∀ w ∈ [15, 13, 14], 13 ≤ w ∧ w ∉ [2, 0, 1] := by decide
  rintro w hw hinput (⟨-, hhigh⟩ | hgiven | ⟨value, hconstant⟩)
  · exact Nat.not_lt_of_le (hnew w hw).1 (hsize ▸ hhigh)
  · exact (hnew w hw).2 hgiven
  · cases hinput.symm.trans hconstant

/-- The turns of this session are calls on the first register, and changes to the copy that it
permits. -/
theorem permits_cellTurns : ∀ turn ∈ cellTurns, cell.Permits cells {w | w < cell.size} turn := by
  obtain ⟨hsize, hown, -, hinput, hflipFlop, hport⟩ := nodes_cells
  have hinputs : cell.nodes[0]? = some .input ∧ cell.nodes[1]? = some .input ∧
      cell.nodes[2]? = some .input :=
    ⟨(hown 0 (by simp)).2, (hown 1 (by simp)).2, (hown 2 (by simp)).2⟩
  simp only [cellTurns, List.forall_mem_cons, List.not_mem_nil, false_implies, implies_true,
    and_true, Permits]
  refine ⟨⟨_, .setPort 7 hport, ?_, ?_⟩, ?_, ⟨_, .plain trivial, trivial, ?_⟩, ?_,
    ⟨_, .plain trivial, ?_, ?_⟩⟩
  · simp [Admits, IsInput, hinputs]
  · simp [SimulationCall.wires, SimulationCall.driven, hsize]
  · rintro plain ⟨⟩
    simp [Admits, IsInput, SimulationCall.driven, hsize, hinput]
  · simp [SimulationCall.wires, SimulationCall.driven]
  · rintro plain ⟨⟩
    simp [Admits, IsFlipFlop, SimulationCall.driven, hsize, hflipFlop]
  · simp [Admits]
  · simp [SimulationCall.wires, hsize]

/-- A register of two bits, and a copy of it behind inputs of its own. While the inputs and
the bits of the copy are changed, the first one answers as it does alone. -/
theorem sessions_conserved_cells : ∃ alone circuit,
    cell.Accepted alone ∧ cells.Accepted circuit ∧ cell ≤ cells ∧
    (∀ turn ∈ cellTurns, cell.Permits cells {w | w < cell.size} turn) ∧
    (interact Simulation.take (.ofCircuit circuit) cellTurns).1.reduceOption =
      (interact Simulation.call (.ofCircuit alone) (cellTurns.filterMap Turn.own?)).1 ∧
    (Chip.register [0, 1] 2).Instance [2, 0, 1] cellInputs cells ∧
    (Chip.register [13, 14] 15).Instance [15, 13, 14] copyInputs cells ∧
    cells.Independent circuit ((Chip.register [0, 1] 2).region [2, 0, 1] cellInputs cells)
      ((Chip.register [13, 14] 15).region [15, 13, 14] copyInputs cells) := by
  obtain ⟨alone, circuit, halone, hcircuit⟩ := exists_accepted_cells
  obtain ⟨hgrown, hapart, -⟩ := sessions_conserved hcircuit
  have hturns := hgrown cell alone halone cell_le_cells cellTurns permits_cellTurns
  have hindependent := hapart _ _ _ _ _ _ instance_cell instance_copy (le_after _ _)
    copyInputs_notMem_region
  exact ⟨alone, circuit, halone, hcircuit, cell_le_cells, permits_cellTurns, hturns,
    instance_cell, instance_copy, hindependent⟩

end Cells

end Netlist

end NandComputer
