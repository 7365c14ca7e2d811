import NandComputer.Proofs.Bits
import NandComputer.Proofs.Netlist.Evaluation

/-!
What a chip computes, in every netlist that it becomes a part of. A statement
about an action speaks of a finished netlist that has what the action added,
so it holds in any surroundings, and the statements of two actions combine to
one about their sequence.
-/

namespace NandComputer

/-- A netlist without wiring mistakes, in which the shared constants are constants. -/
structure Netlist.Finished (N : Netlist) : Prop where
  defects : N.defects = #[]
  zero : ∀ w : Wire, N.zero? = some w → N.nodes[w]? = some (.constant false)
  one : ∀ w : Wire, N.one? = some w → N.nodes[w]? = some (.constant true)

/-- Values of the wires within a tick: what is computed agrees with what is read. -/
structure Netlist.Settled (N : Netlist) (v : Wire → Bool) : Prop where
  constant : ∀ (w : Wire) (value : Bool), N.nodes[w]? = some (.constant value) → v w = value
  nand : ∀ w a b : Wire, N.nodes[w]? = some (.nand a b) → v w = !(v a && v b)
  forward : ∀ w source : Wire, N.nodes[w]? = some (.forward (some source)) → v w = v source

/-- The values of the flip-flops after a tick are those that they sampled. -/
def Netlist.Ticked (N : Netlist) (v after : Wire → Bool) : Prop :=
  ∀ w next : Wire, N.nodes[w]? = some (.flipFlop (some next)) → after w = v next

/-- Within a tick, whatever the wire waits for ends at constants, inputs and flip-flops. -/
def Netlist.Steady (N : Netlist) (w : Wire) : Prop :=
  Acc (fun v reader => ReadsWire N.nodes reader v) w

/-- In the netlist, wherever the action was performed, its result has the property. -/
structure Build.Ensures {α : Type} (N : Netlist) (m : Build α) (P : α → Prop) : Prop where
  result : ∀ n : Netlist, (m.run n).2 ≤ N → P (m.run n).1

namespace Netlist

variable {N : Netlist}

theorem Finished.of_wellFormed (h : N.WellFormed) (hdefects : N.defects = #[]) : N.Finished :=
  ⟨hdefects, h.zero, h.one⟩

/-- In an accepted netlist the values of any state are settled: every node has the value that
its operands give it. -/
theorem Accepted.settled {circuit : Circuit} (h : N.Accepted circuit) (state : CircuitState) :
    N.Settled (N.value state) where
  constant := by
    intro w value hnode
    rw [Netlist.value, value?_constant hnode, Option.getD_some]
  nand := by
    intro w a b hnode
    have ha := h.value?_eq_some state a (h.wires w _ hnode a (by simp [Node.wires, Node.operands]))
    have hb := h.value?_eq_some state b (h.wires w _ hnode b (by simp [Node.wires, Node.operands]))
    rw [Netlist.value, value?_nand hnode ha hb, Option.getD_some]
  forward := by
    intro w source hnode
    rw [Netlist.value, Netlist.value, value?_forward hnode]

theorem steady_of_operands {w : Nat} {node : Node} (hnode : N.nodes[w]? = some node)
    (h : ∀ v ∈ node.operands, N.Steady v) : N.Steady w := by
  constructor
  rintro v ⟨other, hother, hv⟩
  rw [hnode] at hother
  cases hother
  exact h v hv

theorem steady_of_flipFlop {w : Nat} (h : N.IsFlipFlop w) : N.Steady w := by
  obtain ⟨next?, hnode⟩ := h
  apply steady_of_operands hnode
  intro v hv
  cases hv

/-- A node that is no open slot stays as it is, whatever the netlist grows into. -/
theorem getElem?_of_le {n : Netlist} (hle : n ≤ N) {w : Nat} {node : Node}
    (hnode : n.nodes[w]? = some node) (hclosed : node.openSlot? w = none) :
    N.nodes[w]? = some node := by
  obtain ⟨later, hlater, hfills⟩ := hle.nodes w node hnode
  cases hfills with
  | same => exact hlater
  | forward source => cases hclosed
  | flipFlop next => cases hclosed

/-- What has no open slot is the same ever after, so what is computed there can be told from
the smaller netlist. -/
theorem exists_node_of_le {n : Netlist} (hle : n ≤ N) {w : Nat} (hw : w < n.size)
    (hclosed : ¬ n.OpenSlot w) : ∃ node, n.nodes[w]? = some node ∧ N.nodes[w]? = some node := by
  have hnode : n.nodes[w]? = some n.nodes[w] := Array.getElem?_eq_getElem hw
  have hslot := (openSlot?_getD w).mpr hclosed
  rw [Array.getD_eq_getD_getElem?, hnode, Option.getD_some] at hslot
  exact ⟨_, hnode, getElem?_of_le hle hnode hslot⟩

theorem getElem?_append (n : Netlist) (node : Node) : (n.append node).nodes[n.size]? = some node :=
  Array.getElem?_push_size

theorem getElem?_connectFlipFlop {n : Netlist} {flop next : Wire}
    (hclean : (n.connectFlipFlop flop next).defects = #[]) :
    (n.connectFlipFlop flop next).nodes[flop]? = some (.flipFlop (some next)) := by
  obtain ⟨-, hopen⟩ := (defects_connectFlipFlop_eq_empty_iff flop next).mp hclean
  unfold connectFlipFlop
  rw [hopen]
  exact Array.getElem?_setIfInBounds_self_of_lt (Array.getElem?_eq_some_iff.mp hopen).1

theorem getElem?_connectForward {n : Netlist} {wire source : Wire}
    (hclean : (n.connectForward wire source).defects = #[]) :
    (n.connectForward wire source).nodes[wire]? = some (.forward (some source)) := by
  obtain ⟨-, hopen⟩ := (defects_connectForward_eq_empty_iff wire source).mp hclean
  unfold connectForward
  rw [hopen]
  exact Array.getElem?_setIfInBounds_self_of_lt (Array.getElem?_eq_some_iff.mp hopen).1

end Netlist

namespace Build

section Rules

variable {α β : Type} {N : Netlist} {m : Build α} {f : α → Build β}

theorem ensures_pure {P : α → Prop} {x : α} (h : P x) : Ensures N (pure x) P :=
  ⟨fun _ _ => h⟩

theorem ensures_true (m : Build α) : Ensures N m fun _ => True :=
  ⟨fun _ _ => trivial⟩

theorem Ensures.imp {P Q : α → Prop} (hm : Ensures N m P) (h : ∀ x, P x → Q x) : Ensures N m Q :=
  ⟨fun n hle => h _ (hm.result n hle)⟩

theorem ensures_of_imp {A : Prop} {P : α → Prop} (h : A → Ensures N m P) :
    Ensures N m fun x => A → P x :=
  ⟨fun n hle hA => (h hA).result n hle⟩

/-- Statements about actions are combined in order: the second action may use what the first
ensures, since both speak of the same finished netlist. -/
theorem Ensures.bind [∀ x, Grows (f x)] {P : α → Prop} {Q : β → Prop} (hm : Ensures N m P)
    (hf : ∀ x, P x → Ensures N (f x) Q) : Ensures N (m >>= f) Q := by
  constructor
  intro n hle
  have hfirst : (m.run n).2 ≤ N :=
    Netlist.le_trans (Grows.le (m := f (m.run n).1) (m.run n).2) hle
  exact (hf _ (hm.result n hfirst)).result (m.run n).2 hle

/-- An action for every item ensures its statement item by item, whatever the other actions
add. -/
theorem Ensures.mapM [∀ x, Grows (f x)] {R : α → β → Prop} (items : List α)
    (h : ∀ x ∈ items, Ensures N (f x) (R x)) :
    Ensures N (items.mapM f) (List.Forall₂ R items) := by
  induction items with
  | nil => exact ensures_pure .nil
  | cons item rest ih =>
    rw [List.mapM_cons]
    apply (h item (by simp)).bind
    intro first hfirst
    have hrest := ih fun x member => h x (by simp [member])
    apply hrest.bind
    intro others hothers
    exact ensures_pure (.cons hfirst hothers)

theorem Ensures.forall_mapM [∀ x, Grows (f x)] {P : β → Prop} (items : List α)
    (h : ∀ x ∈ items, Ensures N (f x) P) :
    Ensures N (items.mapM f) fun results => ∀ y ∈ results, P y := by
  have hmap := Ensures.mapM (R := fun _ y => P y) items h
  apply hmap.imp
  intro results hresults
  clear hmap
  induction hresults with
  | nil => simp
  | cons hfirst _ ih => exact List.forall_mem_cons.mpr ⟨hfirst, ih fun x hx => h x (by simp [hx])⟩

theorem Ensures.forM {f : α → Build PUnit} [∀ x, Grows (f x)] {R : α → Prop} {items : List α}
    (h : ∀ x ∈ items, Ensures N (f x) fun _ => R x) :
    Ensures N (items.forM f) fun _ => ∀ x ∈ items, R x := by
  induction items with
  | nil => exact ensures_pure (by simp)
  | cons item rest ih =>
    have hrest := ih fun x member => h x (by simp [member])
    apply Ensures.bind (f := fun _ => rest.forM f) (h item (by simp))
    intro _ hfirst
    apply hrest.imp
    intro _ hothers x member
    rcases List.mem_cons.mp member with rfl | hmem
    · exact hfirst
    · exact hothers x hmem

end Rules

section Primitives

variable {N : Netlist}

/-- The wire of a node that is appended keeps this node unless the node is an open slot. -/
theorem ensures_emit {node : Node} (hclosed : ∀ w, node.openSlot? w = none) :
    Ensures N (emit node) fun w => N.nodes[w]? = some node :=
  ⟨fun n hle => Netlist.getElem?_of_le hle (n.getElem?_append node) (hclosed _)⟩

/-- The one primitive gate. Every statement about what chips compute comes from this one and
the nodes of storage. -/
theorem ensures_nand {v : Wire → Bool} (hv : N.Settled v) (a b : Wire) :
    Ensures N (nand a b) fun w => v w = !(v a && v b) :=
  (ensures_emit fun _ => rfl).imp fun w hw => hv.nand w a b hw

section Finished

variable (hN : N.Finished)

include hN

theorem ensures_latch (flop next : Wire) :
    Ensures N (latch flop next) fun _ => N.nodes[flop]? = some (.flipFlop (some next)) := by
  constructor
  intro n hle
  have hclean := Netlist.defects_eq_of_le hle hN.defects
  exact Netlist.getElem?_of_le hle (Netlist.getElem?_connectFlipFlop hclean) rfl

theorem ensures_drive (wire source : Wire) :
    Ensures N (drive wire source) fun _ => N.nodes[wire]? = some (.forward (some source)) := by
  constructor
  intro n hle
  have hclean := Netlist.defects_eq_of_le hle hN.defects
  exact Netlist.getElem?_of_le hle (Netlist.getElem?_connectForward hclean) rfl

theorem ensures_zero_node : Ensures N zero fun w => N.nodes[w]? = some (.constant false) := by
  constructor
  intro n hle
  apply hN.zero
  apply hle.zero
  cases h : n.zero? with
  | some w => rw [run_zero_of_some h, h]
  | none => rw [run_zero_of_none h]

theorem ensures_one_node : Ensures N one fun w => N.nodes[w]? = some (.constant true) := by
  constructor
  intro n hle
  apply hN.one
  apply hle.one
  cases h : n.one? with
  | some w => rw [run_one_of_some h, h]
  | none => rw [run_one_of_none h]

theorem ensures_driveBus_nodes (wires source : Bus) : Ensures N (driveBus wires source) fun _ =>
    ∀ pair ∈ wires.zip source, N.nodes[pair.1]? = some (.forward (some pair.2)) :=
  .forM fun pair _ => ensures_drive hN pair.1 pair.2

variable {v : Wire → Bool} (hv : N.Settled v)

include hv

theorem ensures_zero : Ensures N zero fun w => v w = false :=
  (ensures_zero_node hN).imp fun w hw => hv.constant w false hw

theorem ensures_one : Ensures N one fun w => v w = true :=
  (ensures_one_node hN).imp fun w hw => hv.constant w true hw

/-- Forward wires that are driven repeat their sources, so a bus can be read before it is
driven. -/
theorem ensures_driveBus {wires source : Bus} (hlength : wires.length = source.length) :
    Ensures N (driveBus wires source) fun _ => wires.map v = source.map v := by
  apply (ensures_driveBus_nodes hN wires source).imp
  intro _ hnodes
  rw [← map_zip_fst hlength v, ← map_zip_snd hlength v]
  apply List.map_congr_left
  intro pair member
  exact hv.forward _ _ (hnodes pair member)

end Finished

theorem ensures_forwardBus (width : Nat) :
    Ensures N (forwardBus width) fun bus => bus.length = width := by
  constructor
  intro n _
  rw [run_forwardBus, List.length_range']

theorem ensures_input (name : String) (width : Nat) :
    Ensures N (input name width) fun bus => bus.length = width := by
  constructor
  intro n _
  rw [run_input, List.length_range']

end Primitives

end Build

end NandComputer
