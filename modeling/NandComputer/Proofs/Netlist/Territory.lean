import NandComputer.Proofs.Netlist.Composition

/-!
Actions that connect what they add within a territory: to each other, to the wires
that they are given and to the shared constants. An action keeps to a territory if
its steps do, so a statement about an action is put together from those about its
parts.
-/

namespace NandComputer

/-- The wires that a chip may connect its nodes to: all from a base on, and some
older ones, with the constants among them. -/
structure Netlist.Territory (N : Netlist) where
  base : Nat
  wires : Set Wire
  own : ∀ w : Nat, base ≤ w → w ∈ wires
  constant : ∀ (w : Wire) (value : Bool), N.nodes[w]? = some (.constant value) → w ∈ wires

namespace Netlist.Territory

variable {N n : Netlist} (t : N.Territory)

/-- The nodes from the base on mention wires of the territory only. -/
def Closed (n : Netlist) : Prop :=
  ∀ (w : Nat) (node : Node), t.base ≤ w → n.nodes[w]? = some node → ∀ v ∈ node.wires, v ∈ t.wires

/-- A bus of wires of the territory. -/
structure Spans (width : Nat) (bus : Bus) : Prop where
  wires : ∀ w ∈ bus, w ∈ t.wires
  length : bus.length = width

variable {t}

/-- A territory stays closed under a new node that mentions its wires only. -/
theorem Closed.append (h : t.Closed n) {node : Node} (hnode : ∀ v ∈ node.wires, v ∈ t.wires) :
    t.Closed (n.append node) := by
  intro w other hw hother
  rw [Netlist.append, Array.getElem?_push] at hother
  split at hother
  · cases hother
    exact hnode
  · exact h w other hw hother

/-- A territory stays closed when a slot is connected to one of its wires, whosever slot it
is. -/
theorem Closed.connect (h : t.Closed n) (w : Nat) {node : Node}
    (hnode : ∀ v ∈ node.wires, v ∈ t.wires) :
    t.Closed { n with nodes := n.nodes.setIfInBounds w node } := by
  intro u other hu hother
  rw [Array.getElem?_setIfInBounds] at hother
  split at hother
  · split at hother
    · cases hother
      exact hnode
    · cases hother
  · exact h u other hu hother

theorem Closed.connectFlipFlop (h : t.Closed n) (flop : Wire) {next : Wire}
    (hnext : next ∈ t.wires) : t.Closed (n.connectFlipFlop flop next) := by
  unfold Netlist.connectFlipFlop
  split
  case h_1 => exact h.connect flop (by simpa [Node.wires] using hnext)
  all_goals exact h

theorem Closed.connectForward (h : t.Closed n) (wire : Wire) {source : Wire}
    (hsource : source ∈ t.wires) : t.Closed (n.connectForward wire source) := by
  unfold Netlist.connectForward
  split
  case h_1 => exact h.connect wire (by simpa [Node.wires, Node.operands] using hsource)
  all_goals exact h

namespace Spans

variable {width : Nat} {bus : Bus}

theorem nil : t.Spans 0 [] := ⟨by simp, rfl⟩

theorem cons {w : Wire} (hw : w ∈ t.wires) (h : t.Spans width bus) :
    t.Spans (width + 1) (w :: bus) :=
  ⟨List.forall_mem_cons.mpr ⟨hw, h.wires⟩, congrArg Nat.succ h.length⟩

theorem append {more : Nat} {other : Bus} (h : t.Spans width bus) (hother : t.Spans more other) :
    t.Spans (width + more) (bus ++ other) where
  wires := by
    intro w hw
    rcases List.mem_append.mp hw with hmem | hmem
    · exact h.wires w hmem
    · exact hother.wires w hmem
  length := by rw [List.length_append, h.length, hother.length]

theorem bit (h : t.Spans width bus) {i : Nat} (hi : i < width) : bus.bit i ∈ t.wires := by
  have hlt : i < bus.length := by
    rw [h.length]
    exact hi
  have hwire : bus.bit i = bus[i] := by
    rw [Bus.bit, List.getD_eq_getElem?_getD, List.getElem?_eq_getElem hlt, Option.getD_some]
  rw [hwire]
  exact h.wires _ (List.getElem_mem hlt)

theorem reverse (h : t.Spans width bus) : t.Spans width bus.reverse where
  wires := fun w hw => h.wires w (List.mem_reverse.mp hw)
  length := by rw [List.length_reverse, h.length]

end Spans

end Netlist.Territory

namespace Build

/-- The action keeps to the territory, and its result has the property. -/
structure Keeps {α : Type} {N : Netlist} (t : N.Territory) (m : Build α) (P : α → Prop) : Prop where
  closed : ∀ n : Netlist, t.base ≤ n.size → (m.run n).2 ≤ N → t.Closed n → t.Closed (m.run n).2
  result : ∀ n : Netlist, t.base ≤ n.size → (m.run n).2 ≤ N → P (m.run n).1

section Rules

variable {α β : Type} {N : Netlist} {t : N.Territory} {m : Build α} {P : α → Prop}

theorem keeps_pure {x : α} (h : P x) : Keeps t (pure x) P :=
  ⟨fun _ _ _ hclosed => hclosed, fun _ _ _ => h⟩

theorem Keeps.imp {Q : α → Prop} (hm : Keeps t m P) (h : ∀ x, P x → Q x) : Keeps t m Q :=
  ⟨hm.closed, fun n hbase hle => h _ (hm.result n hbase hle)⟩

/-- Two actions keep to a territory if each does, the second with what the first one gives. -/
theorem Keeps.bind {f : α → Build β} {Q : β → Prop} [Grows m] [∀ x, Grows (f x)]
    (hm : Keeps t m P) (hf : ∀ x, P x → Keeps t (f x) Q) : Keeps t (m >>= f) Q := by
  have hfirst (n : Netlist) (hle : ((m >>= f).run n).2 ≤ N) : (m.run n).2 ≤ N :=
    Netlist.le_trans (Grows.le (m := f (m.run n).1) (m.run n).2) hle
  have hsize (n : Netlist) : n.size ≤ (m.run n).2.size := Netlist.size_le (Grows.le n)
  constructor
  · intro n hbase hle hclosed
    have hresult := hm.result n hbase (hfirst n hle)
    have hnext := hm.closed n hbase (hfirst n hle) hclosed
    exact (hf _ hresult).closed _ (Nat.le_trans hbase (hsize n)) hle hnext
  · intro n hbase hle
    have hresult := hm.result n hbase (hfirst n hle)
    exact (hf _ hresult).result _ (Nat.le_trans hbase (hsize n)) hle

/-- An action for every item keeps to a territory if each single one does, and gives as many
results as there are items. -/
theorem Keeps.mapM {f : α → Build β} {Q : β → Prop} [∀ x, Grows (f x)] (items : List α)
    (h : ∀ x ∈ items, Keeps t (f x) Q) :
    Keeps t (items.mapM f) fun results => (∀ y ∈ results, Q y) ∧ results.length = items.length := by
  induction items with
  | nil => exact keeps_pure ⟨by simp, rfl⟩
  | cons item rest ih =>
    rw [List.mapM_cons]
    apply (h item (by simp)).bind
    intro first hfirst
    apply (ih fun x member => h x (by simp [member])).bind
    rintro others ⟨hothers, hlength⟩
    exact keeps_pure ⟨List.forall_mem_cons.mpr ⟨hfirst, hothers⟩, congrArg Nat.succ hlength⟩

theorem Keeps.forM {f : α → Build PUnit} [∀ x, Grows (f x)] {items : List α}
    (h : ∀ x ∈ items, Keeps t (f x) fun _ => True) :
    Keeps t (items.forM f) fun _ => True := by
  induction items with
  | nil => exact keeps_pure trivial
  | cons item rest ih =>
    apply Keeps.bind (f := fun _ => rest.forM f) (h item (by simp))
    intro _ _
    exact ih fun x member => h x (by simp [member])

end Rules

section Primitives

variable {N : Netlist} {t : N.Territory}

theorem keeps_emit {node : Node} (hnode : ∀ v ∈ node.wires, v ∈ t.wires) :
    Keeps t (emit node) (· ∈ t.wires) :=
  ⟨fun _ _ _ hclosed => hclosed.append hnode, fun n hbase _ => t.own n.size hbase⟩

/-- The one primitive gate keeps to a territory that has both its operands. -/
theorem keeps_nand {a b : Wire} (ha : a ∈ t.wires) (hb : b ∈ t.wires) :
    Keeps t (nand a b) (· ∈ t.wires) :=
  keeps_emit (by simp [Node.wires, Node.operands, ha, hb])

theorem keeps_flipFlop : Keeps t flipFlop (· ∈ t.wires) :=
  keeps_emit (by simp [Node.wires, Node.operands])

theorem keeps_latch (flop : Wire) {next : Wire} (hnext : next ∈ t.wires) :
    Keeps t (latch flop next) fun _ => True :=
  ⟨fun _ _ _ hclosed => hclosed.connectFlipFlop flop hnext, fun _ _ _ => trivial⟩

theorem keeps_drive (wire : Wire) {source : Wire} (hsource : source ∈ t.wires) :
    Keeps t (drive wire source) fun _ => True :=
  ⟨fun _ _ _ hclosed => hclosed.connectForward wire hsource, fun _ _ _ => trivial⟩

theorem keeps_forwardBus (width : Nat) : Keeps t (forwardBus width) (t.Spans width) := by
  have hmap := Keeps.mapM (t := t) (f := fun _ => forward) (List.range width) fun _ _ =>
    keeps_emit (by simp [Node.wires, Node.operands])
  apply hmap.imp
  rintro bus ⟨hwires, hlength⟩
  exact ⟨hwires, by rw [hlength, List.length_range]⟩

theorem keeps_driveBus (wires : Bus) {source : Bus} (hsource : ∀ w ∈ source, w ∈ t.wires) :
    Keeps t (driveBus wires source) fun _ => True := by
  apply Keeps.forM
  rintro ⟨wire, v⟩ member
  exact keeps_drive wire (hsource v (List.of_mem_zip member).2)

section Constants

variable (hN : N.Finished)

include hN

/-- The shared constants belong to every territory, whether they are found or added. -/
theorem keeps_zero : Keeps t zero (· ∈ t.wires) := by
  constructor
  · intro n hbase _ hclosed
    cases hzero : n.zero? with
    | some w =>
      rw [run_zero_of_some hzero]
      exact hclosed
    | none =>
      rw [run_zero_of_none hzero]
      exact hclosed.append (by simp [Node.wires, Node.operands])
  · intro n _ hle
    exact t.constant _ false ((ensures_zero_node hN).result n hle)

theorem keeps_one : Keeps t one (· ∈ t.wires) := by
  constructor
  · intro n hbase _ hclosed
    cases hone : n.one? with
    | some w =>
      rw [run_one_of_some hone]
      exact hclosed
    | none =>
      rw [run_one_of_none hone]
      exact hclosed.append (by simp [Node.wires, Node.operands])
  · intro n _ hle
    exact t.constant _ true ((ensures_one_node hN).result n hle)

theorem keeps_constant (width value : Nat) : Keeps t (constant width value) (t.Spans width) := by
  apply (keeps_zero hN).bind
  intro low hlow
  apply (keeps_one hN).bind
  intro high hhigh
  apply keeps_pure
  refine ⟨?_, by simp⟩
  intro w hw
  obtain ⟨i, -, rfl⟩ := List.mem_map.mp hw
  cases value.testBit i with
  | true => exact hhigh
  | false => exact hlow

end Constants

end Primitives

end Build

end NandComputer
