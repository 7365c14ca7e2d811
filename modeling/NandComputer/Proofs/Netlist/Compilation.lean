import Mathlib.Algebra.Order.BigOperators.Group.List
import Mathlib.Data.Set.Card
import NandComputer.Proofs.Netlist.Building
import NandComputer.Proofs.Netlist.Ordering

/-!
Correctness of compilation. A netlist built by calls on existing wires compiles
exactly when no call was a wiring mistake, every slot is connected, and no node
waits for itself within a tick. The operations of the circuit are then all
combinational nodes, each after the nodes it reads.
-/

namespace NandComputer

variable {nodes : Array Node}

/-- A node whose value is given at the start of a tick. -/
def Node.IsSource : Node → Prop
  | .constant _ | .input | .flipFlop _ => True
  | _ => False

/-- The wire that an operation computes. -/
def Op.out : Op → Wire
  | .nand out _ _ => out
  | .copy out _ => out

/-- The wires that an operation reads. -/
def Op.operands : Op → List Wire
  | .nand _ a b => [a, b]
  | .copy _ source => [source]

/-- The operation of a node writes the wire of the node and reads its operands. -/
theorem Node.op?_eq_some {w : Wire} {node : Node} {op : Op} (h : node.op? w = some op) :
    op.out = w ∧ op.operands = node.operands := by
  cases node with
  | nand a b =>
    cases h
    exact ⟨rfl, rfl⟩
  | forward source? =>
    cases source? with
    | none => cases h
    | some source =>
      cases h
      exact ⟨rfl, rfl⟩
  | _ => cases h

/-- A connected node is a source or has an operation, so none is left without a value. -/
theorem Node.isSource_or_op? {w : Wire} {node : Node} (h : node.openSlot? w = none) :
    node.IsSource ∨ ∃ op, node.op? w = some op := by
  cases node with
  | nand a b => exact .inr ⟨_, rfl⟩
  | forward source? =>
    cases source? with
    | none => cases h
    | some source => exact .inr ⟨_, rfl⟩
  | _ => exact .inl trivial

/-- A node has at most two operands, so there are at most twice as many reads as nodes. This
is what makes half the numbers of a word enough. -/
theorem length_reads_le (nodes : Array Node) : (reads nodes).length ≤ 2 * nodes.size := by
  rw [reads, List.length_flatMap]
  have hcounts : ∀ count ∈ (List.finRange nodes.size).map fun i =>
      (nodes[i].operands.map fun wire => (wire, i.val)).length, count ≤ 2 := by
    intro count member
    obtain ⟨i, -, rfl⟩ := List.mem_map.mp member
    rw [List.length_map]
    exact length_operands_le _
  have hsum := List.sum_le_card_nsmul _ 2 hcounts
  rw [List.length_map, List.length_finRange, smul_eq_mul, Nat.mul_comm] at hsum
  exact hsum

/-- A node behind a loop exists. -/
theorem BehindLoop.lt {w : Wire} (h : BehindLoop nodes w) : w < nodes.size := by
  have hread : ∃ v, ReadsWire nodes w v := by
    obtain ⟨v, hpath, hloop⟩ := h
    have hread := Relation.TransGen.trans_right hpath hloop
    obtain ⟨u, hfirst, -⟩ := Relation.TransGen.head'_iff.mp hread
    exact ⟨u, hfirst⟩
  obtain ⟨v, node, hnode, -⟩ := hread
  exact (Array.getElem?_eq_some_iff.mp hnode).1

namespace Schedule

section Order

variable {head : Nat} {schedule : Schedule}

/-- An order with as many entries as there are nodes has all of them, since no node occurs
twice. -/
theorem Released.mem_of_size_le (h : Released nodes head schedule)
    (hcomplete : nodes.size ≤ schedule.order.size) {w : Nat} (hw : w < nodes.size) :
    w ∈ schedule.order.toList := by
  have hperm : schedule.order.toList.Perm (List.range nodes.size) :=
    (List.subperm_of_subset h.nodup h.subset).perm_of_length_le (by simpa using hcomplete)
  exact hperm.mem_iff.mpr (List.mem_range.mpr hw)

end Order

section OfNodes

variable (hexist : OperandsExist nodes) (hsize : nodes.size ≤ 2 ^ 32)

include hexist hsize

/-- The order that the compiler makes is the one of all nodes that can be released, if their
reads can be counted. -/
theorem released_ofNodes (hreads : (reads nodes).length < 2 ^ 32) :
    Released nodes (ofNodes nodes).order.size (ofNodes nodes) := by
  obtain ⟨fanout, hfanout⟩ :=
    Option.isSome_iff_exists.mp ((Fanout.ofNodes?_isSome_iff hexist.reads).mpr hreads)
  rw [ofNodes, hfanout]
  exact (released_start nodes).advance hexist hsize hfanout nodes.size (by omega)

/-- Without a fan-out table, an order of all nodes is only found if nothing is read. Then
every node is ready from the start. -/
theorem released_of_size_le (hcomplete : nodes.size ≤ (ofNodes nodes).order.size) :
    Released nodes (ofNodes nodes).order.size (ofNodes nodes) := by
  refine released_ofNodes hexist hsize ?_
  cases hfanout : Fanout.ofNodes? nodes with
  | some fanout => exact Fanout.length_reads_lt hexist.reads hfanout
  | none =>
    rw [ofNodes, hfanout] at hcomplete
    have hempty : reads nodes = [] := by
      rw [List.eq_nil_iff_forall_not_mem]
      rintro ⟨v, w⟩ member
      have hread : ReadsWire nodes w v := (mem_reads_iff nodes v w).mp member
      have hready := (released_start nodes).mem_of_size_le hcomplete (reader_lt member)
      rw [(released_start nodes).mem, missing_eq_zero_iff] at hready
      cases hready.2 v ((readsWire_iff w v).mp hread)
    rw [hempty]
    decide

end OfNodes

section Complete

variable {schedule : Schedule} (h : Released nodes schedule.order.size schedule)
  (hexist : OperandsExist nodes)

include h hexist

/-- The order has all nodes exactly when nothing waits for itself. A node behind a loop is
missing as much as one on a loop. -/
theorem Released.size_le_iff :
    nodes.size ≤ schedule.order.size ↔ ∀ w, ¬ OnLoop nodes w := by
  constructor
  · intro hcomplete w hloop
    have hbehind : BehindLoop nodes w := ⟨w, .refl, hloop⟩
    exact h.not_onLoop (h.mem_of_size_le hcomplete hbehind.lt) hloop
  · intro hfree
    have hsubset : List.range nodes.size ⊆ schedule.order.toList := by
      intro w hw
      refine (h.mem_order_iff_not_behindLoop hexist w).mpr ⟨List.mem_range.mp hw, ?_⟩
      rintro ⟨v, -, hloop⟩
      exact hfree v hloop
    have hlength := (List.subperm_of_subset List.nodup_range hsubset).length_le
    simpa using hlength

/-- As many nodes are behind a loop as are missing in the order, which is the number that an
error reports. -/
theorem Released.ncard_behindLoop :
    {w | BehindLoop nodes w}.ncard = nodes.size - schedule.order.size := by
  have hset : {w | BehindLoop nodes w} =
      ((Finset.range nodes.size) \ schedule.order.toList.toFinset : Finset Nat) := by
    ext w
    rw [Set.mem_ofPred_eq, Finset.mem_coe, Finset.mem_sdiff, Finset.mem_range, List.mem_toFinset,
      h.mem_order_iff_not_behindLoop hexist]
    exact ⟨fun hw => ⟨hw.lt, fun hfree => hfree.2 hw⟩,
      fun ⟨hw, hstuck⟩ => by_contra fun hfree => hstuck ⟨hw, hfree⟩⟩
  have hsubset : schedule.order.toList.toFinset ⊆ Finset.range nodes.size := by
    intro w hw
    exact Finset.mem_range.mpr ((h.mem w).mp (List.mem_toFinset.mp hw)).1
  rw [hset, Set.ncard_coe_finset, Finset.card_sdiff_of_subset hsubset, Finset.card_range,
    List.toFinset_card_of_nodup h.nodup, Array.length_toList]

/-- A node waits for an operand as long as it is behind a loop, so the reported wire can be
found by the counters. -/
theorem Released.waiting_pos_iff {w : Nat} {left : UInt32}
    (hleft : schedule.waiting[w]? = some left) :
    left > 0 ↔ BehindLoop nodes w := by
  have hw : w < nodes.size := by
    rw [← h.size]
    exact (Array.getElem?_eq_some_iff.mp hleft).1
  rw [h.waiting w hw, Option.some.injEq] at hleft
  subst hleft
  have hsmall : missing nodes (schedule.order.toList.take schedule.order.size) w ≤ 2 :=
    missing_le _ w
  have hvalue : (UInt32.ofNat
      (missing nodes (schedule.order.toList.take schedule.order.size) w)).toNat =
      missing nodes (schedule.order.toList.take schedule.order.size) w := by
    rw [UInt32.toNat_ofNat', Nat.mod_eq_of_lt (by omega)]
  have hstuck := (h.mem w).symm.trans (h.mem_order_iff_not_behindLoop hexist w)
  rw [and_congr_right_iff] at hstuck
  rw [gt_iff_lt, UInt32.lt_iff_toNat_lt, hvalue, ← not_iff_not, ← hstuck hw]
  exact Nat.not_lt.trans Nat.le_zero

/-- The node that is reported is the first one behind a loop, which need not be on the loop
itself. -/
theorem Released.stuck_isLeast (hloop : schedule.order.size < nodes.size) :
    IsLeast {w | BehindLoop nodes w} schedule.stuck := by
  obtain ⟨w, hbehind⟩ : ∃ w, BehindLoop nodes w := by
    by_contra hfree
    push Not at hfree
    have hall := (h.size_le_iff hexist).mpr fun w hw => hfree w ⟨w, .refl, hw⟩
    omega
  have hget (v : Nat) (hv : v < nodes.size) : ∃ left, schedule.waiting[v]? = some left :=
    ⟨_, h.waiting v hv⟩
  cases hfind : schedule.waiting.findIdx? (· > 0) with
  | none =>
    obtain ⟨left, hleft⟩ := hget w hbehind.lt
    rw [Array.findIdx?_eq_none_iff] at hfind
    have hpos := (h.waiting_pos_iff hexist hleft).mpr hbehind
    have hzero := hfind left (Array.mem_of_getElem? hleft)
    simp [hpos] at hzero
  | some first =>
    have hstuck : schedule.stuck = first := by
      rw [stuck, hfind, Option.getD_some]
    obtain ⟨hfirst, hpos, hbefore⟩ := Array.findIdx?_eq_some_iff_getElem.mp hfind
    rw [hstuck]
    constructor
    · exact (h.waiting_pos_iff hexist (Array.getElem?_eq_getElem hfirst)).mp (by simpa using hpos)
    · intro v hv
      by_contra hlt
      have hlt : v < first := Nat.lt_of_not_le hlt
      have hbound : v < schedule.waiting.size := Nat.lt_trans hlt hfirst
      have hnot := hbefore v hlt
      have hpos := (h.waiting_pos_iff hexist (Array.getElem?_eq_getElem hbound)).mpr hv
      simp [hpos] at hnot

end Complete

end Schedule

namespace Netlist

variable {n : Netlist}

/-- A slot that was never connected. -/
def OpenSlot (n : Netlist) (w : Wire) : Prop :=
  n.nodes[w]? = some (.forward none) ∨ n.nodes[w]? = some (.flipFlop none)

/-- Why a netlist is refused: the first recorded mistake, or else the first open
slot, or else the loops within a tick. -/
inductive FirstFault (n : Netlist) : CircuitError → Prop where
  | recorded (defect : CircuitError) : n.defects[0]? = some defect → FirstFault n defect
  | openForward (w : Wire) : n.defects = #[] → n.nodes[w]? = some (.forward none) →
    (∀ v < w, ¬ n.OpenSlot v) → FirstFault n (.openForward w)
  | openFlipFlop (w : Wire) : n.defects = #[] → n.nodes[w]? = some (.flipFlop none) →
    (∀ v < w, ¬ n.OpenSlot v) → FirstFault n (.openFlipFlop w)
  | loop (w : Wire) : n.defects = #[] → (∀ v, ¬ n.OpenSlot v) →
    IsLeast {v | BehindLoop n.nodes v} w →
    FirstFault n (.combinationalLoop w {v | BehindLoop n.nodes v}.ncard)

/-- The operations are the combinational nodes, each once and after the nodes it reads. -/
structure Ordered (n : Netlist) (ops : List Op) : Prop where
  mem_iff : ∀ op, op ∈ ops ↔
    ∃ (w : Wire) (node : Node), n.nodes[w]? = some node ∧ node.op? w = some op
  nodup : (ops.map Op.out).Nodup
  earlier : ∀ before op after, ops = before ++ op :: after → ∀ v ∈ op.operands,
    (∃ node, n.nodes[v]? = some node ∧ node.IsSource) ∨ v ∈ before.map Op.out

section Fault

theorem openSlot?_getD (w : Nat) : (n.nodes.getD w .input).openSlot? w = none ↔ ¬ n.OpenSlot w := by
  rw [Array.getD_eq_getD_getElem?, OpenSlot]
  cases h : n.nodes[w]? with
  | none => simp [Node.openSlot?]
  | some node =>
    cases node with
    | flipFlop next? => cases next? <;> simp [Node.openSlot?]
    | forward source? => cases source? <;> simp [Node.openSlot?]
    | _ => simp [Node.openSlot?]

theorem findSome?_range_eq_none_iff {α : Type} (size : Nat) (f : Nat → Option α) :
    (Array.range size).findSome? f = none ↔ ∀ w < size, f w = none := by
  simp

/-- Searching a range finds the first hit, so open slots are reported in the order of their
wires. -/
theorem findSome?_range_eq_some {α : Type} {size : Nat} {f : Nat → Option α} {x : α}
    (h : (Array.range size).findSome? f = some x) :
    ∃ w, f w = some x ∧ ∀ v < w, f v = none := by
  obtain ⟨before, w, after, hsplit, hw, hbefore⟩ := Array.findSome?_eq_some_iff.mp h
  have hget (v : Nat) (hv : v < (before.push w).size) :
      (before.push w)[v]? = some v := by
    have hentry : (before.push w ++ after)[v]? = (before.push w)[v]? :=
      Array.getElem?_append_left hv
    rw [← hsplit] at hentry
    have hlt : v < size := by
      have hsize := congrArg Array.size hsplit
      rw [Array.size_range, Array.size_append] at hsize
      omega
    rw [← hentry, Array.getElem?_range, if_pos hlt]
  have hlast := hget before.size (by simp)
  rw [Array.getElem?_push_size, Option.some.injEq] at hlast
  refine ⟨w, hw, fun v hv => hbefore v ?_⟩
  have hentry := hget v (by simp; omega)
  rw [Array.getElem?_push_lt (by omega)] at hentry
  exact Array.mem_of_getElem? ((Array.getElem?_eq_getElem (by omega)).trans hentry)

theorem fault?_of_defects {defect : CircuitError} (h : n.defects[0]? = some defect) :
    n.fault? = some defect := by
  rw [fault?, h]
  rfl

theorem fault?_of_clean (h : n.defects = #[]) :
    n.fault? = (Array.range n.nodes.size).findSome? fun w =>
      (n.nodes.getD w .input).openSlot? w := by
  rw [fault?, h]
  rfl

theorem defects_eq_empty_or (n : Netlist) :
    n.defects = #[] ∨ ∃ defect, n.defects[0]? = some defect := by
  cases h : n.defects[0]? with
  | none =>
    have hsize := Array.getElem?_eq_none_iff.mp h
    exact .inl (Array.eq_empty_of_size_eq_zero (Nat.le_zero.mp hsize))
  | some defect => exact .inr ⟨defect, rfl⟩

/-- There is no fault before the order is looked at exactly if no defect is recorded and every
slot is connected. -/
theorem fault?_eq_none_iff : n.fault? = none ↔ n.defects = #[] ∧ ∀ w, ¬ n.OpenSlot w := by
  rcases n.defects_eq_empty_or with hclean | ⟨defect, hdefect⟩
  · rw [fault?_of_clean hclean, findSome?_range_eq_none_iff, and_iff_right hclean]
    constructor
    · intro hnone w hopen
      have hw : w < n.nodes.size := by
        rcases hopen with hget | hget <;> exact (Array.getElem?_eq_some_iff.mp hget).1
      exact (openSlot?_getD w).mp (hnone w hw) hopen
    · exact fun hnone w _ => (openSlot?_getD w).mpr (hnone w)
  · rw [fault?_of_defects hdefect]
    refine iff_of_false (Option.some_ne_none _) fun h => ?_
    rw [h.1] at hdefect
    cases hdefect

/-- A fault that is found before the order is looked at is the first one: a recorded defect,
or the first open slot. -/
theorem firstFault_of_fault? {fault : CircuitError} (h : n.fault? = some fault) :
    n.FirstFault fault := by
  rcases n.defects_eq_empty_or with hclean | ⟨defect, hdefect⟩
  · rw [fault?_of_clean hclean] at h
    obtain ⟨w, hw, hbefore⟩ := findSome?_range_eq_some h
    have hlowest (v : Nat) (hv : v < w) : ¬ n.OpenSlot v := (openSlot?_getD v).mp (hbefore v hv)
    have hopen : n.OpenSlot w := by
      by_contra hclosed
      rw [(openSlot?_getD w).mpr hclosed] at hw
      cases hw
    rcases hopen with hget | hget
    · rw [Array.getD_eq_getD_getElem?, hget] at hw
      cases hw
      exact .openForward w hclean hget hlowest
    · rw [Array.getD_eq_getD_getElem?, hget] at hw
      cases hw
      exact .openFlipFlop w hclean hget hlowest
  · rw [fault?_of_defects hdefect] at h
    cases h
    exact .recorded _ hdefect

end Fault

theorem WellFormed.operandsExist (h : n.WellFormed) : OperandsExist n.nodes := by
  intro w v hv
  obtain ⟨node, hnode, hv⟩ := (readsWire_iff w v).mpr hv
  have hw := (Array.getElem?_eq_some_iff.mp hnode).1
  have hwired := h.wired w node hnode
  cases node with
  | nand a b =>
    have hoperand : v = a ∨ v = b := by simpa [Node.operands] using hv
    rcases hoperand with rfl | rfl
    · exact Nat.lt_trans hwired.1 hw
    · exact Nat.lt_trans hwired.2 hw
  | forward source? =>
    cases source? with
    | none => cases hv
    | some source =>
      obtain rfl : v = source := by simpa [Node.operands] using hv
      exact hwired
  | _ => cases hv

/-- What compilation accepts and gives, without its steps: no fault is found, the order has
all nodes, and the circuit is the one of this order. -/
theorem compile_eq_ok_iff {circuit : Circuit} :
    n.compile = .ok circuit ↔ n.fault? = none ∧
      n.nodes.size ≤ (Schedule.ofNodes n.nodes).order.size ∧
      circuit = n.circuit (Schedule.ofNodes n.nodes).order := by
  unfold compile
  cases n.fault? with
  | some fault => simp
  | none =>
    by_cases hstuck : (Schedule.ofNodes n.nodes).order.size < n.nodes.size
    · simp [hstuck]
    · simp [hstuck, Nat.le_of_not_lt hstuck, eq_comm]

theorem toList_ops (order : Array Wire) : (n.circuit order).ops.toList =
    order.toList.filterMap fun w => (n.nodes.getD w .input).op? w :=
  Array.toList_filterMap

theorem getD_op?_eq_some_iff {w : Nat} {op : Op} : (n.nodes.getD w .input).op? w = some op ↔
    ∃ node, n.nodes[w]? = some node ∧ node.op? w = some op := by
  rw [Array.getD_eq_getD_getElem?]
  cases n.nodes[w]? with
  | none => simp [Node.op?]
  | some node => simp

section Ordered

variable {schedule : Schedule} (h : Schedule.Released n.nodes schedule.order.size schedule)
  (hcomplete : n.nodes.size ≤ schedule.order.size)

include h

theorem nodup_out_ops : ((n.circuit schedule.order).ops.toList.map Op.out).Nodup := by
  have hsublist (order : List Wire) : ((order.filterMap fun w =>
      (n.nodes.getD w .input).op? w).map Op.out).Sublist order := by
    induction order with
    | nil => exact .slnil
    | cons w rest ih =>
      cases hop : (n.nodes.getD w .input).op? w with
      | none =>
        rw [List.filterMap_cons, hop]
        exact ih.cons w
      | some op =>
        rw [List.filterMap_cons, hop]
        dsimp only
        rw [List.map_cons, (Node.op?_eq_some hop).1]
        exact ih.cons_cons w
  rw [toList_ops]
  exact h.nodup.sublist (hsublist schedule.order.toList)

include hcomplete

/-- The operations of a complete order are those of all nodes that have one. -/
theorem mem_ops_iff (op : Op) : op ∈ (n.circuit schedule.order).ops.toList ↔
    ∃ (w : Wire) (node : Node), n.nodes[w]? = some node ∧ node.op? w = some op := by
  rw [toList_ops, List.mem_filterMap]
  constructor
  · rintro ⟨w, -, hop⟩
    obtain ⟨node, hnode, hop⟩ := getD_op?_eq_some_iff.mp hop
    exact ⟨w, node, hnode, hop⟩
  · rintro ⟨w, node, hnode, hop⟩
    have hw := (Array.getElem?_eq_some_iff.mp hnode).1
    exact ⟨w, h.mem_of_size_le hcomplete hw, getD_op?_eq_some_iff.mpr ⟨node, hnode, hop⟩⟩

/-- If all slots are connected, the operations of a complete order are in order: each stands
once, and behind the operations of its operands. -/
theorem ordered_ops (hexist : OperandsExist n.nodes) (hclosed : ∀ w, ¬ n.OpenSlot w) :
    n.Ordered (n.circuit schedule.order).ops.toList where
  mem_iff := mem_ops_iff h hcomplete
  nodup := nodup_out_ops h
  earlier := by
    intro before op after hsplit v hv
    rw [toList_ops, List.filterMap_eq_append_iff] at hsplit
    obtain ⟨first, rest, horder, rfl, hrest⟩ := hsplit
    obtain ⟨skipped, w, last, rfl, hskipped, hop, -⟩ := List.filterMap_eq_cons_iff.mp hrest
    have hposition : schedule.order.toList[first.length + skipped.length]? = some w := by
      rw [horder, ← List.append_assoc, ← List.length_append,
        List.getElem?_append_right (Nat.le_refl _), Nat.sub_self]
      rfl
    rw [(Node.op?_eq_some hop).2] at hv
    obtain ⟨j, hj, hget⟩ := h.earlier _ w hposition v hv
    have hvmem : v ∈ first ++ skipped := by
      rw [horder, ← List.append_assoc, List.getElem?_append_left (by simpa using hj)] at hget
      exact List.mem_of_getElem? hget
    have hvlt := hexist w v hv
    have hnode : n.nodes[v]? = some n.nodes[v] := Array.getElem?_eq_getElem hvlt
    have hopen := (openSlot?_getD v).mpr (hclosed v)
    rw [Array.getD_eq_getD_getElem?, hnode, Option.getD_some] at hopen
    rcases Node.isSource_or_op? hopen with hsource | ⟨other, hother⟩
    · exact .inl ⟨_, hnode, hsource⟩
    · right
      have hoperation := getD_op?_eq_some_iff.mpr ⟨_, hnode, hother⟩
      rcases List.mem_append.mp hvmem with hfirst | hskip
      · exact List.mem_map.mpr ⟨other, List.mem_filterMap.mpr ⟨v, hfirst, hoperation⟩,
          (Node.op?_eq_some hother).1⟩
      · rw [hskipped v hskip] at hoperation
        cases hoperation

end Ordered

/-- The operations of an accepted netlist are in order. -/
theorem ordered_of_compile (hexist : OperandsExist n.nodes) (hsize : n.size ≤ 2 ^ 32)
    {circuit : Circuit} (hok : n.compile = .ok circuit) : n.Ordered circuit.ops.toList := by
  obtain ⟨hfault, hcomplete, rfl⟩ := compile_eq_ok_iff.mp hok
  have hreleased := Schedule.released_of_size_le hexist hsize hcomplete
  exact ordered_ops hreleased hcomplete hexist (fault?_eq_none_iff.mp hfault).2

/-- If the order is found as far as there is one, the first fault is reported, with the number
of nodes that are missing. -/
theorem firstFault_of_released
    (hreleased : Schedule.Released n.nodes (Schedule.ofNodes n.nodes).order.size
      (Schedule.ofNodes n.nodes))
    (hexist : OperandsExist n.nodes) {error : CircuitError} (herror : n.compile = .error error) :
    n.FirstFault error := by
  unfold compile at herror
  cases hfault : n.fault? with
  | some fault =>
    rw [hfault] at herror
    cases herror
    exact firstFault_of_fault? hfault
  | none =>
    rw [hfault] at herror
    obtain ⟨hclean, hclosed⟩ := fault?_eq_none_iff.mp hfault
    by_cases hstuck : (Schedule.ofNodes n.nodes).order.size < n.nodes.size
    · simp only [hstuck, if_true] at herror
      cases herror
      rw [← hreleased.ncard_behindLoop hexist]
      exact .loop _ hclean hclosed (hreleased.stuck_isLeast hexist hstuck)
    · simp only [hstuck, if_false] at herror
      cases herror

section Compile

variable (h : n.WellFormed) (hsize : n.size < 2 ^ 31)

include h hsize

theorem WellFormed.released :
    Schedule.Released n.nodes (Schedule.ofNodes n.nodes).order.size (Schedule.ofNodes n.nodes) := by
  have hreads := length_reads_le n.nodes
  rw [size] at hsize
  exact Schedule.released_ofNodes h.operandsExist (by omega) (by omega)

/-- A well-formed netlist of which all reads can be counted compiles exactly when it has no
defect, no open slot and no loop within a tick. -/
theorem WellFormed.compile_isOk_iff : (∃ circuit, n.compile = .ok circuit) ↔
    n.defects = #[] ∧ (∀ w, ¬ n.OpenSlot w) ∧ ∀ w, ¬ OnLoop n.nodes w := by
  simp only [compile_eq_ok_iff, fault?_eq_none_iff,
    (h.released hsize).size_le_iff h.operandsExist]
  constructor
  · rintro ⟨_, ⟨hclean, hclosed⟩, hfree, -⟩
    exact ⟨hclean, hclosed, hfree⟩
  · rintro ⟨hclean, hclosed, hfree⟩
    exact ⟨_, ⟨hclean, hclosed⟩, hfree, rfl⟩

theorem WellFormed.firstFault_of_compile {error : CircuitError}
    (herror : n.compile = .error error) :
    n.FirstFault error :=
  firstFault_of_released (h.released hsize) h.operandsExist herror

end Compile

/-- A netlist built by calls on existing wires compiles exactly when no call was a mistake,
every slot is connected and there is no loop within a tick. Its operations are then in order,
and otherwise the first fault is reported: the first mistake, then the first open slot, then
the first node behind a loop with the number of all of them. The ports that a call has to be
new to are those that earlier calls have declared. -/
theorem compile_after (calls : List BuilderCall) (hwires : empty.WiresExist calls)
    (hsize : (empty.after calls).size < 2 ^ 31) :
    ((∃ circuit, (empty.after calls).compile = .ok circuit) ↔
      empty.AllLegal calls ∧ (∀ w, ¬ (empty.after calls).OpenSlot w) ∧
        ∀ w, ¬ OnLoop (empty.after calls).nodes w) ∧
    (∀ circuit, (empty.after calls).compile = .ok circuit →
      (empty.after calls).Ordered circuit.ops.toList) ∧
    (∀ error, (empty.after calls).compile = .error error →
      (empty.after calls).FirstFault error) ∧
    ∀ earlier name, (∃ port ∈ (empty.after earlier).ports, port.name = name) ↔
      ∃ call ∈ earlier, call.portName? = some name := by
  have hwellFormed := wellFormed_empty.after calls hwires
  refine ⟨?_, ?_, ?_, ?_⟩
  · rw [hwellFormed.compile_isOk_iff hsize, defects_after_eq_empty_iff]
    exact and_congr_left fun _ => and_iff_right rfl
  · intro circuit hok
    exact ordered_of_compile hwellFormed.operandsExist (by omega) hok
  · intro error herror
    exact hwellFormed.firstFault_of_compile hsize herror
  · intro earlier name
    have hnone : ¬ ∃ port ∈ empty.ports, port.name = name := by simp [empty]
    rw [exists_port_after_iff, or_iff_right hnone]

/-- The second declaration of a name is a mistake, whatever it declares. -/
example : ¬ empty.AllLegal [.input "a" 1, .flipFlop, .output "a" [1]] := by decide +kernel

/-- The calls of a flip-flop that samples its own negation. -/
def toggleCalls : List BuilderCall := [.flipFlop, .nand 0 0, .latch 0 1, .output "out" [0]]

/-- The loop of a toggle passes through its flip-flop, so nothing waits for itself within a
tick and the netlist compiles. -/
theorem compile_after_toggle : empty.WiresExist toggleCalls ∧
    (empty.after toggleCalls).size < 2 ^ 31 ∧
    (∃ circuit, (empty.after toggleCalls).compile = .ok circuit) ∧
    ∀ w, ¬ OnLoop (empty.after toggleCalls).nodes w := by
  have hwires : empty.WiresExist toggleCalls := by decide
  have hsize : (empty.after toggleCalls).size < 2 ^ 31 := by decide +kernel
  have hok : ∃ circuit, (empty.after toggleCalls).compile = .ok circuit :=
    ⟨_, compile_eq_ok_iff.mpr ⟨by decide +kernel, by decide +kernel, rfl⟩⟩
  exact ⟨hwires, hsize, hok, ((compile_after toggleCalls hwires hsize).1.mp hok).2.2⟩

end Netlist

end NandComputer
