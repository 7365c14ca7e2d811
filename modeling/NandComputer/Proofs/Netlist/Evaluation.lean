import NandComputer.Netlist.Simulation
import NandComputer.Proofs.Netlist.Compilation

/-!
The value of a wire as a netlist defines it: by recursion through the nodes
that are read, from an assignment of the inputs and flip-flops. A recursion
that ends passes no wire twice, so its depth is bounded by the size of the
netlist. In a circuit that was accepted, evaluating the operations in order
gives every wire this value, whatever the wires held before.
-/

namespace NandComputer

/-- All that a circuit remembers between ticks. -/
structure CircuitState where
  inputs : Wire → Bool
  flipFlops : Wire → Bool

/-- The value of a wire, given the values of the wires that it reads. -/
def Netlist.valueFrom (n : Netlist) (state : CircuitState) (read : Wire → Option Bool)
    (w : Wire) : Option Bool :=
  match n.nodes[w]? with
  | some (.constant value) => some value
  | some .input => some (state.inputs w)
  | some (.flipFlop _) => some (state.flipFlops w)
  | some (.nand a b) => do
    let first ← read a
    let second ← read b
    return !(first && second)
  | some (.forward (some source)) => read source
  | some (.forward none) | none => none

/-- The value of a wire, if the recursion ends within `depth` nodes. -/
def Netlist.valueWithin (n : Netlist) (state : CircuitState) : Nat → Wire → Option Bool
  | 0 => fun _ => none
  | depth + 1 => n.valueFrom state (n.valueWithin state depth)

/-- The value of a wire, if the recursion ends at constants, inputs and flip-flops. -/
def Netlist.value? (n : Netlist) (state : CircuitState) (w : Wire) : Option Bool :=
  n.valueWithin state n.size w

def Netlist.value (n : Netlist) (state : CircuitState) (w : Wire) : Bool :=
  (n.value? state w).getD false

def Netlist.IsInput (n : Netlist) (w : Wire) : Prop := n.nodes[w]? = some .input

def Netlist.IsFlipFlop (n : Netlist) (w : Wire) : Prop :=
  ∃ next?, n.nodes[w]? = some (.flipFlop next?)

/-- The wires that a node mentions. -/
def Node.wires : Node → List Wire
  | .flipFlop (some next) => [next]
  | node => node.operands

/-- A netlist that compiles to the circuit, and whose nodes mention existing wires only. -/
structure Netlist.Accepted (n : Netlist) (circuit : Circuit) : Prop where
  wires : ∀ (w : Wire) (node : Node), n.nodes[w]? = some node → ∀ v ∈ node.wires, v < n.size
  size : n.size ≤ Netlist.capacity
  compile : n.compile = .ok circuit

theorem Node.operands_subset_wires (node : Node) : node.operands ⊆ node.wires := by
  cases node with
  | flipFlop next? => exact List.nil_subset _
  | _ => exact List.Subset.refl _

theorem Node.IsSource.op?_eq_none {node : Node} (h : node.IsSource) (w : Wire) :
    node.op? w = none := by
  cases node with
  | nand a b => cases h
  | forward source? => cases h
  | _ => rfl

namespace Netlist

variable {n : Netlist} {state : CircuitState}

section Depth

variable {depth : Nat}

theorem valueFrom_of_none {read : Wire → Option Bool} {w : Nat} (h : n.nodes[w]? = none) :
    n.valueFrom state read w = none := by
  rw [valueFrom, h]

/-- Knowing more of the wires that are read leaves a value as it is. So a recursion that ends
is not changed by more depth. -/
theorem valueFrom_mono {read other : Wire → Option Bool}
    (h : ∀ v value, read v = some value → other v = some value) {w : Nat} {value : Bool}
    (hvalue : n.valueFrom state read w = some value) : n.valueFrom state other w = some value := by
  rw [valueFrom] at hvalue ⊢
  split at hvalue
  case h_4 a b hnode =>
    obtain ⟨first, ha, hvalue⟩ := Option.bind_eq_some_iff.mp hvalue
    obtain ⟨second, hb, hvalue⟩ := Option.bind_eq_some_iff.mp hvalue
    simpa [h a first ha, h b second hb] using hvalue
  case h_5 => exact h _ _ hvalue
  all_goals exact hvalue

theorem valueWithin_succ_of_some {w : Nat} {value : Bool}
    (h : n.valueWithin state depth w = some value) :
    n.valueWithin state (depth + 1) w = some value := by
  induction depth generalizing w value with
  | zero => cases h
  | succ depth ih => exact valueFrom_mono (fun _ _ => ih) h

/-- The wires that have their value within a depth. -/
def valued (n : Netlist) (state : CircuitState) (depth : Nat) : Finset Nat :=
  (Finset.range n.size).filter fun w => (n.valueWithin state depth w).isSome

/-- If one more step of the recursion changes anything, it gives a value to a wire that had
none. -/
theorem valued_ssubset_succ (h : n.valueWithin state (depth + 1) ≠ n.valueWithin state depth) :
    n.valued state depth ⊂ n.valued state (depth + 1) := by
  obtain ⟨w, hw⟩ := Function.ne_iff.mp h
  have hnone : n.valueWithin state depth w = none := by
    cases hold : n.valueWithin state depth w with
    | none => rfl
    | some value => exact absurd ((valueWithin_succ_of_some hold).trans hold.symm) hw
  rw [hnone] at hw
  have hlt : w < n.size := by
    cases hnode : n.nodes[w]? with
    | none => exact absurd (valueFrom_of_none hnode) hw
    | some node => exact (Array.getElem?_eq_some_iff.mp hnode).1
  apply (Finset.ssubset_iff_of_subset ?_).mpr
  · refine ⟨w, ?_, by simp [valued, hnone]⟩
    simpa [valued, hlt] using Option.isSome_iff_ne_none.mpr hw
  · intro v hv
    obtain ⟨hv, hold⟩ := Finset.mem_filter.mp hv
    obtain ⟨value, hvalue⟩ := Option.isSome_iff_exists.mp hold
    exact Finset.mem_filter.mpr ⟨hv, by simp [valueWithin_succ_of_some hvalue]⟩

/-- The recursion has ended everywhere, or every step so far has given a further wire its
value. As many steps as there are nodes are therefore enough. -/
theorem valueWithin_succ_or (n : Netlist) (state : CircuitState) (depth : Nat) :
    n.valueWithin state (depth + 1) = n.valueWithin state depth ∨
      depth < (n.valued state (depth + 1)).card := by
  induction depth with
  | zero =>
    rw [or_iff_not_imp_left]
    exact fun h => Nat.zero_lt_of_lt (Finset.card_lt_card (valued_ssubset_succ h))
  | succ depth ih =>
    rw [or_iff_not_imp_left]
    intro h
    -- had the recursion ended before, it would have ended now as well
    have hbefore := ih.resolve_left fun hended => h (congrArg (n.valueFrom state) hended)
    exact Nat.lt_of_le_of_lt hbefore (Finset.card_lt_card (valued_ssubset_succ h))

/-- The value of a wire is that of its node on the values of the wires that it reads. The
depth is gone from this equation, and all further facts about values are drawn from it. -/
theorem value?_eq_valueFrom (n : Netlist) (state : CircuitState) (w : Wire) :
    n.value? state w = n.valueFrom state (n.value? state) w := by
  have hcard : (n.valued state (n.size + 1)).card ≤ n.size :=
    (Finset.card_filter_le _ _).trans_eq (Finset.card_range n.size)
  have hended := (n.valueWithin_succ_or state n.size).resolve_right (Nat.not_lt.mpr hcard)
  exact (congrFun hended w).symm

end Depth

section Value

variable {w : Nat}

theorem value?_of_none (h : n.nodes[w]? = none) : n.value? state w = none := by
  rw [value?_eq_valueFrom, valueFrom_of_none h]

theorem value?_constant {value : Bool} (h : n.nodes[w]? = some (.constant value)) :
    n.value? state w = some value := by
  rw [value?_eq_valueFrom, valueFrom, h]

theorem value?_input (h : n.nodes[w]? = some .input) :
    n.value? state w = some (state.inputs w) := by
  rw [value?_eq_valueFrom, valueFrom, h]

theorem value?_flipFlop {next? : Option Wire} (h : n.nodes[w]? = some (.flipFlop next?)) :
    n.value? state w = some (state.flipFlops w) := by
  rw [value?_eq_valueFrom, valueFrom, h]

theorem value?_forward {source : Wire} (h : n.nodes[w]? = some (.forward (some source))) :
    n.value? state w = n.value? state source := by
  rw [value?_eq_valueFrom, valueFrom, h]

theorem value?_nand {a b : Wire} {first second : Bool} (h : n.nodes[w]? = some (.nand a b))
    (ha : n.value? state a = some first) (hb : n.value? state b = some second) :
    n.value? state w = some !(first && second) := by
  rw [value?_eq_valueFrom, valueFrom, h]
  simp [ha, hb]

/-- The value of a source depends on its own entry of the state only, and on nothing that is
wired to it. -/
theorem value?_congr_source {other : CircuitState} {node : Node} (h : n.nodes[w]? = some node)
    (hsource : node.IsSource) (hinput : node = .input → state.inputs w = other.inputs w)
    (hflop : ∀ next?, node = .flipFlop next? → state.flipFlops w = other.flipFlops w) :
    n.value? state w = n.value? other w := by
  cases node with
  | constant value => rw [value?_constant h, value?_constant h]
  | input => rw [value?_input h, value?_input h, hinput rfl]
  | flipFlop next? => rw [value?_flipFlop h, value?_flipFlop h, hflop next? rfl]
  | nand a b => cases hsource
  | forward source? => cases hsource

end Value

/-- The sources and the wires that are done have the values that the netlist gives them. -/
structure Settling (n : Netlist) (state : CircuitState) (done : List Wire)
    (values : Array Bool) : Prop where
  size : values.size = n.size
  sources : ∀ (w : Wire) (node : Node), n.nodes[w]? = some node → node.IsSource →
    values[w]? = n.value? state w
  done : ∀ w ∈ done, values[w]? = n.value? state w

section Settling

variable {done : List Wire} {values : Array Bool}

theorem getD_eq_of_getElem? {w : Nat} {x? : Option Bool} (hw : w < values.size)
    (h : values[w]? = x?) : x? = some (values.getD w false) := by
  rw [← h, Array.getD_eq_getD_getElem?, Array.getElem?_eq_getElem hw, Option.getD_some]

/-- Computing a wire whose operands have their values gives it its own, and leaves those that
are computed already. -/
theorem Settling.apply (h : n.Settling state done values) {w : Nat} {node : Node} {op : Op}
    (hnode : n.nodes[w]? = some node) (hop : node.op? w = some op)
    (hoperands : ∀ v ∈ op.operands, v < n.size ∧ values[v]? = n.value? state v) :
    n.Settling state (done ++ [w]) (op.apply values) := by
  have hw : w < values.size := by
    rw [h.size]
    exact (Array.getElem?_eq_some_iff.mp hnode).1
  have hoperand (v : Nat) (hv : v ∈ op.operands) :
      n.value? state v = some (values.getD v false) := by
    obtain ⟨hlt, hvalue⟩ := hoperands v hv
    exact getD_eq_of_getElem? (by rw [h.size]; exact hlt) hvalue
  -- what the operation computes is what the netlist defines; the other nodes have no operation
  obtain ⟨result, happly, hresult⟩ : ∃ result, op.apply values = values.setIfInBounds w result ∧
      n.value? state w = some result := by
    cases node with
    | nand a b =>
      cases hop
      have ha := hoperand a (by simp [Op.operands])
      have hb := hoperand b (by simp [Op.operands])
      exact ⟨_, rfl, value?_nand hnode ha hb⟩
    | forward source? =>
      cases source? with
      | none => cases hop
      | some source =>
        cases hop
        have hsource := hoperand source (by simp [Op.operands])
        exact ⟨_, rfl, (value?_forward hnode).trans hsource⟩
    | _ => cases hop
  rw [happly]
  refine ⟨?_, ?_, ?_⟩
  · rw [Array.size_setIfInBounds, h.size]
  · intro v other hv hsource
    have hne : w ≠ v := by
      rintro rfl
      rw [hnode, Option.some.injEq] at hv
      subst hv
      rw [hsource.op?_eq_none] at hop
      cases hop
    rw [Array.getElem?_setIfInBounds_ne hne]
    exact h.sources v other hv hsource
  · intro v hv
    by_cases heq : w = v
    · subst heq
      rw [Array.getElem?_setIfInBounds_self_of_lt hw, hresult]
    · rw [Array.getElem?_setIfInBounds_ne heq]
      rcases List.mem_append.mp hv with hold | hlast
      · exact h.done v hold
      · exact absurd (List.mem_singleton.mp hlast).symm heq

/-- Operations in order give their wires the values of the netlist one after the other. The
induction is over the operations that are done. -/
theorem Ordered.settling {ops : List Op} (hordered : n.Ordered ops)
    (hexist : OperandsExist n.nodes) (h : n.Settling state [] values) (before after : List Op)
    (hsplit : ops = before ++ after) :
    n.Settling state (before.map Op.out) (before.foldl Op.apply values) := by
  induction before using List.reverseRecOn generalizing after with
  | nil => exact h
  | append_singleton before op ih =>
    rw [List.append_assoc] at hsplit
    have hbefore := ih ([op] ++ after) hsplit
    have hmem : op ∈ ops := by
      rw [hsplit]
      simp
    obtain ⟨w, node, hnode, hop⟩ := (hordered.mem_iff op).mp hmem
    obtain ⟨hout, hoperands⟩ := Node.op?_eq_some hop
    rw [List.foldl_append, List.map_append]
    rw [← hout] at hnode hop
    apply hbefore.apply hnode hop
    intro v hv
    constructor
    · have hread : v ∈ operandsOf n.nodes op.out := by
        rw [operandsOf_eq hnode, ← hoperands]
        exact hv
      exact hexist op.out v hread
    · rcases hordered.earlier before op after hsplit v hv with ⟨source, hget, hsource⟩ | hdone
      · exact hbefore.sources v source hget hsource
      · exact hbefore.done v hdone

end Settling

section Accepted

variable {circuit : Circuit}

theorem WellFormed.lt_of_mem_wires (h : n.WellFormed) {w : Wire} {node : Node}
    (hnode : n.nodes[w]? = some node) {v : Wire} (hv : v ∈ node.wires) : v < n.size := by
  cases node with
  | flipFlop next? =>
    cases next? with
    | none => cases hv
    | some next =>
      obtain rfl : v = next := by simpa [Node.wires] using hv
      exact h.wired w _ hnode
  | _ => exact h.operandsExist w v ((readsWire_iff w v).mp ⟨_, hnode, hv⟩)

/-- What was built by calls on existing wires and compiles is accepted, if it is within the
size limit. -/
theorem WellFormed.accepted (h : n.WellFormed) (hsize : n.size ≤ Netlist.capacity)
    (hok : n.compile = .ok circuit) : n.Accepted circuit where
  wires := fun _ _ hnode _ hv => h.lt_of_mem_wires hnode hv
  size := hsize
  compile := hok

variable (h : n.Accepted circuit)

include h

theorem Accepted.operandsExist : OperandsExist n.nodes := by
  intro w v hv
  obtain ⟨node, hnode, hv⟩ := (readsWire_iff w v).mpr hv
  exact h.wires w node hnode v (node.operands_subset_wires hv)

theorem Accepted.ordered : n.Ordered circuit.ops.toList := by
  have hsize := h.size
  rw [Netlist.capacity, UInt32.size] at hsize
  exact ordered_of_compile h.operandsExist (by omega) h.compile

theorem Accepted.defects : n.defects = #[] := by
  obtain ⟨hfault, -⟩ := compile_eq_ok_iff.mp h.compile
  exact (fault?_eq_none_iff.mp hfault).1

theorem Accepted.closed (w : Nat) : ¬ n.OpenSlot w := by
  obtain ⟨hfault, -⟩ := compile_eq_ok_iff.mp h.compile
  exact (fault?_eq_none_iff.mp hfault).2 w

theorem Accepted.circuit_eq : ∃ order, circuit = n.circuit order := by
  obtain ⟨-, -, hcircuit⟩ := compile_eq_ok_iff.mp h.compile
  exact ⟨_, hcircuit⟩

theorem Accepted.settling {values : Array Bool} (hvalues : n.Settling state [] values) :
    n.Settling state (circuit.ops.toList.map Op.out) (circuit.ops.foldl Op.apply values) := by
  have hsettling := h.ordered.settling h.operandsExist hvalues circuit.ops.toList []
    (List.append_nil _).symm
  rw [Array.foldl_toList] at hsettling
  exact hsettling

/-- Evaluating the operations from sources with their values gives every wire its value: the
sources have theirs, and every other node has an operation. -/
theorem Accepted.getElem?_settle {values : Array Bool} (hvalues : n.Settling state [] values)
    (w : Nat) : (circuit.ops.foldl Op.apply values)[w]? = n.value? state w := by
  have hsettled := h.settling hvalues
  cases hnode : n.nodes[w]? with
  | none =>
    rw [value?_of_none hnode, Array.getElem?_eq_none_iff, hsettled.size]
    exact Array.getElem?_eq_none_iff.mp hnode
  | some node =>
    have hopen := (openSlot?_getD w).mpr (h.closed w)
    rw [Array.getD_eq_getD_getElem?, hnode, Option.getD_some] at hopen
    rcases Node.isSource_or_op? hopen with hsource | ⟨op, hop⟩
    · exact hsettled.sources w node hnode hsource
    · have hmem := (h.ordered.mem_iff op).mpr ⟨w, node, hnode, hop⟩
      apply hsettled.done w
      rw [← (Node.op?_eq_some hop).1]
      exact List.mem_map_of_mem hmem

/-- In an accepted netlist the recursion ends for every wire, since the evaluation by
operations has a value for it. -/
theorem Accepted.value?_eq_some (state : CircuitState) (w : Nat) (hw : w < n.size) :
    n.value? state w = some (n.value state w) := by
  let values := Array.ofFn fun i : Fin n.size => n.value state i.val
  have hvalues : n.Settling state [] values := by
    refine ⟨Array.size_ofFn, ?_, by simp⟩
    intro v node hnode hsource
    have hv := (Array.getElem?_eq_some_iff.mp hnode).1
    have hsome : n.value? state v = some (n.value state v) := by
      cases node with
      | constant bit => simp [value, value?_constant hnode]
      | input => simp [value, value?_input hnode]
      | flipFlop next? => simp [value, value?_flipFlop hnode]
      | nand a b => cases hsource
      | forward source? => cases hsource
    rw [hsome]
    exact Array.getElem?_ofFn.trans (dif_pos hv)
  have hsize := (h.settling hvalues).size
  have hsettled := getD_eq_of_getElem? (by rw [hsize]; exact hw) (h.getElem?_settle hvalues w)
  rw [value, hsettled, Option.getD_some]

end Accepted

end Netlist

end NandComputer
