import Mathlib.Tactic.Common
import NandComputer.Netlist.Basic

/-!
Netlists as histories of builder calls. A call appends nodes or connects an
open slot; it never changes anything else, so netlists are ordered by what has
been added. Wiring mistakes are exactly the calls that connect a slot twice,
connect something without a slot, or repeat the name of a port.
-/

namespace NandComputer

/-- A call that extends a netlist. The other actions of `Build` are sequences of these. -/
inductive BuilderCall where
  | zero
  | one
  | input (name : String) (width : Nat)
  | output (name : String) (wires : Bus)
  | nand (a b : Wire)
  | flipFlop
  | latch (flop next : Wire)
  | forward
  | drive (wire source : Wire)
  deriving DecidableEq

namespace BuilderCall

/-- The wires that a call mentions. -/
def wires : BuilderCall → List Wire
  | .output _ wires => wires
  | .nand a b => [a, b]
  | .latch flop next => [flop, next]
  | .drive wire source => [wire, source]
  | _ => []

/-- The name under which a call declares a port. -/
def portName? : BuilderCall → Option String
  | .input name _ | .output name _ => some name
  | _ => none

/-- The action of a call, without its result. -/
def action : BuilderCall → Build Unit
  | .zero => discard Build.zero
  | .one => discard Build.one
  | .input name width => discard (Build.input name width)
  | .output name wires => Build.output name wires
  | .nand a b => discard (Build.nand a b)
  | .flipFlop => discard Build.flipFlop
  | .latch flop next => Build.latch flop next
  | .forward => discard Build.forward
  | .drive wire source => Build.drive wire source

/-- The netlist after a call. -/
def apply (n : Netlist) (call : BuilderCall) : Netlist := (call.action.run n).2

/-- Whether a call is no wiring mistake: it connects an open slot, or declares
a port under a new name. -/
def Legal (n : Netlist) : BuilderCall → Prop
  | .input name _ | .output name _ => ∀ port ∈ n.ports, port.name ≠ name
  | .latch flop _ => n.nodes[flop]? = some (.flipFlop none)
  | .drive wire _ => n.nodes[wire]? = some (.forward none)
  | _ => True

instance (n : Netlist) : DecidablePred (Legal n) := fun call =>
  match call with
  | .input name _ | .output name _ =>
    inferInstanceAs (Decidable (∀ port ∈ n.ports, port.name ≠ name))
  | .latch flop _ => inferInstanceAs (Decidable (n.nodes[flop]? = some (.flipFlop none)))
  | .drive wire _ => inferInstanceAs (Decidable (n.nodes[wire]? = some (.forward none)))
  | .zero | .one | .nand _ _ | .flipFlop | .forward => inferInstanceAs (Decidable True)

end BuilderCall

/-- The netlist after some calls. -/
def Netlist.after (n : Netlist) (calls : List BuilderCall) : Netlist :=
  calls.foldl BuilderCall.apply n

/-- Every call mentions only wires that exist by then. -/
def Netlist.WiresExist (n : Netlist) : List BuilderCall → Prop
  | [] => True
  | call :: rest => (∀ w ∈ call.wires, w < n.size) ∧ (call.apply n).WiresExist rest

/-- No call is a wiring mistake. -/
def Netlist.AllLegal (n : Netlist) : List BuilderCall → Prop
  | [] => True
  | call :: rest => call.Legal n ∧ (call.apply n).AllLegal rest

instance decidableWiresExist (n : Netlist) :
    (calls : List BuilderCall) → Decidable (n.WiresExist calls)
  | [] => inferInstanceAs (Decidable True)
  | call :: rest =>
    have := decidableWiresExist (call.apply n) rest
    inferInstanceAs (Decidable (_ ∧ _))

instance decidableAllLegal (n : Netlist) :
    (calls : List BuilderCall) → Decidable (n.AllLegal calls)
  | [] => inferInstanceAs (Decidable True)
  | call :: rest =>
    have := decidableAllLegal (call.apply n) rest
    inferInstanceAs (Decidable (_ ∧ _))

/-- A node with its open slot possibly connected. -/
inductive Node.Fills : Node → Node → Prop
  | same (node : Node) : Fills node node
  | forward (source : Wire) : Fills (.forward none) (.forward (some source))
  | flipFlop (next : Wire) : Fills (.flipFlop none) (.flipFlop (some next))

/-- A slot that is filled stays filled with the same wire, so filling in two steps is filling.
-/
theorem Node.Fills.trans {a b c : Node} (hab : a.Fills b) (hbc : b.Fills c) : a.Fills c := by
  cases hab with
  | same => exact hbc
  | forward source =>
    cases hbc
    exact .forward source
  | flipFlop next =>
    cases hbc
    exact .flipFlop next

/-- The wires of a node exist, and a gate reads earlier nodes only. -/
def Node.WiredAt (size : Nat) (w : Wire) : Node → Prop
  | .nand a b => a < w ∧ b < w
  | .flipFlop (some v) | .forward (some v) => v < size
  | _ => True

theorem Node.WiredAt.mono {size larger : Nat} {w : Wire} {node : Node}
    (h : node.WiredAt size w) (hle : size ≤ larger) : node.WiredAt larger w := by
  cases node with
  | flipFlop next? =>
    cases next? with
    | none => trivial
    | some v => exact Nat.lt_of_lt_of_le h hle
  | forward source? =>
    cases source? with
    | none => trivial
    | some v => exact Nat.lt_of_lt_of_le h hle
  | nand a b => exact h
  | _ => trivial

namespace Netlist

/-- `m` has everything that `n` has, and more nodes, connections, ports or defects. -/
structure Grown (n m : Netlist) : Prop where
  nodes : ∀ (w : Wire) (node : Node), n.nodes[w]? = some node →
    ∃ later, m.nodes[w]? = some later ∧ node.Fills later
  zero : ∀ w : Wire, n.zero? = some w → m.zero? = some w
  one : ∀ w : Wire, n.one? = some w → m.one? = some w
  ports : ∃ more, m.ports = n.ports ++ more
  defects : ∃ more, m.defects = n.defects ++ more

instance : LE Netlist := ⟨Grown⟩

theorem le_refl (n : Netlist) : n ≤ n where
  nodes := fun _ node h => ⟨node, h, .same node⟩
  zero := fun _ h => h
  one := fun _ h => h
  ports := ⟨#[], Array.append_empty.symm⟩
  defects := ⟨#[], Array.append_empty.symm⟩

theorem le_trans {a b c : Netlist} (hab : a ≤ b) (hbc : b ≤ c) : a ≤ c where
  nodes := by
    intro w node h
    obtain ⟨next, hnext, hfirst⟩ := hab.nodes w node h
    obtain ⟨last, hlast, hsecond⟩ := hbc.nodes w next hnext
    exact ⟨last, hlast, hfirst.trans hsecond⟩
  zero := fun w h => hbc.zero w (hab.zero w h)
  one := fun w h => hbc.one w (hab.one w h)
  ports := by
    obtain ⟨first, hfirst⟩ := hab.ports
    obtain ⟨second, hsecond⟩ := hbc.ports
    exact ⟨first ++ second, by rw [hsecond, hfirst, Array.append_assoc]⟩
  defects := by
    obtain ⟨first, hfirst⟩ := hab.defects
    obtain ⟨second, hsecond⟩ := hbc.defects
    exact ⟨first ++ second, by rw [hsecond, hfirst, Array.append_assoc]⟩

theorem size_le {n m : Netlist} (h : n ≤ m) : n.size ≤ m.size := by
  by_contra hlt
  have hsize : m.size < n.nodes.size := Nat.lt_of_not_le hlt
  have hnode : n.nodes[m.size]? = some n.nodes[m.size] := Array.getElem?_eq_getElem hsize
  obtain ⟨later, hlater, -⟩ := h.nodes _ _ hnode
  have hbound := (Array.getElem?_eq_some_iff.mp hlater).1
  exact Nat.lt_irrefl _ hbound

theorem defects_eq_of_le {n m : Netlist} (h : n ≤ m) (hm : m.defects = #[]) :
    n.defects = #[] := by
  obtain ⟨more, hmore⟩ := h.defects
  rw [hm, eq_comm, Array.append_eq_empty_iff] at hmore
  exact hmore.1

/-- Appending nodes keeps the old ones with their wires, and ports and defects as they are. -/
theorem le_append_nodes (n : Netlist) (more : Array Node) :
    n ≤ { n with nodes := n.nodes ++ more } where
  nodes := by
    intro w node h
    obtain ⟨hlt, -⟩ := Array.getElem?_eq_some_iff.mp h
    exact ⟨node, by rw [Array.getElem?_append_left hlt, h], .same node⟩
  zero := fun _ h => h
  one := fun _ h => h
  ports := ⟨#[], Array.append_empty.symm⟩
  defects := ⟨#[], Array.append_empty.symm⟩

theorem le_append (n : Netlist) (node : Node) : n ≤ n.append node := by
  have h := n.le_append_nodes #[node]
  rwa [Array.append_singleton] at h

theorem le_reject (n : Netlist) (defect : CircuitError) : n ≤ n.reject defect where
  nodes := fun _ node h => ⟨node, h, .same node⟩
  zero := fun _ h => h
  one := fun _ h => h
  ports := ⟨#[], Array.append_empty.symm⟩
  defects := ⟨#[defect], Array.append_singleton.symm⟩

theorem le_declare (n : Netlist) (port : Port) : n ≤ n.declare port := by
  unfold declare
  split
  · exact n.le_reject _
  · exact {
      nodes := fun _ node h => ⟨node, h, .same node⟩
      zero := fun _ h => h
      one := fun _ h => h
      ports := ⟨#[port], Array.append_singleton.symm⟩
      defects := ⟨#[], Array.append_empty.symm⟩ }

/-- Connecting an open slot changes no other node, and fills this one. -/
theorem le_connect (n : Netlist) (w : Wire) (node later : Node) (h : n.nodes[w]? = some node)
    (hfills : node.Fills later) :
    n ≤ { n with nodes := n.nodes.setIfInBounds w later } where
  nodes := by
    intro v other hv
    by_cases heq : w = v
    · subst heq
      rw [h, Option.some.injEq] at hv
      subst hv
      obtain ⟨hlt, -⟩ := Array.getElem?_eq_some_iff.mp h
      exact ⟨later, Array.getElem?_setIfInBounds_self_of_lt hlt, hfills⟩
    · exact ⟨other, by rw [Array.getElem?_setIfInBounds_ne heq, hv], .same other⟩
  zero := fun _ h => h
  one := fun _ h => h
  ports := ⟨#[], Array.append_empty.symm⟩
  defects := ⟨#[], Array.append_empty.symm⟩

theorem le_connectFlipFlop (n : Netlist) (flipFlop next : Wire) :
    n ≤ n.connectFlipFlop flipFlop next := by
  unfold connectFlipFlop
  split
  case h_1 h => exact n.le_connect flipFlop _ _ h (.flipFlop next)
  all_goals exact n.le_reject _

theorem le_connectForward (n : Netlist) (wire source : Wire) :
    n ≤ n.connectForward wire source := by
  unfold connectForward
  split
  case h_1 h => exact n.le_connect wire _ _ h (.forward source)
  all_goals exact n.le_reject _

/-- What all netlists have that arise from calls on existing wires. -/
structure WellFormed (n : Netlist) : Prop where
  wired : ∀ (w : Wire) (node : Node), n.nodes[w]? = some node → node.WiredAt n.size w
  zero : ∀ w : Wire, n.zero? = some w → n.nodes[w]? = some (.constant false)
  one : ∀ w : Wire, n.one? = some w → n.nodes[w]? = some (.constant true)

theorem wellFormed_empty : WellFormed empty where
  wired := by simp [empty]
  zero := by simp [empty]
  one := by simp [empty]

section WellFormed

variable {n : Netlist} (h : n.WellFormed)

include h

/-- A netlist stays well formed with one more node, if the operands of the node come before
it. The wires of the constants still have constants. -/
theorem WellFormed.append (node : Node) (hnode : node.WiredAt n.size n.size) :
    (n.append node).WellFormed where
  wired := by
    intro w other hw
    rw [Netlist.append, Array.getElem?_push] at hw
    split at hw
    case isTrue heq =>
      cases hw
      subst heq
      exact hnode.mono (by simp [Netlist.append, size])
    case isFalse => exact (h.wired w other hw).mono (by simp [Netlist.append, size])
  zero := fun w hw => by
    obtain ⟨hlt, -⟩ := Array.getElem?_eq_some_iff.mp (h.zero w hw)
    rw [Netlist.append, Array.getElem?_push_lt hlt, ← Array.getElem?_eq_getElem hlt]
    exact h.zero w hw
  one := fun w hw => by
    obtain ⟨hlt, -⟩ := Array.getElem?_eq_some_iff.mp (h.one w hw)
    rw [Netlist.append, Array.getElem?_push_lt hlt, ← Array.getElem?_eq_getElem hlt]
    exact h.one w hw

theorem WellFormed.declare (port : Port) : (n.declare port).WellFormed := by
  unfold Netlist.declare
  split
  · exact ⟨h.wired, h.zero, h.one⟩
  · exact ⟨h.wired, h.zero, h.one⟩

/-- Connecting the open slot of a node keeps the netlist well formed. The node is no constant,
so the wires that are remembered for these still have them. -/
theorem WellFormed.connect {w : Wire} {node later : Node} (hw : n.nodes[w]? = some node)
    (hconstant : ∀ value, node ≠ .constant value) (hlater : later.WiredAt n.size w) :
    { n with nodes := n.nodes.setIfInBounds w later }.WellFormed where
  wired := by
    intro v other hv
    have hsize : Netlist.size { n with nodes := n.nodes.setIfInBounds w later } = n.size :=
      Array.size_setIfInBounds
    rw [hsize]
    rw [Array.getElem?_setIfInBounds] at hv
    split at hv
    case isTrue heq =>
      subst heq
      split at hv
      · cases hv
        exact hlater
      · cases hv
    case isFalse => exact h.wired v other hv
  zero := fun v hv => by
    have hne : w ≠ v := by
      rintro rfl
      rw [h.zero w hv, Option.some.injEq] at hw
      exact hconstant _ hw.symm
    rw [Array.getElem?_setIfInBounds_ne hne]
    exact h.zero v hv
  one := fun v hv => by
    have hne : w ≠ v := by
      rintro rfl
      rw [h.one w hv, Option.some.injEq] at hw
      exact hconstant _ hw.symm
    rw [Array.getElem?_setIfInBounds_ne hne]
    exact h.one v hv

theorem WellFormed.connectFlipFlop {flop next : Wire} (hnext : next < n.size) :
    (n.connectFlipFlop flop next).WellFormed := by
  unfold Netlist.connectFlipFlop
  split
  case h_1 hw => exact h.connect hw (by simp) hnext
  all_goals exact ⟨h.wired, h.zero, h.one⟩

theorem WellFormed.connectForward {wire source : Wire} (hsource : source < n.size) :
    (n.connectForward wire source).WellFormed := by
  unfold Netlist.connectForward
  split
  case h_1 hw => exact h.connect hw (by simp) hsource
  all_goals exact ⟨h.wired, h.zero, h.one⟩

/-- Nodes without operands read nothing, wherever they stand, so any number of them can be
appended. -/
theorem WellFormed.append_replicate (node : Node) (hnode : ∀ size w, node.WiredAt size w)
    (count : Nat) :
    { n with nodes := n.nodes ++ Array.replicate count node }.WellFormed := by
  induction count with
  | zero =>
    rw [Array.replicate_zero, Array.append_empty]
    exact h
  | succ count ih =>
    rw [Array.replicate_succ, Array.append_push]
    exact ih.append node (hnode _ _)

end WellFormed

end Netlist

namespace Build

theorem run_bind {α β : Type} (m : Build α) (f : α → Build β) (n : Netlist) :
    (m >>= f).run n = (f (m.run n).1).run (m.run n).2 := rfl

/-- Nodes appended one after the other have consecutive wires, starting behind the last node
that there was. -/
theorem run_mapM_emit {α : Type} (node : Node) (items : List α) (n : Netlist) :
    (items.mapM fun _ => emit node).run n =
      (List.range' n.size items.length,
        { n with nodes := n.nodes ++ Array.replicate items.length node }) := by
  induction items generalizing n with
  | nil =>
    rw [List.length_nil, Array.replicate_zero, Array.append_empty]
    rfl
  | cons item rest ih =>
    have hfirst : (emit node).run n = (n.size, n.append node) := rfl
    have hnodes : (n.append node).nodes ++ Array.replicate rest.length node =
        n.nodes ++ Array.replicate (rest.length + 1) node := by
      apply Array.toList_inj.mp
      simp [Netlist.append, List.replicate_succ]
    have hnext : (n.append node).size = n.size + 1 := Array.size_push _
    rw [List.mapM_cons, run_bind, run_bind, hfirst, ih, hnodes, hnext, List.length_cons,
      List.range'_succ]
    rfl

/-- An action that only adds to a netlist. -/
class Grows {α : Type} (m : Build α) : Prop where
  le : ∀ n : Netlist, n ≤ (m.run n).2

section Grows

variable {α β : Type}

instance (x : α) : Grows (pure x : Build α) := ⟨fun n => n.le_refl⟩

instance (m : Build α) (f : α → Build β) [Grows m] [∀ x, Grows (f x)] : Grows (m >>= f) :=
  ⟨fun n => Netlist.le_trans (Grows.le (m := m) n) (Grows.le (m := f _) _)⟩

instance (node : Node) : Grows (emit node) := ⟨fun n => n.le_append node⟩

instance (a b : Wire) : Grows (nand a b) := inferInstanceAs (Grows (emit _))

instance : Grows flipFlop := inferInstanceAs (Grows (emit _))

instance : Grows forward := inferInstanceAs (Grows (emit _))

instance (name : String) (wires : Bus) : Grows (output name wires) :=
  ⟨fun n => n.le_declare ⟨name, .output, wires⟩⟩

instance (flop next : Wire) : Grows (latch flop next) :=
  ⟨fun n => n.le_connectFlipFlop flop next⟩

instance (wire source : Wire) : Grows (drive wire source) :=
  ⟨fun n => n.le_connectForward wire source⟩

instance (f : α → Build β) (items : List α) [∀ x, Grows (f x)] : Grows (items.mapM f) := by
  induction items with
  | nil => exact inferInstanceAs (Grows (pure []))
  | cons item rest ih =>
    rw [List.mapM_cons]
    infer_instance

instance (f : α → Build PUnit) (items : List α) [∀ x, Grows (f x)] : Grows (items.forM f) := by
  induction items with
  | nil => exact inferInstanceAs (Grows (pure ()))
  | cons item rest ih =>
    exact inferInstanceAs (Grows (f item >>= fun _ => rest.forM f))

end Grows

theorem run_zero_of_some {n : Netlist} {w : Wire} (h : n.zero? = some w) :
    zero.run n = (w, n) := by
  rw [zero, StateT.run_modifyGet, h]
  rfl

theorem run_zero_of_none {n : Netlist} (h : n.zero? = none) :
    zero.run n = (n.size, { n.append (.constant false) with zero? := some n.size }) := by
  rw [zero, StateT.run_modifyGet, h]
  rfl

theorem run_one_of_some {n : Netlist} {w : Wire} (h : n.one? = some w) :
    one.run n = (w, n) := by
  rw [one, StateT.run_modifyGet, h]
  rfl

theorem run_one_of_none {n : Netlist} (h : n.one? = none) :
    one.run n = (n.size, { n.append (.constant true) with one? := some n.size }) := by
  rw [one, StateT.run_modifyGet, h]
  rfl

theorem run_input (name : String) (width : Nat) (n : Netlist) :
    (input name width).run n = (List.range' n.size width,
      { n with nodes := n.nodes ++ Array.replicate width Node.input }.declare
        ⟨name, .input, List.range' n.size width⟩) := by
  rw [input, run_bind, run_mapM_emit, List.length_range]
  rfl

theorem run_forwardBus (width : Nat) (n : Netlist) :
    (forwardBus width).run n = (List.range' n.size width,
      { n with nodes := n.nodes ++ Array.replicate width (.forward none) }) := by
  change ((List.range width).mapM fun _ => emit (.forward none)).run n = _
  rw [run_mapM_emit, List.length_range]

instance : Grows zero where
  le := by
    intro n
    cases h : n.zero? with
    | some w =>
      rw [run_zero_of_some h]
      exact n.le_refl
    | none =>
      rw [run_zero_of_none h]
      obtain ⟨hnodes, -, hone, hports, hdefects⟩ := n.le_append (.constant false)
      have hfresh (w : Wire) (hw : n.zero? = some w) : some n.size = some w := by
        rw [h] at hw
        cases hw
      exact ⟨hnodes, hfresh, hone, hports, hdefects⟩

instance : Grows one where
  le := by
    intro n
    cases h : n.one? with
    | some w =>
      rw [run_one_of_some h]
      exact n.le_refl
    | none =>
      rw [run_one_of_none h]
      obtain ⟨hnodes, hzero, -, hports, hdefects⟩ := n.le_append (.constant true)
      have hfresh (w : Wire) (hw : n.one? = some w) : some n.size = some w := by
        rw [h] at hw
        cases hw
      exact ⟨hnodes, hzero, hfresh, hports, hdefects⟩

instance (name : String) (width : Nat) : Grows (input name width) where
  le := by
    intro n
    rw [run_input]
    exact Netlist.le_trans (n.le_append_nodes _) (Netlist.le_declare _ _)

end Build

namespace BuilderCall

theorem le_apply (n : Netlist) (call : BuilderCall) : n ≤ call.apply n := by
  cases call with
  | zero => exact Build.Grows.le (m := Build.zero) n
  | one => exact Build.Grows.le (m := Build.one) n
  | input name width => exact Build.Grows.le (m := Build.input name width) n
  | output name wires => exact n.le_declare _
  | nand a b => exact n.le_append _
  | flipFlop => exact n.le_append _
  | latch flop next => exact n.le_connectFlipFlop flop next
  | forward => exact n.le_append _
  | drive wire source => exact n.le_connectForward wire source

theorem apply_zero (n : Netlist) : zero.apply n = (Build.zero.run n).2 := rfl

theorem apply_one (n : Netlist) : one.apply n = (Build.one.run n).2 := rfl

theorem apply_input (n : Netlist) (name : String) (width : Nat) :
    (input name width).apply n =
      { n with nodes := n.nodes ++ Array.replicate width Node.input }.declare
        ⟨name, .input, List.range' n.size width⟩ :=
  congrArg Prod.snd (Build.run_input name width n)

end BuilderCall

namespace Netlist

/-- A call on existing wires keeps a netlist well formed, whether it is a wiring mistake or
not. There is one case for each kind of call. -/
theorem WellFormed.apply {n : Netlist} (h : n.WellFormed) (call : BuilderCall)
    (hwires : ∀ w ∈ call.wires, w < n.size) : (call.apply n).WellFormed := by
  cases call with
  | zero =>
    rw [BuilderCall.apply_zero]
    cases hzero : n.zero? with
    | some w =>
      rw [Build.run_zero_of_some hzero]
      exact h
    | none =>
      rw [Build.run_zero_of_none hzero]
      obtain ⟨hwired, -, hone⟩ := h.append (.constant false) trivial
      refine ⟨hwired, ?_, hone⟩
      rintro w ⟨⟩
      exact Array.getElem?_push_size
  | one =>
    rw [BuilderCall.apply_one]
    cases hone : n.one? with
    | some w =>
      rw [Build.run_one_of_some hone]
      exact h
    | none =>
      rw [Build.run_one_of_none hone]
      obtain ⟨hwired, hzero, -⟩ := h.append (.constant true) trivial
      refine ⟨hwired, hzero, ?_⟩
      rintro w ⟨⟩
      exact Array.getElem?_push_size
  | input name width =>
    rw [BuilderCall.apply_input]
    exact (h.append_replicate .input (fun _ _ => trivial) width).declare _
  | output name wires => exact h.declare _
  | nand a b => exact h.append _ ⟨hwires a (by simp [BuilderCall.wires]),
      hwires b (by simp [BuilderCall.wires])⟩
  | flipFlop => exact h.append _ trivial
  | latch flop next => exact h.connectFlipFlop (hwires next (by simp [BuilderCall.wires]))
  | forward => exact h.append _ trivial
  | drive wire source => exact h.connectForward (hwires source (by simp [BuilderCall.wires]))

/-- Calls on existing wires build well-formed netlists, from the empty one or from any other.
-/
theorem WellFormed.after {n : Netlist} (h : n.WellFormed) (calls : List BuilderCall)
    (hwires : n.WiresExist calls) : (n.after calls).WellFormed := by
  induction calls generalizing n with
  | nil => exact h
  | cons call rest ih => exact ih (h.apply call hwires.1) hwires.2

theorem le_after (n : Netlist) (calls : List BuilderCall) : n ≤ n.after calls := by
  induction calls generalizing n with
  | nil => exact n.le_refl
  | cons call rest ih => exact le_trans (call.le_apply n) (ih (call.apply n))

section Ports

variable {n : Netlist} {name : String}

theorem ports_connectFlipFlop (flop next : Wire) :
    (n.connectFlipFlop flop next).ports = n.ports := by
  unfold connectFlipFlop
  split <;> rfl

theorem ports_connectForward (wire source : Wire) :
    (n.connectForward wire source).ports = n.ports := by
  unfold connectForward
  split <;> rfl

/-- A declared name is that of a port from then on, whether it was new or not: a second
declaration of a name is recorded as a defect, and the first port stays. -/
theorem exists_port_declare_iff (port : Port) :
    (∃ other ∈ (n.declare port).ports, other.name = name) ↔
      (∃ other ∈ n.ports, other.name = name) ∨ port.name = name := by
  unfold declare
  split
  case isTrue htaken =>
    obtain ⟨other, hmem, hname⟩ := Array.any_eq_true'.mp htaken
    have hold : port.name = name → ∃ other ∈ n.ports, other.name = name :=
      fun heq => ⟨other, hmem, (eq_of_beq hname).trans heq⟩
    exact (or_iff_left_of_imp hold).symm
  case isFalse => simp [or_and_right, exists_or]

/-- After a call, the names of ports are those from before and the one that the call declares,
if it does. -/
theorem exists_port_apply_iff (call : BuilderCall) :
    (∃ port ∈ (call.apply n).ports, port.name = name) ↔
      (∃ port ∈ n.ports, port.name = name) ∨ call.portName? = some name := by
  cases call with
  | zero =>
    rw [BuilderCall.apply_zero]
    cases hzero : n.zero? with
    | some w => simp [Build.run_zero_of_some hzero, BuilderCall.portName?]
    | none => simp [Build.run_zero_of_none hzero, BuilderCall.portName?, append]
  | one =>
    rw [BuilderCall.apply_one]
    cases hone : n.one? with
    | some w => simp [Build.run_one_of_some hone, BuilderCall.portName?]
    | none => simp [Build.run_one_of_none hone, BuilderCall.portName?, append]
  | input other width =>
    rw [BuilderCall.apply_input, exists_port_declare_iff, BuilderCall.portName?, Option.some_inj]
  | output other wires =>
    rw [BuilderCall.portName?, Option.some_inj]
    exact exists_port_declare_iff _
  | latch flop next =>
    have hports : ((BuilderCall.latch flop next).apply n).ports = n.ports :=
      ports_connectFlipFlop flop next
    simp [hports, BuilderCall.portName?]
  | drive wire source =>
    have hports : ((BuilderCall.drive wire source).apply n).ports = n.ports :=
      ports_connectForward wire source
    simp [hports, BuilderCall.portName?]
  | _ => exact (or_iff_left (by simp [BuilderCall.portName?])).symm

/-- The ports that a call finds are those with the names of the calls before it. So a name is
new to the netlist exactly if no call has declared it yet. -/
theorem exists_port_after_iff (calls : List BuilderCall) :
    (∃ port ∈ (n.after calls).ports, port.name = name) ↔
      (∃ port ∈ n.ports, port.name = name) ∨ ∃ call ∈ calls, call.portName? = some name := by
  induction calls generalizing n with
  | nil => simp [after]
  | cons call rest ih =>
    change (∃ port ∈ ((call.apply n).after rest).ports, port.name = name) ↔ _
    simp only [ih, exists_port_apply_iff, or_assoc, List.mem_cons, exists_eq_or_imp]

end Ports

section Defects

variable {n : Netlist}

theorem defects_reject_ne (defect : CircuitError) : (n.reject defect).defects ≠ #[] :=
  Array.push_ne_empty

/-- A declaration records a defect exactly if there is a port of this name already. -/
theorem defects_declare_eq_empty_iff (port : Port) :
    (n.declare port).defects = #[] ↔
      n.defects = #[] ∧ ∀ other ∈ n.ports, other.name ≠ port.name := by
  unfold declare
  split
  case isTrue htaken =>
    obtain ⟨other, hmem, hname⟩ := Array.any_eq_true'.mp htaken
    have hsame := eq_of_beq hname
    exact iff_of_false (defects_reject_ne _) fun h => h.2 other hmem hsame
  case isFalse hfree =>
    rw [Bool.not_eq_true, Array.any_eq_false'] at hfree
    exact ⟨fun h => ⟨h, fun other hmem => by simpa using hfree other hmem⟩, fun h => h.1⟩

/-- Connecting a flip-flop records a defect exactly if the wire is none, or its slot is not
open any more. -/
theorem defects_connectFlipFlop_eq_empty_iff (flop next : Wire) :
    (n.connectFlipFlop flop next).defects = #[] ↔
      n.defects = #[] ∧ n.nodes[flop]? = some (.flipFlop none) := by
  unfold connectFlipFlop
  split
  case h_1 hopen => simp [hopen]
  case h_2 hfilled => simp [hfilled, defects_reject_ne]
  case h_3 hopen _ => exact iff_of_false (defects_reject_ne _) fun h => hopen h.2

theorem defects_connectForward_eq_empty_iff (wire source : Wire) :
    (n.connectForward wire source).defects = #[] ↔
      n.defects = #[] ∧ n.nodes[wire]? = some (.forward none) := by
  unfold connectForward
  split
  case h_1 hopen => simp [hopen]
  case h_2 hfilled => simp [hfilled, defects_reject_ne]
  case h_3 hopen _ => exact iff_of_false (defects_reject_ne _) fun h => hopen h.2

/-- A call records a defect exactly when it is a wiring mistake: a name that is declared
twice, a slot that is connected twice, or one that is no slot of this kind. -/
theorem defects_apply_eq_empty_iff (call : BuilderCall) :
    (call.apply n).defects = #[] ↔ n.defects = #[] ∧ call.Legal n := by
  cases call with
  | zero =>
    rw [BuilderCall.apply_zero]
    cases hzero : n.zero? with
    | some w => simp [Build.run_zero_of_some hzero, BuilderCall.Legal]
    | none => simp [Build.run_zero_of_none hzero, BuilderCall.Legal, append]
  | one =>
    rw [BuilderCall.apply_one]
    cases hone : n.one? with
    | some w => simp [Build.run_one_of_some hone, BuilderCall.Legal]
    | none => simp [Build.run_one_of_none hone, BuilderCall.Legal, append]
  | input name width =>
    rw [BuilderCall.apply_input, defects_declare_eq_empty_iff]
    rfl
  | output name wires => exact defects_declare_eq_empty_iff _
  | latch flop next => exact defects_connectFlipFlop_eq_empty_iff flop next
  | drive wire source => exact defects_connectForward_eq_empty_iff wire source
  | _ => exact (and_iff_left trivial).symm

/-- Calls record no defect exactly when none of them is a wiring mistake on the netlist that
it finds. -/
theorem defects_after_eq_empty_iff (calls : List BuilderCall) :
    (n.after calls).defects = #[] ↔ n.defects = #[] ∧ n.AllLegal calls := by
  induction calls generalizing n with
  | nil => exact (and_iff_left trivial).symm
  | cons call rest ih =>
    change ((call.apply n).after rest).defects = #[] ↔ _
    rw [ih, defects_apply_eq_empty_iff, and_assoc]
    rfl

end Defects

end Netlist

/-! The other actions of `Build` are sequences of calls, so they only add to a netlist. -/

namespace Build

theorem run_constant (width value : Nat) (n : Netlist) :
    ((constant width value).run n).2 = n.after [.zero, .one] := rfl

instance (width value : Nat) : Grows (constant width value) where
  le := fun n => by
    rw [run_constant]
    exact n.le_after _

theorem run_inputWire (name : String) (n : Netlist) :
    ((inputWire name).run n).2 = n.after [.input name 1] := rfl

instance (name : String) : Grows (inputWire name) where
  le := fun n => by
    rw [run_inputWire]
    exact n.le_after _

/-- A forward bus is as many forward wires as it is wide, one after the other. -/
theorem run_forwardBus_eq_after (width : Nat) (n : Netlist) :
    ((forwardBus width).run n).2 = n.after (List.replicate width .forward) := by
  rw [run_forwardBus]
  induction width with
  | zero =>
    rw [Array.replicate_zero, Array.append_empty]
    rfl
  | succ width ih =>
    have hsplit : n.after (List.replicate (width + 1) .forward) =
        (n.after (List.replicate width .forward)).append (.forward none) := by
      rw [List.replicate_succ']
      exact List.foldl_append
    rw [hsplit, ← ih, Array.replicate_succ, Array.append_push]
    rfl

instance (width : Nat) : Grows (forwardBus width) where
  le := fun n => by
    rw [run_forwardBus_eq_after]
    exact n.le_after _

/-- A bus is driven wire by wire, as far as both buses reach, so driving it is a list of calls
as well. -/
theorem run_driveBus (wires source : Bus) (n : Netlist) :
    ((driveBus wires source).run n).2 = n.after (List.zipWith BuilderCall.drive wires source) := by
  induction wires generalizing source n with
  | nil => rfl
  | cons wire wires ih =>
    cases source with
    | nil => rfl
    | cons first source => exact ih source (n.connectForward wire first)

instance (wires source : Bus) : Grows (driveBus wires source) where
  le := fun n => by
    rw [run_driveBus]
    exact n.le_after _

end Build

end NandComputer
