import NandComputer.Proofs.Netlist.Composition

/-!
What a chip adds to a netlist is no wiring mistake. Every slot that it opens it
connects again, its gates read older wires, and its forward wires end at
flip-flops, so nothing waits for itself within a tick.
-/

namespace NandComputer

/-- What an action on a netlist finds and leaves as it is: the ports, the slots
that are connected elsewhere, and the forward wires that may read anything. -/
structure Frame where
  ports : Array Port
  opened : Set Wire
  loose : Set Wire

/-- The frame with some more open slots. -/
def Frame.opening (frame : Frame) (wires : List Wire) : Frame :=
  { frame with opened := {w | w ∈ frame.opened ∨ w ∈ wires} }

/-- The frame with one more port. -/
def Frame.declaring (frame : Frame) (port : Port) : Frame :=
  { frame with ports := frame.ports.push port }

/-- The frame with other loose wires. -/
def Frame.loosening (frame : Frame) (loose : Set Wire) : Frame := { frame with loose }

/-- A netlist without mistakes and with no other open slots than those of the frame. -/
structure Netlist.Sound (n : Netlist) (frame : Frame) : Prop where
  wellFormed : n.WellFormed
  defects : n.defects = #[]
  ports : n.ports = frame.ports
  opened : ∀ w, n.OpenSlot w ↔ w ∈ frame.opened
  forward : ∀ w source : Wire, n.nodes[w]? = some (.forward (some source)) →
    w ∈ frame.loose ∨ n.IsFlipFlop source

/-- All wires of the bus exist. -/
def Netlist.Has (n : Netlist) (bus : Bus) : Prop := ∀ w ∈ bus, w < n.size

/-- Flip-flops that were added on the way from one netlist to another, in their order. -/
structure Netlist.Latched (n n' : Netlist) (bus : Bus) : Prop where
  sorted : bus.Pairwise (· < ·)
  fresh : ∀ w ∈ bus, n.size ≤ w ∧ w < n'.size
  flipFlops : ∀ w ∈ bus, n'.IsFlipFlop w

/-- Forward wires that wait for their sources. -/
structure Netlist.Awaiting (n : Netlist) (frame : Frame) (bus : Bus) : Prop where
  sound : n.Sound (frame.opening bus)
  nodup : bus.Nodup
  fresh : ∀ w ∈ bus, w ∉ frame.opened
  forward : ∀ w ∈ bus, n.nodes[w]? = some (.forward none)

/-- The netlist is sound and has the wire. -/
structure Frame.HasWire (frame : Frame) (w : Nat) (n : Netlist) : Prop where
  sound : n.Sound frame
  live : w < n.size

/-- The netlist is sound and has the bus. -/
structure Frame.HasBus (frame : Frame) (width : Nat) (bus : Bus) (n : Netlist) : Prop where
  sound : n.Sound frame
  live : n.Has bus
  length : bus.length = width

/-- The netlist is sound and has the flip-flops, which are newer than the other netlist. -/
structure Frame.HasRegister (frame : Frame) (base : Netlist) (width : Nat) (bus : Bus)
    (n : Netlist) : Prop where
  sound : n.Sound frame
  latched : base.Latched n bus
  length : bus.length = width

/-- The netlist is sound but for new forward wires that wait for their sources. -/
structure Frame.HasForwards (frame : Frame) (base : Netlist) (width : Nat) (bus : Bus)
    (n : Netlist) : Prop where
  awaiting : n.Awaiting frame bus
  live : n.Has bus
  fresh : ∀ w ∈ bus, base.size ≤ w
  length : bus.length = width

/-- On the netlist, the action leads to a result and a netlist with the property,
which has at most so many nodes. -/
structure Build.Reaches {α : Type} (n : Netlist) (m : Build α) (bound : Nat)
    (P : α → Netlist → Prop) : Prop where
  size : (m.run n).2.size ≤ bound
  result : P (m.run n).1 (m.run n).2

theorem Frame.HasBus.cons {frame : Frame} {width : Nat} {bus : Bus} {n : Netlist}
    (h : frame.HasBus width bus n) {w : Nat} (hw : w < n.size) :
    frame.HasBus (width + 1) (w :: bus) n :=
  ⟨h.sound, List.forall_mem_cons.mpr ⟨hw, h.live⟩, congrArg Nat.succ h.length⟩

namespace Frame

variable (frame : Frame)

theorem ports_declaring (port : Port) : (frame.declaring port).ports = frame.ports.push port := rfl

theorem ports_loosening (loose : Set Wire) : (frame.loosening loose).ports = frame.ports := rfl

theorem opening_nil : frame.opening [] = frame := by
  simp [opening]

theorem opening_cons (w : Wire) (rest : List Wire) :
    frame.opening (w :: rest) = (frame.opening rest).opening [w] := by
  simp [opening, or_assoc, or_comm]

theorem opening_comm (first second : List Wire) :
    (frame.opening first).opening second = (frame.opening second).opening first := by
  simp [opening, or_left_comm, or_comm]

theorem opening_append (first second : List Wire) :
    frame.opening (first ++ second) = (frame.opening first).opening second := by
  simp [opening, or_assoc]

end Frame

instance : Preorder Netlist where
  le_refl := Netlist.le_refl
  le_trans _ _ _ := Netlist.le_trans

namespace Netlist

variable {n n' : Netlist} {frame : Frame} {bus : Bus}

theorem IsFlipFlop.of_le {w : Wire} (h : n.IsFlipFlop w) (hle : n ≤ n') : n'.IsFlipFlop w := by
  obtain ⟨next?, hnode⟩ := h
  obtain ⟨later, hlater, hfills⟩ := hle.nodes w _ hnode
  cases hfills with
  | same => exact ⟨_, hlater⟩
  | flipFlop next => exact ⟨_, hlater⟩

/-- A forward wire stays one when the netlist grows, whether it has been connected in between
or not. -/
theorem forward_of_le (hle : n ≤ n') {w : Nat} {source? : Option Wire}
    (h : n.nodes[w]? = some (.forward source?)) :
    ∃ later?, n'.nodes[w]? = some (.forward later?) := by
  obtain ⟨later, hlater, hfills⟩ := hle.nodes w _ h
  cases hfills with
  | same => exact ⟨_, hlater⟩
  | forward source => exact ⟨_, hlater⟩

theorem IsInput.of_le {w : Wire} (h : n.IsInput w) (hle : n ≤ n') : n'.IsInput w :=
  getElem?_of_le hle h rfl

theorem IsInput.lt {w : Nat} (h : n.IsInput w) : w < n.size :=
  (Array.getElem?_eq_some_iff.mp h).1

theorem OpenSlot.lt {w : Wire} (h : n.OpenSlot w) : w < n.size := by
  rcases h with hnode | hnode <;> exact (Array.getElem?_eq_some_iff.mp hnode).1

theorem Has.mono (h : n.Has bus) (hle : n.size ≤ n'.size) : n'.Has bus :=
  fun w hw => Nat.lt_of_lt_of_le (h w hw) hle

theorem Has.append {more : Bus} (h : n.Has bus) (hmore : n.Has more) : n.Has (bus ++ more) := by
  intro w hw
  rcases List.mem_append.mp hw with hmem | hmem
  · exact h w hmem
  · exact hmore w hmem

theorem Has.sublist {part : Bus} (h : n.Has bus) (hpart : part ⊆ bus) : n.Has part :=
  fun w hw => h w (hpart hw)

/-- Some wires of a bus that exists exist. -/
theorem Has.slice (h : n.Has bus) (start len : Nat) : n.Has (bus.slice start len) :=
  fun w hw => h w (List.mem_of_mem_drop (List.mem_of_mem_take hw))

theorem Has.bit (h : n.Has bus) {i : Nat} (hi : i < bus.length) : (bus.bit i : Nat) < n.size := by
  have hwire : bus.bit i = bus[i] := by
    rw [Bus.bit, List.getD_eq_getElem?_getD, List.getElem?_eq_getElem hi, Option.getD_some]
  rw [hwire]
  exact h _ (List.getElem_mem hi)

namespace Latched

theorem has (h : n.Latched n' bus) : n'.Has bus :=
  fun w hw => (h.fresh w hw).2

theorem mono {before after : Netlist} (h : n.Latched n' bus) (hbefore : before.size ≤ n.size)
    (hafter : n' ≤ after) : before.Latched after bus where
  sorted := h.sorted
  fresh := by
    intro w hw
    obtain ⟨hlow, hhigh⟩ := h.fresh w hw
    exact ⟨Nat.le_trans hbefore hlow, Nat.lt_of_lt_of_le hhigh (size_le hafter)⟩
  flipFlops := fun w hw => (h.flipFlops w hw).of_le hafter

theorem nil : n.Latched n' [] :=
  ⟨.nil, by simp, by simp⟩

/-- What is added later comes behind, so the flip-flops of both parts are in order. -/
theorem append {last : Netlist} {more : Bus} (h : n.Latched n' bus) (hmore : n'.Latched last more)
    (hbefore : n.size ≤ n'.size) (hafter : n' ≤ last) : n.Latched last (bus ++ more) := by
  have hfirst := h.mono (Nat.le_refl _) hafter
  have hsecond := hmore.mono hbefore (le_refl last)
  refine ⟨List.pairwise_append.mpr ⟨h.sorted, hmore.sorted, ?_⟩, ?_, ?_⟩
  · intro w hw v hv
    exact Nat.lt_of_lt_of_le (h.fresh w hw).2 (hmore.fresh v hv).1
  · simp only [List.mem_append]
    rintro w (hw | hw)
    · exact hfirst.fresh w hw
    · exact hsecond.fresh w hw
  · simp only [List.mem_append]
    rintro w (hw | hw)
    · exact hfirst.flipFlops w hw
    · exact hsecond.flipFlops w hw

end Latched

/-- A netlist without mistakes is sound as it stands, whatever is open in it. -/
theorem WellFormed.sound (h : n.WellFormed) (hdefects : n.defects = #[]) :
    n.Sound ⟨n.ports, {w | n.OpenSlot w}, Set.univ⟩ :=
  ⟨h, hdefects, rfl, fun _ => Iff.rfl, fun _ _ _ => .inl trivial⟩

namespace Sound

theorem openSlot_append (node : Node) (w : Nat) : (n.append node).OpenSlot w ↔
    n.OpenSlot w ∨ w = n.size ∧ (node = .forward none ∨ node = .flipFlop none) := by
  rw [OpenSlot, OpenSlot, Netlist.append, Array.getElem?_push]
  by_cases hw : w = n.nodes.size
  · have hnone : n.nodes[w]? = none := Array.getElem?_eq_none (Nat.le_of_eq hw.symm)
    rw [if_pos hw, hnone]
    simp [hw, size]
  · rw [if_neg hw]
    simp [size, hw]

/-- A node with an open slot makes a new one, and any other node none. Its operands are older,
so nothing waits for itself by it. -/
theorem append (h : n.Sound frame) {node : Node} (hwired : node.WiredAt n.size n.size)
    (hforward : ∀ source, node ≠ .forward (some source)) {after : Frame}
    (hports : after.ports = frame.ports) (hloose : after.loose = frame.loose)
    (hopened : ∀ w, w ∈ after.opened ↔
      w ∈ frame.opened ∨ w = n.size ∧ (node = .forward none ∨ node = .flipFlop none)) :
    (n.append node).Sound after where
  wellFormed := h.wellFormed.append node hwired
  defects := h.defects
  ports := h.ports.trans hports.symm
  opened := by
    intro w
    rw [openSlot_append, hopened, h.opened]
  forward := by
    intro w source hnode
    rw [Netlist.append, Array.getElem?_push] at hnode
    split at hnode
    case isTrue =>
      cases hnode
      exact absurd rfl (hforward source)
    case isFalse =>
      rw [hloose]
      exact (h.forward w source hnode).imp_right (·.of_le (n.le_append node))

theorem append_closed (h : n.Sound frame) (node : Node) (hwired : node.WiredAt n.size n.size)
    (hforward : ∀ source?, node ≠ .forward source?) (hflop : node ≠ .flipFlop none) :
    (n.append node).Sound frame := by
  apply h.append hwired (fun source => hforward (some source)) rfl rfl
  simp [hforward, hflop]

theorem append_open (h : n.Sound frame) (node : Node)
    (hnode : node = .forward none ∨ node = .flipFlop none) :
    (n.append node).Sound (frame.opening [n.size]) := by
  have hwired : node.WiredAt n.size n.size := by
    rcases hnode with rfl | rfl <;> trivial
  have hforward (source : Wire) : node ≠ .forward (some source) := by
    rcases hnode with rfl | rfl <;> simp
  refine h.append hwired hforward rfl rfl ?_
  simp [Frame.opening, hnode]

/-- Connecting an open slot takes it out of the frame. A forward wire needs a source that ends
somewhere, or has to be a loose one. -/
theorem connect {w : Nat} {node later : Node} (h : n.Sound (frame.opening [w]))
    (hfresh : w ∉ frame.opened) (hnode : n.nodes[w]? = some node) (hfills : node.Fills later)
    (hwired : later.WiredAt n.size w) (hconstant : ∀ value, node ≠ .constant value)
    (hclosed : later ≠ .forward none ∧ later ≠ .flipFlop none)
    (hforward : ∀ source, later = .forward (some source) →
      w ∈ frame.loose ∨ n.IsFlipFlop source) :
    { n with nodes := n.nodes.setIfInBounds w later }.Sound frame := by
  have hw : w < n.nodes.size := (Array.getElem?_eq_some_iff.mp hnode).1
  have hself : (n.nodes.setIfInBounds w later)[w]? = some later :=
    Array.getElem?_setIfInBounds_self_of_lt hw
  have hle := n.le_connect w node later hnode hfills
  refine ⟨h.wellFormed.connect hnode hconstant hwired, h.defects, h.ports, ?_, ?_⟩
  · intro v
    by_cases heq : w = v
    · subst heq
      rw [OpenSlot, hself]
      simp [hclosed, hfresh]
    · have hother : (n.nodes.setIfInBounds w later)[v]? = n.nodes[v]? :=
        Array.getElem?_setIfInBounds_ne heq
      have hopened := h.opened v
      rw [OpenSlot] at hopened ⊢
      rw [hother, hopened]
      simp [Frame.opening, Ne.symm heq]
  · intro v source hv
    by_cases heq : w = v
    · subst heq
      rw [hself, Option.some.injEq] at hv
      exact (hforward source hv).imp_right (·.of_le hle)
    · have hother : (n.nodes.setIfInBounds w later)[v]? = n.nodes[v]? :=
        Array.getElem?_setIfInBounds_ne heq
      rw [hother] at hv
      exact (h.forward v source hv).imp_right (·.of_le hle)

theorem connectFlipFlop {flop next : Nat} (h : n.Sound (frame.opening [flop]))
    (hfresh : flop ∉ frame.opened) (hnode : n.nodes[flop]? = some (.flipFlop none))
    (hnext : next < n.size) : (n.connectFlipFlop flop next).Sound frame := by
  unfold Netlist.connectFlipFlop
  rw [hnode]
  exact h.connect hfresh hnode (.flipFlop next) hnext (by simp) (by simp) (by simp)

theorem connectForward {wire source : Nat} (h : n.Sound (frame.opening [wire]))
    (hfresh : wire ∉ frame.opened) (hnode : n.nodes[wire]? = some (.forward none))
    (hsource : source < n.size) (hfeed : wire ∈ frame.loose ∨ n.IsFlipFlop source) :
    (n.connectForward wire source).Sound frame := by
  unfold Netlist.connectForward
  rw [hnode]
  apply h.connect hfresh hnode (.forward source) hsource (by simp) (by simp)
  rintro _ ⟨⟩
  exact hfeed

/-- A port under a new name is no mistake, and leaves nodes and slots as they are. -/
theorem declare (h : n.Sound frame) {port : Port}
    (hname : ∀ other ∈ frame.ports, other.name ≠ port.name) :
    (n.declare port).Sound (frame.declaring port) := by
  have hfree : n.ports.any (·.name == port.name) = false := by
    rw [h.ports, Array.any_eq_false']
    intro other member
    simpa using hname other member
  rw [Netlist.declare, hfree]
  exact ⟨⟨h.wellFormed.wired, h.wellFormed.zero, h.wellFormed.one⟩, h.defects,
    congrArg (·.push port) h.ports, h.opened, h.forward⟩

/-- More wires may be loose, as this only promises less about them. -/
theorem loosen (h : n.Sound frame) {loose : Set Wire} (hloose : frame.loose ⊆ loose) :
    n.Sound (frame.loosening loose) where
  wellFormed := h.wellFormed
  defects := h.defects
  ports := h.ports
  opened := h.opened
  forward := fun w source hnode => (h.forward w source hnode).imp_left fun hw => hloose hw

/-- If loose wires end somewhere, so do all wires. The induction is over the nodes: gates read
older wires, and a forward wire that is not loose reads a flip-flop. -/
theorem steady (h : n.Sound frame) (hloose : ∀ w source : Wire, w ∈ frame.loose →
    n.nodes[w]? = some (.forward (some source)) → n.Steady source) (w : Nat) : n.Steady w := by
  induction w using Nat.strongRecOn with
  | ind w ih =>
    cases hnode : n.nodes[w]? with
    | none =>
      constructor
      rintro v ⟨node, hget, -⟩
      rw [hnode] at hget
      cases hget
    | some node =>
      apply steady_of_operands hnode
      cases node with
      -- a gate reads older wires, which is where the induction is used
      | nand a b =>
        obtain ⟨ha, hb⟩ := h.wellFormed.wired w _ hnode
        intro v hv
        have hoperand : v = a ∨ v = b := by simpa [Node.operands] using hv
        rcases hoperand with rfl | rfl
        · exact ih v ha
        · exact ih v hb
      | forward source? =>
        cases source? with
        | none => simp [Node.operands]
        | some source =>
          intro v hv
          obtain rfl : v = source := by simpa [Node.operands] using hv
          rcases h.forward w v hnode with hexempt | hflop
          · exact hloose w v hexempt hnode
          · exact steady_of_flipFlop hflop
      | _ => simp [Node.operands]

end Sound

/-- A wire that ends somewhere does not wait for itself within a tick. -/
theorem Steady.not_onLoop {w : Wire} (h : n.Steady w) : ¬ OnLoop n.nodes w := by
  intro hloop
  have hself : Relation.TransGen (fun v reader => ReadsWire n.nodes reader v) w w :=
    Relation.transGen_swap.mp hloop
  have hacc := Acc.transGen h
  clear h hloop
  induction hacc with
  | intro w _ ih => exact ih w hself hself

section Closed

variable (h : n.Sound frame) (hclosed : frame.opened = ∅)

include h hclosed

theorem Sound.not_openSlot (w : Wire) : ¬ n.OpenSlot w := by
  intro hopen
  have hmem := (h.opened w).mp hopen
  rw [hclosed] at hmem
  exact hmem

variable (hloose : ∀ w source : Wire, w ∈ frame.loose →
  n.nodes[w]? = some (.forward (some source)) → n.Steady source)

include hloose

/-- A sound netlist with everything connected compiles if its loose wires end somewhere. This
is how the chips are shown to compile without running the compiler. -/
theorem Sound.exists_compile (hsize : n.size < 2 ^ 31) : ∃ circuit, n.compile = .ok circuit := by
  have hsteady := h.steady hloose
  rw [h.wellFormed.compile_isOk_iff hsize]
  exact ⟨h.defects, h.not_openSlot hclosed, fun w => (hsteady w).not_onLoop⟩

theorem Sound.accepted (hsize : n.size ≤ 2 ^ 30) : ∃ circuit, n.Accepted circuit := by
  obtain ⟨circuit, hok⟩ := h.exists_compile hclosed hloose (by omega)
  refine ⟨circuit, h.wellFormed.accepted ?_ hok⟩
  rw [capacity, UInt32.size]
  omega

end Closed

theorem sound_empty : Netlist.empty.Sound ⟨#[], ∅, ∅⟩ := by
  refine ⟨wellFormed_empty, rfl, rfl, ?_, ?_⟩
  · simp [OpenSlot, Netlist.empty]
  · simp [Netlist.empty]

theorem size_declare (n : Netlist) (port : Port) : (n.declare port).size = n.size := by
  unfold declare
  split <;> rfl

theorem size_connectFlipFlop (n : Netlist) (flop next : Wire) :
    (n.connectFlipFlop flop next).size = n.size := by
  unfold connectFlipFlop
  split
  · exact Array.size_setIfInBounds
  · rfl
  · rfl

theorem size_connectForward (n : Netlist) (wire source : Wire) :
    (n.connectForward wire source).size = n.size := by
  unfold connectForward
  split
  · exact Array.size_setIfInBounds
  · rfl
  · rfl

/-- Forward wires are not yet connected as long as their slots are open. -/
theorem Awaiting.forward_later (h : n.Awaiting frame bus) (hle : n ≤ n')
    (hopen : ∀ w ∈ bus, n'.OpenSlot w) : ∀ w ∈ bus, n'.nodes[w]? = some (.forward none) := by
  intro w hw
  obtain ⟨node, hnode, hfills⟩ := hle.nodes w _ (h.forward w hw)
  have hslot := hopen w hw
  cases hfills with
  | same => exact hnode
  | forward source => simp [OpenSlot, hnode] at hslot

/-- Forward wires wait as long as the netlist is sound with their slots open. What is built in
between does not touch them. -/
theorem Awaiting.later (h : n.Awaiting frame bus) (hle : n ≤ n')
    (hsound : n'.Sound (frame.opening bus)) : n'.Awaiting frame bus where
  sound := hsound
  nodup := h.nodup
  fresh := h.fresh
  forward := h.forward_later hle fun w hw => (hsound.opened w).mpr (.inr hw)

theorem Awaiting.loosen (h : n.Awaiting frame bus) (loose : Set Wire)
    (hloose : frame.loose ⊆ loose) : n.Awaiting (frame.loosening loose) bus :=
  ⟨h.sound.loosen hloose, h.nodup, h.fresh, h.forward⟩

end Netlist

namespace Build

section Rules

variable {α β : Type} {n : Netlist} {bound : Nat}

theorem reaches_pure {P : α → Netlist → Prop} {x : α} (h : P x n) (hbound : n.size ≤ bound) :
    Reaches n (pure x) bound P :=
  ⟨hbound, h⟩

variable {m : Build α} {P : α → Netlist → Prop}

theorem Reaches.imp {Q : α → Netlist → Prop} [Grows m] (hm : Reaches n m bound P)
    (h : ∀ x n', n ≤ n' → P x n' → Q x n') : Reaches n m bound Q :=
  ⟨hm.size, h _ _ (Grows.le n) hm.result⟩

theorem Reaches.weaken {larger : Nat} (hm : Reaches n m bound P) (hbound : bound ≤ larger) :
    Reaches n m larger P :=
  ⟨Nat.le_trans hm.size hbound, hm.result⟩

/-- What an action ensures in finished netlists, it ensures in those that are built on from
here, so soundness and behaviour can be told together. -/
theorem Reaches.and_ensures {Q : Netlist → α → Prop} (hm : Reaches n m bound P)
    (hQ : ∀ N, N.Finished → Ensures N m (Q N)) :
    Reaches n m bound fun x n' => P x n' ∧ ∀ N, N.Finished → n' ≤ N → Q N x :=
  ⟨hm.size, hm.result, fun N hN hle => (hQ N hN).result n hle⟩

/-- The second action starts on the netlist that the first one leaves, and the bounds of their
sizes add up. -/
theorem Reaches.bind {f : α → Build β} {Q : β → Netlist → Prop} {last : Nat} [Grows m]
    (hm : Reaches n m bound P)
    (hf : ∀ x n', n ≤ n' → n.size ≤ n'.size ∧ n'.size ≤ bound → P x n' →
      Reaches n' (f x) last Q) : Reaches n (m >>= f) last Q := by
  have hle := Grows.le (m := m) n
  obtain ⟨hsize, hresult⟩ := hf _ _ hle ⟨Netlist.size_le hle, hm.size⟩ hm.result
  exact ⟨hsize, hresult⟩

/-- An action for every item: what holds of the results so far is kept by each action, and
each adds nodes up to the same bound. -/
theorem Reaches.mapM {f : α → Build β} {J : List β → Netlist → Prop} [∀ x, Grows (f x)]
    (items : List α) (cost : Nat) (hstart : J [] n)
    (hstep : ∀ x ∈ items, ∀ done n', J done n' →
      Reaches n' (f x) (n'.size + cost) fun y n'' => J (done ++ [y]) n'') :
    Reaches n (items.mapM f) (n.size + items.length * cost) fun results n' =>
      results.length = items.length ∧ J results n' := by
  suffices hall : ∀ done n', J done n' →
      Reaches n' (items.mapM f) (n'.size + items.length * cost) fun results n'' =>
        results.length = items.length ∧ J (done ++ results) n'' from hall [] n hstart
  clear hstart
  induction items with
  | nil =>
    intro done n' hdone
    have hlast : J (done ++ []) n' := by
      rw [List.append_nil]
      exact hdone
    exact reaches_pure ⟨rfl, hlast⟩ (Nat.le_add_right _ _)
  | cons item rest ih =>
    intro done n' hdone
    have hrest := ih fun x member => hstep x (by simp [member])
    rw [List.mapM_cons, List.length_cons, Nat.add_one_mul]
    apply (hstep item (by simp) done n' hdone).bind
    intro first n₁ _ hsize hfirst
    apply (hrest (done ++ [first]) n₁ hfirst).bind
    intro others n₂ _ hlast hothers
    apply reaches_pure _ (by omega)
    rw [List.append_assoc] at hothers
    exact ⟨congrArg Nat.succ hothers.1, hothers.2⟩

end Rules

section Primitives

variable {n : Netlist} {frame : Frame} (h : n.Sound frame)

include h

theorem reaches_nand {a b : Nat} (ha : a < n.size) (hb : b < n.size) :
    Reaches n (nand a b) (n.size + 1) frame.HasWire := by
  constructor
  · exact Nat.le_of_eq (Array.size_push _)
  · have hsound := h.append_closed (.nand a b) ⟨ha, hb⟩ (by simp) (by simp)
    have hlive : n.size < (n.append (.nand a b)).size := by
      simp [Netlist.append, Netlist.size]
    exact ⟨hsound, hlive⟩

/-- The constant is there already or is appended now. In both cases no slot is open by it. -/
theorem reaches_zero :
    Reaches n zero (n.size + 1) frame.HasWire := by
  cases hzero : n.zero? with
  | some w =>
    constructor
    · rw [run_zero_of_some hzero]
      exact Nat.le_succ _
    · rw [run_zero_of_some hzero]
      exact ⟨h, (Array.getElem?_eq_some_iff.mp (h.wellFormed.zero w hzero)).1⟩
  | none =>
    have hwell := h.wellFormed.apply .zero (by simp [BuilderCall.wires])
    rw [BuilderCall.apply_zero, run_zero_of_none hzero] at hwell
    obtain ⟨-, hdefects, hports, hopened, hforward⟩ :=
      h.append_closed (.constant false) trivial (by simp) (by simp)
    constructor
    · rw [run_zero_of_none hzero]
      exact Nat.le_of_eq (Array.size_push _)
    · rw [run_zero_of_none hzero]
      exact ⟨⟨hwell, hdefects, hports, hopened, hforward⟩, by simp [Netlist.append, Netlist.size]⟩

theorem reaches_one :
    Reaches n one (n.size + 1) frame.HasWire := by
  cases hone : n.one? with
  | some w =>
    constructor
    · rw [run_one_of_some hone]
      exact Nat.le_succ _
    · rw [run_one_of_some hone]
      exact ⟨h, (Array.getElem?_eq_some_iff.mp (h.wellFormed.one w hone)).1⟩
  | none =>
    have hwell := h.wellFormed.apply .one (by simp [BuilderCall.wires])
    rw [BuilderCall.apply_one, run_one_of_none hone] at hwell
    obtain ⟨-, hdefects, hports, hopened, hforward⟩ :=
      h.append_closed (.constant true) trivial (by simp) (by simp)
    constructor
    · rw [run_one_of_none hone]
      exact Nat.le_of_eq (Array.size_push _)
    · rw [run_one_of_none hone]
      exact ⟨⟨hwell, hdefects, hports, hopened, hforward⟩, by simp [Netlist.append, Netlist.size]⟩

theorem reaches_constant (width value : Nat) :
    Reaches n (constant width value) (n.size + 2) (frame.HasBus width) := by
  apply (reaches_zero h).bind
  rintro low n₁ _ hsize₁ ⟨h₁, hlow⟩
  apply (reaches_one h₁).bind
  rintro high n₂ _ hsize₂ ⟨h₂, hhigh⟩
  apply reaches_pure _ (by omega)
  refine ⟨h₂, ?_, by simp⟩
  intro w hw
  obtain ⟨i, -, rfl⟩ := List.mem_map.mp hw
  cases value.testBit i with
  | true => exact hhigh
  | false => exact Nat.lt_of_lt_of_le hlow hsize₂.1

/-- A flip-flop whose next value is computed from its output. Its slot is open while this is
done, and connected in the end. -/
theorem reaches_flipFlop {f : Wire → Build Wire} {cost : Nat} [∀ w, Grows (f w)]
    (hf : ∀ (w : Nat) n', n.size ≤ n'.size → w < n'.size → n'.Sound (frame.opening [w]) →
      Reaches n' (f w) (n'.size + cost) (frame.opening [w]).HasWire) :
    Reaches n (do let w ← flipFlop; let next ← f w; latch w next; return w) (n.size + 1 + cost)
      fun w n' => n'.Sound frame ∧ n.Latched n' [w] := by
  have hopen : (n.append (.flipFlop none)).Sound (frame.opening [n.size]) :=
    h.append_open (.flipFlop none) (.inr rfl)
  have hnode : (n.append (.flipFlop none)).nodes[n.size]? = some (.flipFlop none) :=
    Array.getElem?_push_size
  have hsize : (n.append (.flipFlop none)).size = n.size + 1 := Array.size_push _
  have hflip : Reaches n flipFlop (n.size + 1) fun w n' =>
      w = n.size ∧ n' = n.append (.flipFlop none) :=
    ⟨Nat.le_of_eq hsize, rfl, rfl⟩
  apply hflip.bind
  rintro w n₁ _ - ⟨rfl, rfl⟩
  apply (hf n.size _ (by omega) (by omega) hopen).bind
  rintro next n₂ hle₂ hsize₂ ⟨h₂, hnext⟩
  have hfresh : n.size ∉ frame.opened := by
    intro hmem
    have hslot := (h.opened n.size).mpr hmem
    exact Nat.lt_irrefl _ hslot.lt
  have hwaits : n₂.nodes[n.size]? = some (.flipFlop none) := by
    obtain ⟨node, hget, hfills⟩ := hle₂.nodes _ _ hnode
    have hslot : n₂.OpenSlot n.size := (h₂.opened n.size).mpr (.inr (by simp))
    cases hfills with
    | same => exact hget
    | flipFlop next => simp [Netlist.OpenSlot, hget] at hslot
  have hlast := h₂.connectFlipFlop hfresh hwaits hnext
  have hlatch : Reaches n₂ (latch n.size next) n₂.size fun _ n' =>
      n'.Sound frame ∧ n'.nodes[n.size]? = some (.flipFlop (some next)) :=
    ⟨Nat.le_of_eq (Netlist.size_connectFlipFlop n₂ _ _), hlast,
      Netlist.getElem?_connectFlipFlop hlast.defects⟩
  apply hlatch.bind
  rintro _ n₃ _ hsize₃ ⟨h₃, hflop⟩
  apply reaches_pure _ (by omega)
  have hbounds : n.size < n₃.size := by omega
  exact ⟨h₃, List.pairwise_singleton _ _, by simpa using hbounds, by simpa using ⟨_, hflop⟩⟩

/-- New forward wires wait for their sources. Until these are connected, the frame has their
slots open. -/
theorem reaches_forwardBus (width : Nat) :
    Reaches n (forwardBus width) (n.size + width) (frame.HasForwards n width) := by
  have hstep := Reaches.mapM (n := n) (f := fun _ => forward)
    (J := fun bus n' => n'.Awaiting frame bus ∧ n'.Has bus) (List.range width) 1 ?_ ?_
  · rw [List.length_range, Nat.mul_one] at hstep
    refine ⟨hstep.size, hstep.result.2.1, hstep.result.2.2, ?_, hstep.result.1⟩
    intro w hw
    rw [run_forwardBus] at hw
    exact (List.mem_range'_1.mp hw).1
  · refine ⟨⟨?_, .nil, by simp, by simp⟩, by simp [Netlist.Has]⟩
    rw [Frame.opening_nil]
    exact h
  · rintro _ - bus n' ⟨hawaiting, hlive⟩
    have hsize : (n'.append (.forward none)).size = n'.size + 1 := Array.size_push _
    have hopen := hawaiting.sound.append_open (.forward none) (.inl rfl)
    have hnew : n'.size ∉ bus := fun hmem => Nat.lt_irrefl _ (hlive _ hmem)
    have hfresh : n'.size ∉ frame.opened := by
      intro hmem
      have hslot := (hawaiting.sound.opened n'.size).mpr (.inl hmem)
      exact Nat.lt_irrefl _ hslot.lt
    -- one more forward wire: its slot is the only new one
    have hforward : Reaches n' forward (n'.size + 1) fun w n'' =>
        w = n'.size ∧ n'' = n'.append (.forward none) :=
      ⟨Nat.le_of_eq hsize, rfl, rfl⟩
    apply hforward.imp
    rintro _ _ - ⟨rfl, rfl⟩
    refine ⟨⟨?_, ?_, ?_, ?_⟩, ?_⟩
    · rw [Frame.opening_append]
      exact hopen
    · exact List.nodup_append.mpr ⟨hawaiting.nodup, List.nodup_singleton _, by
        intro v hv w hw
        rw [List.mem_singleton.mp hw]
        rintro rfl
        exact hnew hv⟩
    · simp only [List.mem_append, List.mem_singleton]
      rintro w (hw | rfl)
      · exact hawaiting.fresh w hw
      · exact hfresh
    · simp only [List.mem_append, List.mem_singleton]
      rintro w (hw | rfl)
      · have hold := hlive w hw
        exact (Array.getElem?_push_lt hold).trans
          ((Array.getElem?_eq_getElem hold).symm.trans (hawaiting.forward w hw))
      · exact Array.getElem?_push_size
    · apply (hlive.mono (by rw [hsize]; omega)).append
      intro w hw
      rw [List.mem_singleton.mp hw, hsize]
      exact Nat.lt_succ_self _

/-- New inputs under a new name are the next wires, and there is a port with the name. -/
theorem reaches_input {name : String} (hname : ∀ port ∈ frame.ports, port.name ≠ name)
    (width : Nat) : Reaches n (input name width) (n.size + width) fun bus n' =>
      n'.Sound (frame.declaring ⟨name, .input, bus⟩) ∧
        bus = List.range' n.size width ∧ ∀ w ∈ bus, n'.IsInput w := by
  have hemit := Reaches.mapM (n := n) (f := fun _ => emit .input)
    (J := fun bus n' => n'.Sound frame ∧ ∀ w ∈ bus, n'.IsInput w) (List.range width) 1
    ⟨h, by simp⟩ ?_
  · have hwires : ((List.range width).mapM fun _ => emit .input).run n =
        (List.range' n.size width,
          { n with nodes := n.nodes ++ Array.replicate width .input }) := by
      rw [run_mapM_emit, List.length_range]
    obtain ⟨hsize, -, hsound, hinputs⟩ := hemit
    rw [hwires] at hsize hsound hinputs
    rw [List.length_range, Nat.mul_one] at hsize
    let port : Port := ⟨name, .input, List.range' n.size width⟩
    have hdeclared := hsound.declare (show ∀ other ∈ frame.ports, other.name ≠ port.name from hname)
    have hle := Netlist.le_declare { n with nodes := n.nodes ++ Array.replicate width .input } port
    constructor
    · rw [run_input, Netlist.size_declare]
      exact hsize
    · rw [run_input]
      exact ⟨hdeclared, rfl, fun w hw => (hinputs w hw).of_le hle⟩
  · rintro _ - bus n' ⟨h', hbus⟩
    have happend := h'.append_closed .input trivial (by simp) (by simp)
    have hle := n'.le_append .input
    refine ⟨Nat.le_of_eq (Array.size_push _), happend, ?_⟩
    simp only [List.mem_append, List.mem_singleton]
    rintro w (hw | rfl)
    · exact (hbus w hw).of_le hle
    · exact Array.getElem?_push_size

theorem reaches_inputWire {name : String} (hname : ∀ port ∈ frame.ports, port.name ≠ name) :
    Reaches n (inputWire name) (n.size + 1) fun w n' =>
      n'.Sound (frame.declaring ⟨name, .input, [w]⟩) ∧
        w = n.size ∧ n'.IsInput w := by
  apply (reaches_input h hname 1).bind
  rintro bus n₁ - hsize₁ ⟨h₁, rfl, hinput⟩
  exact reaches_pure ⟨h₁, rfl, hinput n.size (by simp)⟩ hsize₁.2

/-- A new name for some wires adds a port and no node. -/
theorem reaches_output {name : String} (hname : ∀ port ∈ frame.ports, port.name ≠ name)
    (wires : Bus) : Reaches n (output name wires) n.size fun _ n' =>
      n'.Sound (frame.declaring ⟨name, .output, wires⟩) :=
  ⟨Nat.le_of_eq (Netlist.size_declare n _), h.declare hname⟩

end Primitives

/-- Driving the forward wires that wait closes the frame again. Each of them is loose or gets
a flip-flop as its source. -/
theorem reaches_driveBus {n : Netlist} {frame : Frame} {wires source : Bus}
    (h : n.Awaiting frame wires) (hlength : wires.length = source.length) (hsource : n.Has source)
    (hfeed : (∀ w ∈ wires, w ∈ frame.loose) ∨ ∀ v ∈ source, n.IsFlipFlop v) :
    Reaches n (driveBus wires source) n.size fun _ n' => n'.Sound frame := by
  induction wires generalizing n source with
  | nil =>
    have hsound := h.sound
    rw [Frame.opening_nil] at hsound
    exact ⟨Nat.le_refl _, hsound⟩
  | cons w rest ih =>
    cases source with
    | nil => cases hlength
    | cons v others =>
      obtain ⟨hsound, hnodup, hfresh, hforward⟩ := h
      rw [Frame.opening_cons] at hsound
      obtain ⟨hnew, hnodup⟩ := List.nodup_cons.mp hnodup
      have hunopened : w ∉ (frame.opening rest).opened := by
        rintro (hmem | hmem)
        · exact hfresh w (by simp) hmem
        · exact hnew hmem
      have hfirst : w ∈ (frame.opening rest).loose ∨ n.IsFlipFlop v :=
        hfeed.imp (· w (by simp)) (· v (by simp))
      have hnext := hsound.connectForward hunopened (hforward w (by simp))
        (hsource v (by simp)) hfirst
      have hle := n.le_connectForward w v
      have hsize := Netlist.size_connectForward n w v
      -- the other wires still wait, because connecting one slot changes one node only
      have hrest : (n.connectForward w v).Awaiting frame rest := by
        refine ⟨hnext, hnodup, fun u hu => hfresh u (by simp [hu]), ?_⟩
        intro u hu
        have hne : w ≠ u := by
          rintro rfl
          exact hnew hu
        unfold Netlist.connectForward
        rw [hforward w (by simp)]
        exact (Array.getElem?_setIfInBounds_ne hne).trans (hforward u (by simp [hu]))
      have hlive : (n.connectForward w v).Has others := by
        intro u hu
        rw [hsize]
        exact hsource u (by simp [hu])
      have hfeeds : (∀ u ∈ rest, u ∈ frame.loose) ∨
          ∀ u ∈ others, (n.connectForward w v).IsFlipFlop u := by
        refine hfeed.imp (fun hall u hu => hall u (by simp [hu])) ?_
        exact fun hall u hu => (hall u (by simp [hu])).of_le hle
      have hdone := ih hrest (Nat.succ.inj hlength) hlive hfeeds
      rw [hsize] at hdone
      exact ⟨hdone.size, hdone.result⟩

end Build

end NandComputer
