import NandComputer.Proofs.Netlist.Interaction
import NandComputer.Proofs.Netlist.Composition

/-!
Netlists that have a part in common. If the nodes of the part are the same in both
and read nothing outside of it, then the values there depend only on the inputs and
flip-flops of the part, and a session with the part goes the same way in both,
whatever else happens in between. A netlist is such a part of all netlists that it
grows into.
-/

namespace NandComputer

namespace SimulationCall

/-- The wires that a call drives or overwrites. -/
def driven : SimulationCall → Bus
  | .setWire w _ => [w]
  | .setBus wires _ | .overwrite wires _ => wires
  | _ => []

/-- The wires that a call drives, overwrites or reads. -/
def wires : SimulationCall → Bus
  | .wire w => [w]
  | .bus wires => wires
  | call => call.driven

theorem driven_subset_wires (call : SimulationCall) : call.driven ⊆ call.wires := by
  cases call with
  | wire w => exact List.nil_subset _
  | bus wires => exact List.nil_subset _
  | _ => exact List.Subset.refl _

/-- The call names no port. -/
def Plain : SimulationCall → Prop
  | .setPort _ _ | .port _ => False
  | _ => True

end SimulationCall

/-- A call in a session with a part of a netlist: either one of the session, or one
that somebody else makes in between. -/
inductive Turn where
  | own (call : SimulationCall)
  | other (call : SimulationCall)
  deriving DecidableEq

namespace Turn

/-- The call, if it is one of the session. -/
def own? : Turn → Option SimulationCall
  | .own call => some call
  | .other _ => none

end Turn

/-- A turn on a simulation. The session does not hear the answers of others. -/
def Simulation.take (s : Simulation) : Turn → Option Answer × Simulation
  | .own call => (some (s.call call).1, (s.call call).2)
  | .other call => (none, (s.call call).2)

namespace Netlist

def IsConstant (n : Netlist) (w : Wire) : Prop := ∃ value, n.nodes[w]? = some (.constant value)

/-- A call with the wires of the port that it names in place of the name. -/
inductive Resolves (n : Netlist) : SimulationCall → SimulationCall → Prop
  | plain {call : SimulationCall} (h : call.Plain) : Resolves n call call
  | setPort {name : String} {port : Port} (value : Nat)
      (h : n.ports.find? (·.name == name) = some port) :
      Resolves n (.setPort name value) (.setBus port.wires value)
  | port {name : String} {port : Port} (h : n.ports.find? (·.name == name) = some port) :
      Resolves n (.port name) (.bus port.wires)

/-- A call that is admitted and is about wires of the part only. -/
def Owns (n : Netlist) (part : Set Wire) (call : SimulationCall) : Prop :=
  ∃ plain, n.Resolves call plain ∧ n.Admits plain ∧ ∀ w ∈ plain.wires, w ∈ part

/-- A call that is refused, or admitted and no tick and drives or overwrites no wire of the part. -/
def Spares (n : Netlist) (part : Set Wire) (call : SimulationCall) : Prop :=
  ∀ plain, n.Resolves call plain → plain ≠ .tick ∧ n.Admits plain ∧ ∀ w ∈ plain.driven, w ∉ part

/-- A turn in the larger netlist `N` that respects the session with a part of `n`. -/
def Permits (n N : Netlist) (part : Set Wire) : Turn → Prop
  | .own call => n.Owns part call
  | .other call => N.Spares part call

/-- A session with the part gets the answers in `N`, between any calls of others,
that it gets in `n` alone. -/
def Conserves (n : Netlist) (alone : Circuit) (N : Netlist) (circuit : Circuit)
    (part : Set Wire) : Prop :=
  ∀ turns : List Turn, (∀ turn ∈ turns, n.Permits N part turn) →
    (interact Simulation.take (.ofCircuit circuit) turns).1.reduceOption =
      (interact Simulation.call (.ofCircuit alone) (turns.filterMap Turn.own?)).1

/-- Sessions with two parts of a netlist do not hear of each other: only the clock is shared. -/
structure Independent (N : Netlist) (circuit : Circuit) (A B : Set Wire) : Prop where
  first : N.Conserves circuit N circuit A
  second : N.Conserves circuit N circuit B
  spares_first : ∀ call, call ≠ .tick → N.Owns B call → N.Spares A call
  spares_second : ∀ call, call ≠ .tick → N.Owns A call → N.Spares B call

/-- The part of the two netlists is the same and reads nothing but itself. -/
structure Shares (n N : Netlist) (part : Set Wire) : Prop where
  node : ∀ w ∈ part, ∃ node, n.nodes[w]? = some node ∧ N.nodes[w]? = some node ∧
    ∀ v ∈ node.wires, v ∈ part
  port : ∀ name port, n.ports.find? (·.name == name) = some port →
    N.ports.find? (·.name == name) = some port

end Netlist

/-- Two states have the same inputs and flip-flops in the part. -/
structure CircuitState.AgreeOn (part : Set Wire) (t u : CircuitState) : Prop where
  inputs : ∀ w ∈ part, t.inputs w = u.inputs w
  flipFlops : ∀ w ∈ part, t.flipFlops w = u.flipFlops w

section Update

variable {part : Set Wire} {f g : Wire → Bool} (h : ∀ w ∈ part, f w = g w)

include h

theorem update_congr_on (w : Wire) (value : Bool) :
    ∀ v ∈ part, Function.update f w value v = Function.update g w value v := by
  intro v hv
  dsimp only [Function.update]
  rw [h v hv]

theorem update_right_of_notMem {w : Wire} (hw : w ∉ part) (value : Bool) :
    ∀ v ∈ part, f v = Function.update g w value v := by
  intro v hv
  have hne : v ≠ w := ne_of_mem_of_not_mem hv hw
  exact (h v hv).trans (Function.update_of_ne hne _ _).symm

end Update

namespace CircuitState.AgreeOn

variable {part : Set Wire} {t u : CircuitState} (h : t.AgreeOn part u)

include h

theorem setInput (w : Wire) (value : Bool) :
    (t.setInput w value).AgreeOn part (u.setInput w value) :=
  ⟨update_congr_on h.inputs w value, h.flipFlops⟩

theorem setFlipFlop (w : Wire) (value : Bool) :
    (t.setFlipFlop w value).AgreeOn part (u.setFlipFlop w value) :=
  ⟨h.inputs, update_congr_on h.flipFlops w value⟩

theorem setInputs (wires : Bus) (value : Nat) :
    (t.setInputs wires value).AgreeOn part (u.setInputs wires value) :=
  List.foldl_rel h fun entry _ _ _ hstate => hstate.setInput entry.1 _

theorem setFlipFlops (wires : Bus) (value : Nat) :
    (t.setFlipFlops wires value).AgreeOn part (u.setFlipFlops wires value) :=
  List.foldl_rel h fun entry _ _ _ hstate => hstate.setFlipFlop entry.1 _

theorem setInput_right {w : Wire} (hw : w ∉ part) (value : Bool) :
    t.AgreeOn part (u.setInput w value) :=
  ⟨update_right_of_notMem h.inputs hw value, h.flipFlops⟩

theorem setFlipFlop_right {w : Wire} (hw : w ∉ part) (value : Bool) :
    t.AgreeOn part (u.setFlipFlop w value) :=
  ⟨h.inputs, update_right_of_notMem h.flipFlops hw value⟩

theorem setInputs_right {wires : Bus} (hwires : ∀ w ∈ wires, w ∉ part) (value : Nat) :
    t.AgreeOn part (u.setInputs wires value) :=
  List.foldlRecOn _ _ h fun _ hstate _ member =>
    hstate.setInput_right (hwires _ (List.fst_mem_of_mem_zipIdx member)) _

theorem setFlipFlops_right {wires : Bus} (hwires : ∀ w ∈ wires, w ∉ part) (value : Nat) :
    t.AgreeOn part (u.setFlipFlops wires value) :=
  List.foldlRecOn _ _ h fun _ hstate _ member =>
    hstate.setFlipFlop_right (hwires _ (List.fst_mem_of_mem_zipIdx member)) _

end CircuitState.AgreeOn

namespace Netlist

variable {n N : Netlist} {alone circuit : Circuit} {part : Set Wire} {t u : CircuitState}

section Resolves

variable {state : CircuitState} {s : Simulation} {call plain : SimulationCall}

theorem Resolves.names_no_port (h : n.Resolves call plain) : plain.Plain := by
  cases h with
  | plain hplain => exact hplain
  | setPort value hport => trivial
  | port hport => trivial

theorem Resolves.unique {other : SimulationCall} (h : n.Resolves call plain)
    (hother : n.Resolves call other) : other = plain := by
  cases h with
  | plain hplain =>
    cases hother with
    | plain => rfl
    | setPort => cases hplain
    | port => cases hplain
  | setPort value hport =>
    cases hother with
    | plain hplain => cases hplain
    | setPort _ hlater => rw [Option.some.inj (hlater.symm.trans hport)]
  | port hport =>
    cases hother with
    | plain hplain => cases hplain
    | port hlater => rw [Option.some.inj (hlater.symm.trans hport)]

/-- A port stands for its wires: a call on it does to the state of a netlist what the call on
these does. -/
theorem Resolves.state_call (h : n.Resolves call plain) :
    state.call n call = state.call n plain := by
  cases h with
  | plain => rfl
  | setPort value hport =>
    dsimp only [CircuitState.call]
    rw [hport]
  | port hport =>
    dsimp only [CircuitState.call]
    rw [hport]

/-- In a simulation a port stands for its wires as well, so sessions may be looked at as if
they named wires only. -/
theorem Resolves.simulation_call (h : n.Resolves call plain) (hn : n.Accepted circuit)
    (hs : s.Matches n circuit state) : s.call call = s.call plain := by
  cases h with
  | plain => rfl
  | setPort value hport =>
    dsimp only [Simulation.call, Simulation.setPort]
    rw [hs.circuit_eq, Simulation.port_eq hn, hport]
    rfl
  | port hport =>
    dsimp only [Simulation.call, Simulation.port]
    rw [(hs.settle hn).circuit_eq, Simulation.port_eq hn, hport]
    rfl

/-- A call on a port that there is not is admitted and changes nothing. Every other call
resolves to one on wires. -/
theorem resolves_or_refused (n : Netlist) (call : SimulationCall) :
    (∃ plain, n.Resolves call plain) ∨
      n.Admits call ∧ ∀ state : CircuitState, (state.call n call).2 = state := by
  cases call with
  | setPort name value =>
    cases hport : n.ports.find? (·.name == name) with
    | some port => exact .inl ⟨_, .setPort value hport⟩
    | none =>
      refine .inr ⟨?_, ?_⟩
      · intro port hmem hname
        exact absurd (beq_iff_eq.mpr hname) (Array.find?_eq_none.mp hport port hmem)
      · intro state
        dsimp only [CircuitState.call]
        rw [hport]
  | port name =>
    cases hport : n.ports.find? (·.name == name) with
    | some port => exact .inl ⟨_, .port hport⟩
    | none =>
      refine .inr ⟨trivial, ?_⟩
      intro state
      dsimp only [CircuitState.call]
      rw [hport]
  | _ => exact .inl ⟨_, .plain trivial⟩

end Resolves

/-- A node has the same value in two netlists if the wires have that it mentions, and if the
states agree on it. -/
theorem valueFrom_congr {read other : Wire → Option Bool} {w : Nat} {node : Node}
    (hn : n.nodes[w]? = some node) (hN : N.nodes[w]? = some node)
    (hinput : t.inputs w = u.inputs w) (hflop : t.flipFlops w = u.flipFlops w)
    (hread : ∀ v ∈ node.wires, read v = other v) :
    n.valueFrom t read w = N.valueFrom u other w := by
  rw [valueFrom, valueFrom, hn, hN]
  cases node with
  | constant value => rfl
  | input => exact congrArg some hinput
  | flipFlop next? => exact congrArg some hflop
  | nand a b =>
    have ha := hread a (by simp [Node.wires, Node.operands])
    have hb := hread b (by simp [Node.wires, Node.operands])
    simp only [ha, hb]
  | forward source? =>
    cases source? with
    | none => rfl
    | some source => exact hread source (by simp [Node.wires, Node.operands])

theorem valueWithin_of_le {depth deeper : Nat} (hle : depth ≤ deeper) {w : Nat} {value : Bool}
    (h : n.valueWithin t depth w = some value) : n.valueWithin t deeper w = some value := by
  induction hle with
  | refl => exact h
  | step _ ih => exact valueWithin_succ_of_some ih

namespace Shares

variable (h : n.Shares N part)

include h

theorem lt {w : Nat} (hw : w ∈ part) : w < n.size ∧ w < N.size := by
  obtain ⟨node, hnode, hother, -⟩ := h.node w hw
  exact ⟨(Array.getElem?_eq_some_iff.mp hnode).1, (Array.getElem?_eq_some_iff.mp hother).1⟩

theorem isInput {w : Nat} (hw : w ∈ part) (hinput : n.IsInput w) : N.IsInput w := by
  obtain ⟨node, hnode, hother, -⟩ := h.node w hw
  rw [hinput] at hnode
  cases hnode
  exact hother

theorem isFlipFlop {w : Nat} (hw : w ∈ part) (hflop : n.IsFlipFlop w) : N.IsFlipFlop w := by
  obtain ⟨node, hnode, hother, -⟩ := h.node w hw
  obtain ⟨next?, hflop⟩ := hflop
  rw [hflop] at hnode
  cases hnode
  exact ⟨next?, hother⟩

theorem resolves {call plain : SimulationCall} (hcall : n.Resolves call plain) :
    N.Resolves call plain := by
  cases hcall with
  | plain hplain => exact .plain hplain
  | setPort value hport => exact .setPort value (h.port _ _ hport)
  | port hport => exact .port (h.port _ _ hport)

/-- A call on the part is admitted in both netlists, since the part has the same nodes in
both. -/
theorem admits {call : SimulationCall} (hcall : n.Admits call) (hplain : call.Plain)
    (hwires : ∀ w ∈ call.wires, w ∈ part) : N.Admits call := by
  cases call with
  | setWire w value => exact h.isInput (hwires w (List.mem_singleton_self w)) hcall
  | setBus wires value => exact fun w hw => h.isInput (hwires w hw) (hcall w hw)
  | setPort name value => cases hplain
  | overwrite wires value => exact fun w hw => h.isFlipFlop (hwires w hw) (hcall w hw)
  | _ => trivial

theorem valueWithin (hstate : t.AgreeOn part u) (depth : Nat) :
    ∀ w ∈ part, n.valueWithin t depth w = N.valueWithin u depth w := by
  induction depth with
  | zero => exact fun _ _ => rfl
  | succ depth ih =>
    intro w hw
    obtain ⟨node, hnode, hother, hwires⟩ := h.node w hw
    exact valueFrom_congr hnode hother (hstate.inputs w hw) (hstate.flipFlops w hw)
      fun v hv => ih v (hwires v hv)

variable (hn : n.Accepted alone) (hN : N.Accepted circuit)

include hn hN

/-- The recursions end at different depths, but with the same value, as more depth changes no
value. -/
theorem value (hstate : t.AgreeOn part u) {w : Wire} (hw : w ∈ part) :
    n.value t w = N.value u w := by
  obtain ⟨hlt, hlater⟩ := h.lt hw
  have hvalue := valueWithin_of_le (Nat.le_max_left n.size N.size) (hn.value?_eq_some t w hlt)
  have hother := valueWithin_of_le (Nat.le_max_right n.size N.size) (hN.value?_eq_some u w hlater)
  rw [h.valueWithin hstate _ w hw, hother] at hvalue
  exact (Option.some.inj hvalue).symm

/-- After a tick the states agree on the part again, as its flip-flops take their next values
from the part. -/
theorem tick (hstate : t.AgreeOn part u) : (t.tick n).AgreeOn part (u.tick N) where
  inputs := hstate.inputs
  flipFlops := by
    intro w hw
    obtain ⟨node, hnode, hother, hwires⟩ := h.node w hw
    dsimp only [CircuitState.tick]
    rw [hnode, hother]
    cases node with
    | flipFlop next? =>
      cases next? with
      | none => exact hstate.flipFlops w hw
      | some next => exact h.value hn hN hstate (hwires next (by simp [Node.wires]))
    | _ => exact hstate.flipFlops w hw

/-- A call on the part gets the same answer in both netlists, and they stay in agreement. -/
theorem call (hstate : t.AgreeOn part u) {call : SimulationCall}
    (hplain : call.Plain) (hwires : ∀ w ∈ call.wires, w ∈ part) :
    (t.call n call).1 = (u.call N call).1 ∧
      (t.call n call).2.AgreeOn part (u.call N call).2 := by
  cases call with
  | setWire w value => exact ⟨rfl, hstate.setInput w value⟩
  | setBus wires value => exact ⟨rfl, hstate.setInputs wires value⟩
  | overwrite wires value => exact ⟨rfl, hstate.setFlipFlops wires value⟩
  | settle => exact ⟨rfl, hstate⟩
  | tick => exact ⟨rfl, h.tick hn hN hstate⟩
  | wire w =>
    have hvalue := h.value hn hN hstate (hwires w (by simp [SimulationCall.wires]))
    exact ⟨congrArg Answer.bit hvalue, hstate⟩
  | bus wires =>
    have hvalues : wires.map (n.value t) = wires.map (N.value u) :=
      List.map_congr_left fun w hw => h.value hn hN hstate (hwires w hw)
    exact ⟨congrArg (Answer.number ∘ numberOf) hvalues, hstate⟩
  | setPort name value => cases hplain
  | port name => cases hplain

end Shares

section Apart

variable {A B : Set Wire} {call : SimulationCall}

theorem IsConstant.of_le {w : Wire} (h : n.IsConstant w) (hle : n ≤ N) : N.IsConstant w := by
  obtain ⟨value, hnode⟩ := h
  exact ⟨value, getElem?_of_le hle hnode rfl⟩

/-- What is driven or overwritten is no constant, so constants can be shared. -/
theorem Admits.not_isConstant (hcall : N.Admits call) (hplain : call.Plain) {w : Wire}
    (hw : w ∈ call.driven) : ¬ N.IsConstant w := by
  rintro ⟨value, hnode⟩
  have hsource : N.IsInput w ∨ N.IsFlipFlop w := by
    cases call with
    | setWire v _ =>
      rw [List.mem_singleton.mp hw]
      exact .inl hcall
    | setBus wires _ => exact .inl (hcall w hw)
    | overwrite wires _ => exact .inr (hcall w hw)
    | setPort name _ => cases hplain
    | _ => cases hw
  rcases hsource with hinput | ⟨next?, hflop⟩
  · cases hinput.symm.trans hnode
  · cases hflop.symm.trans hnode

/-- A call on a part spares another part that shares constants with it only. The clock is the
exception, as it belongs to all. -/
theorem Owns.spares (hcall : N.Owns B call) (hclock : call ≠ .tick)
    (hapart : ∀ w ∈ B, w ∈ A → N.IsConstant w) : N.Spares A call := by
  obtain ⟨plain, hresolve, hadmits, hwires⟩ := hcall
  intro other hother
  obtain rfl := hresolve.unique hother
  refine ⟨?_, hadmits, ?_⟩
  · rintro rfl
    cases hresolve
    exact hclock rfl
  · intro w hw hmem
    have hown := hwires w (SimulationCall.driven_subset_wires _ hw)
    exact hadmits.not_isConstant hresolve.names_no_port hw (hapart w hown hmem)

end Apart

/-- What others do does not touch the part: they drive and overwrite other wires. -/
theorem Spares.agreeOn {call : SimulationCall} (hcall : N.Spares part call)
    (hstate : t.AgreeOn part u) : t.AgreeOn part (u.call N call).2 := by
  rcases N.resolves_or_refused call with ⟨plain, hresolve⟩ | ⟨-, hrefused⟩
  · obtain ⟨hclock, -, hdriven⟩ := hcall plain hresolve
    have hplain := hresolve.names_no_port
    rw [hresolve.state_call]
    cases plain with
    | setWire w value => exact hstate.setInput_right (hdriven w (List.mem_singleton_self w)) value
    | setBus wires value => exact hstate.setInputs_right hdriven value
    | overwrite wires value => exact hstate.setFlipFlops_right hdriven value
    | tick => exact absurd rfl hclock
    | setPort name value => cases hplain
    | port name => cases hplain
    | _ => exact hstate
  · rw [hrefused]
    exact hstate

/-- Two simulations in states that agree on the part. -/
def Tracks (n : Netlist) (alone : Circuit) (N : Netlist) (circuit : Circuit) (part : Set Wire)
    (s r : Simulation) : Prop :=
  ∃ t u, s.Matches n alone t ∧ r.Matches N circuit u ∧ t.AgreeOn part u

section Session

variable (hn : n.Accepted alone) (hN : N.Accepted circuit) {s r : Simulation}

include hn hN

/-- A call of one's own gets the same answer in the larger netlist as in the smaller one, and
tracking goes on. -/
theorem Tracks.own (hpart : n.Shares N part) (h : n.Tracks alone N circuit part s r)
    {call : SimulationCall} (hcall : n.Owns part call) :
    (r.call call).1 = (s.call call).1 ∧
      n.Tracks alone N circuit part (s.call call).2 (r.call call).2 := by
  obtain ⟨t, u, hs, hr, hstate⟩ := h
  obtain ⟨plain, hresolve, hadmits, hwires⟩ := hcall
  have hplain := hresolve.names_no_port
  rw [hresolve.simulation_call hn hs, (hpart.resolves hresolve).simulation_call hN hr]
  obtain ⟨hanswer, hs'⟩ := hs.call hn hadmits
  obtain ⟨hother, hr'⟩ := hr.call hN (hpart.admits hadmits hplain hwires)
  obtain ⟨hsame, hstate'⟩ := hpart.call hn hN hstate hplain hwires
  refine ⟨?_, _, _, hs', hr', hstate'⟩
  rw [hother, ← hsame, hanswer]

omit hn in
theorem Tracks.other (h : n.Tracks alone N circuit part s r) {call : SimulationCall}
    (hcall : N.Spares part call) : n.Tracks alone N circuit part s (r.call call).2 := by
  obtain ⟨t, u, hs, hr, hstate⟩ := h
  refine ⟨t, (u.call N call).2, hs, ?_, hcall.agreeOn hstate⟩
  rcases N.resolves_or_refused call with ⟨plain, hresolve⟩ | ⟨hadmits, -⟩
  · rw [hresolve.simulation_call hN hr, hresolve.state_call]
    exact (hr.call hN (hcall plain hresolve).2.1).2
  · exact (hr.call hN hadmits).2

/-- The session goes on as if there were no others. The induction is over the turns, each of
them one's own or somebody else's. -/
theorem Tracks.interact (hpart : n.Shares N part) (h : n.Tracks alone N circuit part s r)
    (turns : List Turn) (hturns : ∀ turn ∈ turns, n.Permits N part turn) :
    (interact Simulation.take r turns).1.reduceOption =
      (interact Simulation.call s (turns.filterMap Turn.own?)).1 := by
  induction turns generalizing s r with
  | nil => rfl
  | cons turn rest ih =>
    obtain ⟨hturn, hrest⟩ := List.forall_mem_cons.mp hturns
    cases turn with
    | own call =>
      obtain ⟨hanswer, hnext⟩ := h.own hn hN hpart hturn
      exact congrArg₂ List.cons hanswer (ih hnext hrest)
    | other call => exact ih (h.other hN hturn) hrest

theorem Shares.conserves (hpart : n.Shares N part) : n.Conserves alone N circuit part := by
  intro turns hturns
  have hstart : n.Tracks alone N circuit part (.ofCircuit alone) (.ofCircuit circuit) :=
    ⟨_, _, Simulation.matches_ofCircuit hn, Simulation.matches_ofCircuit hN,
      fun _ _ => rfl, fun _ _ => rfl⟩
  exact hstart.interact hn hN hpart turns hturns

end Session

/-- Parts that share constants only are independent: either one conserves its sessions,
whatever is called on the other. -/
theorem Shares.independent (hN : N.Accepted circuit) {A B : Set Wire} (hA : N.Shares N A)
    (hB : N.Shares N B) (hapart : ∀ w ∈ A, w ∈ B → N.IsConstant w) : N.Independent circuit A B where
  first := hA.conserves hN hN
  second := hB.conserves hN hN
  spares_first := fun _ hclock hcall => hcall.spares hclock fun w hw hmem => hapart w hmem hw
  spares_second := fun _ hclock hcall => hcall.spares hclock hapart

/-- A netlist that compiles has no slot left to connect, so all of it is still there in what
it grows into. -/
theorem Accepted.shares (hn : n.Accepted alone) (hle : n ≤ N) : n.Shares N {w | w < n.size} where
  node := by
    intro w hw
    obtain ⟨node, hnode, hlater⟩ := exists_node_of_le hle hw (hn.closed w)
    exact ⟨node, hnode, hlater, hn.wires w node hnode⟩
  port := by
    intro name port hport
    obtain ⟨more, hmore⟩ := hle.ports
    rw [hmore, Array.find?_append, hport, Option.some_or]

end Netlist

end NandComputer
