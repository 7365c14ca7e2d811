import Mathlib.Logic.Function.Basic
import NandComputer.Proofs.Bits
import NandComputer.Proofs.Netlist.Evaluation

/-!
A simulation answers calls like a machine that remembers nothing but the inputs
and the flip-flops, and evaluates each wire when it is read. The cached values
of the simulation are behind this state only while they are marked unsettled.
-/

namespace NandComputer

/-- A call on a simulation. -/
inductive SimulationCall where
  | setWire (wire : Wire) (value : Bool)
  | setBus (wires : Bus) (value : Nat)
  | setPort (name : String) (value : Nat)
  | overwrite (wires : Bus) (value : Nat)
  | settle
  | tick
  | wire (wire : Wire)
  | bus (wires : Bus)
  | port (name : String)
  deriving DecidableEq

/-- What a call returns. -/
inductive Answer where
  | done
  | bit (value : Bool)
  | number (value : Nat)
  | refused (error : CircuitError)
  deriving DecidableEq

/-- The answers of a machine to some calls, and its state after them. -/
def interact {σ κ ρ : Type} (step : σ → κ → ρ × σ) : σ → List κ → List ρ × σ
  | state, [] => ([], state)
  | state, call :: rest =>
    let (answer, next) := step state call
    let (answers, last) := interact step next rest
    (answer :: answers, last)

section Interact

variable {σ τ κ ρ : Type} {step : σ → κ → ρ × σ} {calls : List κ}

/-- The state after one more call is the one after the call on the state before, so sessions
can also be read from their end. -/
theorem interact_concat (s : σ) (calls : List κ) (call : κ) :
    (interact step s (calls ++ [call])).2 = (step (interact step s calls).2 call).2 := by
  induction calls generalizing s with
  | nil => rfl
  | cons first rest ih => exact ih (step s first).2

/-- What every call preserves, a sequence of calls does. This is the one induction over
sessions for invariants. -/
theorem interact_preserves {I : σ → Prop}
    (hstep : ∀ s, I s → ∀ call ∈ calls, I (step s call).2) {s : σ} (h : I s) :
    I (interact step s calls).2 := by
  induction calls generalizing s with
  | nil => exact h
  | cons call rest ih =>
    have hnext := hstep s h call (by simp)
    exact ih (fun s h later member => hstep s h later (by simp [member])) hnext

/-- Machines whose answers agree in related states, and whose next states are related again,
agree in all their answers. This is the one induction over sessions for refinements. -/
theorem interact_simulates {reference : τ → κ → ρ × τ} {R : σ → τ → Prop}
    (hstep : ∀ s t, R s t → ∀ call ∈ calls, (step s call).1 = (reference t call).1 ∧
      R (step s call).2 (reference t call).2) {s : σ} {t : τ} (h : R s t) :
    (interact step s calls).1 = (interact reference t calls).1 ∧
      R (interact step s calls).2 (interact reference t calls).2 := by
  induction calls generalizing s t with
  | nil => exact ⟨rfl, h⟩
  | cons call rest ih =>
    obtain ⟨hanswer, hnext⟩ := hstep s t h call (by simp)
    obtain ⟨hanswers, hlast⟩ := ih (fun s t h later member => hstep s t h later (by simp [member]))
      hnext
    exact ⟨congrArg₂ List.cons hanswer hanswers, hlast⟩

/-- The same for machines with calls and answers of their own, one translated into the other
by a function on calls and one on answers. -/
theorem interact_translates {κ' ρ' : Type} {other : τ → κ' → ρ' × τ} {f : κ → κ'} {g : ρ → ρ'}
    {R : σ → τ → Prop}
    (hstep : ∀ s t, R s t → ∀ call, (other t (f call)).1 = g (step s call).1 ∧
      R (step s call).2 (other t (f call)).2) {s : σ} {t : τ} (h : R s t) (calls : List κ) :
    (interact other t (calls.map f)).1 = (interact step s calls).1.map g ∧
      R (interact step s calls).2 (interact other t (calls.map f)).2 := by
  induction calls generalizing s t with
  | nil => exact ⟨rfl, h⟩
  | cons call rest ih =>
    obtain ⟨hanswer, hnext⟩ := hstep s t h call
    obtain ⟨hanswers, hlast⟩ := ih hnext
    exact ⟨congrArg₂ List.cons hanswer hanswers, hlast⟩

end Interact

def Simulation.call (s : Simulation) : SimulationCall → Answer × Simulation
  | .setWire wire value => (.done, s.setWire wire value)
  | .setBus wires value => (.done, s.setBus wires value)
  | .setPort name value =>
    match s.setPort name value with
    | .ok s => (.done, s)
    | .error error => (.refused error, s)
  | .overwrite wires value => (.done, s.overwrite wires value)
  | .settle => (.done, s.settle)
  | .tick => (.done, s.tick)
  | .wire wire => (.bit (s.wire wire).1, (s.wire wire).2)
  | .bus wires => (.number (s.bus wires).1, (s.bus wires).2)
  | .port name =>
    match s.port name with
    | (.ok value, s) => (.number value, s)
    | (.error error, s) => (.refused error, s)

namespace CircuitState

def initial : CircuitState := ⟨fun _ => false, fun _ => false⟩

def setInput (state : CircuitState) (wire : Wire) (value : Bool) : CircuitState :=
  { state with inputs := Function.update state.inputs wire value }

def setFlipFlop (state : CircuitState) (wire : Wire) (value : Bool) : CircuitState :=
  { state with flipFlops := Function.update state.flipFlops wire value }

/-- The low bits of a number become inputs. -/
def setInputs (state : CircuitState) (wires : Bus) (value : Nat) : CircuitState :=
  wires.zipIdx.foldl (fun state (wire, i) => state.setInput wire (value.testBit i)) state

def setFlipFlops (state : CircuitState) (wires : Bus) (value : Nat) : CircuitState :=
  wires.zipIdx.foldl (fun state (wire, i) => state.setFlipFlop wire (value.testBit i)) state

/-- All flip-flops take the values of the wires that they sample, as these were before. -/
def tick (n : Netlist) (state : CircuitState) : CircuitState :=
  { state with
    flipFlops := fun w =>
      match n.nodes[w]? with
      | some (.flipFlop (some next)) => n.value state next
      | _ => state.flipFlops w }

/-- The calls as the netlist defines them. -/
def call (n : Netlist) (state : CircuitState) : SimulationCall → Answer × CircuitState
  | .setWire wire value => (.done, state.setInput wire value)
  | .setBus wires value => (.done, state.setInputs wires value)
  | .setPort name value =>
    match n.ports.find? (·.name == name) with
    | some port => (.done, state.setInputs port.wires value)
    | none => (.refused (.unknownPort name), state)
  | .overwrite wires value => (.done, state.setFlipFlops wires value)
  | .settle => (.done, state)
  | .tick => (.done, state.tick n)
  | .wire wire => (.bit (n.value state wire), state)
  | .bus wires => (.number (numberOf (wires.map (n.value state))), state)
  | .port name =>
    match n.ports.find? (·.name == name) with
    | some port => (.number (numberOf (port.wires.map (n.value state))), state)
    | none => (.refused (.unknownPort name), state)

end CircuitState

namespace Netlist

/-- Calls set inputs and overwrite flip-flops only. -/
def Admits (n : Netlist) : SimulationCall → Prop
  | .setWire wire _ => n.IsInput wire
  | .setBus wires _ => ∀ w ∈ wires, n.IsInput w
  | .setPort name _ => ∀ port ∈ n.ports, port.name = name → ∀ w ∈ port.wires, n.IsInput w
  | .overwrite wires _ => ∀ w ∈ wires, n.IsFlipFlop w
  | _ => True

theorem mem_filterMap_nodes {β : Type} (nodes : Array Node) (f : Wire → Node → Option β) (x : β) :
    x ∈ (Array.range nodes.size).filterMap (fun w => f w (nodes.getD w .input)) ↔
      ∃ (w : Wire) (node : Node), nodes[w]? = some node ∧ f w node = some x := by
  rw [Array.mem_filterMap]
  constructor
  · rintro ⟨w, hw, hx⟩
    have hlt : w < nodes.size := Array.mem_range.mp hw
    have hnode : nodes[w]? = some nodes[w] := Array.getElem?_eq_getElem hlt
    rw [Array.getD_eq_getD_getElem?, hnode, Option.getD_some] at hx
    exact ⟨w, nodes[w], hnode, hx⟩
  · rintro ⟨w, node, hnode, hx⟩
    refine ⟨w, Array.mem_range.mpr (Array.getElem?_eq_some_iff.mp hnode).1, ?_⟩
    rw [Array.getD_eq_getD_getElem?, hnode]
    exact hx

/-- What a tick takes over in a flip-flop that has a source. -/
def sample? (w : Wire) : Node → Option (Wire × Wire)
  | .flipFlop (some next) => some (w, next)
  | _ => none

/-- The flip-flops of a circuit are those of its netlist, with the wires that they take their
next values from. -/
theorem mem_flipFlops_iff (n : Netlist) (order : Array Wire) (w next : Wire) :
    (w, next) ∈ (n.circuit order).flipFlops ↔ n.nodes[w]? = some (.flipFlop (some next)) := by
  apply (mem_filterMap_nodes n.nodes sample? (w, next)).trans
  constructor
  · rintro ⟨v, node, hnode, hentry⟩
    rw [sample?.eq_def] at hentry
    split at hentry
    · cases hentry
      exact hnode
    · cases hentry
  · intro hnode
    exact ⟨w, _, hnode, rfl⟩

/-- What a constant node holds from the start. -/
def fixed? (w : Wire) : Node → Option (Wire × Bool)
  | .constant value => some (w, value)
  | _ => none

theorem mem_constants_iff (n : Netlist) (order : Array Wire) (w : Wire) (value : Bool) :
    (w, value) ∈ (n.circuit order).constants ↔ n.nodes[w]? = some (.constant value) := by
  apply (mem_filterMap_nodes n.nodes fixed? (w, value)).trans
  constructor
  · rintro ⟨v, node, hnode, hentry⟩
    rw [fixed?.eq_def] at hentry
    split at hentry
    · cases hentry
      exact hnode
    · cases hentry
  · intro hnode
    exact ⟨w, _, hnode, rfl⟩

section Writes

variable {ε : Type} (key : ε → Wire) (value : ε → Bool) (entries : List ε) (values : Array Bool)

theorem size_foldl_writes :
    (entries.foldl (fun values entry => values.setIfInBounds (key entry) (value entry))
      values).size = values.size := by
  induction entries generalizing values with
  | nil => rfl
  | cons entry rest ih => rw [List.foldl_cons, ih, Array.size_setIfInBounds]

theorem getElem?_foldl_writes_of_forall_ne {w : Wire} (hw : ∀ entry ∈ entries, key entry ≠ w) :
    (entries.foldl (fun values entry => values.setIfInBounds (key entry) (value entry))
      values)[w]? = values[w]? := by
  induction entries generalizing values with
  | nil => rfl
  | cons entry rest ih =>
    have hrest : ∀ later ∈ rest, key later ≠ w := by
      intro later member
      exact hw later (by simp [member])
    rw [List.foldl_cons, ih _ hrest, Array.getElem?_setIfInBounds_ne (hw entry (by simp))]

/-- Writes that agree on a wire leave the agreed value there, in whatever order they are made
and however many there are. -/
theorem getElem?_foldl_writes {w : Wire} {target : Bool} (hlt : w < values.size)
    (hvalue : ∀ entry ∈ entries, key entry = w → value entry = target)
    (hw : ∃ entry ∈ entries, key entry = w) :
    (entries.foldl (fun values entry => values.setIfInBounds (key entry) (value entry))
      values)[w]? = some target := by
  induction entries generalizing values with
  | nil =>
    obtain ⟨entry, member, -⟩ := hw
    cases member
  | cons entry rest ih =>
    rw [List.foldl_cons]
    by_cases hrest : ∃ later ∈ rest, key later = w
    · apply ih
      · rw [Array.size_setIfInBounds]
        exact hlt
      · intro later member
        exact hvalue later (by simp [member])
      · exact hrest
    · have hne : ∀ later ∈ rest, key later ≠ w := by
        intro later member heq
        exact hrest ⟨later, member, heq⟩
      obtain ⟨first, member, hfirst⟩ := hw
      have hentry : key entry = w := by
        rcases List.mem_cons.mp member with rfl | hlater
        · exact hfirst
        · exact absurd hfirst (hne first hlater)
      rw [getElem?_foldl_writes_of_forall_ne key value rest _ hne, hentry,
        Array.getElem?_setIfInBounds_self_of_lt hlt, hvalue entry (by simp) hentry]

end Writes

variable {n : Netlist} {state : CircuitState} {values : Array Bool}

section Sources

/-- Overwriting one source follows a change of its entry of the state, and no other source has
a different value by it. -/
theorem Settling.setSource (h : n.Settling state [] values) {other : CircuitState} {w : Nat}
    {value : Bool} (hw : w < n.size) (hvalue : n.value? other w = some value)
    (hrest : ∀ (v : Nat) (node : Node), v ≠ w → n.nodes[v]? = some node → node.IsSource →
      n.value? state v = n.value? other v) :
    n.Settling other [] (values.setIfInBounds w value) where
  size := by
    rw [Array.size_setIfInBounds]
    exact h.size
  sources := by
    intro v node hnode hsource
    by_cases heq : w = v
    · subst heq
      rw [Array.getElem?_setIfInBounds_self_of_lt (by rw [h.size]; exact hw), hvalue]
    · rw [Array.getElem?_setIfInBounds_ne heq, h.sources v node hnode hsource]
      exact hrest v node (Ne.symm heq) hnode hsource
  done := by simp

theorem Settling.setInput (h : n.Settling state [] values) {w : Nat} (hw : n.IsInput w)
    (value : Bool) : n.Settling (state.setInput w value) [] (values.setIfInBounds w value) := by
  have hlt : w < n.size := (Array.getElem?_eq_some_iff.mp hw).1
  apply h.setSource hlt
  · rw [value?_input hw]
    simp [CircuitState.setInput]
  · intro v node hne hnode hsource
    apply value?_congr_source hnode hsource
    · intro _
      simp [CircuitState.setInput, hne]
    · intro _ _
      rfl

theorem Settling.setFlipFlop (h : n.Settling state [] values) {w : Nat} (hw : n.IsFlipFlop w)
    (value : Bool) : n.Settling (state.setFlipFlop w value) [] (values.setIfInBounds w value) := by
  obtain ⟨next?, hflop⟩ := hw
  have hlt : w < n.size := (Array.getElem?_eq_some_iff.mp hflop).1
  apply h.setSource hlt
  · rw [value?_flipFlop hflop]
    simp [CircuitState.setFlipFlop]
  · intro v node hne hnode hsource
    apply value?_congr_source hnode hsource
    · intro _
      rfl
    · intro _ _
      simp [CircuitState.setFlipFlop, hne]

end Sources

end Netlist

/-- What a simulation holds while the netlist is in a given state: its sources are
up to date, and if it is settled, so are all other wires. -/
structure Simulation.Matches (n : Netlist) (circuit : Circuit) (state : CircuitState)
    (s : Simulation) : Prop where
  circuit_eq : s.circuit = circuit
  sources : n.Settling state [] s.values
  settled : s.settled = true → ∀ w : Wire, s.values[w]? = n.value? state w

/-- The number that is read from the cached values of a bus is the number of the values on its
wires. -/
theorem Bus.read_eq {values : Array Bool} {v : Wire → Bool} {bus : Bus}
    (h : ∀ w ∈ bus, values.getD w false = v w) : bus.read values = numberOf (bus.map v) := by
  induction bus with
  | nil => rfl
  | cons w rest ih =>
    rw [Bus.read, List.map_cons, numberOf, h w (by simp), ih fun u hu => h u (by simp [hu])]

namespace Simulation

variable {n : Netlist} {circuit : Circuit} {state : CircuitState} {s : Simulation}

section Matches

variable (h : s.Matches n circuit state)

include h

theorem Matches.getD_values (hsettled : s.settled = true) (w : Nat) :
    s.values.getD w false = n.value state w := by
  rw [Array.getD_eq_getD_getElem?, h.settled hsettled w]
  rfl

theorem Matches.read_values (hsettled : s.settled = true) (wires : Bus) :
    wires.read s.values = numberOf (wires.map (n.value state)) :=
  Bus.read_eq fun w _ => h.getD_values hsettled w

/-- The flip-flops are up to date also in an unsettled simulation, since only operations are
put off. -/
theorem Matches.peek_flipFlops {wires : Bus} (hwires : ∀ w ∈ wires, n.IsFlipFlop w) :
    s.peek wires = numberOf (wires.map (n.value state)) := by
  apply Bus.read_eq
  intro w hw
  obtain ⟨next?, hnode⟩ := hwires w hw
  have hvalue := h.sources.sources w _ hnode trivial
  rw [Array.getD_eq_getD_getElem?, hvalue]
  rfl

/-- Setting an input follows the state. Setting it to the value that it has already changes
nothing, and the simulation stays settled then. -/
theorem Matches.setWire {w : Nat} (hw : n.IsInput w) (value : Bool) :
    (s.setWire w value).Matches n circuit (state.setInput w value) := by
  unfold Simulation.setWire
  split
  case isTrue hsame =>
    have hold := h.sources.sources w .input hw trivial
    rw [Netlist.value?_input hw] at hold
    rw [Array.getD_eq_getD_getElem?, hold, Option.getD_some] at hsame
    have hstate : state.setInput w value = state := by
      rw [CircuitState.setInput, ← hsame, Function.update_eq_self]
    rw [hstate]
    exact h
  case isFalse =>
    exact ⟨h.circuit_eq, h.sources.setInput hw value, by simp⟩

theorem Matches.setBus {wires : Bus} (hwires : ∀ w ∈ wires, n.IsInput w) (value : Nat) :
    (s.setBus wires value).Matches n circuit (state.setInputs wires value) := by
  unfold Simulation.setBus CircuitState.setInputs
  have hinputs : ∀ entry ∈ wires.zipIdx, n.IsInput entry.1 := by
    intro entry member
    exact hwires entry.1 (List.fst_mem_of_mem_zipIdx member)
  generalize wires.zipIdx = entries at hinputs ⊢
  induction entries generalizing s state with
  | nil => exact h
  | cons entry rest ih =>
    apply ih (h.setWire (hinputs entry (by simp)) _)
    intro later member
    exact hinputs later (by simp [member])

theorem Matches.overwrite {wires : Bus} (hwires : ∀ w ∈ wires, n.IsFlipFlop w) (value : Nat) :
    (s.overwrite wires value).Matches n circuit (state.setFlipFlops wires value) := by
  refine ⟨h.circuit_eq, ?_, by simp [Simulation.overwrite]⟩
  have hsources := h.sources
  dsimp only [Simulation.overwrite, CircuitState.setFlipFlops]
  have hflops : ∀ entry ∈ wires.zipIdx, n.IsFlipFlop entry.1 := by
    intro entry member
    exact hwires entry.1 (List.fst_mem_of_mem_zipIdx member)
  clear h
  generalize s.values = values at hsources ⊢
  generalize wires.zipIdx = entries at hflops ⊢
  induction entries generalizing values state with
  | nil => exact hsources
  | cons entry rest ih =>
    apply ih
    · exact hsources.setFlipFlop (hflops entry (by simp)) _
    · intro later member
      exact hflops later (by simp [member])

end Matches

theorem settled_settle (s : Simulation) : s.settle.settled = true := by
  unfold Simulation.settle
  split
  case isTrue hsettled => exact hsettled
  case isFalse => rfl

section Accepted

variable (hn : n.Accepted circuit)

include hn

/-- A new simulation stands for the initial state, in which everything is off. Its constants
are set before anything is called. -/
theorem matches_ofCircuit : (ofCircuit circuit).Matches n circuit .initial := by
  obtain ⟨order, rfl⟩ := hn.circuit_eq
  refine ⟨rfl, ?_, by simp [ofCircuit]⟩
  dsimp only [ofCircuit]
  rw [← Array.foldl_toList]
  refine ⟨?_, ?_, by simp⟩
  · rw [Netlist.size_foldl_writes Prod.fst Prod.snd, Array.size_replicate]
    rfl
  · intro w node hnode hsource
    have hw : w < n.size := (Array.getElem?_eq_some_iff.mp hnode).1
    by_cases hconstant : ∃ value, node = .constant value
    · obtain ⟨value, rfl⟩ := hconstant
      rw [Netlist.value?_constant hnode]
      apply Netlist.getElem?_foldl_writes Prod.fst Prod.snd
      · rw [Array.size_replicate]
        exact hw
      · rintro ⟨v, other⟩ member rfl
        have hother := (n.mem_constants_iff order v other).mp (Array.mem_def.mpr member)
        rw [hother] at hnode
        cases hnode
        rfl
      · exact ⟨(w, value), Array.mem_def.mp ((n.mem_constants_iff order w value).mpr hnode), rfl⟩
    · have hinitial : n.value? .initial w = some false := by
        cases node with
        | constant value => exact absurd ⟨value, rfl⟩ hconstant
        | input => exact Netlist.value?_input hnode
        | flipFlop next? => exact Netlist.value?_flipFlop hnode
        | nand a b => cases hsource
        | forward source? => cases hsource
      have hunwritten : ∀ entry ∈ (n.circuit order).constants.toList, entry.1 ≠ w := by
        rintro ⟨v, value⟩ member rfl
        have hother := (n.mem_constants_iff order v value).mp (Array.mem_def.mpr member)
        rw [hother, Option.some.injEq] at hnode
        exact hconstant ⟨value, hnode.symm⟩
      rw [Netlist.getElem?_foldl_writes_of_forall_ne Prod.fst Prod.snd _ _ hunwritten, hinitial]
      exact Array.getElem?_replicate.trans (if_pos hw)

variable (h : s.Matches n circuit state)

include h

theorem Matches.settle : s.settle.Matches n circuit state := by
  unfold Simulation.settle
  split
  case isTrue => exact h
  case isFalse =>
    obtain ⟨rfl, hsources, -⟩ := h
    have hvalues := hn.getElem?_settle hsources
    refine ⟨rfl, ?_, fun _ w => hvalues w⟩
    exact ⟨(hn.settling hsources).size, fun w _ _ _ => hvalues w, by simp⟩

/-- The samples are taken from the settled wires before any flip-flop changes, so all
flip-flops change at once, as in the state. -/
theorem Matches.commit (hsettled : s.settled = true) :
    (s.commit s.samples).Matches n circuit (state.tick n) := by
  refine ⟨h.circuit_eq, ?_, by simp [Simulation.commit]⟩
  obtain ⟨order, rfl⟩ := hn.circuit_eq
  let key (entry : Wire × Wire) := entry.1
  let sample (entry : Wire × Wire) := s.values.getD entry.2 false
  have hwrites : (s.commit s.samples).values = s.circuit.flipFlops.toList.foldl
      (fun values entry => values.setIfInBounds (key entry) (sample entry)) s.values := by
    have hzip : s.circuit.flipFlops.zip s.samples =
        s.circuit.flipFlops.map fun entry => (entry, sample entry) :=
      Array.map_prod_left_eq_zip.symm
    rw [Simulation.commit, hzip, ← Array.foldl_toList, Array.toList_map, List.foldl_map]
  rw [hwrites, h.circuit_eq]
  refine ⟨?_, ?_, by simp⟩
  · rw [Netlist.size_foldl_writes]
    exact h.sources.size
  · intro w node hnode hsource
    have hw : w < s.values.size := by
      rw [h.sources.size]
      exact (Array.getElem?_eq_some_iff.mp hnode).1
    -- a flip-flop is written with its sample, and no other source is written
    by_cases hflop : ∃ next, node = .flipFlop (some next)
    · obtain ⟨next, rfl⟩ := hflop
      have hnext : (state.tick n).flipFlops w = n.value state next := by
        simp [CircuitState.tick, hnode]
      rw [Netlist.value?_flipFlop hnode, hnext]
      apply Netlist.getElem?_foldl_writes key sample _ _ hw
      · rintro ⟨v, other⟩ member rfl
        have hother := (n.mem_flipFlops_iff order v other).mp (Array.mem_def.mpr member)
        rw [hother] at hnode
        cases hnode
        exact h.getD_values hsettled next
      · exact ⟨(w, next), Array.mem_def.mp ((n.mem_flipFlops_iff order w next).mpr hnode), rfl⟩
    · have hunwritten : ∀ entry ∈ (n.circuit order).flipFlops.toList, key entry ≠ w := by
        rintro ⟨v, next⟩ member rfl
        have hother := (n.mem_flipFlops_iff order v next).mp (Array.mem_def.mpr member)
        rw [hother, Option.some.injEq] at hnode
        exact hflop ⟨next, hnode.symm⟩
      rw [Netlist.getElem?_foldl_writes_of_forall_ne key sample _ _ hunwritten,
        h.sources.sources w node hnode hsource]
      apply Netlist.value?_congr_source hnode hsource
      · intro _
        rfl
      · rintro next? rfl
        cases next? with
        | none => exact absurd (.inr hnode) (hn.closed w)
        | some next => exact absurd ⟨next, rfl⟩ hflop

theorem Matches.tick : s.tick.Matches n circuit (state.tick n) :=
  (h.settle hn).commit hn s.settled_settle

omit h in
/-- The circuit finds a port as its netlist does: the first one of this name. -/
theorem port_eq (name : String) : circuit.port name =
    match n.ports.find? (·.name == name) with
    | some port => .ok port
    | none => .error (.unknownPort name) := by
  obtain ⟨order, rfl⟩ := hn.circuit_eq
  rfl

/-- A call gets the answer of the reference and stays with its state. This is the step of the
induction over a session, with one case for each kind of call. -/
theorem Matches.call {call : SimulationCall} (hcall : n.Admits call) :
    (s.call call).1 = (state.call n call).1 ∧
      (s.call call).2.Matches n circuit (state.call n call).2 := by
  have hsettle := h.settle hn
  cases call with
  | setWire w value => exact ⟨rfl, h.setWire hcall value⟩
  | setBus wires value => exact ⟨rfl, h.setBus hcall value⟩
  | setPort name value =>
    dsimp only [Simulation.call, CircuitState.call, Simulation.setPort]
    rw [h.circuit_eq, port_eq hn]
    cases hport : n.ports.find? (·.name == name) with
    | none => exact ⟨rfl, h⟩
    | some port =>
      have hname := Array.find?_some hport
      rw [beq_iff_eq] at hname
      exact ⟨rfl, h.setBus (hcall port (Array.mem_of_find?_eq_some hport) hname) value⟩
  | overwrite wires value => exact ⟨rfl, h.overwrite hcall value⟩
  | settle => exact ⟨rfl, hsettle⟩
  | tick => exact ⟨rfl, h.tick hn⟩
  | wire w => exact ⟨congrArg Answer.bit (hsettle.getD_values s.settled_settle w), hsettle⟩
  | bus wires =>
    exact ⟨congrArg Answer.number (hsettle.read_values s.settled_settle wires), hsettle⟩
  | port name =>
    dsimp only [Simulation.call, CircuitState.call, Simulation.port]
    rw [hsettle.circuit_eq, port_eq hn]
    cases n.ports.find? (·.name == name) with
    | none => exact ⟨rfl, hsettle⟩
    | some port =>
      exact ⟨congrArg Answer.number (hsettle.read_values s.settled_settle port.wires), hsettle⟩

theorem Matches.interact (calls : List SimulationCall) (hcalls : ∀ call ∈ calls, n.Admits call) :
    (interact Simulation.call s calls).1 = (interact (CircuitState.call n) state calls).1 := by
  have hstep (s : Simulation) (state : CircuitState) (h : s.Matches n circuit state) :=
    fun call member => h.call hn (hcalls call member)
  exact (interact_simulates hstep h).1

omit h in
/-- Whatever is called on a simulation, it stays with a state of the netlist. -/
theorem exists_matches_interact (calls : List SimulationCall)
    (hcalls : ∀ call ∈ calls, n.Admits call) :
    ∃ state, (interact Simulation.call (ofCircuit circuit) calls).2.Matches n circuit state := by
  have hstep (s : Simulation) (state : CircuitState) (h : s.Matches n circuit state) :=
    fun call member => h.call hn (hcalls call member)
  exact ⟨_, (interact_simulates hstep (matches_ofCircuit hn)).2⟩

end Accepted

theorem ticks_settle (s : Simulation) : s.settle.ticks = s.ticks := by
  unfold settle
  split <;> rfl

theorem ticks_setBus (s : Simulation) (wires : Bus) (value : Nat) :
    (s.setBus wires value).ticks = s.ticks := by
  unfold setBus
  induction wires.zipIdx generalizing s with
  | nil => rfl
  | cons entry rest ih =>
    have hfirst : (s.setWire entry.1 (value.testBit entry.2)).ticks = s.ticks := by
      unfold setWire
      split <;> rfl
    rw [List.foldl_cons, ih, hfirst]

/-- Only a tick counts as one, whatever else a call does to the simulation. -/
theorem ticks_call (s : Simulation) (call : SimulationCall) :
    (s.call call).2.ticks = s.ticks + [call].count .tick := by
  cases call with
  | setWire w value =>
    dsimp only [Simulation.call, setWire]
    split <;> rfl
  | setBus wires value => exact s.ticks_setBus wires value
  | setPort name value =>
    dsimp only [Simulation.call, setPort]
    cases s.circuit.port name with
    | error error => rfl
    | ok port => exact s.ticks_setBus port.wires value
  | overwrite wires value => rfl
  | tick =>
    have hsettle := s.ticks_settle
    exact congrArg (· + 1) hsettle
  | port name =>
    dsimp only [Simulation.call, port]
    cases s.settle.circuit.port name with
    | error error => exact s.ticks_settle
    | ok port => exact s.ticks_settle
  | settle => exact s.ticks_settle
  | wire w => exact s.ticks_settle
  | bus wires => exact s.ticks_settle

theorem ticks_interact (s : Simulation) (calls : List SimulationCall) :
    (interact Simulation.call s calls).2.ticks = s.ticks + calls.count .tick := by
  induction calls generalizing s with
  | nil => rfl
  | cons call rest ih =>
    have hrest := ih (s.call call).2
    have hfirst := s.ticks_call call
    have hcount : ([call] ++ rest).count .tick = [call].count .tick + rest.count .tick :=
      List.count_append
    rw [List.singleton_append] at hcount
    rw [hcount, ← Nat.add_assoc, ← hfirst]
    exact hrest

/-- Whatever is called on a simulation of an accepted netlist, each answer is the one of the
reference, where every wire is evaluated from the inputs and the flip-flops alone, and the
evaluation always ends. So neither the cached values, nor the mark that they are unsettled,
nor the order of the operations can be told from the answers. The ticks are counted as well.
-/
theorem answers_eq_reference (hn : n.Accepted circuit) (calls : List SimulationCall)
    (hcalls : ∀ call ∈ calls, n.Admits call) :
    (interact Simulation.call (ofCircuit circuit) calls).1 =
      (interact (CircuitState.call n) .initial calls).1 ∧
    (interact Simulation.call (ofCircuit circuit) calls).2.ticks = calls.count .tick ∧
    ∀ (state : CircuitState) (w : Wire), w < n.size →
      n.value? state w = some (n.value state w) := by
  refine ⟨(matches_ofCircuit hn).interact hn calls hcalls, ?_, hn.value?_eq_some⟩
  rw [ticks_interact]
  exact Nat.zero_add _

/-- A chain of two flip-flops behind an input, with the negation of its end. -/
def chainCalls : List BuilderCall :=
  [.input "in" 1, .flipFlop, .flipFlop, .latch 1 0, .latch 2 1, .nand 2 2, .output "out" [3]]

/-- Reads between the ticks of a chain, and a flip-flop that is overwritten. -/
def chainSession : List SimulationCall :=
  [.setPort "in" 1, .wire 3, .tick, .wire 2, .tick, .bus [1, 2], .overwrite [2] 0, .port "out"]

/-- Two flip-flops in a row, and a gate behind them: reads between the ticks, a port by its
name, and a flip-flop that is overwritten. -/
theorem answers_eq_reference_chain : ∃ circuit,
    (Netlist.empty.after chainCalls).Accepted circuit ∧
    (∀ call ∈ chainSession, (Netlist.empty.after chainCalls).Admits call) ∧
    (interact Simulation.call (ofCircuit circuit) chainSession).1 =
      (interact (CircuitState.call (Netlist.empty.after chainCalls)) .initial chainSession).1 := by
  have hwires : Netlist.empty.WiresExist chainCalls := by decide +kernel
  have hsize : (Netlist.empty.after chainCalls).size ≤ Netlist.capacity := by decide +kernel
  have haccepted := (Netlist.wellFormed_empty.after chainCalls hwires).accepted hsize
    (Netlist.compile_eq_ok_iff.mpr ⟨by decide +kernel, by decide +kernel, rfl⟩)
  have hinput : (Netlist.empty.after chainCalls).nodes[0]? = some .input := by decide +kernel
  have hflop : (Netlist.empty.after chainCalls).nodes[2]? = some (.flipFlop (some 1)) := by
    decide +kernel
  have hports : (Netlist.empty.after chainCalls).ports =
      #[⟨"in", .input, [0]⟩, ⟨"out", .output, [3]⟩] := by
    decide +kernel
  have hadmits : ∀ call ∈ chainSession, (Netlist.empty.after chainCalls).Admits call := by
    simp [chainSession, Netlist.Admits, Netlist.IsInput, Netlist.IsFlipFlop, hports, hinput, hflop]
  exact ⟨_, haccepted, hadmits, (answers_eq_reference haccepted chainSession hadmits).1⟩

end Simulation

end NandComputer
