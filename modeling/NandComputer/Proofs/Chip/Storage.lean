import NandComputer.Proofs.Chip.Observing
import NandComputer.Proofs.Netlist.Sharing

/-!
Registers and counters over time. Their outputs are flip-flops, so between ticks nothing that
is driven, read or written elsewhere changes them, and a tick takes them to the next contents
of a recurrence, from what they hold and what their wires read before it.
-/

namespace NandComputer

namespace CircuitState

/-- Flip-flops keep their values in a call that is no tick and does not write them. Driving
inputs and reading leave the state as it is. -/
theorem flipFlops_call (N : Netlist) (state : CircuitState) {call : SimulationCall}
    (htick : call ≠ .tick) {w : Wire} (hw : w ∉ call.driven) :
    (state.call N call).2.flipFlops w = state.flipFlops w := by
  cases call with
  | setBus wires value => exact congrFun (state.flipFlops_setInputs wires value) w
  | setPort name value =>
    dsimp only [CircuitState.call]
    cases N.ports.find? (·.name == name) with
    | none => rfl
    | some port => exact congrFun (state.flipFlops_setInputs port.wires value) w
  | overwrite wires value =>
    have hwritten := congrFun (state.flipFlops_setFlipFlops wires value) w
    refine hwritten.trans (overlay_of_forall_ne _ _ _ ?_)
    rintro entry member rfl
    exact hw (List.fst_mem_of_mem_zipIdx member)
  | tick => exact absurd rfl htick
  | port name =>
    dsimp only [CircuitState.call]
    cases N.ports.find? (·.name == name) <;> rfl
  | _ => rfl

end CircuitState

/-- What is read on flip-flops is what the state has for them, whatever the gates around them
read. -/
theorem Simulation.Matches.number_flipFlops {N : Netlist} {circuit : Circuit}
    {state : CircuitState} {s : Simulation} (h : s.Matches N circuit state)
    (hN : N.Accepted circuit) {bus : Bus} (hflops : ∀ w ∈ bus, N.IsFlipFlop w) :
    s.number bus = numberOf (bus.map state.flipFlops) := by
  rw [number, h.reading_eq hN]
  apply congrArg numberOf
  apply List.map_congr_left
  intro w hw
  exact Netlist.value_flipFlop (hflops w hw)

theorem Frame.HasRegister.hasBus {frame : Frame} {base n : Netlist} {width : Nat} {bus : Bus}
    (h : frame.HasRegister base width bus n) : frame.HasBus width bus n :=
  ⟨h.sound, h.latched.has, h.length⟩

namespace Netlist.Runs

variable {N : Netlist} {s : Simulation} (h : N.Runs s)

include h

theorem ticked : N.Ticked s.reading s.tick.reading := by
  obtain ⟨circuit, state, hN, hmatches⟩ := h.exists_matches
  rw [hmatches.reading_eq hN, (hmatches.tick hN).reading_eq hN]
  exact N.ticked_value state

theorem tick : N.Runs s.tick := by
  have hadmits : N.Admits .tick := trivial
  exact h.call hadmits

section FlipFlops

variable {bus : Bus} (hflops : ∀ w ∈ bus, N.IsFlipFlop w)

include hflops

theorem peek_eq_number : s.peek bus = s.number bus := by
  obtain ⟨circuit, state, hN, hmatches⟩ := h.exists_matches
  rw [hmatches.peek_flipFlops hflops, Simulation.number, hmatches.reading_eq hN]

theorem overwrite (contents : Nat) : N.Runs (s.overwrite bus contents) := by
  have hadmits : N.Admits (.overwrite bus contents) := hflops
  exact h.call hadmits

/-- Any contents that fit can be put into flip-flops, and are then read from them. -/
theorem number_overwrite (hnodup : bus.Nodup) {contents : Nat} (hlt : contents < 2 ^ bus.length) :
    (s.overwrite bus contents).number bus = contents := by
  obtain ⟨circuit, state, hN, hmatches⟩ := h.exists_matches
  have hvalue : (BitVec.ofNat bus.length contents).toNat = contents := Nat.mod_eq_of_lt hlt
  have hwritten := carries_overlay state.flipFlops hnodup rfl (BitVec.ofNat bus.length contents)
  rw [hvalue] at hwritten
  rw [(hmatches.overwrite hflops contents).number_flipFlops hN hflops,
    CircuitState.flipFlops_setFlipFlops, (Bus.carries_iff.mp hwritten).2, hvalue]

theorem number_drive {buses : List (Bus × Nat)}
    (hinputs : ∀ entry ∈ buses, ∀ w ∈ entry.1, N.IsInput w) :
    (s.drive buses).number bus = s.number bus := by
  obtain ⟨circuit, state, hN, hmatches⟩ := h.exists_matches
  rw [(hmatches.drive hinputs).number_flipFlops hN hflops, hmatches.number_flipFlops hN hflops]

/-- A call that is no tick does not change what is stored, unless it writes the flip-flops
themselves. -/
theorem number_call {call : SimulationCall} (hcall : N.Admits call) (htick : call ≠ .tick)
    (hdriven : ∀ w ∈ call.driven, w ∉ bus) : (s.call call).2.number bus = s.number bus := by
  obtain ⟨circuit, state, hN, hmatches⟩ := h.exists_matches
  obtain ⟨-, hafter⟩ := hmatches.call hN hcall
  rw [hafter.number_flipFlops hN hflops, hmatches.number_flipFlops hN hflops]
  apply congrArg numberOf
  apply List.map_congr_left
  intro w hw
  have hkept : w ∉ call.driven := fun hwritten => hdriven w hwritten hw
  exact state.flipFlops_call N htick hkept

end FlipFlops

end Netlist.Runs

namespace Chip

open Build

/-- A register or a counter, with the wires that control it. -/
inductive Storage where
  | register (load : Wire)
  | counter (load inc reset : Wire)

namespace Storage

def controls : Storage → List Wire
  | .register load => [load]
  | .counter load inc reset => [load, inc, reset]

def chip (input : Bus) : Storage → Build Bus
  | .register load => Chip.register input load
  | .counter load inc reset => programCounter input load inc reset

/-- What is held after a tick, from what the control wires and the input read before it. -/
def next (width : Nat) (v : Wire → Bool) (data held : Nat) : Storage → Nat
  | .register load => if v load then data else held
  | .counter load inc reset =>
    if v reset then 0
    else if v load then data
    else if v inc then (held + 1) % 2 ^ width
    else held

/-- What is held after some calls, if every tick takes what is held to what is next by the
wires as they read then. -/
def contentsAfter (k : Storage) (width : Nat) (input : Bus) :
    Simulation → Nat → List SimulationCall → Nat
  | _, held, [] => held
  | s, held, call :: rest =>
    k.contentsAfter width input (s.call call).2
      (if call = .tick then k.next width s.reading (s.number input) held else held) rest

/-- Without a tick among the calls, the recurrence makes no step. -/
theorem contentsAfter_of_notMem (k : Storage) (width : Nat) (input : Bus) (s : Simulation)
    (held : Nat) {calls : List SimulationCall} (htick : .tick ∉ calls) :
    k.contentsAfter width input s held calls = held := by
  induction calls generalizing s with
  | nil => rfl
  | cons call rest ih =>
    rw [List.mem_cons, not_or] at htick
    obtain ⟨hfirst, hrest⟩ := htick
    rw [contentsAfter, if_neg (Ne.symm hfirst)]
    exact ih (s.call call).2 hrest

/-- Bits for the control wires and a number for the input. -/
def driving (k : Storage) (input : Bus) (v : Wire → Bool) (data : Nat) : List (Bus × Nat) :=
  (input, data) :: k.controls.map fun w => ([w], (v w).toNat)

theorem map_fst_driving (k : Storage) (input : Bus) (v : Wire → Bool) (data : Nat) :
    (k.driving input v data).map Prod.fst = input :: k.controls.map fun w => [w] := by
  simp [driving]

/-- The next contents depend on the control wires and on nothing else that can be read. -/
theorem next_congr (k : Storage) (width : Nat) {v after : Wire → Bool} (data held : Nat)
    (hsame : ∀ w ∈ k.controls, v w = after w) :
    k.next width v data held = k.next width after data held := by
  cases k with
  | register load =>
    have hload := hsame load (by simp [controls])
    rw [next, next, hload]
  | counter load inc reset =>
    have hload := hsame load (by simp [controls])
    have hinc := hsame inc (by simp [controls])
    have hreset := hsame reset (by simp [controls])
    rw [next, next, hload, hinc, hreset]

end Storage

section FlipFlops

-- the instances of an action grow with its length
set_option synthInstance.maxSize 1000

/-- A bit is the first node that it adds. -/
theorem reaches_bit_first (n : Netlist) (input load : Wire) :
    Reaches n (bit input load) (n.size + 5) fun w n' => w = n.size ∧ n.size < n'.size := by
  have hsize : ((bit input load).run n).2.size = n.size + 5 := by
    refine (Netlist.size_connectFlipFlop _ _ _).trans ?_
    simp [Netlist.size, Netlist.append]
  refine ⟨Nat.le_of_eq hsize, rfl, ?_⟩
  omega

theorem reaches_register_nodup (n : Netlist) (input : Bus) (load : Wire) :
    Reaches n (register input load) (n.size + input.length * 5) fun out _ => out.Nodup := by
  have hmap := Reaches.mapM (n := n) (f := fun wire => bit wire load)
    (J := fun bits n' => bits.Nodup ∧ n'.Has bits) input 5 ⟨.nil, Netlist.has_nil⟩ ?_
  · exact hmap.imp fun _ _ _ h => h.2.1
  · -- the bits so far are nodes of the netlist, and the next one is new
    rintro wire - done n' ⟨hnodup, hhas⟩
    apply (reaches_bit_first n' wire load).imp
    rintro w n'' hle ⟨rfl, hlt⟩
    have hnew : n'.size ∉ done := fun hold => Nat.lt_irrefl _ (hhas _ hold)
    have hlonger := hnodup.concat hnew
    rw [List.concat_eq_append] at hlonger
    have hlast : n''.Has [n'.size] := Netlist.has_cons.mpr ⟨hlt, Netlist.has_nil⟩
    exact ⟨hlonger, (hhas.mono (Nat.le_of_lt hlt)).append hlast⟩

variable {N : Netlist} (hN : N.Finished)

include hN

theorem ensures_bit_flipFlop (input load : Wire) : Ensures N (bit input load) N.IsFlipFlop := by
  apply (ensures_true flipFlop).bind
  intro out _
  apply (ensures_true (mux out input load)).bind
  intro next _
  apply (ensures_latch hN out next).bind
  intro _ hflop
  exact ensures_pure ⟨_, hflop⟩

theorem ensures_register_flipFlops (input : Bus) (load : Wire) :
    Ensures N (register input load) fun out => out.Nodup ∧ ∀ w ∈ out, N.IsFlipFlop w := by
  have hbits := Ensures.forall_mapM input fun wire _ => ensures_bit_flipFlop hN wire load
  exact ⟨fun n hle => ⟨(reaches_register_nodup n input load).result, hbits.result n hle⟩⟩

theorem ensures_programCounter_flipFlops (input : Bus) (load inc reset : Wire) :
    Ensures N (programCounter input load inc reset) fun out =>
      out.Nodup ∧ ∀ w ∈ out, N.IsFlipFlop w := by
  apply (ensures_true (forwardBus input.length)).bind
  intro current _
  apply (ensures_true (increment current)).bind
  intro successor _
  apply (ensures_true (muxBus current successor inc)).bind
  intro stepped _
  apply (ensures_true (muxBus stepped input load)).bind
  intro loaded _
  apply (ensures_true (constant input.length 0)).bind
  intro zeros _
  apply (ensures_true (muxBus loaded zeros reset)).bind
  intro next _
  apply (ensures_true one).bind
  intro always _
  apply (ensures_register_flipFlops hN next always).bind
  intro out hout
  apply (ensures_true (driveBus current out)).bind
  intro _ _
  exact ensures_pure hout

end FlipFlops

namespace Storage

section Ticks

variable {k : Storage} {width : Nat} {N : Netlist} {s : Simulation} {input out : Bus}
  (h : N.Runs s) (hinput : input.length = width) (hadded : (k.chip input).AddedTo N out)

include h hadded

/-- The outputs of a register or a counter are flip-flops of their own, no two of them the
same. -/
theorem flipFlops : out.Nodup ∧ ∀ w ∈ out, N.IsFlipFlop w := by
  cases k with
  | register load => exact (ensures_register_flipFlops h.finished input load).of_addedTo hadded
  | counter load inc reset =>
    exact (ensures_programCounter_flipFlops h.finished input load inc reset).of_addedTo hadded

include hinput

/-- A tick takes a register or a counter to the next contents of its recurrence, from what it
holds and what its wires read before the tick. -/
theorem number_tick : out.length = width ∧
    s.tick.number out = k.next width s.reading (s.number input) (s.number out) := by
  have hword := s.carries_number hinput
  have hdata : (BitVec.ofNat width (s.number input)).toNat = s.number input := hword.number_eq.symm
  cases k with
  | register load =>
    have hregister := ensures_register_carries h.finished h.settled h.ticked hword load
    obtain ⟨hlength, hnext⟩ := hregister.of_addedTo hadded
    have hheld := s.carries_number hlength
    refine ⟨hlength, ?_⟩
    rw [(hnext _ hheld).number_eq, next]
    cases s.reading load with
    | true => exact hdata
    | false => exact hheld.number_eq.symm
  | counter load inc reset =>
    have hcounter := ensures_programCounter h.finished h.settled h.ticked hword load inc reset
    obtain ⟨hlength, hnext⟩ := hcounter.of_addedTo hadded
    have hheld := s.carries_number hlength
    refine ⟨hlength, ?_⟩
    rw [(hnext _ hheld).number_eq, next]
    -- in the order of the multiplexers, from the last one back
    cases s.reading reset with
    | true => exact BitVec.toNat_zero
    | false =>
      cases s.reading load with
      | true => exact hdata
      | false =>
        cases s.reading inc with
        | true => exact toNat_ofNat_add_one _ _
        | false => exact hheld.number_eq.symm

/-- What is held changes at ticks only, and as the recurrence says. The induction is over the
calls: a tick makes one step of the recurrence, and any other call leaves what is stored. -/
theorem number_interact {calls : List SimulationCall}
    (hcalls : ∀ call ∈ calls, N.Admits call ∧ ∀ w ∈ call.driven, w ∉ out) :
    (interact Simulation.call s calls).2.number out =
      k.contentsAfter width input s (s.number out) calls := by
  obtain ⟨-, hflops⟩ := flipFlops h hadded
  induction calls generalizing s with
  | nil => rfl
  | cons call rest ih =>
    obtain ⟨⟨hadmits, hdriven⟩, hrest⟩ := List.forall_mem_cons.mp hcalls
    have hfirst : (s.call call).2.number out =
        if call = .tick then k.next width s.reading (s.number input) (s.number out)
        else s.number out := by
      split
      case isTrue htick =>
        rw [htick]
        exact (number_tick h hinput hadded).2
      case isFalse htick => exact h.number_call hflops hadmits htick hdriven
    rw [contentsAfter, ← hfirst]
    exact ih (h.call hadmits) hrest

section Turns

variable (hfree : N.FreeInputs (input :: k.controls.map fun w => [w]))

include hfree

omit hadded in
theorem exists_driving (v : Wire → Bool) {data : Nat} (hdata : data < 2 ^ width) :
    N.Runs (s.drive (k.driving input v data)) ∧
      (s.drive (k.driving input v data)).number input = data ∧
      ∀ w ∈ k.controls, (s.drive (k.driving input v data)).reading w = v w := by
  obtain ⟨hruns, hnumber⟩ := h.exists_drive (k.driving input v data) (by rwa [map_fst_driving])
  refine ⟨hruns, hnumber (input, data) (by simp [driving]) (by rwa [hinput]), ?_⟩
  intro w hw
  have hentry : ([w], (v w).toNat) ∈ k.driving input v data := by
    rw [driving, List.mem_cons, List.mem_map]
    exact .inr ⟨w, hw, rfl⟩
  exact Simulation.reading_of_number _ (hnumber _ hentry (Bool.toNat_lt (v w)))

theorem number_turn (v : Wire → Bool) {data : Nat} (hdata : data < 2 ^ width) :
    (s.drive (k.driving input v data)).tick.number out = k.next width v data (s.number out) := by
  obtain ⟨-, hflops⟩ := flipFlops h hadded
  obtain ⟨hruns, hnumber, hcontrols⟩ := exists_driving h hinput hfree v hdata
  have hinputs : ∀ entry ∈ k.driving input v data, ∀ w ∈ entry.1, N.IsInput w := by
    intro entry member
    apply hfree.inputs
    rw [← map_fst_driving k input v data]
    exact List.mem_map_of_mem member
  rw [(number_tick hruns hinput hadded).2, hnumber, h.number_drive hflops hinputs]
  exact k.next_congr width data _ hcontrols

/-- Turns of driving the inputs and a tick are the recurrence on what is driven, so any
sequence of inputs can be given. -/
theorem number_turns {turns : List ((Wire → Bool) × Nat)}
    (hturns : ∀ turn ∈ turns, turn.2 < 2 ^ width) :
    (turns.foldl (fun s turn => (s.drive (k.driving input turn.1 turn.2)).tick) s).number out =
      turns.foldl (fun held turn => k.next width turn.1 turn.2 held) (s.number out) := by
  induction turns generalizing s with
  | nil => rfl
  | cons turn rest ih =>
    obtain ⟨hturn, hrest⟩ := List.forall_mem_cons.mp hturns
    obtain ⟨hruns, -⟩ := exists_driving h hinput hfree turn.1 hturn
    rw [List.foldl_cons, List.foldl_cons, ← number_turn h hinput hadded hfree turn.1 hturn]
    exact ih hruns.tick hrest

end Turns

end Ticks

section Counting

/-- Four bits of input and three control wires. -/
def countingInput : Bus := [0, 1, 2, 3]

def countingRegister : Storage := .register 4

def countingCounter : Storage := .counter 4 5 6

/-- A register and a counter of four bits on the same input wires, in a netlist that compiles.
-/
theorem exists_counting : ∃ N circuit stored counted, N.Runs (.ofCircuit circuit) ∧
    Netlist.ofInputs 7 ≤ N ∧ (countingRegister.chip countingInput).AddedTo N stored ∧
    (countingCounter.chip countingInput).AddedTo N counted := by
  have hinput : (Netlist.ofInputs 7).Has countingInput := Netlist.has_ofInputs (by decide)
  have hcontrols : (Netlist.ofInputs 7).Has [4, 5, 6] := Netlist.has_ofInputs (by decide)
  have hload : 4 < (Netlist.ofInputs 7).size := hcontrols 4 (by simp)
  obtain ⟨N₁, stored, hN₁, hle₁, hsize₁, -, -, hstored⟩ :=
    (Netlist.composed_ofInputs 7).exists_addedTo (.register countingInput 4)
      (Netlist.has_cons.mpr ⟨hload, hinput⟩) fun _ h =>
        (reaches_register h hinput rfl hload).imp fun _ _ _ hregister => hregister.hasBus
  have hinput₁ := hinput.mono (Netlist.size_le hle₁)
  have hcontrols₁ := hcontrols.mono (Netlist.size_le hle₁)
  obtain ⟨N₂, counted, hN₂, hle₂, hsize₂, -, -, hcounted⟩ :=
    hN₁.exists_addedTo (.programCounter countingInput 4 5 6)
      (Netlist.has_append.mpr ⟨hcontrols₁, hinput₁⟩) fun _ h =>
        (reaches_programCounter h hinput₁ rfl (hcontrols₁ 4 (by simp)) (hcontrols₁ 5 (by simp))
          (hcontrols₁ 6 (by simp))).imp fun _ _ _ hcounter => hcounter.hasBus
  have hstart := Netlist.size_ofInputs_le 7
  have hlength : countingInput.length = 4 := rfl
  rw [hlength] at hsize₁ hsize₂
  obtain ⟨circuit, hruns⟩ := hN₂.exists_runs (by omega)
  exact ⟨N₂, circuit, stored, counted, hruns, Netlist.le_trans hle₁ hle₂, hstored.of_le hle₂,
    hcounted⟩

end Counting

end Storage

section Recurrence

variable {k : Storage} {width : Nat} {N : Netlist} {s : Simulation} {input out : Bus}
  (h : N.Runs s) (hinput : input.length = width) (hadded : (k.chip input).AddedTo N out)

include h hinput hadded

/-- A register takes its input when it is loaded, and a counter is reset before it is loaded
and loaded before it counts. Any contents can be put into them. Whatever else is called, they
change at ticks only, and then to the next contents of the recurrence. Wires that are inputs
can read anything at every tick, so every sequence of inputs is covered. -/
theorem storage_follows_recurrence :
    out.length = width ∧
    (∀ contents < 2 ^ width,
      N.Runs (s.overwrite out contents) ∧ (s.overwrite out contents).number out = contents) ∧
    (∀ calls : List SimulationCall,
      (∀ call ∈ calls, N.Admits call ∧ ∀ w ∈ call.driven, w ∉ out) →
      (interact Simulation.call s calls).2.number out =
          k.contentsAfter width input s (s.number out) calls ∧
        (interact Simulation.call s calls).2.peek out =
          (interact Simulation.call s calls).2.number out ∧
        (.tick ∉ calls → (interact Simulation.call s calls).2.number out = s.number out)) ∧
    (N.FreeInputs (input :: k.controls.map fun w => [w]) →
      ∀ contents < 2 ^ width, ∀ turns : List ((Wire → Bool) × Nat),
        (∀ turn ∈ turns, turn.2 < 2 ^ width) →
        (turns.foldl (fun s turn => (s.drive (k.driving input turn.1 turn.2)).tick)
          (s.overwrite out contents)).number out =
            turns.foldl (fun held turn => k.next width turn.1 turn.2 held) contents) := by
  obtain ⟨hnodup, hflops⟩ := Storage.flipFlops h hadded
  obtain ⟨hlength, -⟩ := Storage.number_tick h hinput hadded
  have hpreset (contents : Nat) (hlt : contents < 2 ^ width) :
      (s.overwrite out contents).number out = contents :=
    h.number_overwrite hflops hnodup (by rwa [hlength])
  refine ⟨hlength, fun contents hlt => ⟨h.overwrite hflops contents, hpreset contents hlt⟩,
    ?calls, ?turns⟩
  case calls =>
    intro calls hcalls
    have hruns := h.interact fun call member => (hcalls call member).1
    have hnumber := Storage.number_interact h hinput hadded hcalls
    refine ⟨hnumber, hruns.peek_eq_number hflops, ?_⟩
    intro htick
    rw [hnumber, Storage.contentsAfter_of_notMem k width input s _ htick]
  case turns =>
    intro hfree contents hlt turns hturns
    have hrun := Storage.number_turns (h.overwrite hflops contents) hinput hadded hfree hturns
    rwa [hpreset contents hlt] at hrun

omit h hinput hadded in
/-- A register takes five and keeps it while three is on its input. A counter counts, is
loaded with its greatest number, and begins again behind it. -/
theorem storage_follows_recurrence_counting : ∃ N circuit stored counted,
    N.Runs (.ofCircuit circuit) ∧ Storage.countingInput.length = 4 ∧
    (Storage.countingRegister.chip Storage.countingInput).AddedTo N stored ∧
    (Storage.countingCounter.chip Storage.countingInput).AddedTo N counted ∧
    ([(fun w => w == 4, 5), (fun _ => false, 3)].foldl (fun s turn =>
      (s.drive (Storage.countingRegister.driving Storage.countingInput turn.1 turn.2)).tick)
      ((Simulation.ofCircuit circuit).overwrite stored 9)).number stored = 5 ∧
    ([(fun w => w == 5, 0), (fun w => w != 6, 15), (fun w => w == 5, 0), (fun w => w == 5, 7)].foldl
      (fun s turn =>
        (s.drive (Storage.countingCounter.driving Storage.countingInput turn.1 turn.2)).tick)
      ((Simulation.ofCircuit circuit).overwrite counted 9)).number counted = 1 := by
  obtain ⟨N, circuit, stored, counted, hruns, hle, hstored, hcounted⟩ := Storage.exists_counting
  have hlength : Storage.countingInput.length = 4 := rfl
  have hcounterFree : N.FreeInputs [Storage.countingInput, [4], [5], [6]] :=
    (Netlist.freeInputs_ofInputs (by decide) (by decide)).of_le hle
  have hregisterFree : N.FreeInputs [Storage.countingInput, [4]] := hcounterFree.sublist (by simp)
  obtain ⟨-, -, -, hregister⟩ := storage_follows_recurrence hruns hlength hstored
  obtain ⟨-, -, -, hcounter⟩ := storage_follows_recurrence hruns hlength hcounted
  exact ⟨N, circuit, stored, counted, hruns, hlength, hstored, hcounted,
    hregister hregisterFree 9 (by decide) _ (by decide),
    hcounter hcounterFree 9 (by decide) _ (by decide)⟩

end Recurrence

end Chip

end NandComputer
