import NandComputer.Proofs.Chip.Composed
import NandComputer.Proofs.Chip.Driving

/-!
Observation of chips in a circuit that runs. Whatever has been called on a simulation, the
wires read settled values of its netlist, so a chip that is anywhere in the netlist shows
what it ensures. Operands that are inputs can be given any numbers.
-/

namespace NandComputer

namespace Simulation

/-- What the wires read once the circuit has settled. -/
def reading (s : Simulation) (w : Wire) : Bool := (s.wire w).1

/-- The number that is read on a bus, wire by wire. -/
def number (s : Simulation) (bus : Bus) : Nat := numberOf (bus.map s.reading)

section Number

variable (s : Simulation) {bus : Bus}

theorem number_singleton (w : Wire) : s.number [w] = (s.reading w).toNat := by
  simp [number, numberOf]

/-- A single wire is a bus of one bit, so its number decides its value. -/
theorem reading_of_number {w : Wire} {value : Bool} (h : s.number [w] = value.toNat) :
    s.reading w = value := by
  rw [number_singleton] at h
  have hsame := congrArg Bool.ofNat h
  rwa [Bool.ofNat_toNat, Bool.ofNat_toNat] at hsame

theorem carries_number {width : Nat} (hlength : bus.length = width) :
    bus.Carries s.reading (BitVec.ofNat width (s.number bus)) :=
  eq_bitsOf_ofNat (by rw [List.length_map, hlength])

end Number

/-- Driving buses is a call for each of them, so what holds of all sessions holds of driving.
-/
theorem drive_eq_interact (s : Simulation) (buses : List (Bus × Nat)) :
    s.drive buses =
      (interact Simulation.call s (buses.map fun entry => .setBus entry.1 entry.2)).2 := by
  induction buses generalizing s with
  | nil => rfl
  | cons entry rest ih => exact ih (s.setBus entry.1 entry.2)

theorem Matches.reading_eq {N : Netlist} {circuit : Circuit} {state : CircuitState} {s : Simulation}
    (h : s.Matches N circuit state) (hN : N.Accepted circuit) : s.reading = N.value state :=
  funext (h.wire_eq hN)

end Simulation

theorem Bus.Carries.number_eq {s : Simulation} {bus : Bus} {width : Nat} {word : BitVec width}
    (h : bus.Carries s.reading word) : s.number bus = word.toNat :=
  (Bus.carries_iff.mp h).2

/-- The netlist compiles, and the simulation is what some calls have made of its circuit. -/
structure Netlist.Runs (N : Netlist) (s : Simulation) : Prop where
  wellFormed : N.WellFormed
  size : N.size ≤ Netlist.capacity
  reached : ∃ circuit calls, N.compile = .ok circuit ∧ (∀ call ∈ calls, N.Admits call) ∧
    (interact Simulation.call (.ofCircuit circuit) calls).2 = s

/-- The buses are inputs of the netlist and have no wire twice. -/
structure Netlist.FreeInputs (N : Netlist) (buses : List Bus) : Prop where
  inputs : ∀ bus ∈ buses, ∀ w ∈ bus, N.IsInput w
  nodup : buses.flatten.Nodup

/-- The action was performed on the way to the netlist, with the result. -/
def Build.AddedTo {α : Type} (m : Build α) (N : Netlist) (result : α) : Prop :=
  ∃ n : Netlist, (m.run n).2 ≤ N ∧ (m.run n).1 = result

theorem Netlist.FreeInputs.sublist {N : Netlist} {buses part : List Bus} (h : N.FreeInputs buses)
    (hpart : part.Sublist buses) : N.FreeInputs part :=
  ⟨fun bus member => h.inputs bus (hpart.mem member), h.nodup.sublist hpart.flatten⟩

/-- Inputs that are free stay so when the netlist grows, since nodes are only added. -/
theorem Netlist.FreeInputs.of_le {n N : Netlist} {buses : List Bus} (h : n.FreeInputs buses)
    (hle : n ≤ N) : N.FreeInputs buses :=
  ⟨fun bus member w hw => (h.inputs bus member w hw).of_le hle, h.nodup⟩

theorem Build.AddedTo.of_le {α : Type} {m : Build α} {n N : Netlist} {result : α}
    (h : m.AddedTo n result) (hle : n ≤ N) : m.AddedTo N result := by
  obtain ⟨start, hstart, hresult⟩ := h
  exact ⟨start, Netlist.le_trans hstart hle, hresult⟩

theorem Build.addedTo_run {α : Type} (m : Build α) (n : Netlist) :
    m.AddedTo (m.run n).2 (m.run n).1 :=
  ⟨n, Netlist.le_refl _, rfl⟩

/-- What an action ensures, it has ensured wherever it was performed. The netlist may have
grown around it before and after. -/
theorem Build.Ensures.of_addedTo {α : Type} {N : Netlist} {m : Build α} {P : α → Prop} {result : α}
    (h : Ensures N m P) (hadded : m.AddedTo N result) : P result := by
  obtain ⟨n, hle, rfl⟩ := hadded
  exact h.result n hle

namespace Netlist.Runs

variable {N : Netlist} {s : Simulation}

theorem of_compile {circuit : Circuit} (hwell : N.WellFormed) (hsize : N.size ≤ capacity)
    (hok : N.compile = .ok circuit) : N.Runs (.ofCircuit circuit) :=
  ⟨hwell, hsize, circuit, [], hok, by simp, rfl⟩

variable (h : N.Runs s)

include h

theorem exists_matches : ∃ circuit state, N.Accepted circuit ∧ s.Matches N circuit state := by
  obtain ⟨circuit, calls, hcompile, hcalls, rfl⟩ := h.reached
  have hN := h.wellFormed.accepted h.size hcompile
  obtain ⟨state, hmatches⟩ := Simulation.exists_matches_interact hN calls hcalls
  exact ⟨circuit, state, hN, hmatches⟩

theorem finished : N.Finished := by
  obtain ⟨circuit, -, hN, -⟩ := h.exists_matches
  exact .of_wellFormed h.wellFormed hN.defects

/-- What is read is what the netlist computes, in every running simulation and after any
calls. This is where the incremental simulation is used no further than by its specification.
-/
theorem settled : N.Settled s.reading := by
  obtain ⟨circuit, state, hN, hmatches⟩ := h.exists_matches
  rw [hmatches.reading_eq hN]
  exact hN.settled state

theorem call {call : SimulationCall} (hcall : N.Admits call) : N.Runs (s.call call).2 := by
  obtain ⟨circuit, calls, hcompile, hcalls, rfl⟩ := h.reached
  refine ⟨h.wellFormed, h.size, circuit, calls ++ [call], hcompile, ?_, ?_⟩
  · intro other member
    rcases List.mem_append.mp member with hold | hnew
    · exact hcalls other hold
    · rw [List.mem_singleton.mp hnew]
      exact hcall
  · exact interact_concat _ calls call

theorem interact {calls : List SimulationCall} (hcalls : ∀ call ∈ calls, N.Admits call) :
    N.Runs (interact Simulation.call s calls).2 :=
  interact_preserves (fun _ hs call member => hs.call (hcalls call member)) h

/-- Inputs read the numbers that they are driven with, if these fit, and no input is driven
twice. -/
theorem exists_drive (buses : List (Bus × Nat)) (hfree : N.FreeInputs (buses.map Prod.fst)) :
    N.Runs (s.drive buses) ∧ ∀ entry ∈ buses, entry.2 < 2 ^ entry.1.length →
      (s.drive buses).number entry.1 = entry.2 := by
  have hbus {entry : Bus × Nat} (member : entry ∈ buses) : ∀ w ∈ entry.1, N.IsInput w :=
    hfree.inputs entry.1 (List.mem_map_of_mem member)
  have hruns : N.Runs (s.drive buses) := by
    rw [s.drive_eq_interact]
    apply h.interact
    intro call member
    obtain ⟨entry, hentry, rfl⟩ := List.mem_map.mp member
    exact hbus hentry
  refine ⟨hruns, ?_⟩
  intro entry member hlt
  have hinputs : ∀ w ∈ buses.flatMap Prod.fst, N.IsInput w := by
    intro w hw
    obtain ⟨other, hother, hw⟩ := List.mem_flatMap.mp hw
    exact hbus hother w hw
  obtain ⟨circuit, state, hN, hmatches⟩ := h.exists_matches
  obtain ⟨driven, hdriven, -, hcarries⟩ := hmatches.exists_drive hinputs hfree.nodup
  have hvalue : (BitVec.ofNat entry.1.length entry.2).toNat = entry.2 := Nat.mod_eq_of_lt hlt
  have hword : entry.1.Carries (N.value driven) (BitVec.ofNat entry.1.length entry.2) :=
    hcarries rfl (by rwa [hvalue])
  rw [← hdriven.reading_eq hN] at hword
  rw [hword.number_eq, hvalue]

/-- Buses that are driven with a list of numbers read that list, each its own number. -/
theorem exists_drive_zip {buses : List Bus} {values : List Nat}
    (hcount : buses.length = values.length) (hfree : N.FreeInputs buses)
    (hvalues : ∀ entry ∈ buses.zip values, entry.2 < 2 ^ entry.1.length) :
    N.Runs (s.drive (buses.zip values)) ∧
      buses.map (s.drive (buses.zip values)).number = values := by
  have hbuses : (buses.zip values).map Prod.fst = buses := List.map_fst_zip (Nat.le_of_eq hcount)
  obtain ⟨hruns, hnumber⟩ := h.exists_drive (buses.zip values) (by rwa [hbuses])
  refine ⟨hruns, ?_⟩
  calc buses.map (s.drive (buses.zip values)).number
    _ = (buses.zip values).map fun entry => (s.drive (buses.zip values)).number entry.1 :=
      (map_zip_fst hcount _).symm
    _ = (buses.zip values).map Prod.snd :=
      List.map_congr_left fun entry member => hnumber entry member (hvalues entry member)
    _ = values := List.map_snd_zip (Nat.le_of_eq hcount.symm)

theorem exists_operands {width : Nat} {a b : Bus} (ha : a.length = width) (hb : b.length = width)
    (hfree : N.FreeInputs [a, b]) {x y : Nat} (hx : x < 2 ^ width) (hy : y < 2 ^ width) :
    N.Runs (s.drive [(a, x), (b, y)]) ∧ (s.drive [(a, x), (b, y)]).number a = x ∧
      (s.drive [(a, x), (b, y)]).number b = y := by
  have hlimits : ∀ entry ∈ [a, b].zip [x, y], entry.2 < 2 ^ entry.1.length := by
    simp [ha, hb, hx, hy]
  obtain ⟨hruns, hread⟩ := h.exists_drive_zip rfl hfree hlimits
  obtain ⟨hfirst, hrest⟩ := List.cons.inj hread
  obtain ⟨hsecond, -⟩ := List.cons.inj hrest
  exact ⟨hruns, hfirst, hsecond⟩

end Netlist.Runs

/-- What is put together from chips runs: it compiles, and its simulation starts in a settled
state. -/
theorem Netlist.Composed.exists_runs {N : Netlist} (h : N.Composed) (hsize : N.size < 2 ^ 31) :
    ∃ circuit, N.Runs (.ofCircuit circuit) := by
  obtain ⟨circuit, hok⟩ := h.exists_circuit hsize
  obtain ⟨ports, hsound⟩ := h.exists_sound
  have hcapacity : N.size ≤ capacity := Nat.le_trans (Nat.le_of_lt hsize) (by decide)
  exact ⟨circuit, .of_compile hsound.wellFormed hcapacity hok⟩

/-- One more chip with a bus in a netlist that is put together from chips gives such a netlist
again. So examples are built chip by chip. -/
theorem Netlist.Composed.exists_addedTo {m : Build Bus} [Build.Grows m] {given : Bus}
    {n : Netlist} (h : n.Composed) (hchip : IsChip m given) (hgiven : n.Has given)
    {bound width : Nat}
    (hreaches : ∀ frame, n.Sound frame → Build.Reaches n m bound (frame.HasBus width)) :
    ∃ N out, N.Composed ∧ n ≤ N ∧ N.size ≤ bound ∧ N.Has out ∧ out.length = width ∧
      m.AddedTo N out := by
  obtain ⟨ports, hsound⟩ := h.exists_sound
  obtain ⟨hsize, hbus⟩ := hreaches _ hsound
  exact ⟨_, _, h.chip hchip hgiven, Build.Grows.le n, hsize, hbus.live, hbus.length,
    m.addedTo_run n⟩

namespace Netlist

open Build

/-- A netlist of inputs and nothing else. -/
def ofInputs (count : Nat) : Netlist := ((input "in" count).run empty).2

section Inputs

variable (count : Nat)

theorem composed_ofInputs : (ofInputs count).Composed :=
  Composed.empty.input "in" count (by simp [empty])

theorem size_ofInputs_le : (ofInputs count).size ≤ count := by
  have hreaches : Reaches empty (input "in" count) (0 + count) _ :=
    reaches_input sound_empty (by simp) count
  exact Nat.le_trans hreaches.size (Nat.le_of_eq (Nat.zero_add count))

variable {count}

theorem isInput_ofInputs {w : Nat} (hw : w < count) : (ofInputs count).IsInput w := by
  have hreaches : Reaches empty (input "in" count) (0 + count) _ :=
    reaches_input sound_empty (by simp) count
  obtain ⟨-, hbus, hinputs⟩ := hreaches.result
  apply hinputs
  rw [hbus]
  exact List.mem_range'_1.mpr ⟨Nat.zero_le w, Nat.lt_of_lt_of_eq hw (Nat.zero_add count).symm⟩

theorem has_ofInputs {bus : Bus} (hlt : ∀ w ∈ bus, w < count) : (ofInputs count).Has bus :=
  fun w hw => (isInput_ofInputs (hlt w hw)).lt

theorem freeInputs_ofInputs {buses : List Bus} (hlt : ∀ w ∈ buses.flatten, w < count)
    (hnodup : buses.flatten.Nodup) : (ofInputs count).FreeInputs buses :=
  ⟨fun _ member _ hw => isInput_ofInputs (hlt _ (List.mem_flatten_of_mem member hw)), hnodup⟩

end Inputs

end Netlist

end NandComputer
