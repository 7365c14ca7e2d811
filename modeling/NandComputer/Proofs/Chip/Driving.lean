import NandComputer.Proofs.Chip.Gates
import NandComputer.Proofs.Netlist.Interaction

/-!
What the wires carry while a simulation is driven from outside. Inputs keep what
is put on them until they are driven again, flip-flops until the next tick, and
writing some of either leaves the others.
-/

namespace NandComputer

namespace Bus

variable {width : Nat} {v after : Wire → Bool} {bus : Bus} {word : BitVec width}

theorem Carries.congr (h : bus.Carries v word) (hsame : ∀ w ∈ bus, v w = after w) :
    bus.Carries after word :=
  (List.map_congr_left hsame).symm.trans h

theorem carries_zero (hlength : bus.length = width) (hzero : ∀ w ∈ bus, v w = false) :
    bus.Carries v (0 : BitVec width) := by
  apply carries_of_getElem hlength
  intro i hi
  rw [hzero _ (List.getElem_mem hi)]
  exact BitVec.getLsbD_zero.symm

end Bus

/-- An assignment in which the wires at some positions have the bits of a number. -/
def overlay (f : Wire → Bool) (entries : List (Wire × Nat)) (value : Nat) : Wire → Bool :=
  entries.foldl (fun f entry => Function.update f entry.1 (value.testBit entry.2)) f

section Overlay

variable (f : Wire → Bool) (entries : List (Wire × Nat)) (value : Nat)

theorem overlay_of_forall_ne {w : Wire} (hw : ∀ entry ∈ entries, entry.1 ≠ w) :
    overlay f entries value w = f w := by
  induction entries generalizing f with
  | nil => rfl
  | cons entry rest ih =>
    have hrest := ih (Function.update f entry.1 (value.testBit entry.2))
      fun later member => hw later (by simp [member])
    exact hrest.trans (Function.update_of_ne (hw entry (by simp)).symm _ _)

/-- A wire of the bus takes its bit of the value. The wires must be different, as the last
write to a wire counts. -/
theorem overlay_of_mem {w : Wire} {i : Nat} (hnodup : (entries.map Prod.fst).Nodup)
    (hmem : (w, i) ∈ entries) : overlay f entries value w = value.testBit i := by
  induction entries generalizing f with
  | nil => cases hmem
  | cons entry rest ih =>
    obtain ⟨hnew, hnodup⟩ := List.nodup_cons.mp hnodup
    rcases List.mem_cons.mp hmem with rfl | hrest
    · have hunwritten : ∀ later ∈ rest, later.1 ≠ w := by
        rintro later member rfl
        exact hnew (List.mem_map.mpr ⟨later, member, rfl⟩)
      have hlast := overlay_of_forall_ne (Function.update f w (value.testBit i)) rest value
        hunwritten
      exact hlast.trans (Function.update_self _ _ _)
    · exact ih _ hnodup hrest

/-- A bus that is written as a whole carries the word that is written. -/
theorem carries_overlay {width : Nat} {bus : Bus} (hnodup : bus.Nodup)
    (hlength : bus.length = width) (word : BitVec width) :
    bus.Carries (overlay f bus.zipIdx word.toNat) word := by
  apply Bus.carries_of_getElem hlength
  intro i hi
  apply overlay_of_mem
  · rwa [List.zipIdx_map_fst]
  · exact List.mk_mem_zipIdx_iff_getElem?.mpr (List.getElem?_eq_getElem hi)

end Overlay

/-- An assignment in which buses have the bits of their numbers. -/
def overlays (f : Wire → Bool) (buses : List (Bus × Nat)) : Wire → Bool :=
  buses.foldl (fun f entry => overlay f entry.1.zipIdx entry.2) f

section Overlays

variable (f : Wire → Bool) {buses : List (Bus × Nat)}

theorem overlays_of_notMem {w : Wire} (hw : ∀ entry ∈ buses, w ∉ entry.1) :
    overlays f buses w = f w := by
  induction buses generalizing f with
  | nil => rfl
  | cons entry rest ih =>
    have hrest := ih (overlay f entry.1.zipIdx entry.2) fun later member =>
      hw later (by simp [member])
    refine hrest.trans (overlay_of_forall_ne f _ _ ?_)
    rintro position member rfl
    exact hw entry (by simp) (List.fst_mem_of_mem_zipIdx member)

/-- Buses that have no wire in common carry their words, in whatever order they are written.
-/
theorem carries_overlays (hnodup : (buses.flatMap Prod.fst).Nodup) {width : Nat} {bus : Bus}
    {word : BitVec width} (hlength : bus.length = width) (hmem : (bus, word.toNat) ∈ buses) :
    bus.Carries (overlays f buses) word := by
  induction buses generalizing f with
  | nil => cases hmem
  | cons entry rest ih =>
    obtain ⟨hfirst, hrest, hapart⟩ := List.nodup_append.mp hnodup
    rcases List.mem_cons.mp hmem with rfl | hlater
    · refine (carries_overlay f hfirst hlength word).congr ?_
      intro w hw
      refine (overlays_of_notMem _ ?_).symm
      intro later member hother
      exact hapart w hw w (List.mem_flatMap.mpr ⟨later, member, hother⟩) rfl
    · exact ih _ hrest hlater

end Overlays

namespace CircuitState

variable (state : CircuitState) (wires : Bus) (value : Nat)

theorem inputs_setInputs :
    (state.setInputs wires value).inputs = overlay state.inputs wires.zipIdx value :=
  (List.foldl_hom inputs fun _ _ => rfl).symm

theorem flipFlops_setInputs : (state.setInputs wires value).flipFlops = state.flipFlops := by
  unfold setInputs
  induction wires.zipIdx generalizing state with
  | nil => rfl
  | cons entry rest ih => exact ih (state.setInput entry.1 (value.testBit entry.2))

theorem flipFlops_setFlipFlops :
    (state.setFlipFlops wires value).flipFlops = overlay state.flipFlops wires.zipIdx value :=
  (List.foldl_hom flipFlops fun _ _ => rfl).symm

theorem inputs_setFlipFlops : (state.setFlipFlops wires value).inputs = state.inputs := by
  unfold setFlipFlops
  induction wires.zipIdx generalizing state with
  | nil => rfl
  | cons entry rest ih => exact ih (state.setFlipFlop entry.1 (value.testBit entry.2))

end CircuitState

namespace Netlist

variable {n : Netlist} {state : CircuitState} {w : Nat}

theorem value_input (h : n.IsInput w) : n.value state w = state.inputs w := by
  rw [value, value?_input h, Option.getD_some]

theorem value_flipFlop (h : n.IsFlipFlop w) : n.value state w = state.flipFlops w := by
  obtain ⟨next?, hnode⟩ := h
  rw [value, value?_flipFlop hnode, Option.getD_some]

/-- The values before and after a tick are related as those of a netlist and its next state.
This is all that the lemmas about registers need to know of a tick. -/
theorem ticked_value (n : Netlist) (state : CircuitState) :
    n.Ticked (n.value state) (n.value (state.tick n)) := by
  intro w next hnode
  have htick : (state.tick n).flipFlops w = n.value state next := by
    simp [CircuitState.tick, hnode]
  rw [value_flipFlop ⟨_, hnode⟩, htick]

end Netlist

namespace Simulation

/-- Puts numbers on input buses. -/
def drive (s : Simulation) (buses : List (Bus × Nat)) : Simulation :=
  buses.foldl (fun s entry => s.setBus entry.1 entry.2) s

/-- Overwrites flip-flops with numbers. -/
def preset (s : Simulation) (buses : List (Bus × Nat)) : Simulation :=
  buses.foldl (fun s entry => s.overwrite entry.1 entry.2) s

variable {n : Netlist} {circuit : Circuit} {state : CircuitState} {s : Simulation}
  (h : s.Matches n circuit state)

include h

/-- Driving buses is a change of the inputs of the state, which the simulation follows. -/
theorem Matches.drive {buses : List (Bus × Nat)}
    (hbuses : ∀ entry ∈ buses, ∀ w ∈ entry.1, n.IsInput w) :
    (s.drive buses).Matches n circuit { state with inputs := overlays state.inputs buses } := by
  induction buses generalizing s state with
  | nil => exact h
  | cons entry rest ih =>
    have hfirst := h.setBus (hbuses entry (by simp)) entry.2
    have hrest := ih hfirst fun later member => hbuses later (by simp [member])
    rw [CircuitState.inputs_setInputs, CircuitState.flipFlops_setInputs] at hrest
    exact hrest

/-- After driving buses that have no wire in common each carries its word, and the flip-flops
are unchanged. -/
theorem Matches.exists_drive {buses : List (Bus × Nat)}
    (hinputs : ∀ w ∈ buses.flatMap Prod.fst, n.IsInput w)
    (hnodup : (buses.flatMap Prod.fst).Nodup) :
    ∃ driven, (s.drive buses).Matches n circuit driven ∧ driven.flipFlops = state.flipFlops ∧
      ∀ {width : Nat} {bus : Bus} {word : BitVec width}, bus.length = width →
        (bus, word.toNat) ∈ buses → bus.Carries (n.value driven) word := by
  have hinput {entry : Bus × Nat} (member : entry ∈ buses) : ∀ w ∈ entry.1, n.IsInput w :=
    fun w hw => hinputs w (List.mem_flatMap.mpr ⟨entry, member, hw⟩)
  refine ⟨_, h.drive fun entry member => hinput member, rfl, ?_⟩
  intro width bus word hlength member
  apply (carries_overlays state.inputs hnodup hlength member).congr
  intro w hw
  rw [Netlist.value_input (hinput member w hw)]

/-- Writing flip-flops from outside is a change of the state too, and leaves the inputs. -/
theorem Matches.preset {buses : List (Bus × Nat)}
    (hbuses : ∀ entry ∈ buses, ∀ w ∈ entry.1, n.IsFlipFlop w) :
    (s.preset buses).Matches n circuit
      { state with flipFlops := overlays state.flipFlops buses } := by
  induction buses generalizing s state with
  | nil => exact h
  | cons entry rest ih =>
    have hfirst := h.overwrite (hbuses entry (by simp)) entry.2
    have hrest := ih hfirst fun later member => hbuses later (by simp [member])
    rw [CircuitState.inputs_setFlipFlops, CircuitState.flipFlops_setFlipFlops] at hrest
    exact hrest

/-- What a bus carries is what is read on it, since the simulation settles before it answers.
-/
theorem Matches.bus_eq (hn : n.Accepted circuit) {width : Nat} {bus : Bus} {word : BitVec width}
    (hword : bus.Carries (n.value state) word) : BitVec.ofNat width (s.bus bus).1 = word := by
  have hread := (h.settle hn).read_values s.settled_settle bus
  rw [(Bus.carries_iff.mp hword).2] at hread
  rw [Simulation.bus, peek, hread, BitVec.ofNat_toNat, BitVec.setWidth_eq]

theorem Matches.wire_eq (hn : n.Accepted circuit) (w : Wire) : (s.wire w).1 = n.value state w :=
  (h.settle hn).getD_values s.settled_settle w

/-- The word on flip-flops can be read without settling, as it does not depend on gates. -/
theorem Matches.peek_eq {width : Nat} {bus : Bus} {word : BitVec width}
    (hflops : ∀ w ∈ bus, n.IsFlipFlop w) (hword : bus.Carries (n.value state) word) :
    BitVec.ofNat width (s.peek bus) = word := by
  rw [h.peek_flipFlops hflops, (Bus.carries_iff.mp hword).2, BitVec.ofNat_toNat,
    BitVec.setWidth_eq]

end Simulation

end NandComputer
