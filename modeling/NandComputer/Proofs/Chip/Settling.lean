import NandComputer.Proofs.Chip.Alu
import NandComputer.Proofs.Chip.Composed
import NandComputer.Proofs.Chip.Driving

/-!
The arithmetic units in the netlists that contain them. Wherever the operands and the
control come from and whatever else the netlist holds, once the circuit has settled the
outputs of a unit are those of the unit on words, with the flags of the result that is
shown.
-/

namespace NandComputer

/-- The word that a bus reads once the circuit has settled. -/
def Simulation.word (s : Simulation) (width : Nat) (bus : Bus) : BitVec width :=
  .ofNat width (s.bus bus).1

/-- What the outputs of an arithmetic unit read once the circuit has settled. -/
def Chip.AluOutput.observe (output : AluOutput) (s : Simulation) : AluResult :=
  ⟨s.word 16 output.out, (s.wire output.zr).1, (s.wire output.ng).1⟩

/-- The number of control bits of an arithmetic unit. -/
def AluKind.controlWidth : AluKind → Nat
  | .standard => 6
  | .extended => 9

/-- The gates of an arithmetic unit. -/
def Chip.unit : AluKind → Bus → Bus → Bus → Build Chip.AluOutput
  | .standard => alu
  | .extended => extendedAlu

/-- The arithmetic unit on words. -/
def Word.unit : (kind : AluKind) → Word → Word → BitVec kind.controlWidth → AluResult
  | .standard => alu
  | .extended => extendedAlu

/-- A unit says of its result whether it is 0 and whether its sign bit is set. -/
theorem Word.flags_unit (kind : AluKind) (x y : Word) (control : BitVec kind.controlWidth) :
    ((unit kind x y control).zr = true ↔ (unit kind x y control).out = 0) ∧
      (unit kind x y control).ng = (unit kind x y control).out.getLsbD 15 := by
  have hflags (out : Word) : ((AluResult.ofOut out).zr = true ↔ out = 0) ∧
      (AluResult.ofOut out).ng = out.getLsbD 15 :=
    ⟨beq_iff_eq, BitVec.msb_eq_getLsbD_last out⟩
  cases kind <;> exact hflags _

namespace Chip

open Build

/-- The unit on these operands and this control is in the netlist, and has the outputs. -/
structure HasUnit (N : Netlist) (kind : AluKind) (x y control : Bus) (output : AluOutput) :
    Prop where
  left : x.length = 16
  right : y.length = 16
  code : control.length = kind.controlWidth
  added : ∃ n : Netlist, ((unit kind x y control).run n).2 ≤ N ∧
    ((unit kind x y control).run n).1 = output

variable {N : Netlist} {circuit : Circuit} {state : CircuitState} {s : Simulation}
  {kind : AluKind} {x y control : Bus} {output : AluOutput}

theorem ensures_unit {v : Wire → Bool} (hv : N.Settled v) (hN : N.Finished) {first second : Word}
    {code : BitVec kind.controlWidth} (hx : x.Carries v first) (hy : y.Carries v second)
    (hcontrol : control.Carries v code) :
    Ensures N (unit kind x y control) fun output =>
      output.Shows v (Word.unit kind first second code) := by
  cases kind with
  | standard => exact ensures_alu hv hN hx hy hcontrol
  | extended => exact ensures_extendedAlu hv hN hx hy hcontrol

theorem AluOutput.Shows.observe_eq {result : AluResult}
    (hshows : output.Shows (N.value state) result) (hs : s.Matches N circuit state)
    (hN : N.Accepted circuit) : output.observe s = result := by
  rw [observe, Simulation.word, hs.bus_eq hN hshows.out, hs.wire_eq hN, hs.wire_eq hN, hshows.zr,
    hshows.ng]

/-- What a unit reads in a state of the netlist decides what it shows. -/
theorem HasUnit.observe_eq (h : HasUnit N kind x y control output) (hwell : N.WellFormed)
    (hN : N.Accepted circuit) (hs : s.Matches N circuit state) {first second : Word}
    {code : BitVec kind.controlWidth} (hx : x.Carries (N.value state) first)
    (hy : y.Carries (N.value state) second) (hcontrol : control.Carries (N.value state) code) :
    output.observe s = Word.unit kind first second code := by
  obtain ⟨n, hle, rfl⟩ := h.added
  have hfinished : N.Finished := .of_wellFormed hwell hN.defects
  have hunit := ensures_unit (hN.settled state) hfinished hx hy hcontrol
  exact (hunit.result n hle).observe_eq hs hN

/-- After any calls on a circuit that contains an arithmetic unit, the outputs of the unit
settle to the result and the flags that the unit on words has for the operands and the control
that are read in this moment. If these are inputs, they can be any words. The circuit may be
any other that contains the unit, and the unit may be either one. -/
theorem unit_settles (hwell : N.WellFormed) (hsize : N.size ≤ Netlist.capacity)
    (hok : N.compile = .ok circuit) (hunit : HasUnit N kind x y control output)
    (calls : List SimulationCall) (hcalls : ∀ call ∈ calls, N.Admits call)
    (hs : (interact Simulation.call (.ofCircuit circuit) calls).2 = s) :
    output.observe s =
        Word.unit kind (s.word 16 x) (s.word 16 y) (s.word kind.controlWidth control) ∧
      ((s.wire output.zr).1 = true ↔ s.word 16 output.out = 0) ∧
      (s.wire output.ng).1 = (s.word 16 output.out).getLsbD 15 ∧
      ((∀ w ∈ x ++ y ++ control, N.IsInput w) → (x ++ y ++ control).Nodup →
        ∀ (first second : Word) (code : BitVec kind.controlWidth),
          output.observe
              (s.drive [(x, first.toNat), (y, second.toNat), (control, code.toNat)]) =
            Word.unit kind first second code) := by
  have hN := hwell.accepted hsize hok
  obtain ⟨state, hmatches⟩ := Simulation.exists_matches_interact hN calls hcalls
  rw [hs] at hmatches
  obtain ⟨first, hx⟩ := Bus.exists_carries (v := N.value state) hunit.left
  obtain ⟨second, hy⟩ := Bus.exists_carries (v := N.value state) hunit.right
  obtain ⟨code, hcontrol⟩ := Bus.exists_carries (v := N.value state) hunit.code
  have hresult : output.observe s =
      Word.unit kind (s.word 16 x) (s.word 16 y) (s.word kind.controlWidth control) := by
    rw [Simulation.word, Simulation.word, Simulation.word, hmatches.bus_eq hN hx,
      hmatches.bus_eq hN hy, hmatches.bus_eq hN hcontrol]
    exact hunit.observe_eq hwell hN hmatches hx hy hcontrol
  have hflags := Word.flags_unit kind (s.word 16 x) (s.word 16 y)
    (s.word kind.controlWidth control)
  rw [← hresult] at hflags
  refine ⟨hresult, hflags.1, hflags.2, ?_⟩
  intro hinputs hnodup first second code
  let buses := [(x, first.toNat), (y, second.toNat), (control, code.toNat)]
  have hall : buses.flatMap Prod.fst = x ++ y ++ control := by simp [buses]
  rw [← hall] at hinputs hnodup
  obtain ⟨driven, hdriven, -, hcarries⟩ := hmatches.exists_drive hinputs hnodup
  exact hunit.observe_eq hwell hN hdriven (hcarries hunit.left (by simp [buses]))
    (hcarries hunit.right (by simp [buses])) (hcarries hunit.code (by simp [buses]))

/-- An extended unit whose operands and control are inputs. -/
def unitOnOperands : Build AluOutput :=
  unit .extended (List.range' 0 16) (List.range' 16 16) (List.range' 32 9)

/-- The extended unit on its own, with the field of a product on its control: six and seven
give forty-two. -/
theorem unit_settles_product : ∃ N circuit output, N.WellFormed ∧ N.size ≤ Netlist.capacity ∧
    N.compile = .ok circuit ∧
    HasUnit N .extended (List.range' 0 16) (List.range' 16 16) (List.range' 32 9) output ∧
    output.observe ((Simulation.ofCircuit circuit).drive
      [(List.range' 0 16, 6), (List.range' 16 16, 7), (List.range' 32 9, 0)]) =
        ⟨42, false, false⟩ := by
  have hx : Netlist.operandInputs.Has (List.range' 0 16) := Netlist.has_operandInputs (by omega)
  have hy : Netlist.operandInputs.Has (List.range' 16 16) := Netlist.has_operandInputs (by omega)
  have hcontrol : Netlist.operandInputs.Has (List.range' 32 9) :=
    Netlist.has_operandInputs (by omega)
  obtain ⟨ports, hsound⟩ := Netlist.composed_operandInputs.exists_sound
  have hreaches : Reaches Netlist.operandInputs unitOnOperands
      (Netlist.operandInputs.size + 6000) _ :=
    reaches_extendedAlu hsound hx List.length_range' hy List.length_range' hcontrol
      List.length_range'
  have hlast := hreaches.result.1.sound
  have hbound := hreaches.size
  rw [Netlist.size_operandInputs] at hbound
  obtain ⟨circuit, hN⟩ := hlast.accepted rfl (by simp) (by omega)
  have hunit : HasUnit (unitOnOperands.run Netlist.operandInputs).2 .extended (List.range' 0 16)
      (List.range' 16 16) (List.range' 32 9) (unitOnOperands.run Netlist.operandInputs).1 :=
    ⟨List.length_range', List.length_range', List.length_range', Netlist.operandInputs,
      Netlist.le_refl _, rfl⟩
  have hsettles := unit_settles hlast.wellFormed hN.size hN.compile hunit [] (by simp) rfl
  have hold : ∀ w ∈ List.range' 0 16 ++ List.range' 16 16 ++ List.range' 32 9,
      Netlist.operandInputs.nodes[w]? = some .input := by decide +kernel
  have hinputs : ∀ w ∈ List.range' 0 16 ++ List.range' 16 16 ++ List.range' 32 9,
      (unitOnOperands.run Netlist.operandInputs).2.IsInput w := fun w hw =>
    Netlist.IsInput.of_le (hold w hw) (Grows.le (m := extendedAlu _ _ _) Netlist.operandInputs)
  have hresult := hsettles.2.2.2 hinputs (by decide) 6 7 0
  exact ⟨_, circuit, _, hlast.wellFormed, hN.size, hN.compile, hunit, hresult⟩

end Chip

end NandComputer
