import NandComputer.Proofs.Chip.Observing

/-!
Arithmetic in the netlists that contain it, at every width: wherever the operands come from
and whatever else has been called, adders and multipliers settle to the sum and the product
of the numbers that their operands read, up to a power of two.
-/

namespace NandComputer.Chip

open Build

section Numbers

variable {width : Nat} {N : Netlist} {s : Simulation} {a b out : Bus} (h : N.Runs s)
  (ha : a.length = width)

include h ha

/-- An adder that was added to a netlist shows the sum of what its operands read, in every
simulation that runs. -/
theorem number_add (hb : b.length = width) (hadded : (add a b).AddedTo N out) :
    out.length = width ∧ s.number out = (s.number a + s.number b) % 2 ^ width := by
  have hsum := (ensures_add h.settled (ha.trans hb.symm)).of_addedTo hadded
  rwa [ha] at hsum

theorem number_increment (hadded : (increment a).AddedTo N out) :
    out.length = width ∧ s.number out = (s.number a + 1) % 2 ^ width := by
  have hnext := (ensures_increment h.settled h.finished (s.carries_number ha)).of_addedTo hadded
  exact ⟨hnext.length, hnext.number_eq.trans (toNat_ofNat_add_one _ _)⟩

/-- A multiplier that was added to a netlist shows the product of what its operands read, in
every simulation that runs. -/
theorem number_multiply (hb : b.length = width) (hadded : (multiply a b).AddedTo N out) :
    out.length = width ∧ s.number out = s.number a * s.number b % 2 ^ width := by
  have hproduct := (ensures_multiply h.settled h.finished (s.carries_number ha)
    (s.carries_number hb)).of_addedTo hadded
  rw [← BitVec.ofNat_mul] at hproduct
  exact ⟨hproduct.length, hproduct.number_eq.trans (BitVec.toNat_ofNat _ _)⟩

end Numbers

section Wide

/-- Two operands of 70 bits. -/
def wideA : Bus := List.range' 0 70

def wideB : Bus := List.range' 70 70

theorem length_wideA : wideA.length = 70 := List.length_range'

theorem length_wideB : wideB.length = 70 := List.length_range'

theorem wideA_append_wideB : wideA ++ wideB = List.range' 0 140 := List.range'_append_1

theorem lt_of_mem_wide : ∀ w ∈ wideA ++ wideB, w < 140 := by
  intro w hw
  rw [wideA_append_wideB] at hw
  exact (List.mem_range'_1.mp hw).2

theorem freeInputs_wide : (Netlist.ofInputs 140).FreeInputs [wideA, wideB] := by
  have hall : [wideA, wideB].flatten = wideA ++ wideB := by simp
  apply Netlist.freeInputs_ofInputs
  · rw [hall]
    exact lt_of_mem_wide
  · rw [hall, wideA_append_wideB]
    exact List.nodup_range'

/-- An adder, an incrementer and a multiplier on the same operands of seventy bits, as an
example of a width that no machine word has. -/
theorem exists_wide : ∃ N circuit sum next product, N.Runs (.ofCircuit circuit) ∧
    Netlist.ofInputs 140 ≤ N ∧ (add wideA wideB).AddedTo N sum ∧
    (increment wideA).AddedTo N next ∧ (multiply wideA wideB).AddedTo N product := by
  have hboth : (Netlist.ofInputs 140).Has (wideA ++ wideB) := Netlist.has_ofInputs lt_of_mem_wide
  have hwidth : wideA.length = wideB.length := length_wideA.trans length_wideB.symm
  obtain ⟨ha, hb⟩ := Netlist.has_append.mp hboth
  obtain ⟨N₁, sum, hN₁, hle₁, hsize₁, -, -, hsum⟩ :=
    (Netlist.composed_ofInputs 140).exists_addedTo (.add hwidth) hboth fun _ h =>
      reaches_add h ha length_wideA hb length_wideB
  have ha₁ := ha.mono (Netlist.size_le hle₁)
  have hb₁ := hb.mono (Netlist.size_le hle₁)
  obtain ⟨N₂, next, hN₂, hle₂, hsize₂, -, -, hnext⟩ :=
    hN₁.exists_addedTo (.increment wideA) ha₁ fun _ h => reaches_increment h ha₁ length_wideA
  have ha₂ := ha₁.mono (Netlist.size_le hle₂)
  have hb₂ := hb₁.mono (Netlist.size_le hle₂)
  obtain ⟨N₃, product, hN₃, hle₃, hsize₃, -, -, hproduct⟩ :=
    hN₂.exists_addedTo (.multiply hwidth) (Netlist.has_append.mpr ⟨ha₂, hb₂⟩) fun _ h =>
      reaches_multiply h ha₂ length_wideA hb₂
  have hinputs := Netlist.size_ofInputs_le 140
  rw [length_wideB] at hsize₃
  obtain ⟨circuit, hruns⟩ := hN₃.exists_runs (by omega)
  exact ⟨N₃, circuit, sum, next, product, hruns, Netlist.le_trans hle₁ (Netlist.le_trans hle₂ hle₃),
    hsum.of_le (Netlist.le_trans hle₂ hle₃), hnext.of_le hle₃, hproduct⟩

end Wide

section Settling

variable {width : Nat} {N : Netlist} {s : Simulation} {a : Bus} (h : N.Runs s)
  (ha : a.length = width)

include h ha

/-- An adder settles to the sum of what its operands read, and an incrementer to the number
after the one that its operand reads, without what goes over the width. This holds at every
width, wherever the operands come from and whatever was called before. Operands that are
inputs can read any numbers. -/
theorem add_increment_settle :
    (∀ b out : Bus, b.length = width → (add a b).AddedTo N out →
      out.length = width ∧ s.number out = (s.number a + s.number b) % 2 ^ width ∧
      (N.FreeInputs [a, b] → ∀ x y : Nat, x < 2 ^ width → y < 2 ^ width →
        (s.drive [(a, x), (b, y)]).number out = (x + y) % 2 ^ width)) ∧
    ∀ out : Bus, (increment a).AddedTo N out →
      out.length = width ∧ s.number out = (s.number a + 1) % 2 ^ width ∧
      (N.FreeInputs [a] → ∀ x : Nat, x < 2 ^ width →
        (s.drive [(a, x)]).number out = (x + 1) % 2 ^ width) := by
  constructor
  · intro b out hb hadded
    obtain ⟨hlength, hsum⟩ := number_add h ha hb hadded
    refine ⟨hlength, hsum, ?_⟩
    intro hfree x y hx hy
    obtain ⟨hruns, hx', hy'⟩ := h.exists_operands ha hb hfree hx hy
    rw [(number_add hruns ha hb hadded).2, hx', hy']
  · intro out hadded
    obtain ⟨hlength, hnext⟩ := number_increment h ha hadded
    refine ⟨hlength, hnext, ?_⟩
    intro hfree x hx
    obtain ⟨hruns, hnumber⟩ := h.exists_drive [(a, x)] hfree
    rw [(number_increment hruns ha hadded).2, hnumber (a, x) (by simp) (by rwa [ha])]

omit h ha in
/-- Seventy bits that are all on, with three added, and the number after the greatest one:
both go over the width. -/
theorem add_increment_settle_wide : ∃ N circuit sum next, N.Runs (.ofCircuit circuit) ∧
    wideA.length = 70 ∧ wideB.length = 70 ∧ (add wideA wideB).AddedTo N sum ∧
    (increment wideA).AddedTo N next ∧ N.FreeInputs [wideA, wideB] ∧
    ((Simulation.ofCircuit circuit).drive [(wideA, 2 ^ 70 - 1), (wideB, 3)]).number sum = 2 ∧
    ((Simulation.ofCircuit circuit).drive [(wideA, 2 ^ 70 - 1)]).number next = 0 := by
  obtain ⟨N, circuit, sum, next, -, hruns, hle, hsum, hnext, -⟩ := exists_wide
  have hfree := freeInputs_wide.of_le hle
  have hsingle : N.FreeInputs [wideA] := hfree.sublist (by simp)
  obtain ⟨hadder, hincrementer⟩ := add_increment_settle hruns length_wideA
  have hadd := (hadder wideB sum length_wideB hsum).2.2 hfree (2 ^ 70 - 1) 3 (by omega) (by omega)
  have hinc := (hincrementer next hnext).2.2 hsingle (2 ^ 70 - 1) (by omega)
  exact ⟨N, circuit, sum, next, hruns, length_wideA, length_wideB, hsum, hnext, hfree, hadd, hinc⟩

/-- A multiplier settles to the product of what its operands read, without what goes over the
width. This holds at every width, wherever the operands come from and whatever was called
before. Operands that are inputs can read any numbers. -/
theorem multiply_settles {b out : Bus} (hb : b.length = width)
    (hadded : (multiply a b).AddedTo N out) :
    out.length = width ∧ s.number out = s.number a * s.number b % 2 ^ width ∧
      (N.FreeInputs [a, b] → ∀ x y : Nat, x < 2 ^ width → y < 2 ^ width →
        (s.drive [(a, x), (b, y)]).number out = x * y % 2 ^ width) := by
  obtain ⟨hlength, hproduct⟩ := number_multiply h ha hb hadded
  refine ⟨hlength, hproduct, ?_⟩
  intro hfree x y hx hy
  obtain ⟨hruns, hx', hy'⟩ := h.exists_operands ha hb hfree hx hy
  rw [(number_multiply hruns ha hb hadded).2, hx', hy']

omit h ha in
/-- A product that goes over its seventy bits: what is left is six times the lower part of the
first operand. -/
theorem multiply_settles_wide : ∃ N circuit product, N.Runs (.ofCircuit circuit) ∧
    wideA.length = 70 ∧ wideB.length = 70 ∧ (multiply wideA wideB).AddedTo N product ∧
    N.FreeInputs [wideA, wideB] ∧
    ((Simulation.ofCircuit circuit).drive [(wideA, 2 ^ 69 + 7), (wideB, 6)]).number product =
      42 := by
  obtain ⟨N, circuit, -, -, product, hruns, hle, -, -, hproduct⟩ := exists_wide
  have hfree := freeInputs_wide.of_le hle
  have hsettles := multiply_settles hruns length_wideA length_wideB hproduct
  have hnumber := hsettles.2.2 hfree (2 ^ 69 + 7) 6 (by omega) (by omega)
  exact ⟨N, circuit, product, hruns, length_wideA, length_wideB, hproduct, hfree, hnumber⟩

end Settling

end NandComputer.Chip
