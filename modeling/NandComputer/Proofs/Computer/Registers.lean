import NandComputer.Proofs.Chip.Driving
import NandComputer.Proofs.Computer.Tick

/-!
What the flip-flops of a computer hold while its simulation is driven. No two
registers or memory cells share a flip-flop, so writing one leaves the others,
and driving the inputs changes none of them.
-/

namespace NandComputer

namespace ComputerPorts

/-- The flip-flops that hold the state of a computer. -/
def flipFlops (ports : ComputerPorts) : Bus :=
  ports.cpu.a ++ ports.cpu.d ++ ports.cpu.pc ++ ports.cells.flatten

section Holds

variable {config : Config} {ports : ComputerPorts} {v after : Wire → Bool} {m : WordMachine}

theorem mem_flipFlops_of_cell {cell : Bus} (hcell : cell ∈ ports.cells) {w : Wire} (hw : w ∈ cell) :
    w ∈ ports.flipFlops :=
  List.mem_append_right _ (List.mem_flatten_of_mem hcell hw)

theorem Holds.congr (h : ports.Holds v m) (hsame : ∀ w ∈ ports.flipFlops, v w = after w) :
    ports.Holds after m where
  cpu := by
    refine ⟨h.cpu.a.congr ?_, h.cpu.d.congr ?_, h.cpu.pc.congr ?_⟩
    all_goals
      intro w hw
      apply hsame
      simp [flipFlops, hw]
  pc := h.pc
  count := h.count
  cells := by
    intro i cell word hcell hword
    apply (h.cells i cell word hcell hword).congr
    intro w hw
    exact hsame w (mem_flipFlops_of_cell (List.mem_of_getElem? hcell) hw)

/-- With all flip-flops at 0, everything is 0, in buses of the right sizes. -/
theorem Sized.holds_zeroed (h : ports.Sized config) (hzero : ∀ w ∈ ports.flipFlops, v w = false) :
    ports.Holds v (.zeroed config.dataWords config.alu) where
  cpu := by
    refine ⟨Bus.carries_zero h.a ?_, Bus.carries_zero h.d ?_, Bus.carries_zero h.pc ?_⟩
    all_goals
      intro w hw
      apply hzero
      simp [flipFlops, hw]
  pc := Nat.two_pow_pos 15
  count := by rw [h.count, WordMachine.zeroed, Array.size_replicate]
  cells := by
    intro i cell word hcell hword
    have hmem := List.mem_of_getElem? hcell
    rw [WordMachine.zeroed, Array.getElem?_replicate] at hword
    split at hword
    case isFalse => cases hword
    cases hword
    apply Bus.carries_zero (h.cells cell hmem)
    intro w hw
    exact hzero w (mem_flipFlops_of_cell hmem hw)

theorem disjoint_of_ne {cells : List Bus} (h : cells.Pairwise List.Disjoint) {i j : Nat}
    {cell other : Bus} (hcell : cells[i]? = some cell) (hother : cells[j]? = some other)
    (hne : i ≠ j) : cell.Disjoint other := by
  obtain ⟨hi, rfl⟩ := List.getElem?_eq_some_iff.mp hcell
  obtain ⟨hj, rfl⟩ := List.getElem?_eq_some_iff.mp hother
  have hordered := List.pairwise_iff_getElem.mp h
  rcases Nat.lt_or_gt_of_ne hne with hlt | hgt
  · exact hordered i j hi hj hlt
  · exact (hordered j i hj hi hgt).symm

/-- Writing one memory cell leaves the registers and the other cells, as no two of them share
a flip-flop. -/
theorem Holds.overlay_cell (h : ports.Holds v m) (hsized : ports.Sized config)
    (hnodup : ports.flipFlops.Nodup) {i : Nat} {cell : Bus} (hcell : ports.cells[i]? = some cell)
    (value : Word) : ports.Holds (overlay v cell.zipIdx value.toNat)
      { m with ram := m.ram.setIfInBounds i value } := by
  have hmem := List.mem_of_getElem? hcell
  obtain ⟨-, hcells, hapart⟩ := List.nodup_append.mp hnodup
  obtain ⟨hwires, hdisjoint⟩ := List.nodup_flatten.mp hcells
  have hkept (bus : Bus) (hbus : ∀ w ∈ bus, w ∉ cell) :
      ∀ w ∈ bus, v w = overlay v cell.zipIdx value.toNat w := by
    intro w hw
    symm
    apply overlay_of_forall_ne
    rintro entry member rfl
    exact hbus entry.1 hw (List.fst_mem_of_mem_zipIdx member)
  have hregister (bus : Bus) (hbus : bus ⊆ ports.cpu.a ++ ports.cpu.d ++ ports.cpu.pc) :
      ∀ w ∈ bus, v w = overlay v cell.zipIdx value.toNat w := by
    apply hkept bus
    intro w hw hcell
    exact hapart w (hbus hw) w (List.mem_flatten_of_mem hmem hcell) rfl
  refine ⟨⟨?_, ?_, ?_⟩, h.pc, ?_, ?_⟩
  · exact h.cpu.a.congr (hregister _ (by simp))
  · exact h.cpu.d.congr (hregister _ (by simp))
  · exact h.cpu.pc.congr (hregister _ (by simp))
  · rw [h.count, Array.size_setIfInBounds]
  · intro j other word hother hword
    by_cases hij : i = j
    · subst hij
      have hlt := (List.getElem?_eq_some_iff.mp hcell).1
      rw [h.count] at hlt
      rw [hcell] at hother
      rw [Array.getElem?_setIfInBounds_self_of_lt hlt] at hword
      cases hother
      cases hword
      exact carries_overlay v (hwires cell hmem) (hsized.cells cell hmem) value
    · rw [Array.getElem?_setIfInBounds_ne hij] at hword
      apply (h.cells j other word hother hword).congr
      apply hkept other
      intro w hw hwritten
      exact disjoint_of_ne hdisjoint hcell hother hij hwritten hw

end Holds

end ComputerPorts

end NandComputer
