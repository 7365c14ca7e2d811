import NandComputer.Proofs.Chip.Observing

/-!
Selection in the netlists that contain it, for any number of select wires. A selector shows
the input at the number on its select wires, and a router passes its input on to the output
at that number, so a selector behind a router shows what is routed if both have one number
on their select wires, and 0 otherwise.
-/

namespace NandComputer.Chip

open Build

theorem select?_eq_some {inputs : List Bus} {sel : Bus} (hcount : inputs.length = 2 ^ sel.length) :
    select? inputs sel = some (select inputs sel) := by
  have hfan : inputs.length = 1 <<< sel.length := by rw [hcount, Nat.one_shiftLeft]
  exact if_pos hfan

section Numbers

variable {N : Netlist} {s : Simulation} (h : N.Runs s) {sel : Bus}

include h

/-- A selector that was added to a netlist shows the input at the number that its select wires
read. -/
theorem number_select {width : Nat} {inputs : List Bus} {out : Bus}
    (hcount : inputs.length = 2 ^ sel.length) (hwidth : ∀ input ∈ inputs, input.length = width)
    (hadded : (select inputs sel).AddedTo N out) :
    out.length = width ∧ (inputs.map s.number)[s.number sel]? = some (s.number out) := by
  obtain ⟨chosen, hchosen, hsame⟩ := (ensures_select h.settled hcount hwidth).of_addedTo hadded
  have hlength : out.length = chosen.length := by
    have hlengths := congrArg List.length hsame
    rwa [List.length_map, List.length_map] at hlengths
  have hnumber : s.number out = s.number chosen := congrArg numberOf hsame
  have hindex : inputs[s.number sel]? = some chosen := hchosen
  refine ⟨hlength.trans (hwidth chosen (List.mem_of_getElem? hindex)), ?_⟩
  rw [List.getElem?_map, hindex, Option.map_some, hnumber]

variable {input : Wire} {outs : List Wire}

/-- A router that was added to a netlist shows its input at the number that its select wires
read, and nothing at the others. -/
theorem reading_route (hadded : (route input sel).AddedTo N outs) :
    outs.length = 2 ^ sel.length ∧ ∀ (j : Nat) (w : Wire), outs[j]? = some w →
      s.reading w = if j = s.number sel then s.reading input else false := by
  obtain ⟨hlength, hrouted⟩ := (ensures_route h.settled input sel).of_addedTo hadded
  refine ⟨hlength, ?_⟩
  intro j w hw
  have hreading : s.reading w = (s.reading input && j == s.number sel) := hrouted j w hw
  rw [hreading]
  split
  case isTrue hsame => simp [hsame]
  case isFalse hother => simp [hother]

/-- What is routed by some select wires arrives by others that have the same number, and by no
others. -/
theorem number_select_route {other out : Bus} (hlength : other.length = sel.length)
    (hrouted : (route input sel).AddedTo N outs)
    (hcollected : (select (outs.map fun w => [w]) other).AddedTo N out) :
    s.number out = if s.number other = s.number sel then (s.reading input).toNat else 0 := by
  obtain ⟨hcount, hreading⟩ := reading_route h hrouted
  have hfan : (outs.map fun w => [w]).length = 2 ^ other.length := by
    rw [List.length_map, hcount, hlength]
  have hsingle : ∀ bus ∈ outs.map fun w => [w], bus.length = 1 := by simp
  obtain ⟨-, hchosen⟩ := number_select h hfan hsingle hcollected
  rw [List.map_map, List.getElem?_map] at hchosen
  obtain ⟨w, hw, hnumber⟩ := Option.map_eq_some_iff.mp hchosen
  have hout : s.number out = (s.reading w).toNat := hnumber.symm.trans (s.number_singleton w)
  rw [hout, hreading _ w hw]
  split <;> rfl

end Numbers

section Driving

variable {N : Netlist} {s : Simulation} (h : N.Runs s) {sel : Bus} {index : Nat}
  (hindex : index < 2 ^ sel.length)

include h hindex

theorem exists_drive_select {width : Nat} {inputs : List Bus} {values : List Nat}
    (hwidth : ∀ input ∈ inputs, input.length = width) (hcount : inputs.length = values.length)
    (hvalues : ∀ value ∈ values, value < 2 ^ width) (hfree : N.FreeInputs (sel :: inputs)) :
    N.Runs (s.drive ((sel, index) :: inputs.zip values)) ∧
      (s.drive ((sel, index) :: inputs.zip values)).number sel = index ∧
      inputs.map (s.drive ((sel, index) :: inputs.zip values)).number = values := by
  have hlimits : ∀ entry ∈ (sel :: inputs).zip (index :: values),
      entry.2 < 2 ^ entry.1.length := by
    rw [List.zip_cons_cons, List.forall_mem_cons]
    refine ⟨hindex, ?_⟩
    rintro ⟨bus, value⟩ member
    obtain ⟨hbus, hvalue⟩ := List.of_mem_zip member
    rw [hwidth bus hbus]
    exact hvalues value hvalue
  have hcounts : (sel :: inputs).length = (index :: values).length := congrArg Nat.succ hcount
  obtain ⟨hruns, hread⟩ := h.exists_drive_zip hcounts hfree hlimits
  obtain ⟨hsel, hinputs⟩ := List.cons.inj hread
  exact ⟨hruns, hsel, hinputs⟩

theorem exists_drive_route {input : Wire} (bit : Bool) (hfree : N.FreeInputs [[input], sel]) :
    N.Runs (s.drive [([input], bit.toNat), (sel, index)]) ∧
      (s.drive [([input], bit.toNat), (sel, index)]).reading input = bit ∧
      (s.drive [([input], bit.toNat), (sel, index)]).number sel = index := by
  have hlimits : ∀ entry ∈ [[input], sel].zip [bit.toNat, index],
      entry.2 < 2 ^ entry.1.length := by
    simp [hindex, Bool.toNat_lt bit]
  obtain ⟨hruns, hread⟩ := h.exists_drive_zip rfl hfree hlimits
  obtain ⟨hinput, hrest⟩ := List.cons.inj hread
  obtain ⟨hsel, -⟩ := List.cons.inj hrest
  exact ⟨hruns, Simulation.reading_of_number _ hinput, hsel⟩

end Driving

section Table

/-- Four inputs of three bits, and two select wires that share them with a router. -/
def tableInputs : List Bus := [[2, 3, 4], [5, 6, 7], [8, 9, 10], [11, 12, 13]]

def tableSel : Bus := [0, 1]

def tableRouted : Wire := 14

theorem freeInputs_table :
    (Netlist.ofInputs 15).FreeInputs (tableSel :: tableInputs) ∧
      (Netlist.ofInputs 15).FreeInputs [[tableRouted], tableSel] :=
  ⟨Netlist.freeInputs_ofInputs (by decide) (by decide),
    Netlist.freeInputs_ofInputs (by decide) (by decide)⟩

/-- A selector and a router with a selector behind it, all on two select wires, in a netlist
that compiles. -/
theorem exists_table : ∃ N circuit out outs collected, N.Runs (.ofCircuit circuit) ∧
    Netlist.ofInputs 15 ≤ N ∧ (select tableInputs tableSel).AddedTo N out ∧
    (route tableRouted tableSel).AddedTo N outs ∧
    (select (outs.map fun w => [w]) tableSel).AddedTo N collected := by
  have hsel : (Netlist.ofInputs 15).Has tableSel := Netlist.has_ofInputs (by decide)
  have htable : (Netlist.ofInputs 15).Has tableInputs.flatten := Netlist.has_ofInputs (by decide)
  have hinputs : ∀ input ∈ tableInputs, (Netlist.ofInputs 15).Has input ∧ input.length = 3 := by
    intro input member
    have hwidth : ∀ bus ∈ tableInputs, bus.length = 3 := by decide
    exact ⟨Netlist.has_flatten.mp htable input member, hwidth input member⟩
  obtain ⟨N₁, out, hN₁, hle₁, hsize₁, -, -, hout⟩ :=
    (Netlist.composed_ofInputs 15).exists_addedTo
      (.select (select?_eq_some rfl) fun input member => (hinputs input member).2)
      (Netlist.has_append.mpr ⟨hsel, htable⟩) fun _ h => reaches_select h hsel rfl hinputs
  have hsel₁ := hsel.mono (Netlist.size_le hle₁)
  have hrouted₁ : tableRouted < N₁.size :=
    ((Netlist.isInput_ofInputs (by decide)).of_le hle₁).lt
  obtain ⟨N₂, outs, hN₂, hle₂, hsize₂, houtsHas, houtsLength, houts⟩ :=
    hN₁.exists_addedTo (.route tableRouted tableSel) (Netlist.has_cons.mpr ⟨hrouted₁, hsel₁⟩)
      fun _ h => reaches_route h hrouted₁ hsel₁
  have hsel₂ := hsel₁.mono (Netlist.size_le hle₂)
  have hsingles : ∀ bus ∈ outs.map fun w => [w], N₂.Has bus ∧ bus.length = 1 := by
    intro bus member
    obtain ⟨w, hw, rfl⟩ := List.mem_map.mp member
    exact ⟨Netlist.has_cons.mpr ⟨houtsHas w hw, Netlist.has_nil⟩, rfl⟩
  have hfan : (outs.map fun w => [w]).length = 2 ^ tableSel.length := by
    rw [List.length_map, houtsLength]
  have hflatten : N₂.Has (outs.map fun w => [w]).flatten :=
    Netlist.has_flatten.mpr fun bus member => (hsingles bus member).1
  obtain ⟨N₃, collected, hN₃, hle₃, hsize₃, -, -, hcollected⟩ :=
    hN₂.exists_addedTo
      (.select (select?_eq_some hfan) fun bus member => (hsingles bus member).2)
      (Netlist.has_append.mpr ⟨hsel₂, hflatten⟩) fun _ h => reaches_select h hsel₂ hfan hsingles
  have hstart := Netlist.size_ofInputs_le 15
  have hlength : tableSel.length = 2 := rfl
  rw [hlength] at hsize₁ hsize₂ hsize₃
  obtain ⟨circuit, hruns⟩ := hN₃.exists_runs (by omega)
  exact ⟨N₃, circuit, out, outs, collected, hruns,
    Netlist.le_trans hle₁ (Netlist.le_trans hle₂ hle₃), hout.of_le (Netlist.le_trans hle₂ hle₃),
    houts.of_le hle₃, hcollected⟩

end Table

section Settling

variable {k : Nat} {N : Netlist} {s : Simulation} (h : N.Runs s) {sel : Bus} (hsel : sel.length = k)

include h hsel

/-- A selector settles to the input, and a router reaches the output, at the number on the
select wires, however many these are. What is routed by one number is collected by the same
number and by no other. Wires that are inputs can read any numbers. -/
theorem select_route_settle :
    (∀ (width : Nat) (inputs : List Bus) (out : Bus), inputs.length = 2 ^ k →
      (∀ input ∈ inputs, input.length = width) → (select inputs sel).AddedTo N out →
      select? inputs sel = some (select inputs sel) ∧ out.length = width ∧
      (inputs.map s.number)[s.number sel]? = some (s.number out) ∧
      (N.FreeInputs (sel :: inputs) → ∀ (index : Nat) (values : List Nat), index < 2 ^ k →
        values.length = 2 ^ k → (∀ value ∈ values, value < 2 ^ width) →
        values[index]? = some ((s.drive ((sel, index) :: inputs.zip values)).number out))) ∧
    (∀ (input : Wire) (outs : List Wire), (route input sel).AddedTo N outs →
      outs.length = 2 ^ k ∧
      (∀ (j : Nat) (w : Wire), outs[j]? = some w →
        s.reading w = if j = s.number sel then s.reading input else false) ∧
      (N.FreeInputs [[input], sel] → ∀ (bit : Bool) (index : Nat), index < 2 ^ k →
        ∀ (j : Nat) (w : Wire), outs[j]? = some w →
          (s.drive [([input], bit.toNat), (sel, index)]).reading w =
            if j = index then bit else false)) ∧
    ∀ (input : Wire) (outs : List Wire) (other out : Bus), other.length = k →
      (route input sel).AddedTo N outs → (select (outs.map fun w => [w]) other).AddedTo N out →
      s.number out = if s.number other = s.number sel then (s.reading input).toNat else 0 := by
  subst hsel
  refine ⟨?select, ?route, ?collect⟩
  case select =>
    intro width inputs out hcount hwidth hadded
    obtain ⟨hlength, hchosen⟩ := number_select h hcount hwidth hadded
    refine ⟨select?_eq_some hcount, hlength, hchosen, ?_⟩
    intro hfree index values hindex hvalueCount hvalues
    obtain ⟨hruns, hsel, hinputs⟩ := exists_drive_select h hindex hwidth
      (hcount.trans hvalueCount.symm) hvalues hfree
    have hdriven := (number_select hruns hcount hwidth hadded).2
    rwa [hsel, hinputs] at hdriven
  case route =>
    intro input outs hadded
    obtain ⟨hlength, hreading⟩ := reading_route h hadded
    refine ⟨hlength, hreading, ?_⟩
    intro hfree bit index hindex j w hw
    obtain ⟨hruns, hinput, hsel⟩ := exists_drive_route h hindex bit hfree
    rw [(reading_route hruns hadded).2 j w hw, hinput, hsel]
  case collect =>
    intro input outs other out hlength hrouted hcollected
    exact number_select_route h hlength hrouted hcollected

omit h hsel in
/-- Of four words of three bits the third one is selected. A bit that is routed to the last
place arrives there and nowhere else, and is collected from there. -/
theorem select_route_settle_table : ∃ N circuit out outs collected, N.Runs (.ofCircuit circuit) ∧
    tableSel.length = 2 ∧ (select tableInputs tableSel).AddedTo N out ∧
    (route tableRouted tableSel).AddedTo N outs ∧
    (select (outs.map fun w => [w]) tableSel).AddedTo N collected ∧
    N.FreeInputs (tableSel :: tableInputs) ∧ N.FreeInputs [[tableRouted], tableSel] ∧
    ((Simulation.ofCircuit circuit).drive
      ((tableSel, 2) :: tableInputs.zip [5, 1, 6, 3])).number out = 6 ∧
    (∀ (j : Nat) (w : Wire), outs[j]? = some w →
      ((Simulation.ofCircuit circuit).drive
        [([tableRouted], true.toNat), (tableSel, 3)]).reading w = if j = 3 then true else false) ∧
    ((Simulation.ofCircuit circuit).drive
      [([tableRouted], true.toNat), (tableSel, 3)]).number collected = 1 := by
  obtain ⟨N, circuit, out, outs, collected, hruns, hle, hout, houts, hcollected⟩ := exists_table
  have hselect := freeInputs_table.1.of_le hle
  have hroute := freeInputs_table.2.of_le hle
  have hlength : tableSel.length = 2 := rfl
  obtain ⟨hselector, hrouter, -⟩ := select_route_settle hruns hlength
  obtain ⟨-, -, -, hchosen⟩ := hselector 3 tableInputs out rfl (by decide) hout
  have hsix := hchosen hselect 2 [5, 1, 6, 3] (by decide) rfl (by decide)
  obtain ⟨-, -, hreaches⟩ := hrouter tableRouted outs houts
  have hthird := hreaches hroute true 3 (by decide)
  have hindex : 3 < 2 ^ tableSel.length := by decide
  obtain ⟨hdriven, hbit, -⟩ := exists_drive_route hruns hindex true hroute
  obtain ⟨-, -, hcollector⟩ := select_route_settle hdriven hlength
  have hone := hcollector tableRouted outs tableSel collected hlength houts hcollected
  rw [if_pos rfl, hbit] at hone
  exact ⟨N, circuit, out, outs, collected, hruns, hlength, hout, houts, hcollected, hselect,
    hroute, (Option.some.inj hsix).symm, hthird, hone⟩

end Settling

end NandComputer.Chip
