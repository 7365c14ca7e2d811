import NandComputer.Chip.Memory
import NandComputer.Proofs.Chip.Register
import NandComputer.Proofs.Chip.Select

/-!
A memory is a flat array. The banks of a level have equally many cells, so the
cell of an address is reached by the bits of one level as the bank and by those
below as the cell in it; routing and selection then agree at every level.
-/

namespace NandComputer.Chip

open Build

section Grows

instance (input : Bus) (groups : List Bus) (load : Wire) :
    Grows (memoryBank input groups load) := by
  induction groups generalizing load with
  | nil =>
    rw [memoryBank]
    infer_instance
  | cons bits lower ih =>
    rw [memoryBank]
    infer_instance

instance (input : Bus) (load : Wire) (address : Bus) : Grows (memory input load address) := by
  unfold memory
  infer_instance

end Grows

theorem flatten_inThrees (wires : List Wire) : (inThrees wires).flatten = wires := by
  induction wires using inThrees.induct with
  | case1 a b c rest ih => rw [inThrees, List.flatten_cons, ih]; rfl
  | case2 => rfl
  | case3 short hlong hnil =>
    rw [inThrees]
    · rw [List.flatten_singleton]
    · exact hlong
    · exact hnil

/-- Blocks of one length are found by division: the quotient is the number of the block and
the remainder the place in it. -/
theorem getElem?_flatMap_of_length {α β : Type} {items : List α} {f : α → List β} {count : Nat}
    (hpos : 0 < count) (hcount : ∀ x ∈ items, (f x).length = count) (i : Nat) :
    (items.flatMap f)[i]? = (items[i / count]?).bind fun x => (f x)[i % count]? := by
  induction items generalizing i with
  | nil => rfl
  | cons first rest ih =>
    have hfirst := hcount first (by simp)
    rw [List.flatMap_cons, List.getElem?_append, hfirst]
    split
    case isTrue hi =>
      rw [Nat.div_eq_of_lt hi, Nat.mod_eq_of_lt hi]
      rfl
    case isFalse hi =>
      have hle : count ≤ i := Nat.le_of_not_lt hi
      have hdiv : i / count = (i - count) / count + 1 := by
        rw [Nat.div_eq_sub_div hpos hle]
      rw [ih fun x member => hcount x (by simp [member]), hdiv, List.getElem?_cons_succ,
        Nat.mod_eq_sub_mod hle]

/-- A memory that shows the addressed cell and writes no other. -/
structure Memory.Works (v after : Wire → Bool) (input address : Bus) (load : Wire)
    (m : Memory) : Prop where
  count : m.cells.length = 2 ^ address.length
  width : ∀ cell ∈ m.cells, cell.length = input.length
  out : ∃ cell, m.cells[numberOf (address.map v)]? = some cell ∧ m.out.map v = cell.map v
  cells : ∀ (i : Nat) (cell : Bus), m.cells[i]? = some cell →
    cell.map after =
      if v load && i == numberOf (address.map v) then input.map v else cell.map v

theorem Memory.Works.length_out {v after : Wire → Bool} {input address : Bus} {load : Wire}
    {m : Memory} (h : m.Works v after input address load) : m.out.length = input.length := by
  obtain ⟨cell, hcell, hout⟩ := h.out
  have hlength := congrArg List.length hout
  rw [List.length_map, List.length_map] at hlength
  rw [hlength, h.width cell (List.mem_of_getElem? hcell)]

section Banks

variable {v after : Wire → Bool} {input lower bits : Bus} {loads : List Wire} {load : Wire}
  {banks : List Memory} {out : Bus}

/-- Banks behind a router and a selector on the same wires make one memory. The bits of this
level are the upper ones of the address, so the cells of a bank follow each other. -/
theorem Memory.works_banks
    (hbanks : List.Forall₂ (fun load bank => bank.Works v after input lower load) loads banks)
    (hcount : loads.length = 2 ^ bits.length)
    (hloads : ∀ (i : Nat) (w : Wire), loads[i]? = some w →
      v w = (v load && i == numberOf (bits.map v)))
    (hout : ∃ chosen, (banks.map (·.out))[numberOf (bits.map v)]? = some chosen ∧
      out.map v = chosen.map v) :
    Works v after input (lower ++ bits) load ⟨out, banks.flatMap (·.cells)⟩ := by
  have hpos : 0 < 2 ^ lower.length := Nat.two_pow_pos _
  have hbank (i : Nat) (bank : Memory) (hget : banks[i]? = some bank) :
      ∃ w, loads[i]? = some w ∧ bank.Works v after input lower w := by
    obtain ⟨hi, rfl⟩ := List.getElem?_eq_some_iff.mp hget
    have hload : i < loads.length := by rwa [hbanks.length_eq]
    exact ⟨loads[i], List.getElem?_eq_getElem hload, hbanks.get hload hi⟩
  have hworks (bank : Memory) (member : bank ∈ banks) :
      ∃ w, bank.Works v after input lower w := by
    obtain ⟨i, hi⟩ := List.mem_iff_getElem?.mp member
    obtain ⟨w, -, hbank⟩ := hbank i bank hi
    exact ⟨w, hbank⟩
  have hsize (bank : Memory) (member : bank ∈ banks) :
      bank.cells.length = 2 ^ lower.length := by
    obtain ⟨w, hbank⟩ := hworks bank member
    exact hbank.count
  have hlow := numberOf_lt (lower.map v)
  rw [List.length_map] at hlow
  have hindex : numberOf ((lower ++ bits).map v) =
      numberOf (lower.map v) + 2 ^ lower.length * numberOf (bits.map v) := by
    rw [List.map_append, numberOf_append, List.length_map]
  refine ⟨?_, ?_, ?_, ?_⟩
  · rw [List.length_flatMap, List.map_congr_left hsize, List.map_const', List.sum_replicate,
      smul_eq_mul, ← hbanks.length_eq, hcount, List.length_append, Nat.pow_add, Nat.mul_comm]
  · intro cell member
    obtain ⟨bank, hmem, hcell⟩ := List.mem_flatMap.mp member
    obtain ⟨w, hbank⟩ := hworks bank hmem
    exact hbank.width cell hcell
  · obtain ⟨chosen, hchosen, houtput⟩ := hout
    rw [List.getElem?_map, Option.map_eq_some_iff] at hchosen
    obtain ⟨bank, hget, rfl⟩ := hchosen
    obtain ⟨w, -, hbank⟩ := hbank _ bank hget
    obtain ⟨cell, hcell, hshown⟩ := hbank.out
    refine ⟨cell, ?_, houtput.trans hshown⟩
    rw [getElem?_flatMap_of_length hpos hsize, hindex, Nat.add_mul_div_left _ _ hpos,
      Nat.add_mul_mod_self_left, Nat.div_eq_of_lt hlow, Nat.mod_eq_of_lt hlow, Nat.zero_add, hget,
      Option.bind_some, hcell]
  · intro i cell hget
    rw [getElem?_flatMap_of_length hpos hsize, Option.bind_eq_some_iff] at hget
    obtain ⟨bank, hget, hcell⟩ := hget
    obtain ⟨w, hw, hbank⟩ := hbank _ bank hget
    rw [hbank.cells _ cell hcell, hloads _ w hw, hindex]
    have hsame : (i / 2 ^ lower.length = numberOf (bits.map v) ∧
        i % 2 ^ lower.length = numberOf (lower.map v)) ↔
        i = numberOf (lower.map v) + 2 ^ lower.length * numberOf (bits.map v) := by
      constructor
      · rintro ⟨hdiv, hmod⟩
        rw [← hdiv, ← hmod]
        exact (Nat.mod_add_div i _).symm
      · rintro rfl
        rw [Nat.add_mul_div_left _ _ hpos, Nat.add_mul_mod_self_left, Nat.div_eq_of_lt hlow,
          Nat.mod_eq_of_lt hlow, Nat.zero_add]
        exact ⟨rfl, rfl⟩
    simp only [Bool.and_eq_true, beq_iff_eq, and_assoc, hsame]

end Banks

section Values

variable {N : Netlist} {v after : Wire → Bool} (hN : N.Finished) (hv : N.Settled v)
  (hafter : N.Ticked v after)

include hN hv hafter

/-- A memory works at every depth. The induction is on the levels of the address: a single
register has none, and a level adds banks that work by hypothesis. -/
theorem ensures_memoryBank (input : Bus) (groups : List Bus) (load : Wire) :
    Ensures N (memoryBank input groups load)
      (Memory.Works v after input groups.reverse.flatten load) := by
  induction groups generalizing load with
  | nil =>
    rw [memoryBank]
    apply (ensures_register hN hv hafter input load).bind
    rintro out ⟨hlength, hout⟩
    apply ensures_pure
    refine ⟨rfl, by simp [hlength], ⟨out, rfl, rfl⟩, ?_⟩
    intro i cell hcell
    obtain ⟨hi, rfl⟩ := List.getElem?_eq_some_iff.mp hcell
    obtain rfl : i = 0 := Nat.lt_one_iff.mp hi
    simpa [numberOf] using hout
  | cons bits lower ih =>
    rw [memoryBank, List.reverse_cons, List.flatten_append, List.flatten_singleton]
    apply (ensures_route hv load bits).bind
    rintro loads ⟨hcount, hloads⟩
    have hbanks := Ensures.mapM loads fun load _ => ih load
    apply hbanks.bind
    intro banks hworks
    have hwidth : ∀ out ∈ banks.map (·.out), out.length = input.length := by
      intro out member
      obtain ⟨bank, hmem, rfl⟩ := List.mem_map.mp member
      obtain ⟨i, hi, rfl⟩ := List.getElem_of_mem hmem
      have hload : i < loads.length := by rwa [hworks.length_eq]
      exact (hworks.get hload hi).length_out
    have hselect : (banks.map (·.out)).length = 2 ^ bits.length := by
      rw [List.length_map, ← hworks.length_eq, hcount]
    apply (ensures_select hv hselect hwidth).bind
    intro out hout
    exact ensures_pure (Memory.works_banks hworks hcount hloads hout)

theorem ensures_memory (input : Bus) (load : Wire) (address : Bus) :
    Ensures N (memory input load address) (Memory.Works v after input address load) := by
  have hbank := ensures_memoryBank hN hv hafter input (inThrees address).reverse load
  rwa [List.reverse_reverse, flatten_inThrees] at hbank

end Values

end NandComputer.Chip
