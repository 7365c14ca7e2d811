import NandComputer.Proofs.Chip.Cpu
import NandComputer.Proofs.Chip.Memory
import NandComputer.Proofs.Netlist.Soundness

/-!
All chips are sound: on wires that exist they make no wiring mistake and leave no
slot open. The number of nodes that a chip adds is bounded by the widths of its
buses.
-/

namespace NandComputer.Chip

open Build

-- the instances of an action grow with its length
set_option synthInstance.maxSize 100000

theorem two_pow_sub_one (k : Nat) : 2 ^ (k + 1) - 1 = (2 ^ k - 1) + (2 ^ k - 1) + 1 := by
  have hpos := Nat.two_pow_pos k
  rw [Nat.pow_succ]
  omega

theorem pairs_mono {n n' : Netlist} {pairs : List (Nat × Nat)}
    (h : ∀ pair ∈ pairs, pair.1 < n.size ∧ pair.2 < n.size) (hle : n.size ≤ n'.size) :
    ∀ pair ∈ pairs, pair.1 < n'.size ∧ pair.2 < n'.size := by
  intro pair member
  obtain ⟨hx, hy⟩ := h pair member
  exact ⟨Nat.lt_of_lt_of_le hx hle, Nat.lt_of_lt_of_le hy hle⟩

variable {n : Netlist} {frame : Frame} (h : n.Sound frame)

include h

section Gates

variable {a b sel : Nat} (ha : a < n.size)

include ha

theorem reaches_not : Reaches n (not a) (n.size + 1) frame.HasWire :=
  reaches_nand h ha ha

variable (hb : b < n.size)

include hb

theorem reaches_and : Reaches n (and a b) (n.size + 2) frame.HasWire := by
  apply (reaches_nand h ha hb).bind
  rintro both n₁ - hsize₁ ⟨h₁, hboth⟩
  exact (reaches_not h₁ hboth).weaken (by omega)

theorem reaches_or : Reaches n (or a b) (n.size + 3) frame.HasWire := by
  apply (reaches_not h ha).bind
  rintro notA n₁ - hsize₁ ⟨h₁, hnotA⟩
  apply (reaches_not h₁ (a := b) (by omega)).bind
  rintro notB n₂ - hsize₂ ⟨h₂, hnotB⟩
  exact (reaches_nand h₂ (a := notA) (by omega) hnotB).weaken (by omega)

theorem reaches_xor : Reaches n (xor a b) (n.size + 4) frame.HasWire := by
  apply (reaches_nand h ha hb).bind
  rintro both n₁ - hsize₁ ⟨h₁, hboth⟩
  apply (reaches_nand h₁ (a := a) (by omega) hboth).bind
  rintro left n₂ - hsize₂ ⟨h₂, hleft⟩
  apply (reaches_nand h₂ (a := b) (b := both) (by omega) (by omega)).bind
  rintro right n₃ - hsize₃ ⟨h₃, hright⟩
  exact (reaches_nand h₃ (a := left) (by omega) hright).weaken (by omega)

variable (hsel : sel < n.size)

include hsel

theorem reaches_muxPair {notSel : Nat} (hnotSel : notSel < n.size) :
    Reaches n (muxPair a b sel notSel) (n.size + 3) frame.HasWire := by
  apply (reaches_nand h ha hnotSel).bind
  rintro left n₁ - hsize₁ ⟨h₁, hleft⟩
  apply (reaches_nand h₁ (a := b) (b := sel) (by omega) (by omega)).bind
  rintro right n₂ - hsize₂ ⟨h₂, hright⟩
  exact (reaches_nand h₂ (a := left) (by omega) hright).weaken (by omega)

theorem reaches_mux : Reaches n (mux a b sel) (n.size + 4) frame.HasWire := by
  apply (reaches_not h hsel).bind
  rintro notSel n₁ - hsize₁ ⟨h₁, hnotSel⟩
  have hpair := reaches_muxPair h₁ (a := a) (b := b) (by omega) (by omega)
    (Nat.lt_of_lt_of_le hsel hsize₁.1) hnotSel
  exact hpair.weaken (by omega)

end Gates

theorem reaches_demux {input sel : Nat} (hinput : input < n.size) (hsel : sel < n.size) :
    Reaches n (demux input sel) (n.size + 5) fun pair n' =>
      frame.HasWire pair.1 n' ∧ frame.HasWire pair.2 n' := by
  apply (reaches_not h hsel).bind
  rintro notSel n₁ - hsize₁ ⟨h₁, hnotSel⟩
  apply (reaches_and h₁ (a := input) (by omega) hnotSel).bind
  rintro low n₂ - hsize₂ ⟨h₂, hlow⟩
  apply (reaches_and h₂ (a := input) (b := sel) (by omega) (by omega)).bind
  rintro high n₃ - hsize₃ ⟨h₃, hhigh⟩
  apply reaches_pure _ (by omega)
  exact ⟨⟨h₃, Nat.lt_of_lt_of_le hlow hsize₃.1⟩, h₃, hhigh⟩

/-- One gate for each item gives a bus, if each gate is sound on whatever netlist the gates
before it have left. -/
theorem reaches_mapM_wire {α : Type} {f : α → Build Wire} [∀ x, Grows (f x)] {items : List α}
    {cost : Nat} (hf : ∀ x ∈ items, ∀ n', n.size ≤ n'.size → n'.Sound frame →
      Reaches n' (f x) (n'.size + cost) frame.HasWire) :
    Reaches n (items.mapM f) (n.size + items.length * cost) (frame.HasBus items.length) := by
  have hmap := Reaches.mapM (n := n) (f := f)
    (J := fun bus n' => n.size ≤ n'.size ∧ n'.Sound frame ∧ n'.Has bus) items cost
    ⟨Nat.le_refl _, h, by simp [Netlist.Has]⟩ ?_
  · apply hmap.imp
    rintro bus n' - ⟨hlength, -, hsound, hlive⟩
    exact ⟨hsound, hlive, hlength⟩
  · rintro x hx bus n' ⟨hsize, hsound, hlive⟩
    apply (hf x hx n' hsize hsound).imp
    rintro w n'' hle ⟨hnext, hw⟩
    have hgrown := Netlist.size_le hle
    exact ⟨Nat.le_trans hsize hgrown, hnext, (hlive.mono hgrown).append (by simpa [Netlist.Has])⟩

section Buses

variable {width : Nat} {a b : Bus} (ha : n.Has a) (hwidth : a.length = width)

include ha hwidth

theorem reaches_notBus : Reaches n (notBus a) (n.size + width * 1) (frame.HasBus width) := by
  subst hwidth
  apply reaches_mapM_wire h
  intro w hw n' hsize h'
  exact reaches_not h' (Nat.lt_of_lt_of_le (ha w hw) hsize)

variable (hb : n.Has b) (hlength : b.length = width)

include hb hlength

/-- One gate for each pair of bits gives a bus as wide as the two, at the same cost for each
bit. -/
theorem reaches_mapM_zip {f : Wire × Wire → Build Wire} [∀ pair, Grows (f pair)] {cost : Nat}
    (hf : ∀ (x y : Nat) n', n.size ≤ n'.size → n'.Sound frame → x < n'.size → y < n'.size →
      Reaches n' (f (x, y)) (n'.size + cost) frame.HasWire) :
    Reaches n ((a.zip b).mapM f) (n.size + width * cost) (frame.HasBus width) := by
  have hpairs : (a.zip b).length = width := by
    rw [List.length_zip, hwidth, hlength, Nat.min_self]
  rw [← hpairs]
  apply reaches_mapM_wire h
  rintro ⟨x, y⟩ hpair n' hsize h'
  obtain ⟨hx, hy⟩ := List.of_mem_zip hpair
  exact hf x y n' hsize h' (Nat.lt_of_lt_of_le (ha x hx) hsize) (Nat.lt_of_lt_of_le (hb y hy) hsize)

theorem reaches_andBus : Reaches n (andBus a b) (n.size + width * 2) (frame.HasBus width) :=
  reaches_mapM_zip h ha hwidth hb hlength fun _ _ _ _ h' hx hy => reaches_and h' hx hy

theorem reaches_orBus : Reaches n (orBus a b) (n.size + width * 3) (frame.HasBus width) :=
  reaches_mapM_zip h ha hwidth hb hlength fun _ _ _ _ h' hx hy => reaches_or h' hx hy

theorem reaches_muxBus {sel : Nat} (hsel : sel < n.size) :
    Reaches n (muxBus a b sel) (n.size + (width * 3 + 1)) (frame.HasBus width) := by
  apply (reaches_not h hsel).bind
  rintro notSel n₁ - hsize₁ ⟨h₁, hnotSel⟩
  have hpairs := reaches_mapM_zip h₁ (ha.mono hsize₁.1) hwidth (hb.mono hsize₁.1) hlength
    (f := fun pair => muxPair pair.1 pair.2 sel notSel) fun x y n' hsize h' hx hy =>
      reaches_muxPair h' hx hy (show sel < n'.size by omega) (Nat.lt_of_lt_of_le hnotSel hsize)
  exact hpairs.weaken (by omega)

omit hb hlength

theorem reaches_enableBus {enable : Nat} (henable : enable < n.size) :
    Reaches n (enableBus a enable) (n.size + width * 2) (frame.HasBus width) := by
  have hsplat : n.Has (Bus.splat a.length enable) := by
    intro w hw
    rw [List.eq_of_mem_replicate hw]
    exact henable
  exact reaches_andBus h ha hwidth hsplat (by rw [Bus.splat, List.length_replicate, hwidth])

end Buses

/-- A tree of joins has one join fewer than inputs, and one node for the unit if there is no
input at all. -/
theorem reaches_balanced {unit : Build Wire} {join : Wire → Wire → Build Wire} [Grows unit]
    [∀ a b, Grows (join a b)]
    (hunit : ∀ n', n'.Sound frame → Reaches n' unit (n'.size + 1) frame.HasWire)
    (hjoin : ∀ (a b : Nat) n', n'.Sound frame → a < n'.size → b < n'.size →
      Reaches n' (join a b) (n'.size + 3) frame.HasWire)
    {inputs : List Wire} (hinputs : n.Has inputs) :
    Reaches n (balanced unit join inputs) (n.size + (4 * inputs.length - 4) + 1) frame.HasWire := by
  revert n
  induction inputs using balanced.induct with
  | case1 =>
    intro n h _
    rw [balanced]
    exact hunit n h
  | case2 single =>
    intro n h hinputs
    rw [balanced]
    exact reaches_pure ⟨h, hinputs single (by simp)⟩ (by simp)
  | case3 first second rest half ihlow =>
    rename_i ihhigh
    intro n h hinputs
    rw [balanced]
    apply (ihlow h (hinputs.sublist (List.take_subset _ _))).bind
    rintro low n₁ - hsize₁ ⟨h₁, hlow⟩
    have hrest : n₁.Has ((first :: second :: rest).drop half) :=
      (hinputs.mono hsize₁.1).sublist (List.drop_subset _ _)
    apply (ihhigh h₁ hrest).bind
    rintro high n₂ - hsize₂ ⟨h₂, hhigh⟩
    have hlast := hjoin low high n₂ h₂ (Nat.lt_of_lt_of_le hlow hsize₂.1) hhigh
    refine hlast.weaken ?_
    have htwo : (first :: second :: rest).length = rest.length + 2 := rfl
    have hhalf : half = (rest.length + 2) / 2 := rfl
    rw [List.length_take] at hsize₁
    rw [List.length_drop] at hsize₂
    omega

theorem reaches_anyOf {inputs : List Wire} (hinputs : n.Has inputs) :
    Reaches n (anyOf inputs) (n.size + (4 * inputs.length - 4) + 1) frame.HasWire :=
  reaches_balanced h (fun _ h' => reaches_zero h') (fun _ _ _ h' ha hb => reaches_or h' ha hb)
    hinputs

theorem reaches_allOf {inputs : List Wire} (hinputs : n.Has inputs) :
    Reaches n (allOf inputs) (n.size + (4 * inputs.length - 4) + 1) frame.HasWire := by
  apply reaches_balanced h (fun _ h' => reaches_one h') _ hinputs
  intro a b n' h' ha hb
  exact (reaches_and h' ha hb).weaken (by omega)

section Arithmetic

theorem reaches_halfAdder {a b : Nat} (ha : a < n.size) (hb : b < n.size) :
    Reaches n (halfAdder a b) (n.size + 6) fun cell n' =>
      frame.HasWire cell.sum n' ∧ frame.HasWire cell.carry n' := by
  apply (reaches_xor h ha hb).bind
  rintro sum n₁ - hsize₁ ⟨h₁, hsum⟩
  apply (reaches_and h₁ (a := a) (b := b) (by omega) (by omega)).bind
  rintro carry n₂ - hsize₂ ⟨h₂, hcarry⟩
  apply reaches_pure _ (by omega)
  exact ⟨⟨h₂, Nat.lt_of_lt_of_le hsum hsize₂.1⟩, h₂, hcarry⟩

theorem reaches_fullAdder {a b c : Nat} (ha : a < n.size) (hb : b < n.size) (hc : c < n.size) :
    Reaches n (fullAdder a b c) (n.size + 15) fun cell n' =>
      frame.HasWire cell.sum n' ∧ frame.HasWire cell.carry n' := by
  apply (reaches_halfAdder h ha hb).bind
  rintro ⟨sum₁, carry₁⟩ n₁ - hsize₁ ⟨⟨h₁, hsum₁⟩, -, hcarry₁⟩
  apply (reaches_halfAdder h₁ hsum₁ (b := c) (by omega)).bind
  rintro ⟨sum₂, carry₂⟩ n₂ - hsize₂ ⟨⟨h₂, hsum₂⟩, -, hcarry₂⟩
  have hfirst : carry₁ < n₂.size := Nat.lt_of_lt_of_le hcarry₁ hsize₂.1
  apply (reaches_or h₂ hfirst hcarry₂).bind
  rintro carry n₃ - hsize₃ ⟨h₃, hcarry⟩
  apply reaches_pure _ (by omega)
  exact ⟨⟨h₃, Nat.lt_of_lt_of_le hsum₂ hsize₃.1⟩, h₃, hcarry⟩

theorem reaches_ripple {carry : Nat} (hcarry : carry < n.size) {pairs : List (Wire × Wire)}
    (hpairs : ∀ pair ∈ pairs, pair.1 < n.size ∧ pair.2 < n.size) :
    Reaches n (ripple carry pairs) (n.size + pairs.length * 15) (frame.HasBus pairs.length) := by
  induction pairs generalizing n carry with
  | nil => exact reaches_pure ⟨h, by simp [Netlist.Has], rfl⟩ (Nat.le_refl _)
  | cons pair rest ih =>
    obtain ⟨⟨hfirst, hsecond⟩, hrest⟩ := List.forall_mem_cons.mp hpairs
    rw [ripple, List.length_cons, Nat.add_one_mul]
    apply (reaches_fullAdder h hfirst hsecond hcarry).bind
    rintro ⟨sum, next⟩ n₁ - hsize₁ ⟨⟨h₁, hsum⟩, -, hnext⟩
    have hlater := pairs_mono hrest hsize₁.1
    apply (ih h₁ hnext hlater).bind
    intro bus n₂ _ hsize₂ hbus
    exact reaches_pure (hbus.cons (Nat.lt_of_lt_of_le hsum hsize₂.1)) (by omega)

variable {width : Nat} {a b : Bus} (ha : n.Has a) (hwidth : a.length = width)

include ha hwidth

/-- An adder costs fifteen nodes for each bit. The first cell has no carry to add and is
cheaper, which the bound ignores. -/
theorem reaches_add (hb : n.Has b) (hlength : b.length = width) :
    Reaches n (add a b) (n.size + width * 15) (frame.HasBus width) := by
  have hpairs : ∀ pair ∈ a.zip b, pair.1 < n.size ∧ pair.2 < n.size := by
    rintro ⟨x, y⟩ member
    obtain ⟨hx, hy⟩ := List.of_mem_zip member
    exact ⟨ha x hx, hb y hy⟩
  have hcount : (a.zip b).length = width := by
    rw [List.length_zip, hwidth, hlength, Nat.min_self]
  rw [← hcount, add]
  clear hcount
  cases hzip : a.zip b with
  | nil => exact reaches_pure ⟨h, by simp [Netlist.Has], rfl⟩ (Nat.le_refl _)
  | cons pair rest =>
    rw [hzip] at hpairs
    obtain ⟨⟨hfirst, hsecond⟩, hrest⟩ := List.forall_mem_cons.mp hpairs
    rw [List.length_cons, Nat.add_one_mul]
    apply (reaches_halfAdder h hfirst hsecond).bind
    rintro ⟨sum, next⟩ n₁ - hsize₁ ⟨⟨h₁, hsum⟩, -, hnext⟩
    have hlater := pairs_mono hrest hsize₁.1
    apply (reaches_ripple h₁ hnext hlater).bind
    intro bus n₂ _ hsize₂ hbus
    exact reaches_pure (hbus.cons (Nat.lt_of_lt_of_le hsum hsize₂.1)) (by omega)

theorem reaches_increment :
    Reaches n (increment a) (n.size + (width * 15 + 2)) (frame.HasBus width) := by
  apply (reaches_constant h a.length 1).bind
  rintro unit n₁ - hsize₁ ⟨h₁, hunit, hlength⟩
  have hsum := reaches_add h₁ (ha.mono hsize₁.1) hwidth hunit (hlength.trans hwidth)
  exact hsum.weaken (by omega)

theorem reaches_shiftLeftLogical :
    Reaches n (shiftLeftLogical a) (n.size + 1) (frame.HasBus width) := by
  apply (reaches_zero h).bind
  rintro low n₁ - hsize₁ ⟨h₁, hlow⟩
  apply reaches_pure _ (by omega)
  have hlive : n₁.Has (low :: a) := List.forall_mem_cons.mpr ⟨hlow, ha.mono hsize₁.1⟩
  refine ⟨h₁, hlive.sublist (List.take_subset _ _), ?_⟩
  rw [List.length_take, List.length_cons, hwidth]
  omega

theorem reaches_shiftRightLogical :
    Reaches n (shiftRightLogical a) (n.size + 1) (frame.HasBus width) := by
  apply (reaches_zero h).bind
  rintro high n₁ - hsize₁ ⟨h₁, hhigh⟩
  apply reaches_pure _ (by omega)
  have hlive : n₁.Has (a ++ [high]) := (ha.mono hsize₁.1).append (by simpa [Netlist.Has])
  refine ⟨h₁, hlive.sublist (List.drop_subset _ _), ?_⟩
  rw [List.length_drop, List.length_append, hwidth, List.length_singleton]
  omega

theorem reaches_shiftLeftArithmetic :
    Reaches n (shiftLeftArithmetic a) (n.size + 1) (frame.HasBus width) := by
  apply (reaches_zero h).bind
  rintro low n₁ - hsize₁ ⟨h₁, hlow⟩
  apply reaches_pure _ (by omega)
  have hlive : n₁.Has a := ha.mono hsize₁.1
  cases a with
  | nil => exact ⟨h₁, hlive, hwidth⟩
  | cons first rest =>
    cases rest with
    | nil => exact ⟨h₁, by simpa [Netlist.Has] using hlow, hwidth⟩
    | cons second others =>
      have hkept := hlive.sublist (List.take_subset (others.length + 2 - 2) _)
      have hsign := hlive.sublist (List.drop_subset (others.length + 2 - 1) _)
      refine ⟨h₁, List.forall_mem_cons.mpr ⟨hlow, hkept.append hsign⟩, ?_⟩
      simp only [List.length_cons, List.length_append, List.length_take, List.length_drop]
      simp only [List.length_cons] at hwidth
      omega

theorem reaches_partialProducts {acc : Bus} (hacc : n.Has acc) (hlength : acc.length = width)
    {enables : List Wire} (henables : n.Has enables) :
    Reaches n (partialProducts acc a enables) (n.size + enables.length * (width * 17 + 1))
      (frame.HasBus width) := by
  induction enables generalizing n acc a with
  | nil => exact reaches_pure ⟨h, hacc, hlength⟩ (by omega)
  | cons enable rest ih =>
    obtain ⟨henable, hrest⟩ := List.forall_mem_cons.mp henables
    rw [partialProducts, List.length_cons, Nat.add_one_mul]
    apply (reaches_enableBus h ha hwidth henable).bind
    rintro product n₁ - hsize₁ ⟨h₁, hproduct, hproductLength⟩
    apply (reaches_add h₁ (hacc.mono hsize₁.1) hlength hproduct hproductLength).bind
    rintro total n₂ - hsize₂ ⟨h₂, htotal, htotalLength⟩
    have hshifted : n₂.Has a := ha.mono (by omega)
    apply (reaches_shiftLeftLogical h₂ hshifted hwidth).bind
    rintro double n₃ - hsize₃ ⟨h₃, hdouble, hdoubleLength⟩
    have hlater : n₃.Has rest := Netlist.Has.mono hrest (by omega)
    have hlast := ih h₃ hdouble hdoubleLength (htotal.mono hsize₃.1) htotalLength hlater
    exact hlast.weaken (by omega)

/-- A multiplier costs a row of gates and an adder for each bit of its second operand, so its
size is quadratic in the width. -/
theorem reaches_multiply (hb : n.Has b) :
    Reaches n (multiply a b) (n.size + (b.length * (width * 17 + 1) + 2)) (frame.HasBus width) := by
  apply (reaches_constant h a.length 0).bind
  rintro acc n₁ - hsize₁ ⟨h₁, hacc, hlength⟩
  have hsum := reaches_partialProducts h₁ (ha.mono hsize₁.1) hwidth hacc (hlength.trans hwidth)
    (hb.mono hsize₁.1)
  exact hsum.weaken (by omega)

end Arithmetic

section Selection

/-- One multiplexer joins the two halves of the inputs, so there is one fewer of them than
inputs. -/
theorem reaches_selectTree {width : Nat} (bits : List Wire) (hbits : n.Has bits)
    (inputs : List Bus) (hcount : inputs.length = 2 ^ bits.length)
    (hinputs : ∀ input ∈ inputs, n.Has input ∧ input.length = width) :
    Reaches n (selectTree bits inputs) (n.size + (2 ^ bits.length - 1) * (width * 3 + 1))
      (frame.HasBus width) := by
  induction bits generalizing n inputs with
  | nil =>
    obtain ⟨single, rfl⟩ := List.length_eq_one_iff.mp hcount
    obtain ⟨hlive, hlength⟩ := hinputs single (by simp)
    exact reaches_pure ⟨h, hlive, hlength⟩ (by omega)
  | cons top rest ih =>
    obtain ⟨htop, hrest⟩ := List.forall_mem_cons.mp hbits
    rw [List.length_cons, Nat.pow_succ] at hcount
    have hhalf : inputs.length / 2 = 2 ^ rest.length := by omega
    rw [selectTree, hhalf, List.length_cons, two_pow_sub_one, Nat.add_one_mul, Nat.add_mul]
    have hlows := ih h hrest (inputs.take (2 ^ rest.length))
      (by rw [List.length_take]; omega) fun input member =>
        hinputs input (List.mem_of_mem_take member)
    apply hlows.bind
    rintro low n₁ - hsize₁ ⟨h₁, hlow, hlowLength⟩
    have hhighs := ih h₁ (Netlist.Has.mono hrest hsize₁.1)
      (inputs.drop (2 ^ rest.length)) (by rw [List.length_drop]; omega) fun input member =>
        have hinput := hinputs input (List.mem_of_mem_drop member)
        ⟨hinput.1.mono hsize₁.1, hinput.2⟩
    apply hhighs.bind
    rintro high n₂ - hsize₂ ⟨h₂, hhigh, hhighLength⟩
    have hselect : top < n₂.size := by
      have hfirst : top < n₁.size := Nat.lt_of_lt_of_le htop hsize₁.1
      exact Nat.lt_of_lt_of_le hfirst hsize₂.1
    have hmux := reaches_muxBus h₂ (hlow.mono hsize₂.1) hlowLength hhigh hhighLength hselect
    exact hmux.weaken (by omega)

theorem reaches_select {width : Nat} {sel : Bus} (hsel : n.Has sel) {inputs : List Bus}
    (hcount : inputs.length = 2 ^ sel.length)
    (hinputs : ∀ input ∈ inputs, n.Has input ∧ input.length = width) :
    Reaches n (select inputs sel) (n.size + (2 ^ sel.length - 1) * (width * 3 + 1))
      (frame.HasBus width) := by
  have hreverse : sel.reverse.length = sel.length := List.length_reverse
  have htree := reaches_selectTree h sel.reverse (fun w hw => hsel w (List.mem_reverse.mp hw))
    inputs
    (by rw [hreverse, hcount]) hinputs
  rwa [hreverse] at htree

theorem reaches_routeTree (bits : List Wire) (hbits : n.Has bits) {input : Nat}
    (hinput : input < n.size) :
    Reaches n (routeTree bits input) (n.size + (2 ^ bits.length - 1) * 5)
      (frame.HasBus (2 ^ bits.length)) := by
  induction bits generalizing n input with
  | nil => exact reaches_pure ⟨h, by simpa [Netlist.Has], rfl⟩ (by omega)
  | cons top rest ih =>
    obtain ⟨htop, hrest⟩ := List.forall_mem_cons.mp hbits
    rw [routeTree, List.length_cons, two_pow_sub_one, Nat.add_one_mul, Nat.add_mul, Nat.pow_succ]
    apply (reaches_demux h hinput htop).bind
    rintro ⟨low, high⟩ n₁ - hsize₁ ⟨⟨h₁, hlow⟩, -, hhigh⟩
    apply (ih h₁ (Netlist.Has.mono hrest hsize₁.1) hlow).bind
    rintro lows n₂ - hsize₂ ⟨h₂, hlows, hlowCount⟩
    have hlater : n₂.Has rest := Netlist.Has.mono hrest (by omega)
    apply (ih h₂ hlater (Nat.lt_of_lt_of_le hhigh hsize₂.1)).bind
    rintro highs n₃ - hsize₃ ⟨h₃, hhighs, hhighCount⟩
    apply reaches_pure _ (by omega)
    refine ⟨h₃, (hlows.mono hsize₃.1).append hhighs, ?_⟩
    rw [List.length_append, hlowCount, hhighCount]
    omega

theorem reaches_route {input : Nat} (hinput : input < n.size) {sel : Bus} (hsel : n.Has sel) :
    Reaches n (route input sel) (n.size + (2 ^ sel.length - 1) * 5)
      (frame.HasBus (2 ^ sel.length)) := by
  have hreverse : sel.reverse.length = sel.length := List.length_reverse
  have htree := reaches_routeTree h sel.reverse (fun w hw => hsel w (List.mem_reverse.mp hw)) hinput
  rwa [hreverse] at htree

end Selection

section Units

theorem reaches_withFlags {out : Bus} (hout : n.Has out) (hlength : out.length = 16) :
    Reaches n (withFlags out) (n.size + 62) fun output n' =>
      frame.HasBus 16 output.out n' ∧ frame.HasWire output.zr n' ∧ frame.HasWire output.ng n' := by
  apply (reaches_anyOf h hout).bind
  rintro any n₁ - hsize₁ ⟨h₁, hany⟩
  apply (reaches_not h₁ hany).bind
  rintro zr n₂ - hsize₂ ⟨h₂, hzr⟩
  rw [hlength] at hsize₁
  apply reaches_pure _ (by omega)
  have hlive : n₂.Has out := hout.mono (by omega)
  exact ⟨⟨h₂, hlive, hlength⟩, ⟨h₂, hzr⟩, h₂, hlive.bit (by omega)⟩

theorem reaches_invertIf {a : Bus} (ha : n.Has a) (hlength : a.length = 16) {negate : Nat}
    (hnegate : negate < n.size) :
    Reaches n (invertIf a negate) (n.size + 65) (frame.HasBus 16) := by
  apply (reaches_notBus h ha hlength).bind
  rintro inverted n₁ - hsize₁ ⟨h₁, hinverted, hinvertedLength⟩
  have hmux := reaches_muxBus h₁ (ha.mono hsize₁.1) hlength hinverted hinvertedLength
    (Nat.lt_of_lt_of_le hnegate hsize₁.1)
  exact hmux.weaken (by omega)

theorem reaches_prepare {operand : Bus} (hoperand : n.Has operand) (hlength : operand.length = 16)
    {clear negate : Nat} (hclear : clear < n.size) (hnegate : negate < n.size) :
    Reaches n (prepare operand clear negate) (n.size + 116) (frame.HasBus 16) := by
  apply (reaches_constant h 16 0).bind
  rintro zeros n₁ - hsize₁ ⟨h₁, hzeros, hzerosLength⟩
  apply (reaches_muxBus h₁ (hoperand.mono hsize₁.1) hlength hzeros hzerosLength
    (Nat.lt_of_lt_of_le hclear hsize₁.1)).bind
  rintro cleared n₂ - hsize₂ ⟨h₂, hcleared, hclearedLength⟩
  have hinvert := reaches_invertIf h₂ hcleared hclearedLength (show negate < n₂.size by omega)
  exact hinvert.weaken (by omega)

variable {x y control : Bus} (hx : n.Has x) (hxLength : x.length = 16) (hy : n.Has y)
  (hyLength : y.length = 16) (hcontrol : n.Has control)

include hx hxLength hy hyLength hcontrol

theorem reaches_alu (hcontrolLength : control.length = 6) :
    Reaches n (alu x y control) (n.size + 700) fun output n' =>
      frame.HasBus 16 output.out n' ∧ frame.HasWire output.zr n' ∧ frame.HasWire output.ng n' := by
  have hbit (i : Nat) (hi : i < 6) : (control.bit i : Nat) < n.size := hcontrol.bit (by omega)
  apply (reaches_prepare h hx hxLength (hbit zeroX (by decide)) (hbit negateX (by decide))).bind
  rintro left n₁ - hsize₁ ⟨h₁, hleft, hleftLength⟩
  have hclear := Nat.lt_of_lt_of_le (hbit zeroY (by decide)) hsize₁.1
  have hnegate := Nat.lt_of_lt_of_le (hbit negateY (by decide)) hsize₁.1
  apply (reaches_prepare h₁ (hy.mono hsize₁.1) hyLength hclear hnegate).bind
  rintro right n₂ - hsize₂ ⟨h₂, hright, hrightLength⟩
  have hleft₂ : n₂.Has left := hleft.mono hsize₂.1
  apply (reaches_add h₂ hleft₂ hleftLength hright hrightLength).bind
  rintro sum n₃ - hsize₃ ⟨h₃, hsum, hsumLength⟩
  have hleft₃ : n₃.Has left := hleft.mono (by omega)
  apply (reaches_andBus h₃ hleft₃ hleftLength (hright.mono hsize₃.1) hrightLength).bind
  rintro conjunction n₄ - hsize₄ ⟨h₄, hconjunction, hconjunctionLength⟩
  have hchoose : (control.bit addNotAnd : Nat) < n₄.size :=
    Nat.lt_of_lt_of_le (hbit addNotAnd (by decide)) (by omega)
  apply (reaches_muxBus h₄ hconjunction hconjunctionLength (hsum.mono hsize₄.1) hsumLength
    hchoose).bind
  rintro chosen n₅ - hsize₅ ⟨h₅, hchosen, hchosenLength⟩
  have hlast : (control.bit negateOut : Nat) < n₅.size :=
    Nat.lt_of_lt_of_le (hbit negateOut (by decide)) (by omega)
  apply (reaches_invertIf h₅ hchosen hchosenLength hlast).bind
  rintro out n₆ - hsize₆ ⟨h₆, hout, houtLength⟩
  exact (reaches_withFlags h₆ hout houtLength).weaken (by omega)

theorem reaches_extendedAlu (hcontrolLength : control.length = 9) :
    Reaches n (extendedAlu x y control) (n.size + 6000) fun output n' =>
      frame.HasBus 16 output.out n' ∧ frame.HasWire output.zr n' ∧ frame.HasWire output.ng n' := by
  apply (reaches_multiply h hx hxLength hy).bind
  rintro product n₁ - hsize₁ ⟨h₁, hproduct, hproductLength⟩
  apply (reaches_shiftRightLogical h₁ (hy.mono hsize₁.1) hyLength).bind
  rintro yRight n₂ - hsize₂ ⟨h₂, hyRight, hyRightLength⟩
  have hx₂ : n₂.Has x := hx.mono (by omega)
  apply (reaches_shiftRightLogical h₂ hx₂ hxLength).bind
  rintro xRight n₃ - hsize₃ ⟨h₃, hxRight, hxRightLength⟩
  have hy₃ : n₃.Has y := hy.mono (by omega)
  apply (reaches_shiftLeftLogical h₃ hy₃ hyLength).bind
  rintro yLeft n₄ - hsize₄ ⟨h₄, hyLeft, hyLeftLength⟩
  have hx₄ : n₄.Has x := hx.mono (by omega)
  apply (reaches_shiftLeftLogical h₄ hx₄ hxLength).bind
  rintro xLeft n₅ - hsize₅ ⟨h₅, hxLeft, hxLeftLength⟩
  have hshifts : ∀ input ∈ [yRight, xRight, yLeft, xLeft], n₅.Has input ∧ input.length = 16 := by
    simp only [List.forall_mem_cons, List.not_mem_nil, false_implies, implies_true, and_true]
    exact ⟨⟨hyRight.mono (by omega), hyRightLength⟩, ⟨hxRight.mono (by omega), hxRightLength⟩,
      ⟨hyLeft.mono (by omega), hyLeftLength⟩, hxLeft, hxLeftLength⟩
  have hcontrol₅ : n₅.Has control := hcontrol.mono (by omega)
  have htwo (start : Nat) (hstart : start + 2 ≤ 9) : (control.slice start 2).length = 2 :=
    Bus.length_slice (by omega)
  apply (reaches_select h₅ (hcontrol₅.slice 5 2) (by rw [htwo 5 (by omega)]; rfl) hshifts).bind
  rintro shifted n₆ - hsize₆ ⟨h₆, hshifted, hshiftedLength⟩
  rw [htwo 5 (by omega)] at hsize₆
  have hx₆ : n₆.Has x := hx.mono (by omega)
  have hy₆ : n₆.Has y := hy.mono (by omega)
  have hcontrol₆ : n₆.Has control := hcontrol.mono (by omega)
  have hsix : (control.slice 0 6).length = 6 := Bus.length_slice (by omega)
  apply (reaches_alu h₆ hx₆ hxLength hy₆ hyLength (hcontrol₆.slice 0 6) hsix).bind
  rintro standard n₇ - hsize₇ ⟨⟨h₇, hstandard, hstandardLength⟩, -, -⟩
  have hproduct₇ : n₇.Has product := hproduct.mono (by omega)
  have hresults : ∀ input ∈ [product, shifted, product, standard.out],
      n₇.Has input ∧ input.length = 16 := by
    simp only [List.forall_mem_cons, List.not_mem_nil, false_implies, implies_true, and_true]
    exact ⟨⟨hproduct₇, hproductLength⟩, ⟨hshifted.mono hsize₇.1, hshiftedLength⟩,
      ⟨hproduct₇, hproductLength⟩, hstandard, hstandardLength⟩
  have hcontrol₇ : n₇.Has control := hcontrol.mono (by omega)
  apply (reaches_select h₇ (hcontrol₇.slice 7 2) (by rw [htwo 7 (by omega)]; rfl) hresults).bind
  rintro out n₈ - hsize₈ ⟨h₈, hout, houtLength⟩
  rw [htwo 7 (by omega)] at hsize₈
  rw [hyLength] at hsize₁
  exact (reaches_withFlags h₈ hout houtLength).weaken (by omega)

omit hcontrol

theorem reaches_arithmetic (variant : AluKind) {instruction : Bus}
    (hinstruction : n.Has instruction)
    (hlength : instruction.length = 16) :
    Reaches n (arithmetic variant x y instruction) (n.size + 6000) fun output n' =>
      frame.HasBus 16 output.out n' ∧ frame.HasWire output.zr n' ∧ frame.HasWire output.ng n' := by
  cases variant with
  | standard =>
    have hslice : (instruction.slice 6 6).length = 6 := Bus.length_slice (by omega)
    have hunit := reaches_alu h hx hxLength hy hyLength (hinstruction.slice 6 6) hslice
    exact hunit.weaken (by omega)
  | extended =>
    have hslice : (instruction.slice 6 9).length = 9 := Bus.length_slice (by omega)
    exact reaches_extendedAlu h hx hxLength hy hyLength (hinstruction.slice 6 9) hslice

end Units

section Registers

theorem reaches_bit {input load : Nat} (hinput : input < n.size) (hload : load < n.size) :
    Reaches n (bit input load) (n.size + 5) fun w n' => n'.Sound frame ∧ n.Latched n' [w] := by
  have hbit := reaches_flipFlop h (f := fun w => mux w input load) fun w n' hsize hw h' =>
    reaches_mux h' hw (Nat.lt_of_lt_of_le hinput hsize) (Nat.lt_of_lt_of_le hload hsize)
  exact hbit.weaken (by omega)

theorem reaches_register {width : Nat} {input : Bus} (hinput : n.Has input)
    (hlength : input.length = width) {load : Nat} (hload : load < n.size) :
    Reaches n (register input load) (n.size + width * 5) (frame.HasRegister n width) := by
  subst hlength
  have hmap := Reaches.mapM (n := n) (f := fun wire => bit wire load)
    (J := fun bits n' => n.size ≤ n'.size ∧ n'.Sound frame ∧ n.Latched n' bits) input 5
    ⟨Nat.le_refl _, h, .nil⟩ ?_
  · apply hmap.imp
    rintro out n' - ⟨hlength, -, hsound, hlatched⟩
    exact ⟨hsound, hlatched, hlength⟩
  · rintro wire hwire bits n' ⟨hsize, h', hbits⟩
    have hlive := Nat.lt_of_lt_of_le (hinput wire hwire) hsize
    apply (reaches_bit h' hlive (Nat.lt_of_lt_of_le hload hsize)).imp
    rintro w n'' hle ⟨h'', hw⟩
    exact ⟨Nat.le_trans hsize (Netlist.size_le hle), h'', hbits.append hw hsize hle⟩

/-- A counter is sound although its multiplexers read its own register: the register is
declared as forward wires, which it connects itself. -/
theorem reaches_programCounter {width : Nat} {input : Bus} (hinput : n.Has input)
    (hlength : input.length = width) {load inc reset : Nat} (hload : load < n.size)
    (hinc : inc < n.size) (hreset : reset < n.size) :
    Reaches n (programCounter input load inc reset) (n.size + (width * 30 + 8))
      (frame.HasRegister n width) := by
  subst hlength
  apply (reaches_forwardBus h input.length).bind
  rintro current n₁ - hsize₁ ⟨hawaiting, hcurrent, -, hcurrentLength⟩
  have h₁ := hawaiting.sound
  apply (reaches_increment h₁ hcurrent hcurrentLength).bind
  rintro successor n₂ hle₂ hsize₂ ⟨h₂, hsuccessor, hsuccessorLength⟩
  have hstep : inc < n₂.size := by omega
  apply (reaches_muxBus h₂ (hcurrent.mono hsize₂.1) hcurrentLength hsuccessor hsuccessorLength
    hstep).bind
  rintro stepped n₃ hle₃ hsize₃ ⟨h₃, hstepped, hsteppedLength⟩
  have hinput₃ : n₃.Has input := hinput.mono (by omega)
  have hselect : load < n₃.size := by omega
  apply (reaches_muxBus h₃ hstepped hsteppedLength hinput₃ rfl hselect).bind
  rintro loaded n₄ hle₄ hsize₄ ⟨h₄, hloaded, hloadedLength⟩
  apply (reaches_constant h₄ input.length 0).bind
  rintro zeros n₅ hle₅ hsize₅ ⟨h₅, hzeros, hzerosLength⟩
  have hclear : reset < n₅.size := by omega
  apply (reaches_muxBus h₅ (hloaded.mono hsize₅.1) hloadedLength hzeros hzerosLength hclear).bind
  rintro next n₆ hle₆ hsize₆ ⟨h₆, hnext, hnextLength⟩
  apply (reaches_one h₆).bind
  rintro always n₇ hle₇ hsize₇ ⟨h₇, halways⟩
  apply (reaches_register h₇ (hnext.mono hsize₇.1) hnextLength halways).bind
  rintro out n₈ hle₈ hsize₈ ⟨h₈, hout, houtLength⟩
  -- nothing in between has touched the forward wires, so they can be driven now
  have hle := hle₂.trans <| hle₃.trans <| hle₄.trans <| hle₅.trans <| hle₆.trans <| hle₇.trans hle₈
  have hwaits := hawaiting.later hle h₈
  apply (reaches_driveBus hwaits (hcurrentLength.trans houtLength.symm) hout.has
    (.inr hout.flipFlops)).bind
  rintro _ n₉ hle₉ hsize₉ h₉
  apply reaches_pure _ (by omega)
  exact ⟨h₉, hout.mono (by omega) hle₉, houtLength⟩

end Registers

section Memories

/-- The nodes of a memory: at every level, those of its banks, and a router and a
selector for each of them. -/
def bankCost (width : Nat) : List Bus → Nat
  | [] => width * 5
  | bits :: lower => 2 ^ bits.length * (bankCost width lower + (width * 3 + 6))

omit h in
/-- A memory costs its cells, and at every level a router and a selector for the banks. Both
are bounded by the number of cells. -/
theorem bankCost_le (width : Nat) (groups : List Bus) :
    bankCost width groups ≤
      2 ^ groups.flatten.length * (width * 5 + groups.length * (width * 3 + 6)) := by
  induction groups with
  | nil => simp [bankCost]
  | cons bits lower ih =>
    have hpos := Nat.two_pow_pos lower.flatten.length
    rw [bankCost, List.flatten_cons, List.length_append, Nat.pow_add, Nat.mul_assoc]
    apply Nat.mul_le_mul_left
    have hsplit : 2 ^ lower.flatten.length *
        (width * 5 + (bits :: lower).length * (width * 3 + 6)) =
        2 ^ lower.flatten.length * (width * 5 + lower.length * (width * 3 + 6)) +
          2 ^ lower.flatten.length * (width * 3 + 6) := by
      rw [List.length_cons]
      ring
    rw [hsplit]
    exact Nat.add_le_add ih (Nat.le_mul_of_pos_left _ hpos)

omit h in
theorem length_inThrees_le (wires : List Wire) : (inThrees wires).length ≤ wires.length := by
  induction wires using inThrees.induct with
  | case1 a b c rest ih =>
    rw [inThrees]
    simp only [List.length_cons]
    omega
  | case2 => exact Nat.le_refl 0
  | case3 short hlong hnil =>
    have hpos : short ≠ [] := hnil
    have hlength := List.length_pos_iff.mpr hpos
    rw [inThrees]
    · exact hlength
    · exact hlong
    · exact hnil

/-- The netlist is sound and has the memory, with new flip-flops for all of its cells. -/
structure HasMemory (frame : Frame) (base : Netlist) (width : Nat) (m : Memory)
    (n : Netlist) : Prop where
  out : frame.HasBus width m.out n
  latched : base.Latched n m.cells.flatten

theorem reaches_memoryBank {width : Nat} {input : Bus} (hinput : n.Has input)
    (hlength : input.length = width) {groups : List Bus} (hgroups : ∀ bits ∈ groups, n.Has bits)
    {load : Nat} (hload : load < n.size) :
    Reaches n (memoryBank input groups load) (n.size + bankCost width groups)
      (HasMemory frame n width) := by
  induction groups generalizing n load with
  | nil =>
    rw [memoryBank]
    apply (reaches_register h hinput hlength hload).bind
    rintro out n₁ - hsize₁ ⟨h₁, hout, houtLength⟩
    apply reaches_pure _ hsize₁.2
    exact ⟨⟨h₁, hout.has, houtLength⟩, by simpa using hout⟩
  | cons bits lower ih =>
    obtain ⟨hbits, hlower⟩ := List.forall_mem_cons.mp hgroups
    rw [memoryBank]
    apply (reaches_route h hload hbits).bind
    rintro loads n₁ - hsize₁ ⟨h₁, hloads, hloadsLength⟩
    -- the banks come one after the other, so what holds of those before has to survive the next
    have hbanks := Reaches.mapM (n := n₁) (f := fun load => memoryBank input lower load)
      (J := fun banks n' => n₁.size ≤ n'.size ∧ n'.Sound frame ∧
        (∀ bank ∈ banks, n'.Has bank.out ∧ bank.out.length = width) ∧
        n₁.Latched n' (banks.flatMap (·.cells)).flatten)
      loads (bankCost width lower) ⟨Nat.le_refl _, h₁, by simp, .nil⟩ ?_
    · apply hbanks.bind
      rintro banks n₂ - hsize₂ ⟨hcount, -, h₂, houts, hcells⟩
      have hinputs : ∀ out ∈ banks.map (·.out), n₂.Has out ∧ out.length = width := by
        intro out member
        obtain ⟨bank, hbank, rfl⟩ := List.mem_map.mp member
        exact houts bank hbank
      have hselect : (banks.map (·.out)).length = 2 ^ bits.length := by
        rw [List.length_map, hcount, hloadsLength]
      have hbits₂ : n₂.Has bits := hbits.mono (by omega)
      apply (reaches_select h₂ hbits₂ hselect hinputs).bind
      rintro out n₃ hle₃ hsize₃ hout
      refine reaches_pure ⟨hout, hcells.mono (by omega) hle₃⟩ ?_
      -- the two trees have one branch fewer than there are banks, which the bound ignores
      have hpos := Nat.two_pow_pos bits.length
      have hroute : (2 ^ bits.length - 1) * 5 ≤ 2 ^ bits.length * 5 := by omega
      have hmux : (2 ^ bits.length - 1) * (width * 3 + 1) ≤ 2 ^ bits.length * (width * 3 + 1) :=
        Nat.mul_le_mul_right _ (Nat.sub_le _ _)
      have hcost : 2 ^ bits.length * (bankCost width lower + (width * 3 + 6)) =
          2 ^ bits.length * bankCost width lower + 2 ^ bits.length * (width * 3 + 1) +
            2 ^ bits.length * 5 := by
        ring
      rw [hloadsLength] at hsize₂
      rw [bankCost, hcost]
      omega
    · rintro wire hwire banks n' ⟨hsize, h', houts, hcells⟩
      have hwire' := Nat.lt_of_lt_of_le (hloads wire hwire) hsize
      have hinput' : n'.Has input := hinput.mono (by omega)
      have hlower' : ∀ bits ∈ lower, n'.Has bits := by
        intro bits member
        exact (hlower bits member).mono (by omega)
      apply (ih h' hinput' hlower' hwire').imp
      rintro bank n'' hle ⟨⟨h'', hout, houtLength⟩, hbank⟩
      have hgrown := Netlist.size_le hle
      refine ⟨Nat.le_trans hsize hgrown, h'', ?_, ?_⟩
      · simp only [List.mem_append, List.mem_singleton]
        rintro other (hother | rfl)
        · exact ⟨(houts other hother).1.mono hgrown, (houts other hother).2⟩
        · exact ⟨hout, houtLength⟩
      · rw [List.flatMap_append, List.flatten_append, List.flatMap_singleton]
        exact hcells.append hbank hsize hle

/-- A memory of any address width is sound. Its size is that of its cells and of the trees
around them. -/
theorem reaches_memory {width : Nat} {input : Bus} (hinput : n.Has input)
    (hlength : input.length = width) {load : Nat} (hload : load < n.size) {address : Bus}
    (haddress : n.Has address) :
    Reaches n (memory input load address)
      (n.size + 2 ^ address.length * (width * 5 + address.length * (width * 3 + 6)))
      (HasMemory frame n width) := by
  have hgroups : ∀ bits ∈ (inThrees address).reverse, n.Has bits := by
    intro bits member w hw
    apply haddress
    rw [← flatten_inThrees address]
    exact List.mem_flatten.mpr ⟨bits, List.mem_reverse.mp member, hw⟩
  apply (reaches_memoryBank h hinput hlength hgroups hload).weaken _
  have hcost := bankCost_le width (inThrees address).reverse
  have htotal : (inThrees address).reverse.flatten.length = address.length := by
    rw [List.length_flatten, List.map_reverse, List.sum_reverse, ← List.length_flatten,
      flatten_inThrees]
  rw [htotal, List.length_reverse] at hcost
  have hlevels := Nat.mul_le_mul_right (width * 3 + 6) (length_inThrees_le address)
  have hwhole := Nat.mul_le_mul_left (2 ^ address.length) (Nat.add_le_add_left hlevels (width * 5))
  exact Nat.add_le_add_left (Nat.le_trans hcost hwhole) _

omit h in
/-- The largest memory is the one with the most address bits, so a bound for it is one for
all. -/
theorem memory_cost_le {bits : Nat} (hbits : bits ≤ 15) :
    2 ^ bits * (16 * 5 + bits * (16 * 3 + 6)) ≤ 2 ^ 15 * (16 * 5 + 15 * (16 * 3 + 6)) := by
  apply Nat.mul_le_mul
  · exact Nat.pow_le_pow_right (by omega) hbits
  · omega

end Memories

section Processor

theorem reaches_jumpWanted {instruction : Bus} (hinstruction : n.Has instruction)
    (hlength : instruction.length = 16) {zr ng : Nat} (hzr : zr < n.size) (hng : ng < n.size) :
    Reaches n (jumpWanted instruction zr ng) (n.size + 16) frame.HasWire := by
  have hbit (i : Nat) (hi : i < 16) : (instruction.bit i : Nat) < n.size :=
    hinstruction.bit (by omega)
  apply (reaches_and h (hbit jumpNegativeBit (by decide)) hng).bind
  rintro onNegative n₁ - hsize₁ ⟨h₁, honNegative⟩
  have hzeroBit := Nat.lt_of_lt_of_le (hbit jumpZeroBit (by decide)) hsize₁.1
  apply (reaches_and h₁ hzeroBit (Nat.lt_of_lt_of_le hzr hsize₁.1)).bind
  rintro onZero n₂ - hsize₂ ⟨h₂, honZero⟩
  apply (reaches_or h₂ (a := zr) (b := ng) (by omega) (by omega)).bind
  rintro notPositive n₃ - hsize₃ ⟨h₃, hnotPositive⟩
  apply (reaches_not h₃ hnotPositive).bind
  rintro positive n₄ - hsize₄ ⟨h₄, hpositive⟩
  have hpositiveBit : (instruction.bit jumpPositiveBit : Nat) < n₄.size :=
    Nat.lt_of_lt_of_le (hbit jumpPositiveBit (by decide)) (by omega)
  apply (reaches_and h₄ hpositiveBit hpositive).bind
  rintro onPositive n₅ - hsize₅ ⟨h₅, honPositive⟩
  have hfirst : onNegative < n₅.size := Nat.lt_of_lt_of_le honNegative (by omega)
  have hsecond : onZero < n₅.size := Nat.lt_of_lt_of_le honZero (by omega)
  apply (reaches_or h₅ hfirst hsecond).bind
  rintro notOnPositive n₆ - hsize₆ ⟨h₆, hnotOnPositive⟩
  have hthird := Nat.lt_of_lt_of_le honPositive hsize₆.1
  exact (reaches_or h₆ hnotOnPositive hthird).weaken (by omega)

/-- The netlist is sound and has the processor, with new flip-flops for its registers
and new forward wires for its address. -/
structure HasCpu (frame : Frame) (base : Netlist) (c : Cpu) (n : Netlist) : Prop where
  outM : frame.HasBus 16 c.outM n
  writeM : frame.HasWire c.writeM n
  addressM : frame.HasBus 15 c.addressM n
  forward : ∀ w ∈ c.addressM, base.size ≤ w ∧ ∃ source?, n.nodes[w]? = some (.forward source?)
  latched : base.Latched n (c.a ++ c.d ++ c.pc)

/-- The processor is sound. Its registers come behind the gates that read them, so it starts
with forward wires and connects all of these in the end. -/
theorem reaches_cpu (variant : AluKind) {inM instruction : Bus} (hinM : n.Has inM)
    (hinMLength : inM.length = 16) (hinstruction : n.Has instruction)
    (hinstructionLength : instruction.length = 16) {reset : Nat} (hreset : reset < n.size) :
    Reaches n (cpu inM instruction reset variant) (n.size + 7000) (HasCpu frame n) := by
  have hbit (i : Nat) (hi : i < 16) : (instruction.bit i : Nat) < n.size :=
    hinstruction.bit (by omega)
  unfold cpu
  dsimp only
  apply (reaches_not h (hbit classBit (by decide))).bind
  rintro literal n₁ - hsize₁ ⟨h₁, hliteral⟩
  apply (reaches_forwardBus h₁ 16).bind
  rintro a n₂ - hsize₂ ⟨hawaitsA, ha, hfreshA, haLength⟩
  apply (reaches_forwardBus hawaitsA.sound 16).bind
  rintro d n₃ hle₃ hsize₃ ⟨hawaitsD, hd, -, hdLength⟩
  have ha₃ : n₃.Has a := ha.mono hsize₃.1
  have hinM₃ : n₃.Has inM := hinM.mono (by omega)
  have hoperand : (instruction.bit memoryOperandBit : Nat) < n₃.size :=
    Nat.lt_of_lt_of_le (hbit memoryOperandBit (by decide)) (by omega)
  apply (reaches_muxBus hawaitsD.sound ha₃ haLength hinM₃ hinMLength hoperand).bind
  rintro y n₄ hle₄ hsize₄ ⟨h₄, hy, hyLength⟩
  have hinstruction₄ : n₄.Has instruction := hinstruction.mono (by omega)
  apply (reaches_arithmetic h₄ (hd.mono hsize₄.1) hdLength hy hyLength variant hinstruction₄
    hinstructionLength).bind
  rintro result n₅ hle₅ hsize₅ ⟨⟨h₅, hout, houtLength⟩, ⟨-, hzr⟩, -, hng⟩
  have hclass : (instruction.bit classBit : Nat) < n.size := hbit classBit (by decide)
  have hstoreABit : (instruction.bit storeABit : Nat) < n.size := hbit storeABit (by decide)
  have hstoreDBit : (instruction.bit storeDBit : Nat) < n.size := hbit storeDBit (by decide)
  have hstoreMBit : (instruction.bit storeMBit : Nat) < n.size := hbit storeMBit (by decide)
  apply (reaches_and h₅ (Nat.lt_of_lt_of_le hclass (by omega))
    (Nat.lt_of_lt_of_le hstoreABit (by omega))).bind
  rintro storeA n₆ hle₆ hsize₆ ⟨h₆, hstoreA⟩
  have hinstruction₆ : n₆.Has instruction := hinstruction.mono (by omega)
  apply (reaches_muxBus h₆ hinstruction₆ hinstructionLength (hout.mono hsize₆.1) houtLength
    hstoreA).bind
  rintro inA n₇ hle₇ hsize₇ ⟨h₇, hinA, hinALength⟩
  apply (reaches_or h₇ (Nat.lt_of_lt_of_le hliteral (by omega))
    (Nat.lt_of_lt_of_le hstoreA hsize₇.1)).bind
  rintro loadA n₈ hle₈ hsize₈ ⟨h₈, hloadA⟩
  apply (reaches_register h₈ (hinA.mono hsize₈.1) hinALength hloadA).bind
  rintro outA n₉ hle₉ hsize₉ ⟨h₉, houtA, houtALength⟩
  -- A is driven while the slots of D are still open
  have hle := hle₄.trans <| hle₅.trans <| hle₆.trans <| hle₇.trans <| hle₈.trans hle₉
  have hwaitsA : n₉.Awaiting (frame.opening d) a := by
    rw [Frame.opening_comm] at h₉
    refine ⟨h₉, hawaitsA.nodup, ?_, ?_⟩
    · rintro w hw (hmem | hmem)
      · exact hawaitsA.fresh w hw hmem
      · exact hawaitsD.fresh w hmem (.inr hw)
    · exact hawaitsA.forward_later (hle₃.trans hle) fun w hw => (h₉.opened w).mpr (.inr hw)
  apply (reaches_driveBus hwaitsA (haLength.trans houtALength.symm) houtA.has
    (.inr houtA.flipFlops)).bind
  rintro _ n₁₀ hle₁₀ hsize₁₀ h₁₀
  apply (reaches_and h₁₀ (Nat.lt_of_lt_of_le hclass (by omega))
    (Nat.lt_of_lt_of_le hstoreDBit (by omega))).bind
  rintro storeD n₁₁ hle₁₁ hsize₁₁ ⟨h₁₁, hstoreD⟩
  have hout₁₁ : n₁₁.Has result.out := hout.mono (by omega)
  apply (reaches_register h₁₁ hout₁₁ houtLength hstoreD).bind
  rintro outD n₁₂ hle₁₂ hsize₁₂ ⟨h₁₂, houtD, houtDLength⟩
  have hwaitsD : n₁₂.Awaiting frame d := by
    have hearlier := hle.trans <| hle₁₀.trans <| hle₁₁.trans hle₁₂
    refine ⟨h₁₂, hawaitsD.nodup, fun w hw hmem => hawaitsD.fresh w hw (.inl hmem), ?_⟩
    exact hawaitsD.forward_later hearlier fun w hw => (h₁₂.opened w).mpr (.inr hw)
  apply (reaches_driveBus hwaitsD (hdLength.trans houtDLength.symm) houtD.has
    (.inr houtD.flipFlops)).bind
  rintro _ n₁₃ hle₁₃ hsize₁₃ h₁₃
  apply (reaches_and h₁₃ (Nat.lt_of_lt_of_le hclass (by omega))
    (Nat.lt_of_lt_of_le hstoreMBit (by omega))).bind
  rintro writeM n₁₄ hle₁₄ hsize₁₄ ⟨h₁₄, hwriteM⟩
  have hinstruction₁₄ : n₁₄.Has instruction := hinstruction.mono (by omega)
  apply (reaches_jumpWanted h₁₄ hinstruction₁₄ hinstructionLength
    (Nat.lt_of_lt_of_le hzr (by omega)) (Nat.lt_of_lt_of_le hng (by omega))).bind
  rintro wanted n₁₅ hle₁₅ hsize₁₅ ⟨h₁₅, hwanted⟩
  apply (reaches_and h₁₅ (Nat.lt_of_lt_of_le hclass (by omega)) hwanted).bind
  rintro jump n₁₆ hle₁₆ hsize₁₆ ⟨h₁₆, hjump⟩
  apply (reaches_one h₁₆).bind
  rintro always n₁₇ hle₁₇ hsize₁₇ ⟨h₁₇, halways⟩
  have ha₁₇ : n₁₇.Has a := ha.mono (by omega)
  have haddressLength : (a.slice 0 15).length = 15 := Bus.length_slice (by omega)
  apply (reaches_programCounter h₁₇ (ha₁₇.slice 0 15) haddressLength
    (Nat.lt_of_lt_of_le hjump hsize₁₇.1) halways (show reset < n₁₇.size by omega)).bind
  rintro pc n₁₈ hle₁₈ hsize₁₈ ⟨h₁₈, hpc, -⟩
  apply reaches_pure _ (by omega)
  have hafterD := hle₁₃.trans <| hle₁₄.trans <| hle₁₅.trans <| hle₁₆.trans <| hle₁₇.trans hle₁₈
  have hregisters := (houtA.append (houtD.mono (by omega) le_rfl) (by omega)
    (hle₁₀.trans <| hle₁₁.trans hle₁₂)).append (hpc.mono (by omega) le_rfl) (by omega) hafterD
  have haddress : ∀ w ∈ a.slice 0 15,
      n.size ≤ w ∧ ∃ source?, n₁₈.nodes[w]? = some (.forward source?) := by
    intro w hw
    have hmem : w ∈ a := List.mem_of_mem_drop (List.mem_of_mem_take hw)
    have hfresh := hfreshA w hmem
    have hlast := hle₃.trans <| hle.trans <| hle₁₀.trans <| hle₁₁.trans <| hle₁₂.trans hafterD
    exact ⟨by omega, Netlist.forward_of_le hlast (hawaitsA.forward w hmem)⟩
  exact ⟨⟨h₁₈, hout.mono (by omega), houtLength⟩,
    ⟨h₁₈, Nat.lt_of_lt_of_le hwriteM (by omega)⟩,
    ⟨h₁₈, (ha₁₇.slice 0 15).mono hsize₁₈.1, haddressLength⟩, haddress,
    hregisters.mono (by omega) le_rfl⟩

end Processor

end NandComputer.Chip
