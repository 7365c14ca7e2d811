import NandComputer.Chip.Gates
import NandComputer.Proofs.Netlist.Composition

/-!
The values of gates and of their bus versions. On buses of one length they work
bit by bit, so a bus carries the word that the operation gives on words.
-/

namespace NandComputer

open Build

/-- The bus has the bits of the word. -/
def Bus.Carries {width : Nat} (v : Wire → Bool) (bus : Bus) (word : BitVec width) : Prop :=
  bus.map v = bitsOf word

namespace Bus

variable {width : Nat} {v : Wire → Bool} {bus : Bus} {word : BitVec width}

theorem Carries.length (h : bus.Carries v word) : bus.length = width := by
  have hlength := congrArg List.length h
  rwa [List.length_map, length_bitsOf] at hlength

theorem carries_iff : bus.Carries v word ↔
    bus.length = width ∧ numberOf (bus.map v) = word.toNat := by
  rw [Carries, eq_bitsOf_iff, List.length_map]

theorem exists_carries (h : bus.length = width) : ∃ word : BitVec width, bus.Carries v word :=
  exists_eq_bitsOf (by rw [List.length_map, h])

theorem Carries.unique {other : BitVec width} (h : bus.Carries v word)
    (hother : bus.Carries v other) : word = other :=
  bitsOf_injective (h.symm.trans hother)

/-- The wires of a bus have the bits of its word, and there are no more wires than bits. -/
theorem Carries.getElem? (h : bus.Carries v word) (i : Nat) :
    (bus[i]?).map v = if i < width then some (word.getLsbD i) else none := by
  rw [← List.getElem?_map, h, getElem?_bitsOf]

/-- A wire of a bus has the bit of the word at its place. -/
theorem Carries.bit (h : bus.Carries v word) {i : Nat} (hi : i < width) :
    v (bus.bit i) = word.getLsbD i := by
  have hlength := h.length
  have hget := h.getElem? i
  rw [if_pos hi, List.getElem?_eq_getElem (by omega), Option.map_some, Option.some.injEq] at hget
  rw [Bus.bit, List.getD_eq_getElem?_getD, List.getElem?_eq_getElem (by omega),
    Option.getD_some, hget]

/-- A bus carries a word if it does so bit by bit. This is how the lemmas on bus gates are
proved from those on single gates. -/
theorem carries_of_getElem (hlength : bus.length = width)
    (h : ∀ (i : Nat) (hi : i < bus.length), v bus[i] = word.getLsbD i) : bus.Carries v word := by
  apply List.ext_getElem?
  intro i
  rw [List.getElem?_map, getElem?_bitsOf]
  split
  case isTrue hi =>
    rw [List.getElem?_eq_getElem (by omega), Option.map_some, h i (by omega)]
  case isFalse hi =>
    rw [List.getElem?_eq_none (by omega), Option.map_none]

theorem length_slice {start len : Nat} (hfits : start + len ≤ bus.length) :
    (bus.slice start len).length = len := by
  rw [Bus.slice, List.length_take, List.length_drop]
  omega

/-- Some wires of a bus carry the bits that they have in the word, as an extracted word. -/
theorem Carries.slice (h : bus.Carries v word) (start len : Nat) (hfits : start + len ≤ width) :
    (bus.slice start len).Carries v (word.extractLsb' start len) := by
  have hlength := h.length
  have hslice : (bus.slice start len).length = len := length_slice (by omega)
  apply carries_of_getElem hslice
  intro i hi
  have hwire : (bus.slice start len)[i] = bus[start + i] := by
    simp [Bus.slice]
  have hbit := h.getElem? (start + i)
  rw [if_pos (by omega), List.getElem?_eq_getElem (by omega), Option.map_some,
    Option.some.injEq] at hbit
  rw [hwire, hbit, BitVec.getLsbD_extractLsb']
  simp [show i < len by omega]

end Bus

namespace Chip

section Grows

instance (a : Wire) : Grows (not a) := inferInstanceAs (Grows (nand a a))

instance (a b : Wire) : Grows (and a b) := by
  unfold and
  infer_instance

instance (a b : Wire) : Grows (or a b) := by
  unfold or
  infer_instance

instance (a b : Wire) : Grows (xor a b) := by
  unfold xor
  infer_instance

instance (a b sel notSel : Wire) : Grows (muxPair a b sel notSel) := by
  unfold muxPair
  infer_instance

instance (a b sel : Wire) : Grows (mux a b sel) := by
  unfold mux
  infer_instance

instance (input sel : Wire) : Grows (demux input sel) := by
  unfold demux
  infer_instance

instance (a : Bus) : Grows (notBus a) := by
  unfold notBus
  infer_instance

instance (a b : Bus) : Grows (andBus a b) := by
  unfold andBus
  infer_instance

instance (a b : Bus) (sel : Wire) : Grows (muxBus a b sel) := by
  unfold muxBus
  infer_instance

instance (a : Bus) (enable : Wire) : Grows (enableBus a enable) := by
  unfold enableBus
  infer_instance

instance (unit : Build Wire) (join : Wire → Wire → Build Wire) (inputs : List Wire) [Grows unit]
    [∀ a b, Grows (join a b)] : Grows (balanced unit join inputs) := by
  induction inputs using balanced.induct with
  | case1 => rw [balanced]; infer_instance
  | case2 single => rw [balanced]; infer_instance
  | case3 first second rest half ihlow ihhigh => rw [balanced]; infer_instance

instance (inputs : List Wire) : Grows (anyOf inputs) := by
  unfold anyOf
  infer_instance

end Grows

section Values

variable {N : Netlist} {v : Wire → Bool} (hv : N.Settled v)

include hv

theorem ensures_not (a : Wire) : Ensures N (not a) fun w => v w = !v a := by
  apply (ensures_nand hv a a).imp
  intro w hw
  rw [hw, Bool.and_self]

theorem ensures_and (a b : Wire) : Ensures N (and a b) fun w => v w = (v a && v b) := by
  apply (ensures_nand hv a b).bind
  intro both hboth
  apply (ensures_not hv both).imp
  intro w hw
  rw [hw, hboth, Bool.not_not]

theorem ensures_or (a b : Wire) : Ensures N (or a b) fun w => v w = (v a || v b) := by
  apply (ensures_not hv a).bind
  intro notA hnotA
  apply (ensures_not hv b).bind
  intro notB hnotB
  apply (ensures_nand hv notA notB).imp
  intro w hw
  rw [hw, hnotA, hnotB]
  cases v a <;> cases v b <;> rfl

/-- An exclusive disjunction takes four gates: the first one is read by both gates in the
middle, and these are joined by the last. -/
theorem ensures_xor (a b : Wire) : Ensures N (xor a b) fun w => v w = (v a ^^ v b) := by
  apply (ensures_nand hv a b).bind
  intro both hboth
  apply (ensures_nand hv a both).bind
  intro left hleft
  apply (ensures_nand hv b both).bind
  intro right hright
  apply (ensures_nand hv left right).imp
  intro w hw
  rw [hw, hleft, hright, hboth]
  cases v a <;> cases v b <;> rfl

/-- A multiplexer with the complement of its select wire given, so that a bus needs only one
inverter. -/
theorem ensures_muxPair (a b sel : Wire) {notSel : Wire} (hsel : v notSel = !v sel) :
    Ensures N (muxPair a b sel notSel) fun w => v w = if v sel then v b else v a := by
  apply (ensures_nand hv a notSel).bind
  intro left hleft
  apply (ensures_nand hv b sel).bind
  intro right hright
  apply (ensures_nand hv left right).imp
  intro w hw
  rw [hw, hleft, hright, hsel]
  cases v sel <;> simp

theorem ensures_mux (a b sel : Wire) :
    Ensures N (mux a b sel) fun w => v w = if v sel then v b else v a := by
  apply (ensures_not hv sel).bind
  intro notSel hnotSel
  exact ensures_muxPair hv a b sel hnotSel

theorem ensures_demux (input sel : Wire) : Ensures N (demux input sel) fun pair =>
    v pair.1 = (v input && !v sel) ∧ v pair.2 = (v input && v sel) := by
  apply (ensures_not hv sel).bind
  intro notSel hnotSel
  apply (ensures_and hv input notSel).bind
  intro low hlow
  apply (ensures_and hv input sel).bind
  intro high hhigh
  apply ensures_pure
  rw [hlow, hhigh, hnotSel]
  exact ⟨rfl, rfl⟩

omit hv in
/-- One gate for each item gives a bus with the values of the gates. The values are those of
the final netlist, so later gates do not matter. -/
theorem ensures_mapM_wire {α : Type} {f : α → Build Wire} [∀ x, Grows (f x)] {g : α → Bool}
    {items : List α} (h : ∀ x, Ensures N (f x) fun w => v w = g x) :
    Ensures N (items.mapM f) fun bus => bus.map v = items.map g := by
  have hmap := Ensures.mapM items fun x _ => h x
  apply hmap.imp
  intro bus hbus
  clear hmap
  induction hbus with
  | nil => rfl
  | cons hfirst _ ih => rw [List.map_cons, List.map_cons, hfirst, ih]

theorem ensures_notBus (a : Bus) :
    Ensures N (notBus a) fun bus => bus.map v = (a.map v).map (!·) := by
  apply (ensures_mapM_wire fun x => ensures_not hv x).imp
  intro bus hbus
  rw [hbus, List.map_map]
  rfl

theorem ensures_andBus (a b : Bus) :
    Ensures N (andBus a b) fun bus => bus.map v = List.zipWith (· && ·) (a.map v) (b.map v) := by
  have hgate (pair : Wire × Wire) :
      Ensures N (and pair.1 pair.2) fun w => v w = (v pair.1 && v pair.2) :=
    ensures_and hv pair.1 pair.2
  apply (ensures_mapM_wire (g := fun pair => v pair.1 && v pair.2) hgate).imp
  intro bus hbus
  rw [hbus, List.zipWith_map, List.zip, List.map_zipWith]

theorem ensures_muxBus {a b : Bus} (sel : Wire) (hlength : a.length = b.length) :
    Ensures N (muxBus a b sel) fun bus => bus.map v = if v sel then b.map v else a.map v := by
  apply (ensures_not hv sel).bind
  intro notSel hnotSel
  have hgate (pair : Wire × Wire) : Ensures N (muxPair pair.1 pair.2 sel notSel) fun w =>
      v w = if v sel then v pair.2 else v pair.1 :=
    ensures_muxPair hv pair.1 pair.2 sel hnotSel
  apply (ensures_mapM_wire (g := fun pair => if v sel then v pair.2 else v pair.1) hgate).imp
  intro bus hbus
  rw [hbus]
  cases v sel with
  | true => exact map_zip_snd hlength v
  | false => exact map_zip_fst hlength v

theorem ensures_enableBus (a : Bus) (enable : Wire) : Ensures N (enableBus a enable) fun bus =>
    bus.map v = if v enable then a.map v else List.replicate a.length false := by
  apply (ensures_andBus hv a (Bus.splat a.length enable)).imp
  intro bus hbus
  rw [hbus, Bus.splat, List.map_replicate]
  clear hbus
  induction a with
  | nil => cases v enable <;> rfl
  | cons first rest ih =>
    rw [List.map_cons, List.length_cons, List.replicate_succ, List.zipWith_cons_cons, ih]
    cases v enable <;> simp [List.replicate_succ]

omit hv in
/-- A balanced tree of joins computes what joining one by one does, if joining is a matter of
the values only and respects the concatenation of lists. -/
theorem ensures_balanced {unit : Build Wire} {join : Wire → Wire → Build Wire} [Grows unit]
    [∀ a b, Grows (join a b)] (combine : List Bool → Bool)
    (hunit : Ensures N unit fun w => v w = combine [])
    (hjoin : ∀ a b, ∀ first second : List Bool, v a = combine first → v b = combine second →
      Ensures N (join a b) fun w => v w = combine (first ++ second))
    (hsingle : ∀ bit, combine [bit] = bit) (inputs : List Wire) :
    Ensures N (balanced unit join inputs) fun w => v w = combine (inputs.map v) := by
  induction inputs using balanced.induct with
  | case1 =>
    rw [balanced]
    exact hunit
  | case2 single =>
    rw [balanced]
    apply ensures_pure
    rw [List.map_singleton, hsingle]
  | case3 first second rest half ihlow ihhigh =>
    rw [balanced]
    apply ihlow.bind
    intro low hlow
    apply ihhigh.bind
    intro high hhigh
    apply (hjoin low high _ _ hlow hhigh).imp
    intro w hw
    rw [hw, ← List.map_append, List.take_append_drop]

section Reductions

variable (hN : N.Finished)

include hN

theorem ensures_anyOf (inputs : List Wire) :
    Ensures N (anyOf inputs) fun w => v w = (inputs.map v).any id := by
  apply ensures_balanced fun bits => bits.any id
  · exact ensures_zero hN hv
  · intro a b first second ha hb
    apply (ensures_or hv a b).imp
    intro w hw
    rw [hw, ha, hb, List.any_append]
  · simp

end Reductions

end Values

end Chip

end NandComputer
