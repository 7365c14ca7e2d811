import Mathlib.Data.BitVec
import NandComputer.Chip.Arith
import NandComputer.Proofs.Chip.Gates

/-!
Arithmetic on buses is arithmetic on words. Each adder cell keeps the weight of
its inputs, so a chain of them computes the sum of two numbers up to the last
carry.
-/

namespace NandComputer.Chip

open Build

section Grows

instance (a b : Wire) : Grows (halfAdder a b) := by
  unfold halfAdder
  infer_instance

instance (a b c : Wire) : Grows (fullAdder a b c) := by
  unfold fullAdder
  infer_instance

instance (carry : Wire) (pairs : List (Wire × Wire)) : Grows (ripple carry pairs) := by
  induction pairs generalizing carry with
  | nil => exact inferInstanceAs (Grows (pure []))
  | cons pair rest ih =>
    rw [ripple]
    infer_instance

instance (a b : Bus) : Grows (add a b) := by
  unfold add
  split <;> infer_instance

instance (a : Bus) : Grows (increment a) := by
  unfold increment
  infer_instance

instance (a : Bus) : Grows (shiftLeftLogical a) := by
  unfold shiftLeftLogical
  infer_instance

instance (a : Bus) : Grows (shiftRightLogical a) := by
  unfold shiftRightLogical
  infer_instance

instance (acc shifted : Bus) (enables : List Wire) :
    Grows (partialProducts acc shifted enables) := by
  induction enables generalizing acc shifted with
  | nil => exact inferInstanceAs (Grows (pure acc))
  | cons enable rest ih =>
    rw [partialProducts]
    infer_instance

instance (x y : Bus) : Grows (multiply x y) := by
  unfold multiply
  infer_instance

end Grows

section Words

variable {width : Nat}

/-- A shift to the left puts a zero before the bits and drops the last one, so on a bus it
takes no gates but a constant. -/
theorem bitsOf_shiftLeft_one (word : BitVec width) :
    bitsOf (word <<< 1) = (false :: bitsOf word).take width := by
  apply List.ext_getElem?
  intro i
  rw [getElem?_bitsOf, List.getElem?_take]
  by_cases hi : i < width
  · rw [if_pos hi, if_pos hi]
    cases i with
    | zero => simp
    | succ i =>
      rw [List.getElem?_cons_succ, getElem?_bitsOf, if_pos (by omega), BitVec.getLsbD_shiftLeft,
        decide_eq_true hi]
      rfl
  · rw [if_neg hi, if_neg hi]

/-- A shift to the left is a product with two, which is what the rows of a multiplier need of
it. -/
theorem shiftLeft_one (word : BitVec width) : word <<< 1 = word * BitVec.ofNat width 2 := by
  apply BitVec.eq_of_toNat_eq
  rw [BitVec.toNat_shiftLeft, BitVec.toNat_mul, BitVec.toNat_ofNat, Nat.shiftLeft_eq, Nat.pow_one,
    Nat.mul_mod_mod]

theorem bitsOf_ushiftRight_one (word : BitVec width) :
    bitsOf (word >>> 1) = (bitsOf word ++ [false]).drop 1 := by
  apply List.ext_getElem?
  intro i
  rw [getElem?_bitsOf, List.getElem?_drop, List.getElem?_append, length_bitsOf, getElem?_bitsOf,
    BitVec.getLsbD_ushiftRight]
  by_cases hnext : 1 + i < width
  · rw [if_pos (by omega), if_pos hnext, if_pos hnext]
  · rw [if_neg hnext, BitVec.getLsbD_of_ge word (1 + i) (by omega)]
    by_cases hlast : i + 1 = width
    · have hzero : 1 + i - width = 0 := by omega
      rw [if_pos (by omega), hzero]
      rfl
    · rw [if_neg (by omega), List.getElem?_eq_none (by simp; omega)]

end Words

section Values

variable {N : Netlist} {v : Wire → Bool} (hv : N.Settled v)

include hv

/-- A half adder keeps the weight of its inputs: the sum counts once and the carry twice. -/
theorem ensures_halfAdder (a b : Wire) : Ensures N (halfAdder a b) fun cell =>
    (v cell.sum).toNat + 2 * (v cell.carry).toNat = (v a).toNat + (v b).toNat := by
  apply (ensures_xor hv a b).bind
  intro sum hsum
  apply (ensures_and hv a b).bind
  intro carry hcarry
  apply ensures_pure
  dsimp only
  rw [hsum, hcarry]
  cases v a <;> cases v b <;> rfl

/-- A full adder keeps the weight of three inputs. At most one of its two half adders has a
carry, so a disjunction joins the carries. -/
theorem ensures_fullAdder (a b c : Wire) : Ensures N (fullAdder a b c) fun cell =>
    (v cell.sum).toNat + 2 * (v cell.carry).toNat =
      (v a).toNat + (v b).toNat + (v c).toNat := by
  apply (ensures_halfAdder hv a b).bind
  intro first hfirst
  apply (ensures_halfAdder hv first.sum c).bind
  intro second hsecond
  apply (ensures_or hv first.carry second.carry).bind
  intro carry hcarry
  apply ensures_pure
  dsimp only
  have ha := Bool.toNat_le (v a)
  have hb := Bool.toNat_le (v b)
  have hc := Bool.toNat_le (v c)
  rw [hcarry]
  -- two carries at once would need more than three inputs
  cases hx : v first.carry <;> cases hy : v second.carry <;> simp [hx, hy] at hfirst hsecond ⊢ <;>
    omega

/-- The sum and a last carry have the weight of the two numbers and the first carry. The
induction is on the pairs of bits: a cell keeps the weight, and the pairs above it count twice
as much. -/
theorem ensures_ripple (carry : Wire) (pairs : List (Wire × Wire)) :
    Ensures N (ripple carry pairs) fun bus => bus.length = pairs.length ∧ ∃ last : Bool,
      numberOf (bus.map v) + 2 ^ pairs.length * last.toNat =
        numberOf (pairs.map fun pair => v pair.1) + numberOf (pairs.map fun pair => v pair.2) +
          (v carry).toNat := by
  induction pairs generalizing carry with
  | nil =>
    apply ensures_pure
    exact ⟨rfl, v carry, by simp [numberOf]⟩
  | cons pair rest ih =>
    rw [ripple]
    apply (ensures_fullAdder hv pair.1 pair.2 carry).bind
    intro cell hcell
    apply (ih cell.carry).bind
    rintro bus ⟨hlength, last, hrest⟩
    apply ensures_pure
    refine ⟨by rw [List.length_cons, List.length_cons, hlength], last, ?_⟩
    simp only [List.map_cons, numberOf, List.length_cons, Nat.pow_succ]
    have hdouble : 2 ^ rest.length * 2 * last.toNat = 2 * (2 ^ rest.length * last.toNat) := by
      ring
    omega

/-- Addition drops the last carry, so the sum of two numbers is theirs up to a power of two,
at every width. -/
theorem ensures_add {a b : Bus} (hlength : a.length = b.length) :
    Ensures N (add a b) fun bus => bus.length = a.length ∧
      numberOf (bus.map v) = (numberOf (a.map v) + numberOf (b.map v)) % 2 ^ a.length := by
  have hpairs : (a.zip b).length = a.length := by
    rw [List.length_zip, hlength, Nat.min_self]
  rw [← map_zip_fst hlength v, ← map_zip_snd hlength v, ← hpairs, add]
  cases a.zip b with
  | nil => exact ensures_pure (by simp [numberOf])
  | cons pair rest =>
    apply (ensures_halfAdder hv pair.1 pair.2).bind
    intro cell hcell
    apply (ensures_ripple hv cell.carry rest).bind
    rintro bus ⟨hbus, last, hsum⟩
    apply ensures_pure
    refine ⟨by rw [List.length_cons, List.length_cons, hbus], ?_⟩
    have hbound := numberOf_lt ((cell.sum :: bus).map v)
    rw [List.length_map, List.length_cons, hbus] at hbound
    simp only [List.map_cons, numberOf, List.length_cons] at hbound ⊢
    have hweight : (v pair.1).toNat + 2 * numberOf (rest.map fun pair => v pair.1) +
        ((v pair.2).toNat + 2 * numberOf (rest.map fun pair => v pair.2)) =
        (v cell.sum).toNat + 2 * numberOf (bus.map v) + 2 ^ (rest.length + 1) * last.toNat := by
      have hdouble : 2 ^ (rest.length + 1) * last.toNat = 2 * (2 ^ rest.length * last.toNat) := by
        ring
      omega
    rw [hweight, Nat.add_mul_mod_self_left, Nat.mod_eq_of_lt hbound]

section Carries

variable {width : Nat} {a b : Bus} {x y : BitVec width}

theorem ensures_add_carries (ha : a.Carries v x) (hb : b.Carries v y) :
    Ensures N (add a b) fun bus => bus.Carries v (x + y) := by
  apply (ensures_add hv (ha.length.trans hb.length.symm)).imp
  rintro bus ⟨hlength, hsum⟩
  rw [(Bus.carries_iff.mp ha).2, (Bus.carries_iff.mp hb).2, ha.length] at hsum
  rw [Bus.carries_iff, BitVec.toNat_add]
  exact ⟨hlength.trans ha.length, hsum⟩

theorem ensures_enableBus_carries (ha : a.Carries v x) (enable : Wire) :
    Ensures N (enableBus a enable) fun bus => bus.Carries v (if v enable then x else 0) := by
  apply (ensures_enableBus hv a enable).imp
  intro bus hbus
  rw [Bus.Carries, hbus, ha.length]
  cases v enable with
  | true => exact ha
  | false =>
    apply eq_bitsOf_iff.mpr
    exact ⟨List.length_replicate, numberOf_replicate_false width⟩

theorem ensures_muxBus_carries (ha : a.Carries v x) (hb : b.Carries v y) (sel : Wire) :
    Ensures N (muxBus a b sel) fun bus => bus.Carries v (if v sel then y else x) := by
  apply (ensures_muxBus hv sel (ha.length.trans hb.length.symm)).imp
  intro bus hbus
  rw [Bus.Carries, hbus]
  cases v sel with
  | true => exact hb
  | false => exact ha

theorem ensures_notBus_carries (ha : a.Carries v x) :
    Ensures N (notBus a) fun bus => bus.Carries v (~~~x) := by
  apply (ensures_notBus hv a).imp
  intro bus hbus
  rw [Bus.Carries, hbus, ha, bitsOf, bitsOf, List.map_map]
  apply List.map_congr_left
  intro i hi
  rw [BitVec.getLsbD_not, decide_eq_true (List.mem_range.mp hi), Bool.true_and]
  rfl

theorem ensures_andBus_carries (ha : a.Carries v x) (hb : b.Carries v y) :
    Ensures N (andBus a b) fun bus => bus.Carries v (x &&& y) := by
  apply (ensures_andBus hv a b).imp
  intro bus hbus
  rw [Bus.Carries, hbus, ha, hb, bitsOf, bitsOf, bitsOf, List.zipWith_map, List.zipWith_self]
  apply List.map_congr_left
  intro i _
  exact (BitVec.getLsbD_and).symm

section Finished

variable (hN : N.Finished)

include hN

theorem ensures_constant (width value : Nat) :
    Ensures N (constant width value) fun bus => bus.Carries v (BitVec.ofNat width value) := by
  apply (ensures_zero hN hv).bind
  intro low hlow
  apply (ensures_one hN hv).bind
  intro high hhigh
  apply ensures_pure
  rw [Bus.Carries, bitsOf, List.map_map]
  apply List.map_congr_left
  intro i hi
  rw [BitVec.getLsbD_ofNat, decide_eq_true (List.mem_range.mp hi), Bool.true_and,
    Function.comp_apply]
  cases value.testBit i with
  | true => exact hhigh
  | false => exact hlow

/-- The incrementer is an adder with a constant, and gives the next word of the width. -/
theorem ensures_increment (ha : a.Carries v x) :
    Ensures N (increment a) fun bus => bus.Carries v (x + 1) := by
  apply (ensures_constant hv hN a.length 1).bind
  rw [ha.length]
  intro unit hunit
  exact ensures_add_carries hv ha hunit

theorem ensures_shiftLeftLogical (ha : a.Carries v x) :
    Ensures N (shiftLeftLogical a) fun bus => bus.Carries v (x <<< 1) := by
  apply (ensures_zero hN hv).bind
  intro low hlow
  apply ensures_pure
  rw [Bus.Carries, bitsOf_shiftLeft_one, List.map_take, List.map_cons, hlow, ha, ha.length]

theorem ensures_shiftRightLogical (ha : a.Carries v x) :
    Ensures N (shiftRightLogical a) fun bus => bus.Carries v (x >>> 1) := by
  apply (ensures_zero hN hv).bind
  intro high hhigh
  apply ensures_pure
  rw [Bus.Carries, bitsOf_ushiftRight_one, List.map_drop, List.map_append, List.map_singleton,
    hhigh, ha]

/-- The enabled copies of a word add up to its product with the number of the enabling bits.
Each row adds the word, shifted once more, if its bit is on. -/
theorem ensures_partialProducts {acc shifted : Bus} {total word : BitVec width}
    (hacc : acc.Carries v total) (hshifted : shifted.Carries v word) (enables : List Wire) :
    Ensures N (partialProducts acc shifted enables) fun bus =>
      bus.Carries v (total + word * BitVec.ofNat width (numberOf (enables.map v))) := by
  induction enables generalizing acc shifted total word with
  | nil =>
    apply ensures_pure
    rw [List.map_nil, numberOf, BitVec.mul_zero, BitVec.add_zero]
    exact hacc
  | cons enable rest ih =>
    rw [partialProducts]
    apply (ensures_enableBus_carries hv hshifted enable).bind
    intro product hproduct
    apply (ensures_add_carries hv hacc hproduct).bind
    intro next hnext
    apply (ensures_shiftLeftLogical hv hN hshifted).bind
    intro double hdouble
    apply (ih hnext hdouble).imp
    intro bus hbus
    have hsum : total + (if v enable then word else 0) +
        word <<< 1 * BitVec.ofNat width (numberOf (rest.map v)) =
        total + word * BitVec.ofNat width (numberOf ((enable :: rest).map v)) := by
      rw [List.map_cons, numberOf, BitVec.ofNat_add, BitVec.ofNat_mul, shiftLeft_one]
      cases v enable <;> simp [BitVec.mul_add, BitVec.mul_assoc, BitVec.add_assoc]
    rwa [hsum] at hbus

/-- A multiplier has one row for each bit of its second operand, and settles to the product of
words, which drops what goes over the width. -/
theorem ensures_multiply (ha : a.Carries v x) (hb : b.Carries v y) :
    Ensures N (multiply a b) fun bus => bus.Carries v (x * y) := by
  apply (ensures_constant hv hN a.length 0).bind
  rw [ha.length]
  intro acc hacc
  apply (ensures_partialProducts hv hN hacc ha b).imp
  intro bus hbus
  rw [(Bus.carries_iff.mp hb).2, BitVec.ofNat_toNat, BitVec.setWidth_eq] at hbus
  simpa using hbus

end Finished

end Carries

end Values

end NandComputer.Chip
