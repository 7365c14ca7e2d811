import Mathlib.Tactic.Common
import Mathlib.Tactic.Ring

/-!
Bits as a list, least significant first: their number, and the words that have
them. Buses carry such lists, whatever their width.
-/

namespace NandComputer

/-- The number with the given bits. -/
def numberOf : List Bool → Nat
  | [] => 0
  | bit :: rest => bit.toNat + 2 * numberOf rest

/-- The bits of a word. -/
def bitsOf {width : Nat} (word : BitVec width) : List Bool :=
  (List.range width).map word.getLsbD

section Zip

variable {α β γ : Type} {first : List α} {second : List β} (h : first.length = second.length)

include h

theorem map_zip_fst (f : α → γ) :
    (first.zip second).map (fun pair => f pair.1) = first.map f := by
  have hfst := List.map_fst_zip (Nat.le_of_eq h)
  rw [← congrArg (List.map f) hfst, List.map_map]
  rfl

theorem map_zip_snd (f : β → γ) :
    (first.zip second).map (fun pair => f pair.2) = second.map f := by
  have hsnd := List.map_snd_zip (Nat.le_of_eq h.symm)
  rw [← congrArg (List.map f) hsnd, List.map_map]
  rfl

end Zip

section Number

variable (bits : List Bool)

/-- The number of some bits is less than the power of two of their count. -/
theorem numberOf_lt : numberOf bits < 2 ^ bits.length := by
  induction bits with
  | nil => exact Nat.zero_lt_one
  | cons bit rest ih =>
    have hbit := Bool.toNat_le bit
    rw [numberOf, List.length_cons, Nat.pow_succ]
    omega

/-- The bits of the number of a list are the elements of the list, and behind the list they
are off. -/
theorem testBit_numberOf (i : Nat) : (numberOf bits).testBit i = bits.getD i false := by
  induction bits generalizing i with
  | nil => simp [numberOf]
  | cons bit rest ih =>
    cases i with
    | zero =>
      rw [numberOf, List.getD_cons_zero, Nat.testBit_zero]
      cases bit <;> simp
    | succ i =>
      have hhalf : (bit.toNat + 2 * numberOf rest) / 2 = numberOf rest := by
        have hbit : bit.toNat < 2 := Bool.toNat_lt bit
        omega
      rw [numberOf, List.getD_cons_succ, Nat.testBit_succ, hhalf, ih]

/-- Bits that are put behind others count as many powers of two more as there are bits before
them. -/
theorem numberOf_append (more : List Bool) :
    numberOf (bits ++ more) = numberOf bits + 2 ^ bits.length * numberOf more := by
  induction bits with
  | nil => simp [numberOf]
  | cons bit rest ih =>
    rw [List.cons_append, numberOf, ih, numberOf, List.length_cons, Nat.pow_succ]
    ring

/-- Some bit is on exactly if the number is not zero. -/
theorem any_eq_numberOf_ne_zero : bits.any id = (numberOf bits != 0) := by
  induction bits with
  | nil => rfl
  | cons bit rest ih =>
    rw [List.any_cons, numberOf, ih]
    cases bit with
    | true => simp
    | false => cases hrest : numberOf rest <;> simp

theorem numberOf_replicate_false (count : Nat) : numberOf (List.replicate count false) = 0 := by
  induction count with
  | zero => rfl
  | succ count ih =>
    rw [List.replicate_succ, numberOf, ih]
    rfl

end Number

section Words

variable {width : Nat}

@[simp]
theorem length_bitsOf (word : BitVec width) : (bitsOf word).length = width := by
  rw [bitsOf, List.length_map, List.length_range]

theorem getElem?_bitsOf (word : BitVec width) (i : Nat) :
    (bitsOf word)[i]? = if i < width then some (word.getLsbD i) else none := by
  rw [bitsOf, List.getElem?_map]
  split
  case isTrue hi => rw [List.getElem?_range hi, Option.map_some]
  case isFalse hi =>
    rw [List.getElem?_eq_none (by rw [List.length_range]; omega), Option.map_none]

theorem getD_bitsOf (word : BitVec width) (i : Nat) :
    (bitsOf word).getD i false = word.getLsbD i := by
  rw [List.getD_eq_getElem?_getD, getElem?_bitsOf]
  split
  case isTrue => rfl
  case isFalse hi => exact (BitVec.getLsbD_of_ge word i (Nat.le_of_not_lt hi)).symm

/-- A word is the number of its bits. Together with the lemma on equal numbers this lets words
stand for lists of bits. -/
theorem numberOf_bitsOf (word : BitVec width) : numberOf (bitsOf word) = word.toNat := by
  apply Nat.eq_of_testBit_eq
  intro i
  rw [testBit_numberOf, getD_bitsOf]
  rfl

/-- Lists of one length with the same number are the same. The length matters, since bits that
are off at the end do not change the number. -/
theorem eq_of_numberOf_eq {first second : List Bool} (hlength : first.length = second.length)
    (h : numberOf first = numberOf second) : first = second := by
  induction first generalizing second with
  | nil =>
    cases second with
    | nil => rfl
    | cons bit rest => cases hlength
  | cons bit rest ih =>
    cases second with
    | nil => cases hlength
    | cons other others =>
      have hlengths : rest.length = others.length := Nat.succ.inj hlength
      rw [numberOf, numberOf] at h
      have hbit := Bool.toNat_le bit
      have hother := Bool.toNat_le other
      have hsame : bit = other := by
        cases bit <;> cases other <;> first | rfl | (simp at h; omega)
      subst hsame
      rw [ih hlengths (by omega)]

/-- A list has the bits of a word exactly if it has their count and their number, so bits may
be compared as numbers. -/
theorem eq_bitsOf_iff {bits : List Bool} {word : BitVec width} :
    bits = bitsOf word ↔ bits.length = width ∧ numberOf bits = word.toNat := by
  constructor
  · rintro rfl
    exact ⟨length_bitsOf word, numberOf_bitsOf word⟩
  · rintro ⟨hlength, hnumber⟩
    apply eq_of_numberOf_eq
    · rw [hlength, length_bitsOf]
    · rw [hnumber, numberOf_bitsOf]

theorem bitsOf_injective {first second : BitVec width} (h : bitsOf first = bitsOf second) :
    first = second := by
  apply BitVec.eq_of_toNat_eq
  rw [← numberOf_bitsOf, h, numberOf_bitsOf]

/-- Bits are those of the word with their number, as wide as there are bits. -/
theorem eq_bitsOf_ofNat {bits : List Bool} (hlength : bits.length = width) :
    bits = bitsOf (BitVec.ofNat width (numberOf bits)) := by
  rw [eq_bitsOf_iff, BitVec.toNat_ofNat]
  refine ⟨hlength, (Nat.mod_eq_of_lt ?_).symm⟩
  rw [← hlength]
  exact numberOf_lt bits

theorem exists_eq_bitsOf {bits : List Bool} (hlength : bits.length = width) :
    ∃ word : BitVec width, bits = bitsOf word :=
  ⟨_, eq_bitsOf_ofNat hlength⟩

/-- The word after the one of a number counts on, and begins again behind the last word of its
width. -/
theorem toNat_ofNat_add_one (width value : Nat) :
    (BitVec.ofNat width value + 1).toNat = (value + 1) % 2 ^ width := by
  have hword : BitVec.ofNat width value + 1 = BitVec.ofNat width (value + 1) :=
    (BitVec.ofNat_add value 1).symm
  rw [hword, BitVec.toNat_ofNat]

end Words

end NandComputer
