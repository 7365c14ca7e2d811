import Mathlib.Algebra.Group.Nat.Defs
import Mathlib.Data.List.Induction
import Mathlib.Tactic.Common
import NandComputer.Proofs.Bits
import NandComputer.Text.Numeral

/-!
Numerals are read back as the numbers that they were written for. Binary digits are the
bits of a number, most significant first.
-/

namespace NandComputer.Text

theorem isDigit_of_mem_decimal {n : Nat} {c : Char} (h : c ∈ decimal n) : c.isDigit :=
  Nat.isDigit_of_mem_toDigits (by decide) (by decide) h

/-- A number is read back from its decimal digits. -/
theorem ofDecimal?_decimal (n : Nat) : ofDecimal? (decimal n) = some n := by
  have hdigits : (decimal n).all Char.isDigit := by
    rw [List.all_eq_true]
    intro c member
    exact isDigit_of_mem_decimal member
  rw [ofDecimal?, if_pos ⟨Nat.toDigits_ne_nil, hdigits⟩, decimal, Nat.ofDigitChars_ten_toDigits]

theorem isDigit_of_mem_paddedDecimal {width n : Nat} {c : Char}
    (h : c ∈ paddedDecimal width n) : c.isDigit := by
  rcases List.mem_append.mp h with hzero | hdigit
  · rw [List.eq_of_mem_replicate hzero]
    decide
  · exact isDigit_of_mem_decimal hdigit

theorem isBit_iff {c : Char} : isBit c = true ↔ c = '0' ∨ c = '1' := by
  simp [isBit]

theorem isDigit_of_isBit {c : Char} (h : isBit c) : c.isDigit := by
  rcases isBit_iff.mp h with rfl | rfl
  · decide
  · decide

/-- The digits of a number to the base of 2 are bits. -/
theorem isBit_of_mem_toDigits {n : Nat} {c : Char} (h : c ∈ Nat.toDigits 2 n) : isBit c := by
  induction n using Nat.strongRecOn generalizing c with
  | ind n ih =>
    have hdigit (d : Nat) (hd : d < 2) : isBit d.digitChar := by
      obtain rfl | rfl : d = 0 ∨ d = 1 := by omega
      · decide
      · decide
    rw [Nat.toDigits_eq_if (by decide)] at h
    split at h
    case isTrue hsmall =>
      rw [List.mem_singleton.mp h]
      exact hdigit n hsmall
    case isFalse hlarge =>
      rcases List.mem_append.mp h with hfront | hlast
      · exact ih (n / 2) (by omega) hfront
      · rw [List.mem_singleton.mp hlast]
        exact hdigit (n % 2) (Nat.mod_lt n (by decide))

theorem isBit_of_mem_binary {width n : Nat} {c : Char} (h : c ∈ binary width n) : isBit c := by
  rw [binary, List.leftpad, List.mem_append] at h
  rcases h with hzero | hdigit
  · rw [List.eq_of_mem_replicate hzero]
    decide
  · exact isBit_of_mem_toDigits hdigit

theorem length_binary {width n : Nat} (hwidth : 0 < width) (h : n < 2 ^ width) :
    (binary width n).length = width := by
  have hlength := (Nat.length_toDigits_le_iff (by decide) hwidth).mpr h
  rw [binary, List.length_leftpad]
  omega

/-- Zeros in front change no value, so a padded numeral has the value of its number. -/
theorem ofDigitChars_binary (width n : Nat) : Nat.ofDigitChars 2 (binary width n) 0 = n := by
  rw [binary, List.leftpad, Nat.ofDigitChars_append, Nat.ofDigitChars_replicate_zero, Nat.mul_zero,
    Nat.ofDigitChars_toDigits (by decide) (by decide)]

section Bits

variable {width : Nat} {digits : List Char}

/-- Digits are read from the most significant one on, and bits are counted from the least
significant one, so one list is the reverse of the other. -/
theorem ofDigitChars_eq_numberOf (h : ∀ c ∈ digits, c = '0' ∨ c = '1') :
    Nat.ofDigitChars 2 digits 0 = numberOf (digits.map (· == '1')).reverse := by
  induction digits using List.reverseRecOn with
  | nil => rfl
  | append_singleton digits c ih =>
    have hc : c.toNat - '0'.toNat = (c == '1').toNat := by
      rcases h c (by simp) with rfl | rfl <;> rfl
    rw [Nat.ofDigitChars_append, ih fun d member => h d (by simp [member]), Nat.ofDigitChars_cons,
      Nat.ofDigitChars_nil, hc, List.map_append, List.reverse_append, List.map_singleton,
      List.reverse_singleton, List.singleton_append, numberOf, Nat.add_comm]

theorem ofDigitChars_lt (h : ∀ c ∈ digits, c = '0' ∨ c = '1') :
    Nat.ofDigitChars 2 digits 0 < 2 ^ digits.length := by
  rw [ofDigitChars_eq_numberOf h]
  have hlt := numberOf_lt (digits.map (· == '1')).reverse
  rwa [List.length_reverse, List.length_map] at hlt

/-- The digit of a bit. -/
def digitOf (bit : Bool) : Char := if bit then '1' else '0'

theorem map_digitOf (h : ∀ c ∈ digits, c = '0' ∨ c = '1') :
    (digits.map (· == '1')).map digitOf = digits := by
  rw [List.map_map, List.map_congr_left, List.map_id]
  intro c member
  rcases h c member with rfl | rfl <;> rfl

theorem map_map_digitOf (bits : List Bool) : (bits.map digitOf).map (· == '1') = bits := by
  rw [List.map_map, List.map_congr_left, List.map_id]
  rintro (_ | _) - <;> rfl

theorem eq_zero_or_one_of_mem_map_digitOf {bits : List Bool} {c : Char}
    (h : c ∈ bits.map digitOf) : c = '0' ∨ c = '1' := by
  obtain ⟨bit, -, rfl⟩ := List.mem_map.mp h
  cases bit
  · exact .inl rfl
  · exact .inr rfl

/-- The digits of a word, most significant first. -/
def digitsOf (word : BitVec width) : List Char := (bitsOf word).reverse.map digitOf

/-- Digits are those of the word with their value, if there are as many as the word has. -/
theorem eq_digitsOf_iff {word : BitVec width} : digits = digitsOf word ↔
    digits.length = width ∧ (∀ c ∈ digits, c = '0' ∨ c = '1') ∧
      Nat.ofDigitChars 2 digits 0 = word.toNat := by
  constructor
  · rintro rfl
    have hbits : ∀ c ∈ digitsOf word, c = '0' ∨ c = '1' :=
      fun c member => eq_zero_or_one_of_mem_map_digitOf member
    refine ⟨by simp [digitsOf], hbits, ?_⟩
    rw [ofDigitChars_eq_numberOf hbits, digitsOf, map_map_digitOf, List.reverse_reverse,
      numberOf_bitsOf]
  · rintro ⟨hlength, hbits, hvalue⟩
    rw [ofDigitChars_eq_numberOf hbits] at hvalue
    have hword : (digits.map (· == '1')).reverse = bitsOf word :=
      eq_bitsOf_iff.mpr ⟨by simp [hlength], hvalue⟩
    rw [digitsOf, ← hword, List.reverse_reverse, map_digitOf hbits]

/-- Words with the same digits are the same, so a text of digits stands for one word only. -/
theorem digitsOf_injective {first second : BitVec width} (h : digitsOf first = digitsOf second) :
    first = second :=
  BitVec.eq_of_toNat_eq
    ((eq_digitsOf_iff.mp rfl).2.2.symm.trans (eq_digitsOf_iff.mp h).2.2)

theorem binary_eq_digitsOf (hwidth : 0 < width) (word : BitVec width) :
    binary width word.toNat = digitsOf word :=
  eq_digitsOf_iff.mpr ⟨length_binary hwidth word.isLt,
    fun _ member => isBit_iff.mp (isBit_of_mem_binary member), ofDigitChars_binary width word.toNat⟩

end Bits

/-- Digits are characters of one byte. A text of digits has as many bytes as digits, so a test
of its length in bytes is one of its length. -/
theorem byteLength_eq_length {digits : List Char} (h : ∀ c ∈ digits, c = '0' ∨ c = '1') :
    byteLength digits = digits.length := by
  induction digits with
  | nil => rfl
  | cons c rest ih =>
    have hsize : c.utf8Size = 1 := by
      rcases h c (by simp) with rfl | rfl <;> rfl
    rw [byteLength, hsize, ih fun d member => h d (by simp [member]), List.length_cons,
      Nat.add_comm]

section Reading

variable {bound value : Nat} {digits : List Char}

theorem le_ofDigitChars (digits : List Char) (value : Nat) :
    value ≤ Nat.ofDigitChars 2 digits value := by
  induction digits generalizing value with
  | nil => exact Nat.le_refl value
  | cons c rest ih =>
    have hrest := ih (2 * value + (c.toNat - '0'.toNat))
    rw [Nat.ofDigitChars_cons]
    omega

/-- The digits behind those of a number are read as long as all of them are binary and the
number that they make stays below the bound. No number on the way to it is larger, so no digit
is refused too early. -/
theorem readBits_eq_ok_iff {n : Nat} (hvalue : value < bound) :
    readBits bound value digits = .ok n ↔
      (∀ c ∈ digits, c = '0' ∨ c = '1') ∧ Nat.ofDigitChars 2 digits value = n ∧ n < bound := by
  induction digits generalizing value with
  | nil =>
    simp only [readBits, Except.ok.injEq, List.not_mem_nil, false_implies, implies_true, true_and,
      Nat.ofDigitChars_nil]
    constructor
    · rintro rfl
      exact ⟨rfl, hvalue⟩
    · exact And.left
  | cons c rest ih =>
    rw [readBits, List.forall_mem_cons, Nat.ofDigitChars_cons]
    by_cases hbit : c = '0' ∨ c = '1'
    · rw [isBit_iff.mpr hbit, Bool.not_true, if_neg Bool.false_ne_true, and_iff_right hbit]
      by_cases hnext : 2 * value + (c.toNat - '0'.toNat) < bound
      · rw [if_pos hnext]
        exact ih hnext
      · -- what follows a number that is too large makes it no smaller
        rw [if_neg hnext]
        refine iff_of_false (by simp) ?_
        rintro ⟨-, rfl, hlt⟩
        exact hnext (Nat.lt_of_le_of_lt (le_ofDigitChars rest _) hlt)
    · have hdigit : isBit c = false := by
        rw [← Bool.not_eq_true, isBit_iff]
        exact hbit
      rw [hdigit, Bool.not_false, if_pos rfl]
      exact iff_of_false (by simp) fun h => hbit h.1.1

theorem readBinary_of_ne_sign (hnil : digits ≠ []) (hsign : ∀ rest, digits ≠ '+' :: rest) :
    readBinary bound digits = readBits bound 0 digits := by
  rw [readBinary]
  · exact hnil
  · exact hsign []
  · exact hsign

theorem readBinary_sign (hnil : digits ≠ []) :
    readBinary bound ('+' :: digits) = readBits bound 0 digits := by
  rw [readBinary]
  simpa using hnil

/-- The numerals that are read: binary digits, with or without a plus sign in front of them,
that make a number below the bound. -/
theorem readBinary_eq_ok_iff {n : Nat} (hbound : 0 < bound) : readBinary bound digits = .ok n ↔
    ∃ bits, bits ≠ [] ∧ (digits = bits ∨ digits = '+' :: bits) ∧
      (∀ c ∈ bits, c = '0' ∨ c = '1') ∧ Nat.ofDigitChars 2 bits 0 = n ∧ n < bound := by
  have hplus (rest : List Char) : ¬ ∀ c ∈ '+' :: rest, c = '0' ∨ c = '1' :=
    fun h => absurd (h '+' (by simp)) (by decide)
  constructor
  · intro h
    by_cases hsign : ∃ bits, digits = '+' :: bits
    · obtain ⟨bits, rfl⟩ := hsign
      have hnil : bits ≠ [] := by
        rintro rfl
        cases h
      rw [readBinary_sign hnil, readBits_eq_ok_iff hbound] at h
      exact ⟨bits, hnil, .inr rfl, h⟩
    · have hnil : digits ≠ [] := by
        rintro rfl
        cases h
      rw [readBinary_of_ne_sign hnil (not_exists.mp hsign), readBits_eq_ok_iff hbound] at h
      exact ⟨digits, hnil, .inl rfl, h⟩
  · rintro ⟨bits, hnil, rfl | rfl, hbits⟩
    · rw [readBinary_of_ne_sign hnil, readBits_eq_ok_iff hbound]
      · exact hbits
      · rintro rest rfl
        exact hplus rest hbits.1
    · rw [readBinary_sign hnil, readBits_eq_ok_iff hbound]
      exact hbits

/-- A numeral without a sign is read as its number. -/
theorem readBinary_eq_ok (hnil : digits ≠ []) (h : ∀ c ∈ digits, c = '0' ∨ c = '1')
    (hbound : Nat.ofDigitChars 2 digits 0 < bound) :
    readBinary bound digits = .ok (Nat.ofDigitChars 2 digits 0) :=
  (readBinary_eq_ok_iff (Nat.zero_lt_of_lt hbound)).mpr ⟨digits, hnil, .inl rfl, h, rfl, hbound⟩

end Reading

end NandComputer.Text
