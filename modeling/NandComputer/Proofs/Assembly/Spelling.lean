import NandComputer.Proofs.Assembly.Expression
import NandComputer.Proofs.Bits

/-!
The texts that name computations. A computation has a mnemonic, or a second spelling
of one, or it is written as its nine bits after a mark. The reader of these bits also
takes a plus sign in the place of the first one, as if it were a zero, and apart from
these texts it takes exactly the ones that the language has.
-/

namespace NandComputer.Assembly

/-- The computations of the standard unit, those of the extended unit, and the
spellings with the operands the other way round. -/
def namedComputations : List String :=
  ["0", "1", "-1", "D", "A", "!D", "!A", "-D", "-A", "D+1", "A+1", "D-1", "A-1", "D+A", "D-A",
    "A-D", "D&A", "D|A", "M", "!M", "-M", "M+1", "M-1", "D+M", "D-M", "M-D", "D&M", "D|M",
    "D*A", "D*M", "A>>", "D>>", "M<<", "D<<",
    "A+D", "M+D", "A&D", "M&D", "A|D", "M|D"]

/-- The language of computations. -/
def IsSpelling (text : String) : Prop :=
  text ∈ namedComputations ∨ ∃ digits, IsBits 9 digits ∧ text = String.ofList ('#' :: digits)

/-- A plus sign stands in the place of the first of nine bits. -/
def IsSigned (text : String) : Prop :=
  ∃ digits, IsBits 8 digits ∧ text = String.ofList ('#' :: '+' :: digits)

section Bits

variable {width : Nat} {digits : List Char}

theorem IsBits.ne_sign {rest : List Char} : ¬ IsBits width ('+' :: rest) :=
  fun h => absurd (h.2 '+' (by simp)) (by decide)

/-- Numerals of one length with the same value are the same, so a field is written in one way
with a given number of bits. -/
theorem IsBits.ofDigitChars_injective {others : List Char} (h : IsBits width digits)
    (hothers : IsBits width others)
    (heq : Nat.ofDigitChars 2 digits 0 = Nat.ofDigitChars 2 others 0) : digits = others := by
  have hlengths : (digits.map (· == '1')).reverse.length =
      (others.map (· == '1')).reverse.length := by
    simp [h.1, hothers.1]
  rw [Text.ofDigitChars_eq_numberOf h.2, Text.ofDigitChars_eq_numberOf hothers.2] at heq
  have hbits := List.reverse_injective (eq_of_numberOf_eq hlengths heq)
  rw [← Text.map_digitOf h.2, hbits, Text.map_digitOf hothers.2]

end Bits

/-- Behind the mark the language has the numerals of nine bits, and nothing else. -/
theorem isSpelling_mark {raw : List Char} :
    IsSpelling (String.ofList ('#' :: raw)) ↔ IsBits 9 raw := by
  have hnamed : String.ofList ('#' :: raw) ∉ namedComputations := by
    have hmarks : ∀ text ∈ namedComputations, text.toList.head? ≠ some '#' := by decide
    intro member
    exact hmarks _ member (by rw [String.toList_ofList]; rfl)
  constructor
  · rintro (member | ⟨digits, hdigits, heq⟩)
    · exact absurd member hnamed
    · cases String.ofList_injective heq
      exact hdigits
  · exact fun h => .inr ⟨raw, h, rfl⟩

theorem isSigned_mark {raw : List Char} :
    IsSigned (String.ofList ('#' :: raw)) ↔ ∃ digits, IsBits 8 digits ∧ raw = '+' :: digits := by
  constructor
  · rintro ⟨digits, hdigits, heq⟩
    cases String.ofList_injective heq
    exact ⟨digits, hdigits, rfl⟩
  · rintro ⟨digits, hdigits, rfl⟩
    exact ⟨digits, hdigits, rfl⟩

/-- Without the mark, exactly the named computations are read: the mnemonics and their second
spellings. -/
theorem isSome_ofText?_of_no_mark {text : String} (hmark : text.toList.head? ≠ some '#') :
    (Comp.ofText? text).isSome = true ↔ text ∈ namedComputations := by
  constructor
  · intro hsome
    obtain ⟨comp, hcomp⟩ := Option.isSome_iff_exists.mp hsome
    have hmnemonics : ∀ entry ∈ mnemonics, entry.1 ∈ namedComputations := by decide
    have hswapped : ∀ entry ∈ swappedSpellings, entry.1 ∈ namedComputations := by decide
    rcases mem_mnemonics_of_ofText? hcomp hmark with hmem | ⟨name, hspelling, -⟩
    · exact hmnemonics _ hmem
    · exact hswapped _ hspelling
  · have hread : ∀ text ∈ namedComputations, (Comp.ofText? text).isSome = true := by decide
    exact hread text

/-- Nine bits are read as the field that they are, the first of them as the highest. -/
theorem ofText?_of_isBits {digits : List Char} (h : IsBits 9 digits) :
    ∃ comp, Comp.ofText? (String.ofList ('#' :: digits)) = some comp ∧
      comp.bits.toNat = Nat.ofDigitChars 2 digits 0 := by
  have hlt := h.ofDigitChars_lt
  have hraw : rawField? digits = some (.ofNat 16 (Nat.ofDigitChars 2 digits 0)) :=
    rawField?_eq_some_iff.mpr ⟨digits, .inl ⟨h, rfl⟩, rfl⟩
  have hbits : (BitVec.ofNat 16 (Nat.ofDigitChars 2 digits 0)).toNat =
      Nat.ofDigitChars 2 digits 0 := by
    rw [BitVec.toNat_ofNat]
    exact Nat.mod_eq_of_lt (Nat.lt_trans hlt (by decide))
  have hcomp : Comp.ofBits (.ofNat 16 (Nat.ofDigitChars 2 digits 0)) =
      ⟨BitVec.ofNat 16 (Nat.ofDigitChars 2 digits 0)⟩ := Comp.ofBits_bits (hbits.trans_lt hlt)
  refine ⟨⟨BitVec.ofNat 16 (Nat.ofDigitChars 2 digits 0)⟩, ?_, hbits⟩
  rw [Comp.ofText?_mark, hraw, Option.map_some, hcomp]

/-- A plus sign in the place of the first bit is read as a zero, since the reader of numerals
accepts a sign and only the number of bytes is tested. -/
theorem ofText?_of_sign {digits : List Char} (h : IsBits 8 digits) :
    Comp.ofText? (String.ofList ('#' :: '+' :: digits)) =
      Comp.ofText? (String.ofList ('#' :: '0' :: digits)) := by
  have hzero : IsBits 9 ('0' :: digits) :=
    ⟨congrArg (· + 1) h.1, List.forall_mem_cons.mpr ⟨.inl rfl, h.2⟩⟩
  have hsigned : rawField? ('+' :: digits) = some (.ofNat 16 (Nat.ofDigitChars 2 digits 0)) :=
    rawField?_eq_some_iff.mpr ⟨digits, .inr ⟨h, rfl⟩, rfl⟩
  have hplain : rawField? ('0' :: digits) = some (.ofNat 16 (Nat.ofDigitChars 2 digits 0)) :=
    rawField?_eq_some_iff.mpr ⟨'0' :: digits, .inl ⟨hzero, rfl⟩, rfl⟩
  rw [Comp.ofText?_mark, Comp.ofText?_mark, hsigned, hplain]

/-- What is read behind the mark: nine bits, and besides them eight bits with a sign, which
the language does not have. -/
theorem isSome_ofText?_mark (raw : List Char) :
    (Comp.ofText? (String.ofList ('#' :: raw))).isSome = true ↔
      IsBits 9 raw ∨ ∃ digits, IsBits 8 digits ∧ raw = '+' :: digits := by
  rw [Comp.ofText?_mark, Option.isSome_map, Option.isSome_iff_exists]
  simp only [rawField?_eq_some_iff]
  constructor
  · rintro ⟨bits, digits, ⟨hraw, -⟩ | hsigned, -⟩
    · exact .inl hraw
    · exact .inr ⟨digits, hsigned⟩
  · rintro (hraw | ⟨digits, hsigned⟩)
    · exact ⟨_, raw, .inl ⟨hraw, rfl⟩, rfl⟩
    · exact ⟨_, digits, .inr hsigned, rfl⟩

/-- Reading and language agree on a text exactly if it is not written with a sign. -/
theorem isSome_ofText?_iff_isSpelling_iff (text : String) :
    ((Comp.ofText? text).isSome = true ↔ IsSpelling text) ↔ ¬ IsSigned text := by
  by_cases hmark : text.toList.head? = some '#'
  · obtain ⟨raw, hraw⟩ := List.head?_eq_some_iff.mp hmark
    obtain rfl : String.ofList ('#' :: raw) = text := by rw [← hraw, String.ofList_toList]
    rw [isSome_ofText?_mark, isSpelling_mark, isSigned_mark]
    by_cases hsigned : ∃ digits, IsBits 8 digits ∧ raw = '+' :: digits
    · obtain ⟨digits, hdigits, rfl⟩ := hsigned
      have hbits : ¬ IsBits 9 ('+' :: digits) := IsBits.ne_sign
      simp [hbits, hdigits]
    · simp [hsigned]
  · have hsigned : ¬ IsSigned text := by
      rintro ⟨digits, -, rfl⟩
      exact hmark (by rw [String.toList_ofList]; rfl)
    have hspelling : IsSpelling text ↔ text ∈ namedComputations := by
      apply or_iff_left
      rintro ⟨digits, -, rfl⟩
      exact hmark (by rw [String.toList_ofList]; rfl)
    rw [isSome_ofText?_of_no_mark hmark, hspelling]
    simp [hsigned]

/-- Different bits are different fields, so no two texts of nine bits can be exchanged. -/
theorem eq_of_ofText?_eq {digits others : List Char} (hdigits : IsBits 9 digits)
    (hothers : IsBits 9 others) (h : Comp.ofText? (String.ofList ('#' :: others)) =
      Comp.ofText? (String.ofList ('#' :: digits))) : others = digits := by
  obtain ⟨comp, hcomp, hvalue⟩ := ofText?_of_isBits hdigits
  obtain ⟨other, hother, hotherValue⟩ := ofText?_of_isBits hothers
  rw [hcomp, hother, Option.some_inj] at h
  exact hothers.ofDigitChars_injective hdigits (by rw [← hotherValue, h, hvalue])

/-- A text is read as a computation exactly if it belongs to the language, unless a sign takes
the place of its first bit, which is then read as a zero. Nine bits are the field that they
are read as, and no other bits are. The condition is exact: on every text with a sign, reading
and language differ. -/
theorem isSome_ofText?_iff_isSpelling (text : String) :
    (((Comp.ofText? text).isSome = true ↔ IsSpelling text) ↔ ¬ IsSigned text) ∧
      (∀ digits, IsBits 8 digits → text = String.ofList ('#' :: '+' :: digits) →
        Comp.ofText? text = Comp.ofText? (String.ofList ('#' :: '0' :: digits))) ∧
      ∀ digits, IsBits 9 digits → text = String.ofList ('#' :: digits) →
        (∃ comp, Comp.ofText? text = some comp ∧
          comp.bits.toNat = Nat.ofDigitChars 2 digits 0) ∧
        ∀ others, IsBits 9 others → Comp.ofText? (String.ofList ('#' :: others)) =
          Comp.ofText? text → others = digits := by
  refine ⟨isSome_ofText?_iff_isSpelling_iff text, ?_, ?_⟩
  · rintro digits hdigits rfl
    exact ofText?_of_sign hdigits
  · rintro digits hdigits rfl
    exact ⟨ofText?_of_isBits hdigits, fun others hothers => eq_of_ofText?_eq hdigits hothers⟩

/-- A raw field of the language is read as the bits that it shows, and the field next to it is
another one. -/
theorem isSome_ofText?_iff_isSpelling_raw : IsBits 9 "110000010".toList ∧
    ((Comp.ofText? "#110000010").isSome = true ↔ IsSpelling "#110000010") ∧
    Comp.ofText? "#110000010" = some ⟨0b110000010⟩ ∧
    Comp.ofText? "#110000011" ≠ Comp.ofText? "#110000010" := by
  have hbits : IsBits 9 "110000010".toList := isBits_iff.mp (by decide)
  have hothers : IsBits 9 "110000011".toList := isBits_iff.mp (by decide)
  have hsigned : ¬ IsSigned "#110000010" := by
    rintro ⟨digits, -, heq⟩
    cases String.ofList_injective heq
  obtain ⟨hiff, -, hraw⟩ := isSome_ofText?_iff_isSpelling "#110000010"
  obtain ⟨⟨comp, hcomp, hvalue⟩, hdistinct⟩ := hraw _ hbits rfl
  refine ⟨hbits, hiff.mpr hsigned, ?_, fun hsame => ?_⟩
  · have hfield : comp = ⟨0b110000010⟩ := by
      obtain ⟨bits⟩ := comp
      exact congrArg Comp.mk (BitVec.eq_of_toNat_eq hvalue)
    rw [← hfield]
    exact hcomp
  · exact absurd (hdistinct _ hothers hsame) (by decide)

/-- A text with a sign is outside the language, is read, and names the field of another text. -/
theorem not_isSpelling_signed : (Comp.ofText? "#+00000001").isSome = true ∧
    ¬ IsSpelling "#+00000001" ∧ Comp.ofText? "#+00000001" = Comp.ofText? "#000000001" := by
  have hbits : ¬ IsBits 9 "+00000001".toList := isBits_iff.not.mp (by decide)
  exact ⟨by decide, fun h => hbits (isSpelling_mark.mp h), by decide⟩

end NandComputer.Assembly
