import NandComputer.Chip.Alu
import NandComputer.Proofs.Chip.Arith
import NandComputer.Proofs.Chip.Select
import NandComputer.WordMachine

/-!
The gates of the arithmetic units compute the units on words, with the flags of
the result that is chosen in the end.
-/

namespace NandComputer.Chip

open Build

section Grows

instance (out : Bus) : Grows (withFlags out) := by
  unfold withFlags
  infer_instance

instance (a : Bus) (negate : Wire) : Grows (invertIf a negate) := by
  unfold invertIf
  infer_instance

instance (operand : Bus) (clear negate : Wire) : Grows (prepare operand clear negate) := by
  unfold prepare
  infer_instance

instance (x y control : Bus) : Grows (alu x y control) := by
  unfold alu
  infer_instance

instance (x y control : Bus) : Grows (extendedAlu x y control) := by
  unfold extendedAlu
  infer_instance

end Grows

/-- The wires show a result and its flags. -/
structure AluOutput.Shows (v : Wire → Bool) (output : AluOutput) (result : AluResult) : Prop where
  out : output.out.Carries v result.out
  zr : v output.zr = result.zr
  ng : v output.ng = result.ng

section Values

variable {N : Netlist} {v : Wire → Bool} (hv : N.Settled v)

include hv

/-- A conditional inverter complements its word exactly if the control wire is on. -/
theorem ensures_invertIf {a : Bus} {word : Word} (ha : a.Carries v word) (negate : Wire) :
    Ensures N (invertIf a negate) fun bus => bus.Carries v (Word.invertIf (v negate) word) := by
  apply (ensures_notBus_carries hv ha).bind
  intro inverted hinverted
  exact ensures_muxBus_carries hv ha hinverted negate

/-- Two select wires choose one of four words. The extended unit does so twice: with its
shifts, and then with its results. -/
theorem ensures_select_four {a b c d sel : Bus} {first second third fourth : Word}
    {selector : BitVec 2} (ha : a.Carries v first) (hb : b.Carries v second)
    (hc : c.Carries v third) (hd : d.Carries v fourth) (hsel : sel.Carries v selector) :
    Ensures N (select [a, b, c, d] sel) fun bus => bus.Carries v
      (match selector.getLsbD 1, selector.getLsbD 0 with
        | false, false => first
        | false, true => second
        | true, false => third
        | true, true => fourth) := by
  have hwidth : ∀ input ∈ [a, b, c, d], input.length = 16 := by
    simp [ha.length, hb.length, hc.length, hd.length]
  have hcount : [a, b, c, d].length = 2 ^ sel.length := by
    rw [hsel.length]
    rfl
  apply (ensures_select hv hcount hwidth).imp
  rintro bus ⟨chosen, hchosen, hbus⟩
  have hbits : sel.map v = [selector.getLsbD 0, selector.getLsbD 1] := hsel
  rw [hbits] at hchosen
  rw [Bus.Carries, hbus]
  cases hlow : selector.getLsbD 0 <;> cases hhigh : selector.getLsbD 1 <;>
    rw [hlow, hhigh] at hchosen <;> cases hchosen
  · exact ha
  · exact hc
  · exact hb
  · exact hd

section Finished

variable (hN : N.Finished)

include hN

theorem ensures_withFlags {out : Bus} {word : Word} (hout : out.Carries v word) :
    Ensures N (withFlags out) fun output => output.Shows v (.ofOut word) := by
  apply (ensures_anyOf hv hN out).bind
  intro any hany
  apply (ensures_not hv any).bind
  intro zr hzr
  apply ensures_pure
  have hzero : v zr = (word == 0) := by
    rw [hzr, hany, any_eq_numberOf_ne_zero, (Bus.carries_iff.mp hout).2, Bool.eq_iff_iff]
    simp [BitVec.toNat_eq]
  have hsign : v (out.bit 15) = word.msb := by
    rw [hout.bit (by omega), BitVec.msb_eq_getLsbD_last]
  exact ⟨hout, hzero, hsign⟩

theorem ensures_prepare {operand : Bus} {word : Word} (hoperand : operand.Carries v word)
    (clear negate : Wire) : Ensures N (prepare operand clear negate) fun bus =>
      bus.Carries v (Word.prepare (v clear) (v negate) word) := by
  apply (ensures_constant hv hN 16 0).bind
  intro zeros hzeros
  apply (ensures_muxBus_carries hv hoperand hzeros clear).bind
  intro cleared hcleared
  exact ensures_invertIf hv hcleared negate

section Units

variable {x y control : Bus} {first second : Word} (hx : x.Carries v first)
  (hy : y.Carries v second)

include hx hy

/-- The six control bits prepare the operands, choose between a sum and a conjunction and
complement it, as the unit on words does. The flags are those of the output. -/
theorem ensures_alu {code : BitVec 6} (hcontrol : control.Carries v code) :
    Ensures N (alu x y control) fun output => output.Shows v (Word.alu first second code) := by
  have hbit (i : Nat) (hi : i < 6) : v (control.bit i) = code.getLsbD i := hcontrol.bit hi
  apply (ensures_prepare hv hN hx (control.bit zeroX) (control.bit negateX)).bind
  intro left hleft
  apply (ensures_prepare hv hN hy (control.bit zeroY) (control.bit negateY)).bind
  intro right hright
  apply (ensures_add_carries hv hleft hright).bind
  intro sum hsum
  apply (ensures_andBus_carries hv hleft hright).bind
  intro conjunction hconjunction
  apply (ensures_muxBus_carries hv hconjunction hsum (control.bit addNotAnd)).bind
  intro chosen hchosen
  apply (ensures_invertIf hv hchosen (control.bit negateOut)).bind
  intro out hout
  apply (ensures_withFlags hv hN hout).imp
  intro output houtput
  rw [hbit zeroX (by decide), hbit negateX (by decide), hbit zeroY (by decide),
    hbit negateY (by decide), hbit addNotAnd (by decide), hbit negateOut (by decide)] at houtput
  exact houtput

/-- The mode bits choose between the standard unit, the shifts and the product, as on words.
The flags belong to what is chosen and not to the standard unit within. -/
theorem ensures_extendedAlu {code : BitVec 9} (hcontrol : control.Carries v code) :
    Ensures N (extendedAlu x y control) fun output =>
      output.Shows v (Word.extendedAlu first second code) := by
  apply (ensures_multiply hv hN hx hy).bind
  intro product hproduct
  apply (ensures_shiftRightLogical hv hN hy).bind
  intro yRight hyRight
  apply (ensures_shiftRightLogical hv hN hx).bind
  intro xRight hxRight
  apply (ensures_shiftLeftLogical hv hN hy).bind
  intro yLeft hyLeft
  apply (ensures_shiftLeftLogical hv hN hx).bind
  intro xLeft hxLeft
  have hshift := hcontrol.slice 5 2 (by omega)
  apply (ensures_select_four hv hyRight hxRight hyLeft hxLeft hshift).bind
  intro shifted hshifted
  have hstandard := hcontrol.slice 0 6 (by omega)
  apply (ensures_alu hv hN hx hy hstandard).bind
  intro standard hunit
  have hchoice := hcontrol.slice 7 2 (by omega)
  apply (ensures_select_four hv hproduct hshifted hproduct hunit.out hchoice).bind
  intro out hout
  apply (ensures_withFlags hv hN hout).imp
  intro output houtput
  have hcode : code.extractLsb' 0 6 = code.setWidth 6 :=
    (BitVec.setWidth_eq_extractLsb' (by omega)).symm
  have hhigh : (code.extractLsb' 7 2).getLsbD 1 = code.getLsbD 8 := by
    simp
  have hlow : (code.extractLsb' 7 2).getLsbD 0 = code.getLsbD 7 := by
    simp
  have hresult : Word.extendedAlu first second code = .ofOut
      (match code.getLsbD 8, code.getLsbD 7 with
        | false, false => first * second
        | false, true => Word.shifted first second (code.extractLsb' 5 2)
        | true, false => first * second
        | true, true => (Word.alu first second (code.setWidth 6)).out) := by
    rw [Word.extendedAlu]
    cases code.getLsbD 8 <;> cases code.getLsbD 7 <;> rfl
  rw [hhigh, hlow, hcode] at houtput
  rw [hresult]
  exact houtput

end Units

end Finished

end Values

end NandComputer.Chip
