import NandComputer.Chip.Register
import NandComputer.Proofs.Chip.Arith

/-!
What registers and counters hold after a tick, from what they held and read
before it.
-/

namespace NandComputer.Chip

open Build

-- the instances of an action grow with its length
set_option synthInstance.maxSize 1000

section Grows

instance (input load : Wire) : Grows (bit input load) := by
  unfold bit
  infer_instance

instance (input : Bus) (load : Wire) : Grows (register input load) := by
  unfold register
  infer_instance

instance (input : Bus) (load inc reset : Wire) : Grows (programCounter input load inc reset) := by
  unfold programCounter
  infer_instance

end Grows

section Values

variable {N : Netlist} {v after : Wire → Bool} (hN : N.Finished) (hv : N.Settled v)
  (hafter : N.Ticked v after)

include hN hv hafter

/-- A bit takes its input when it is loaded and keeps what it holds otherwise. Its multiplexer
reads the flip-flop that comes before it. -/
theorem ensures_bit (input load : Wire) : Ensures N (bit input load) fun out =>
    after out = if v load then v input else v out := by
  apply (ensures_true flipFlop).bind
  intro out _
  apply (ensures_mux hv out input load).bind
  intro next hnext
  apply (ensures_latch hN out next).bind
  intro _ hflop
  apply ensures_pure
  rw [hafter out next hflop, hnext]

theorem ensures_register (input : Bus) (load : Wire) : Ensures N (register input load) fun out =>
    out.length = input.length ∧ out.map after = if v load then input.map v else out.map v := by
  have hbits := Ensures.mapM input fun wire _ => ensures_bit hN hv hafter wire load
  apply hbits.imp
  intro out hout
  clear hbits
  induction hout with
  | nil => cases v load <;> simp
  | cons hfirst _ ih =>
    obtain ⟨hlength, hrest⟩ := ih
    refine ⟨congrArg Nat.succ hlength, ?_⟩
    rw [List.map_cons, hfirst, hrest]
    cases v load <;> rfl

/-- A register takes the word on its input when it is loaded, and otherwise keeps the word
that it holds. -/
theorem ensures_register_carries {width : Nat} {input : Bus} {word : BitVec width}
    (hinput : input.Carries v word) (load : Wire) : Ensures N (register input load) fun out =>
      out.length = width ∧ ∀ held : BitVec width, out.Carries v held →
        out.Carries after (if v load then word else held) := by
  apply (ensures_register hN hv hafter input load).imp
  rintro out ⟨hlength, hout⟩
  refine ⟨hlength.trans hinput.length, ?_⟩
  intro held hheld
  rw [Bus.Carries, hout]
  cases v load with
  | true => exact hinput
  | false => exact hheld

/-- A counter is reset before it is loaded, and loaded before it counts. Without any of the
three it keeps what it holds. -/
theorem ensures_programCounter {width : Nat} {input : Bus} {word : BitVec width}
    (hinput : input.Carries v word) (load inc reset : Wire) :
    Ensures N (programCounter input load inc reset) fun out =>
      out.length = width ∧ ∀ held : BitVec width, out.Carries v held →
        out.Carries after
          (if v reset then 0 else if v load then word else if v inc then held + 1 else held) := by
  apply (ensures_forwardBus input.length).bind
  rw [hinput.length]
  intro current hcurrent
  obtain ⟨now, hnow⟩ := Bus.exists_carries (v := v) hcurrent
  apply (ensures_increment hv hN hnow).bind
  intro successor hsuccessor
  apply (ensures_muxBus_carries hv hnow hsuccessor inc).bind
  intro stepped hstepped
  apply (ensures_muxBus_carries hv hstepped hinput load).bind
  intro loaded hloaded
  apply (ensures_constant hv hN width 0).bind
  intro zeros hzeros
  apply (ensures_muxBus_carries hv hloaded hzeros reset).bind
  intro next hnext
  apply (ensures_one hN hv).bind
  intro always halways
  apply (ensures_register_carries hN hv hafter hnext always).bind
  rintro out ⟨hlength, hout⟩
  apply (ensures_driveBus hN hv (hcurrent.trans hlength.symm)).bind
  intro _ hfeedback
  apply ensures_pure
  refine ⟨hlength, ?_⟩
  intro held hheld
  have hsame : current.Carries v held := hfeedback.trans hheld
  obtain rfl := hnow.unique hsame
  have hlast := hout now hheld
  rw [halways, if_pos rfl] at hlast
  exact hlast

end Values

end NandComputer.Chip
