import NandComputer.Chip.Select
import NandComputer.Proofs.Chip.Gates

/-!
A selector shows the input, and a router reaches the output, whose index is the
number on the select wires. Both take half of the indices at the most
significant wire, so they agree on the index.
-/

namespace NandComputer.Chip

open Build

section Grows

instance (bits : List Wire) (inputs : List Bus) : Grows (selectTree bits inputs) := by
  induction bits generalizing inputs with
  | nil => exact inferInstanceAs (Grows (pure _))
  | cons top rest ih =>
    rw [selectTree]
    infer_instance

instance (inputs : List Bus) (sel : Bus) : Grows (select inputs sel) := by
  unfold select
  infer_instance

instance (bits : List Wire) (input : Wire) : Grows (routeTree bits input) := by
  induction bits generalizing input with
  | nil => exact inferInstanceAs (Grows (pure [input]))
  | cons top rest ih =>
    rw [routeTree]
    infer_instance

instance (input : Wire) (sel : Bus) : Grows (route input sel) := by
  unfold route
  infer_instance

end Grows

/-- The number of bits that are given most significant first: the first one has the greatest
weight. -/
theorem numberOf_reverse_cons (top : Bool) (rest : List Bool) :
    numberOf (top :: rest).reverse = numberOf rest.reverse + 2 ^ rest.length * top.toNat := by
  rw [List.reverse_cons, numberOf_append, List.length_reverse]
  rfl

theorem numberOf_reverse_lt (bits : List Bool) : numberOf bits.reverse < 2 ^ bits.length := by
  have hbound := numberOf_lt bits.reverse
  rwa [List.length_reverse] at hbound

section Values

variable {N : Netlist} {v : Wire → Bool} (hv : N.Settled v)

include hv

/-- A tree of multiplexers shows the input at the number of its bits, most significant first.
The induction is on the bits: the first one chooses between the halves of the inputs. -/
theorem ensures_selectTree (bits : List Wire) (inputs : List Bus) {width : Nat}
    (hcount : inputs.length = 2 ^ bits.length) (hwidth : ∀ input ∈ inputs, input.length = width) :
    Ensures N (selectTree bits inputs) fun bus =>
      ∃ chosen, inputs[numberOf (bits.map v).reverse]? = some chosen ∧
        bus.map v = chosen.map v := by
  induction bits generalizing inputs with
  | nil =>
    obtain ⟨single, rfl⟩ := List.length_eq_one_iff.mp hcount
    exact ensures_pure ⟨single, rfl, rfl⟩
  | cons top rest ih =>
    rw [List.length_cons, Nat.pow_succ] at hcount
    have hhalf : inputs.length / 2 = 2 ^ rest.length := by omega
    have hbound := numberOf_reverse_lt (rest.map v)
    rw [List.length_map] at hbound
    rw [List.map_cons, numberOf_reverse_cons, List.length_map, selectTree, hhalf]
    have hlows := ih (inputs.take (2 ^ rest.length))
      (by rw [List.length_take]; omega) fun input member =>
        hwidth input (List.mem_of_mem_take member)
    apply hlows.bind
    rintro low ⟨first, hfirst, hlow⟩
    have hhighs := ih (inputs.drop (2 ^ rest.length))
      (by rw [List.length_drop]; omega) fun input member =>
        hwidth input (List.mem_of_mem_drop member)
    apply hhighs.bind
    rintro high ⟨second, hsecond, hhigh⟩
    -- the number of the lower bits is below half of the count, so it is a place in either half
    rw [List.getElem?_take, if_pos hbound] at hfirst
    rw [List.getElem?_drop] at hsecond
    have hlength : low.length = high.length := by
      have hlowLength := congrArg List.length hlow
      have hhighLength := congrArg List.length hhigh
      rw [List.length_map, List.length_map] at hlowLength hhighLength
      rw [hlowLength, hhighLength, hwidth first (List.mem_of_getElem? hfirst),
        hwidth second (List.mem_of_getElem? hsecond)]
    apply (ensures_muxBus hv top hlength).imp
    intro bus hbus
    rw [hbus]
    cases v top with
    | true => exact ⟨second, by rw [← hsecond, Nat.add_comm]; simp, hhigh⟩
    | false => exact ⟨first, by rw [← hfirst]; simp, hlow⟩

/-- The selected bus is the one at the number on the select wires, of as many inputs as these
can number. -/
theorem ensures_select {inputs : List Bus} {sel : Bus} {width : Nat}
    (hcount : inputs.length = 2 ^ sel.length) (hwidth : ∀ input ∈ inputs, input.length = width) :
    Ensures N (select inputs sel) fun bus =>
      ∃ chosen, inputs[numberOf (sel.map v)]? = some chosen ∧ bus.map v = chosen.map v := by
  have hreverse : inputs.length = 2 ^ sel.reverse.length := by
    rw [List.length_reverse, hcount]
  apply (ensures_selectTree hv sel.reverse inputs hreverse hwidth).imp
  intro bus hbus
  rwa [List.map_reverse, List.reverse_reverse] at hbus

/-- A tree of demultiplexers passes its input on to the output at the number of its bits. The
induction is on the bits: the first one chooses the half of the outputs. -/
theorem ensures_routeTree (bits : List Wire) (input : Wire) :
    Ensures N (routeTree bits input) fun outputs => outputs.length = 2 ^ bits.length ∧
      ∀ (i : Nat) (w : Wire), outputs[i]? = some w →
        v w = (v input && i == numberOf (bits.map v).reverse) := by
  induction bits generalizing input with
  | nil =>
    apply ensures_pure
    refine ⟨rfl, ?_⟩
    intro i w hw
    obtain ⟨hi, rfl⟩ := List.getElem?_eq_some_iff.mp hw
    obtain rfl : i = 0 := Nat.lt_one_iff.mp hi
    simp [numberOf]
  | cons top rest ih =>
    have hbound := numberOf_reverse_lt (rest.map v)
    rw [List.length_map] at hbound
    rw [List.map_cons, numberOf_reverse_cons, List.length_map, routeTree]
    apply (ensures_demux hv input top).bind
    rintro pair ⟨hlow, hhigh⟩
    apply (ih pair.1).bind
    rintro lows ⟨hlowCount, hlows⟩
    apply (ih pair.2).bind
    rintro highs ⟨hhighCount, hhighs⟩
    apply ensures_pure
    constructor
    · rw [List.length_append, hlowCount, hhighCount, List.length_cons, Nat.pow_succ]
      omega
    · intro i w hw
      rw [List.getElem?_append, hlowCount] at hw
      -- outputs of the lower half have the first bit off in their number, the others have it on
      split at hw
      case isTrue hi =>
        rw [hlows i w hw, hlow]
        cases v top with
        | true =>
          have hne : i ≠ numberOf (rest.map v).reverse + 2 ^ rest.length := by omega
          simp [hne]
        | false => simp
      case isFalse hi =>
        rw [hhighs _ w hw, hhigh]
        cases v top with
        | true =>
          have hsame : (i - 2 ^ rest.length = numberOf (rest.map v).reverse) ↔
              i = numberOf (rest.map v).reverse + 2 ^ rest.length := by omega
          simp [hsame, Bool.beq_eq_decide_eq]
        | false =>
          have hne : i ≠ numberOf (rest.map v).reverse := by omega
          simp [hne]

/-- The routed wire arrives at the number on the select wires and nowhere else, so at most one
output is on. -/
theorem ensures_route (input : Wire) (sel : Bus) :
    Ensures N (route input sel) fun outputs => outputs.length = 2 ^ sel.length ∧
      ∀ (i : Nat) (w : Wire), outputs[i]? = some w →
        v w = (v input && i == numberOf (sel.map v)) := by
  apply (ensures_routeTree hv sel.reverse input).imp
  intro outputs houtputs
  rwa [List.length_reverse, List.map_reverse, List.reverse_reverse] at houtputs

end Values

end NandComputer.Chip
