import NandComputer.Proofs.Chip.Driving
import NandComputer.Proofs.Netlist.Soundness

/-!
A chip on its own, with two buses and a wire as its inputs. Its circuit compiles,
and in a simulation of it any words can be put on the inputs without changing
what the chip has stored.
-/

namespace NandComputer

/-- A chip with the inputs that it is driven through. -/
structure Bench (α : Type) where
  first : Bus
  second : Bus
  wire : Wire
  chip : α

namespace Chip

open Build

/-- A chip behind two named buses and a named wire. -/
def bench {α : Type} (first second : String × Nat) (wire : String)
    (chip : Bus → Bus → Wire → Build α) : Build (Bench α) := do
  let a ← input first.1 first.2
  let b ← input second.1 second.2
  let w ← inputWire wire
  return ⟨a, b, w, ← chip a b w⟩

end Chip

namespace Bench

variable {α : Type} (b : Bench α)

/-- The wires that are driven from outside. -/
def inputs : Bus := b.first ++ b.second ++ [b.wire]

/-- Puts words on the buses and a bit on the wire. -/
def drive {m n : Nat} (s : Simulation) (first : BitVec m) (second : BitVec n) (bit : Bool) :
    Simulation :=
  s.drive [(b.first, first.toNat), (b.second, second.toNat), ([b.wire], bit.toNat)]

/-- The inputs of a chip are inputs of the netlist, and all different. -/
structure Wired (m n : Nat) (N : Netlist) : Prop where
  inputs : ∀ w ∈ b.inputs, N.IsInput w
  nodup : b.inputs.Nodup
  first : b.first.length = m
  second : b.second.length = n

/-- The chip is in an accepted netlist, where it has the flip-flops. -/
structure Realized (m n : Nat) (N : Netlist) (circuit : Circuit) (flops : Bus) : Prop where
  wired : b.Wired m n N
  accepted : N.Accepted circuit
  nodup : flops.Nodup
  flipFlops : ∀ w ∈ flops, N.IsFlipFlop w

/-- A netlist with a chip behind inputs and nothing else, nor anything to connect. -/
structure Alone (m n : Nat) (flops : Bus) (N : Netlist) : Prop where
  sound : ∃ frame : Frame, N.Sound frame ∧ frame.opened = ∅ ∧ frame.loose = ∅
  wired : b.Wired m n N
  latched : Netlist.empty.Latched N flops

/-- A state of a netlist in which the inputs of a chip carry some words. -/
structure Driven {m n : Nat} (N : Netlist) (state driven : CircuitState) (first : BitVec m)
    (second : BitVec n) (bit : Bool) : Prop where
  first : b.first.Carries (N.value driven) first
  second : b.second.Carries (N.value driven) second
  wire : N.value driven b.wire = bit
  kept : ∀ w, N.IsFlipFlop w → N.value driven w = N.value state w

variable {b} {m n : Nat} {N : Netlist} {circuit : Circuit} {state : CircuitState}

theorem Alone.finished {flops : Bus} (h : b.Alone m n flops N) : N.Finished := by
  obtain ⟨frame, hsound, -, -⟩ := h.sound
  exact .of_wellFormed hsound.wellFormed hsound.defects

/-- A chip that stands alone and is not too large has a circuit, and its simulations agree
with its netlist. -/
theorem Alone.exists_realized {flops : Bus} (h : b.Alone m n flops N) (hsize : N.size ≤ 2 ^ 30) :
    ∃ circuit, b.Realized m n N circuit flops := by
  obtain ⟨frame, hsound, hclosed, hloose⟩ := h.sound
  obtain ⟨circuit, haccepted⟩ := hsound.accepted hclosed (by simp [hloose]) hsize
  exact ⟨circuit, h.wired, haccepted, h.latched.sorted.imp Nat.ne_of_lt, h.latched.flipFlops⟩

/-- The three inputs can be given any two words and a bit. They then carry these, and the
flip-flops are what they were. -/
theorem Wired.exists_driven (h : b.Wired m n N) {s : Simulation} (hs : s.Matches N circuit state)
    (first : BitVec m) (second : BitVec n) (bit : Bool) :
    ∃ driven, (b.drive s first second bit).Matches N circuit driven ∧
      b.Driven N state driven first second bit := by
  let buses := [(b.first, first.toNat), (b.second, second.toNat), ([b.wire], bit.toNat)]
  have hall : buses.flatMap Prod.fst = b.inputs := by simp [buses, Bench.inputs]
  have hinputs : ∀ w ∈ buses.flatMap Prod.fst, N.IsInput w := by
    rw [hall]
    exact h.inputs
  have hnodup : (buses.flatMap Prod.fst).Nodup := by
    rw [hall]
    exact h.nodup
  obtain ⟨driven, hdriven, hkept, hcarries⟩ := hs.exists_drive hinputs hnodup
  refine ⟨driven, hdriven, ?_, ?_, ?_, ?_⟩
  · exact hcarries h.first (by simp [buses])
  · exact hcarries h.second (by simp [buses])
  · have hbit : Bus.Carries (N.value driven) [b.wire] (BitVec.ofBool bit) :=
      hcarries rfl (by simp [buses])
    have hwire := hbit.bit Nat.one_pos
    rwa [BitVec.getLsbD_ofBool, decide_eq_true rfl, Bool.true_and] at hwire
  · intro w hw
    rw [Netlist.value_flipFlop hw, Netlist.value_flipFlop hw, hkept]

/-- What the chip has stored can be overwritten with any words, as long as the buses that are
written have all its flip-flops. -/
theorem Realized.exists_preset {flops : Bus} (h : b.Realized m n N circuit flops) {s : Simulation}
    (hs : s.Matches N circuit state) {buses : List (Bus × Nat)}
    (hbuses : buses.flatMap Prod.fst = flops) :
    ∃ preset, (s.preset buses).Matches N circuit preset ∧
      ∀ {width : Nat} {bus : Bus} {word : BitVec width}, bus.length = width →
        (bus, word.toNat) ∈ buses → bus.Carries (N.value preset) word := by
  have hflop {entry : Bus × Nat} (member : entry ∈ buses) : ∀ w ∈ entry.1, N.IsFlipFlop w := by
    intro w hw
    apply h.flipFlops w
    rw [← hbuses]
    exact List.mem_flatMap.mpr ⟨entry, member, hw⟩
  refine ⟨_, hs.preset fun entry member => hflop member, ?_⟩
  intro width bus word hlength member
  apply (carries_overlays state.flipFlops (hbuses ▸ h.nodup) hlength member).congr
  intro w hw
  rw [Netlist.value_flipFlop (hflop member w hw)]

end Bench

namespace Chip

open Build

variable {α : Type} {first second : String × Nat} {wire : String}
  {chip : Bus → Bus → Wire → Build α} [∀ a b w, Grows (chip a b w)]

/-- Every way to wire a chip up that the chip allows is sound behind inputs. The inputs need
names of their own, and their wires exist before the chip is added. -/
theorem reaches_bench (hnames : [first.1, second.1, wire].Nodup) {flops : α → Bus} {cost : Nat}
    (hchip : ∀ {n : Netlist} {frame : Frame} {a b : Bus} {w : Nat}, n.Sound frame → n.Has a →
      a.length = first.2 → n.Has b → b.length = second.2 → w < n.size →
        Reaches n (chip a b w) (n.size + cost) fun x n' =>
          n'.Sound frame ∧ n.Latched n' (flops x)) :
    Reaches .empty (bench first second wire chip) (first.2 + second.2 + 1 + cost) fun b n =>
      b.Alone first.2 second.2 (flops b.chip) n := by
  have hzero : Netlist.empty.size = 0 := rfl
  obtain ⟨⟨hfirst, hsecond⟩, hwire⟩ : (first.1 ≠ second.1 ∧ first.1 ≠ wire) ∧ second.1 ≠ wire := by
    simpa using hnames
  unfold bench
  apply (reaches_input Netlist.sound_empty (by simp) first.2).bind
  rintro a n₁ - hsize₁ ⟨h₁, ha, hinputs₁⟩
  apply (reaches_input h₁ (by simpa [Frame.ports_declaring] using hfirst) second.2).bind
  rintro b n₂ hle₂ hsize₂ ⟨h₂, hb, hinputs₂⟩
  apply (reaches_inputWire h₂ (by simpa [Frame.ports_declaring] using ⟨hsecond, hwire⟩)).bind
  rintro w n₃ hle₃ hsize₃ ⟨h₃, hw, hinput₃⟩
  have ha₁ : n₁.Has a := fun v hv => (hinputs₁ v hv).lt
  have hb₂ : n₂.Has b := fun v hv => (hinputs₂ v hv).lt
  have haLength : a.length = first.2 := by rw [ha, List.length_range']
  have hbLength : b.length = second.2 := by rw [hb, List.length_range']
  apply (hchip h₃ (ha₁.mono (by omega)) haLength (hb₂.mono (by omega)) hbLength hinput₃.lt).bind
  rintro x n₄ hle₄ hsize₄ ⟨h₄, hlatched⟩
  refine reaches_pure ⟨⟨_, h₄, rfl, rfl⟩, ⟨?_, ?_, haLength, hbLength⟩, ?_⟩ (by omega)
  · simp only [Bench.inputs, List.mem_append, List.mem_singleton]
    rintro v ((hv | hv) | rfl)
    · exact (hinputs₁ v hv).of_le (hle₂.trans <| hle₃.trans hle₄)
    · exact (hinputs₂ v hv).of_le (hle₃.trans hle₄)
    · exact hinput₃.of_le hle₄
  · have hapart : ∀ v ∈ b, n₁.size ≤ v := by
      rw [hb]
      exact fun v hv => (List.mem_range'_1.mp hv).1
    have hlast : ∀ v ∈ a ++ b, v < w := by
      rw [hw]
      exact (ha₁.mono hsize₂.1).append hb₂
    have hbuses : (a ++ b).Nodup := by
      refine List.nodup_append.mpr ⟨ha ▸ List.nodup_range', hb ▸ List.nodup_range', ?_⟩
      intro v hv u hu
      exact Nat.ne_of_lt (Nat.lt_of_lt_of_le (ha₁ v hv) (hapart u hu))
    refine List.nodup_append.mpr ⟨hbuses, List.nodup_singleton w, ?_⟩
    intro v hv u hu
    rw [List.mem_singleton.mp hu]
    exact Nat.ne_of_lt (hlast v hv)
  · exact hlatched.mono (Nat.zero_le _) (Netlist.le_refl _)

/-- What a chip ensures on buses of the right widths, it ensures behind inputs, since inputs
are buses of the widths that they are declared with. -/
theorem ensures_bench {N : Netlist} {Q : Bench α → Prop}
    (hchip : ∀ (a b : Bus) (w : Wire), a.length = first.2 → b.length = second.2 →
      Ensures N (chip a b w) fun x => Q ⟨a, b, w, x⟩) :
    Ensures N (bench first second wire chip) Q := by
  unfold bench
  apply (ensures_input first.1 first.2).bind
  intro a ha
  apply (ensures_input second.1 second.2).bind
  intro b hb
  apply (ensures_true (inputWire wire)).bind
  intro w _
  apply (hchip a b w ha hb).bind
  intro x hx
  exact ensures_pure hx

end Chip

end NandComputer
