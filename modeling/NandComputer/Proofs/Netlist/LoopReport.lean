import NandComputer.Proofs.Netlist.Compilation

/-!
The wire that a loop within a tick is reported with. It is the first node in the order of
the netlist that waits for a loop, and a gate stands behind the nodes it reads, so this is a
forward wire that was declared before its source. It lies on a loop itself unless it only
waits for one whose nodes all come later.
-/

namespace NandComputer

/-- What waits for a loop reads something that does: the next node on the way to the loop, or
on the loop. -/
theorem BehindLoop.exists_readsWire {nodes : Array Node} {w : Wire} (h : BehindLoop nodes w) :
    ∃ v, ReadsWire nodes w v ∧ BehindLoop nodes v := by
  obtain ⟨u, hpath, hloop⟩ := h
  obtain ⟨v, hread, hrest⟩ :=
    Relation.TransGen.head'_iff.mp (Relation.TransGen.trans_right hpath hloop)
  exact ⟨v, hread, u, hrest, hloop⟩

namespace Netlist

variable {n : Netlist} {w : Wire}

/-- A forward wire that waits for a loop and lies on none. -/
def Detached (n : Netlist) (w : Wire) : Prop :=
  (∃ source, n.nodes[w]? = some (.forward (some source))) ∧
    BehindLoop n.nodes w ∧ ¬ OnLoop n.nodes w

section Least

variable (h : n.WellFormed) (hleast : IsLeast {v | BehindLoop n.nodes v} w)

include h hleast

/-- The operands of a gate come before it, so the first node behind a loop is no gate. It is a
forward wire whose source comes behind it, or is itself. -/
theorem WellFormed.exists_source_of_isLeast :
    ∃ source, n.nodes[w]? = some (.forward (some source)) ∧ w ≤ source := by
  obtain ⟨v, ⟨node, hnode, hv⟩, hbehind⟩ := hleast.1.exists_readsWire
  have hle : w ≤ v := hleast.2 hbehind
  have hwired := h.wired w node hnode
  cases node with
  | nand a b =>
    have hoperand : v = a ∨ v = b := by simpa [Node.operands] using hv
    rcases hoperand with rfl | rfl
    · exact absurd hwired.1 (Nat.not_lt.mpr hle)
    · exact absurd hwired.2 (Nat.not_lt.mpr hle)
  | forward source? =>
    cases source? with
    | none => cases hv
    | some source =>
      obtain rfl : v = source := by simpa [Node.operands] using hv
      exact ⟨v, hnode, hle⟩
  | _ => cases hv

/-- The first node behind a loop is on one exactly if every forward wire that only waits for a
loop comes after some node of a loop. -/
theorem WellFormed.onLoop_iff_of_isLeast :
    OnLoop n.nodes w ↔ ∀ v, n.Detached v → ∃ u < v, OnLoop n.nodes u := by
  constructor
  · rintro hloop v ⟨-, hbehind, hfree⟩
    have hne : w ≠ v := by
      rintro rfl
      exact hfree hloop
    exact ⟨w, Nat.lt_of_le_of_ne (hleast.2 hbehind) hne, hloop⟩
  · intro hearlier
    by_contra hfree
    obtain ⟨source, hsource, -⟩ := h.exists_source_of_isLeast hleast
    obtain ⟨u, hlt, hloop⟩ := hearlier w ⟨⟨source, hsource⟩, hleast.1, hfree⟩
    exact absurd hlt (Nat.not_lt.mpr (hleast.2 ⟨u, .refl, hloop⟩))

end Least

section Recorded

/-- The mistakes that a single call can make. -/
def IsMistake : CircuitError → Prop
  | .drivenTwice _ | .notDrivable _ | .repeatedPort _ => True
  | _ => False

/-- Loops and open slots are not recorded while a netlist is built. -/
def RecordsMistakes (n : Netlist) : Prop := ∀ defect ∈ n.defects, IsMistake defect

variable (h : n.RecordsMistakes)

include h

theorem RecordsMistakes.reject {defect : CircuitError} (hdefect : IsMistake defect) :
    (n.reject defect).RecordsMistakes := by
  intro other member
  rcases Array.mem_push.mp member with hold | rfl
  · exact h other hold
  · exact hdefect

theorem RecordsMistakes.declare (port : Port) : (n.declare port).RecordsMistakes := by
  unfold Netlist.declare
  split
  · exact h.reject trivial
  · exact h

theorem RecordsMistakes.connectFlipFlop (flop next : Wire) :
    (n.connectFlipFlop flop next).RecordsMistakes := by
  unfold Netlist.connectFlipFlop
  split
  · exact h
  · exact h.reject trivial
  · exact h.reject trivial

theorem RecordsMistakes.connectForward (wire source : Wire) :
    (n.connectForward wire source).RecordsMistakes := by
  unfold Netlist.connectForward
  split
  · exact h
  · exact h.reject trivial
  · exact h.reject trivial

/-- A defect that a call records is a wiring mistake, never a loop or an open slot. These are
only found when the netlist is compiled. -/
theorem RecordsMistakes.apply (call : BuilderCall) : (call.apply n).RecordsMistakes := by
  cases call with
  | zero =>
    rw [BuilderCall.apply_zero]
    cases hzero : n.zero? with
    | some w => rwa [Build.run_zero_of_some hzero]
    | none => rwa [Build.run_zero_of_none hzero]
  | one =>
    rw [BuilderCall.apply_one]
    cases hone : n.one? with
    | some w => rwa [Build.run_one_of_some hone]
    | none => rwa [Build.run_one_of_none hone]
  | input name width =>
    have hnodes : RecordsMistakes { n with nodes := n.nodes ++ Array.replicate width .input } := h
    rw [BuilderCall.apply_input]
    exact hnodes.declare _
  | output name wires => exact h.declare _
  | latch flop next => exact h.connectFlipFlop flop next
  | drive wire source => exact h.connectForward wire source
  | _ => exact h

theorem RecordsMistakes.after (calls : List BuilderCall) : (n.after calls).RecordsMistakes := by
  induction calls generalizing n with
  | nil => exact h
  | cons call rest ih => exact ih (h.apply call)

end Recorded

/-- The wire that is reported with a loop is the first node that waits for one, because the
counters are searched in the order of nodes. -/
theorem WellFormed.isLeast_of_compile (h : n.WellFormed) (hrecords : n.RecordsMistakes)
    (hsize : n.size ≤ capacity) (hreads : (reads n.nodes).length < 2 ^ 32) {involved : Nat}
    (herror : n.compile = .error (.combinationalLoop w involved)) :
    IsLeast {v | BehindLoop n.nodes v} w := by
  have hwires : n.nodes.size ≤ 2 ^ 32 := Nat.le_trans hsize (by decide)
  have hfirst := firstFault_of_released
    (Schedule.released_ofNodes h.operandsExist hwires hreads) h.operandsExist herror
  cases hfirst with
  | recorded _ hdefect => exact (hrecords _ (Array.mem_of_getElem? hdefect)).elim
  | loop _ _ _ hleast => exact hleast

/-- The wire that is reported waits for a loop and is a forward wire declared before its
source. It lies on a loop exactly if every forward wire that only waits for a loop comes after
some node of a loop. So it may be one that the loop does not pass through, where such a wire
was declared first. -/
theorem reported_onLoop_iff (calls : List BuilderCall) (hwires : empty.WiresExist calls)
    (hsize : (empty.after calls).size ≤ capacity)
    (hreads : (reads (empty.after calls).nodes).length < 2 ^ 32) {involved : Nat}
    (herror : (empty.after calls).compile = .error (.combinationalLoop w involved)) :
    BehindLoop (empty.after calls).nodes w ∧
      (∃ source, (empty.after calls).nodes[w]? = some (.forward (some source)) ∧ w ≤ source) ∧
      (OnLoop (empty.after calls).nodes w ↔
        ∀ v, (empty.after calls).Detached v → ∃ u < v, OnLoop (empty.after calls).nodes u) := by
  have hwellFormed := wellFormed_empty.after calls hwires
  have hrecords : (empty.after calls).RecordsMistakes :=
    RecordsMistakes.after (fun _ member => absurd member (Array.not_mem_empty _)) calls
  have hleast := hwellFormed.isLeast_of_compile hrecords hsize hreads herror
  exact ⟨hleast.1, hwellFormed.exists_source_of_isLeast hleast,
    hwellFormed.onLoop_iff_of_isLeast hleast⟩

/-- A gate that negates itself through a forward wire. -/
def latchlessCalls : List BuilderCall := [.forward, .nand 0 0, .drive 0 1]

/-- A gate that reads its own output through a forward wire, without a flip-flop in between:
the forward wire is reported, and it waits for the loop. -/
theorem reported_onLoop_iff_latchless : empty.WiresExist latchlessCalls ∧
    (empty.after latchlessCalls).size ≤ capacity ∧
    (reads (empty.after latchlessCalls).nodes).length < 2 ^ 32 ∧
    (empty.after latchlessCalls).compile = .error (.combinationalLoop 0 2) ∧
    BehindLoop (empty.after latchlessCalls).nodes 0 := by
  have hwires : empty.WiresExist latchlessCalls := by decide
  have hsize : (empty.after latchlessCalls).size ≤ capacity := by decide
  have hreads : (reads (empty.after latchlessCalls).nodes).length < 2 ^ 32 := by decide
  have herror : (empty.after latchlessCalls).compile = .error (.combinationalLoop 0 2) := by
    with_unfolding_all rfl
  exact ⟨hwires, hsize, hreads, herror, (reported_onLoop_iff _ hwires hsize hreads herror).1⟩

/-- The same gate, and before it a forward wire that reads the loop. -/
def detachedCalls : List BuilderCall :=
  [.forward, .forward, .nand 1 1, .drive 1 2, .drive 0 1]

/-- The wire that is reported lies on no loop, as nothing reads it. It only repeats a wire of
the loop, and was declared before that. -/
theorem not_onLoop_reported : empty.WiresExist detachedCalls ∧
    (empty.after detachedCalls).compile = .error (.combinationalLoop 0 3) ∧
    ¬ OnLoop (empty.after detachedCalls).nodes 0 := by
  refine ⟨by decide, by with_unfolding_all rfl, fun hloop => ?_⟩
  obtain ⟨w, -, node, hnode, hread⟩ := Relation.TransGen.tail'_iff.mp hloop
  have hunread : ∀ node ∈ (empty.after detachedCalls).nodes, 0 ∉ node.operands := by decide
  exact hunread node (Array.mem_of_getElem? hnode) hread

end Netlist

end NandComputer
