import Mathlib.Algebra.BigOperators.Fin
import Mathlib.Data.Fintype.Pigeonhole
import Mathlib.Logic.Relation
import Mathlib.Tactic.Common
import NandComputer.Netlist.Circuit
import NandComputer.Proofs.Netlist.FanoutTable

/-!
The ordering of the nodes of a netlist by releasing readers. A node is released
once per operand, so it becomes ready when the last of its operands does. The
ready nodes are those that don't lie on a loop within a tick or behind one, and
each stands behind all of its operands.
-/

namespace NandComputer

/-- The wires that a node reads within a tick. -/
def operandsOf (nodes : Array Node) (w : Wire) : List Wire := (nodes.getD w .input).operands

/-- Node `w` reads wire `v` within a tick. -/
def ReadsWire (nodes : Array Node) (w v : Wire) : Prop :=
  ∃ node, nodes[w]? = some node ∧ v ∈ node.operands

/-- Node `w` waits for itself within a tick. -/
def OnLoop (nodes : Array Node) (w : Wire) : Prop :=
  Relation.TransGen (ReadsWire nodes) w w

/-- Node `w` lies on a loop, or reads one through other nodes. -/
def BehindLoop (nodes : Array Node) (w : Wire) : Prop :=
  ∃ v, Relation.ReflTransGen (ReadsWire nodes) w v ∧ OnLoop nodes v

variable {nodes : Array Node}

theorem operandsOf_eq {w : Nat} {node : Node} (h : nodes[w]? = some node) :
    operandsOf nodes w = node.operands := by
  rw [operandsOf, Array.getD_eq_getD_getElem?, h, Option.getD_some]

theorem readsWire_iff (w v : Nat) : ReadsWire nodes w v ↔ v ∈ operandsOf nodes w := by
  cases h : nodes[w]? with
  | none => simp [ReadsWire, operandsOf, Array.getD_eq_getD_getElem?, h, Node.operands]
  | some node => simp [ReadsWire, operandsOf_eq h, h]

theorem length_operands_le (node : Node) : node.operands.length ≤ 2 := by
  cases node with
  | nand a b => exact Nat.le_refl _
  | forward source? => cases source? <;> simp [Node.operands]
  | _ => exact Nat.zero_le _

theorem length_operandsOf_le (w : Nat) : (operandsOf nodes w).length ≤ 2 :=
  length_operands_le _

/-- Every wire that is read is a node. -/
def OperandsExist (nodes : Array Node) : Prop :=
  ∀ w, ∀ v ∈ operandsOf nodes w, v < nodes.size

theorem OperandsExist.reads (h : OperandsExist nodes) :
    ∀ entry ∈ reads nodes, entry.1 < nodes.size := by
  rintro ⟨v, w⟩ member
  exact h w v ((readsWire_iff w v).mp ((mem_reads_iff nodes v w).mp member))

theorem operandsExist_of_reads (h : ∀ entry ∈ reads nodes, entry.1 < nodes.size) :
    OperandsExist nodes := by
  intro w v hv
  exact h (v, w) ((mem_reads_iff nodes v w).mpr ((readsWire_iff w v).mpr hv))

theorem reads_eq_range (nodes : Array Node) :
    reads nodes = (List.range nodes.size).flatMap fun reader =>
      (operandsOf nodes reader).map fun wire => (wire, reader) := by
  rw [reads, ← List.map_coe_finRange_eq_range, List.flatMap_map]
  refine List.flatMap_congr fun reader _ => ?_
  rw [operandsOf_eq (Array.getElem?_eq_getElem reader.isLt)]
  rfl

/-- The reads of a further node come last, so what is known of the others is kept. -/
theorem reads_push (nodes : Array Node) (node : Node) :
    reads (nodes.push node) = reads nodes ++ node.operands.map fun wire => (wire, nodes.size) := by
  have hold (reader : Nat) (h : reader ∈ List.range nodes.size) :
      operandsOf (nodes.push node) reader = operandsOf nodes reader := by
    rw [operandsOf, operandsOf, Array.getD_eq_getD_getElem?, Array.getD_eq_getD_getElem?,
      Array.getElem?_push_lt (List.mem_range.mp h), Array.getElem?_eq_getElem (List.mem_range.mp h)]
  rw [reads_eq_range, reads_eq_range, Array.size_push, List.range_succ, List.flatMap_append,
    List.flatMap_singleton, operandsOf_eq Array.getElem?_push_size]
  congr 1
  exact List.flatMap_congr fun reader h => by rw [hold reader h]

theorem lt_of_mem_readersIn {w reader : Nat} (h : reader ∈ Fanout.readersIn (reads nodes) w) :
    reader < nodes.size :=
  reader_lt ((Fanout.mem_readersIn_iff _ w reader).mp h)

/-- A node occurs among the readers of a wire as often as it reads it, which is twice for a
gate with both operands on one wire. -/
theorem count_readersIn (w reader : Nat) (hreader : reader < nodes.size) :
    (Fanout.readersIn (reads nodes) w).count reader = (operandsOf nodes reader).count w := by
  have hnode (i : Fin nodes.size) :
      (((nodes[i].operands.map fun wire => (wire, i.val)).filter (·.1 = w)).map (·.2)).count
        reader = if i = ⟨reader, hreader⟩ then (operandsOf nodes reader).count w else 0 := by
    have hentries : ((nodes[i].operands.map fun wire => (wire, i.val)).filter (·.1 = w)).map
        (·.2) = List.replicate (nodes[i].operands.count w) i.val := by
      induction nodes[i].operands with
      | nil => rfl
      | cons v rest ih =>
        by_cases hv : v = w
        · simpa [hv, List.replicate_succ] using ih
        · simpa [hv] using ih
    rw [hentries, List.count_replicate]
    by_cases hi : i = ⟨reader, hreader⟩
    · subst hi
      simp [operandsOf, hreader]
    · have hval : ¬ i.val = reader := fun h => hi (Fin.ext h)
      simp [hi, hval]
  rw [Fanout.readersIn, reads, List.filter_flatMap, List.map_flatMap, List.count_flatMap]
  simp only [Function.comp_def, hnode]
  rw [← Fin.sum_univ_def, Finset.sum_ite_eq' Finset.univ, if_pos (Finset.mem_univ _)]

namespace Schedule

/-- Number of operands of a node that are not among the given wires. -/
def missing (nodes : Array Node) (done : List Wire) (w : Wire) : Nat :=
  (operandsOf nodes w).countP (· ∉ done)

theorem missing_le (done : List Wire) (w : Nat) : missing nodes done w ≤ 2 :=
  Nat.le_trans List.countP_le_length (length_operandsOf_le w)

theorem missing_eq_zero_iff (done : List Wire) (w : Nat) :
    missing nodes done w = 0 ↔ ∀ v ∈ operandsOf nodes w, v ∈ done := by
  simp [missing, List.countP_eq_zero]

/-- When one more node is done, a node misses as many operands fewer as it reads this node. -/
theorem missing_concat (done : List Wire) (v w : Nat) (hv : v ∉ done) :
    missing nodes (done ++ [v]) w + (operandsOf nodes w).count v = missing nodes done w := by
  unfold missing
  induction operandsOf nodes w with
  | nil => rfl
  | cons u rest ih =>
    by_cases hu : u = v
    · subst hu
      rw [List.countP_cons_of_neg (by simp), List.countP_cons_of_pos (by simpa using hv),
        List.count_cons_self]
      omega
    · rw [List.count_cons_of_ne hu]
      by_cases hdone : u ∈ done
      · rw [List.countP_cons_of_neg (by simp [hdone]), List.countP_cons_of_neg (by simp [hdone])]
        exact ih
      · rw [List.countP_cons_of_pos (by simp [hdone, hu]),
          List.countP_cons_of_pos (by simp [hdone])]
        omega

/-- The schedule while the readers of one wire are released: `left` readers are
still to be released, after which `target` operands of each node are missing.
`old` is the order before the first of them was released. -/
structure Releasing (nodes : Array Node) (target : Wire → Nat) (left old : List Wire)
    (schedule : Schedule) : Prop where
  size : schedule.waiting.size = nodes.size
  waiting : ∀ w < nodes.size,
    schedule.waiting[w]? = some (UInt32.ofNat (target w + left.count w))
  small : ∀ w < nodes.size, target w + left.count w ≤ 2
  mem : ∀ w, w ∈ schedule.order.toList ↔ w < nodes.size ∧ target w + left.count w = 0
  nodup : schedule.order.toList.Nodup
  grown : ∃ new, schedule.order.toList = old ++ new ∧ ∀ w ∈ new, target w = 0

section Releasing

variable {target : Wire → Nat} {reader : Nat} {left old : List Wire} {schedule : Schedule}

private theorem Releasing.not_mem (h : Releasing nodes target (reader :: left) old schedule) :
    reader ∉ schedule.order.toList := by
  rw [h.mem]
  simp

private theorem Releasing.left_eq (h : Releasing nodes target (reader :: left) old schedule)
    (hreader : reader < nodes.size) :
    schedule.waiting.getD reader 0 - 1 = UInt32.ofNat (target reader + left.count reader) := by
  rw [Array.getD_eq_getD_getElem?, h.waiting reader hreader, Option.getD_some,
    List.count_cons_self, ← Nat.add_assoc, UInt32.ofNat_add _ 1]
  exact UInt32.add_sub_cancel _ _

private theorem Releasing.ready_iff (h : Releasing nodes target (reader :: left) old schedule)
    (hreader : reader < nodes.size) :
    (UInt32.ofNat (target reader + left.count reader) == 0) =
      decide (target reader + left.count reader = 0) := by
  have hsmall := h.small reader hreader
  rw [List.count_cons_self] at hsmall
  rw [Bool.eq_iff_iff, beq_iff_eq, decide_eq_true_iff, ← UInt32.toNat_inj, UInt32.toNat_ofNat',
    Nat.mod_eq_of_lt (by omega)]
  rfl

private theorem Releasing.small_tail (h : Releasing nodes target (reader :: left) old schedule)
    (w : Nat) (hw : w < nodes.size) : target w + left.count w ≤ 2 := by
  have hle := h.small w hw
  have hcount := List.count_le_count_cons (a := w) (b := reader) (l := left)
  omega

private theorem Releasing.waiting_tail (h : Releasing nodes target (reader :: left) old schedule)
    (w : Nat) (hw : w < nodes.size) :
    (schedule.waiting.setIfInBounds reader
      (UInt32.ofNat (target reader + left.count reader)))[w]? =
      some (UInt32.ofNat (target w + left.count w)) := by
  rw [Array.getElem?_setIfInBounds]
  by_cases heq : reader = w
  · subst heq
    rw [if_pos rfl, if_pos (by rw [h.size]; exact hw)]
  · rw [if_neg heq, h.waiting w hw, List.count_cons_of_ne heq]

/-- The last release of a node makes it ready: it misses nothing now, and goes to the end of
the order. -/
private theorem Releasing.push (h : Releasing nodes target (reader :: left) old schedule)
    (hreader : reader < nodes.size) (hready : target reader + left.count reader = 0) :
    Releasing nodes target left old
      ⟨schedule.order.push reader, schedule.waiting.setIfInBounds reader
        (UInt32.ofNat (target reader + left.count reader))⟩ := by
  obtain ⟨new, hgrown, hnew⟩ := h.grown
  refine ⟨?_, h.waiting_tail, h.small_tail, ?_, ?_, new ++ [reader], ?_, ?_⟩
  · rw [Array.size_setIfInBounds, h.size]
  · intro w
    rw [Array.toList_push, List.mem_append, List.mem_singleton, h.mem]
    by_cases heq : w = reader
    · subst heq
      simp [hready, hreader]
    · rw [List.count_cons_of_ne (Ne.symm heq)]
      simp [heq]
  · rw [Array.toList_push, List.nodup_append]
    refine ⟨h.nodup, List.nodup_singleton _, ?_⟩
    rintro a ha b hb rfl
    rw [List.mem_singleton.mp hb] at ha
    exact h.not_mem ha
  · rw [Array.toList_push, hgrown, List.append_assoc]
  · intro w hw
    rcases List.mem_append.mp hw with hold | hlast
    · exact hnew w hold
    · rw [List.mem_singleton.mp hlast]
      omega

/-- A release of a node that misses more operands only counts down, and leaves the order as it
is. -/
private theorem Releasing.keep (h : Releasing nodes target (reader :: left) old schedule)
    (hready : target reader + left.count reader ≠ 0) :
    Releasing nodes target left old
      ⟨schedule.order, schedule.waiting.setIfInBounds reader
        (UInt32.ofNat (target reader + left.count reader))⟩ := by
  refine ⟨?_, h.waiting_tail, h.small_tail, ?_, h.nodup, h.grown⟩
  · rw [Array.size_setIfInBounds, h.size]
  · intro w
    rw [h.mem]
    by_cases heq : w = reader
    · subst heq
      rw [List.count_cons_self]
      omega
    · rw [List.count_cons_of_ne (Ne.symm heq)]

/-- One release keeps track of what every node misses. Either it was the last one for the
reader or it was not. -/
theorem Releasing.release (h : Releasing nodes target (reader :: left) old schedule)
    (hreader : reader < nodes.size) (hsize : nodes.size ≤ 2 ^ 32) :
    Releasing nodes target left old (schedule.release (UInt32.ofNat reader)) := by
  have hindex : (UInt32.ofNat reader).toNat = reader := by
    rw [UInt32.toNat_ofNat', Nat.mod_eq_of_lt (by omega)]
  dsimp only [Schedule.release]
  rw [hindex, h.left_eq hreader, h.ready_iff hreader]
  by_cases hready : target reader + left.count reader = 0
  · rw [decide_eq_true hready, if_pos rfl]
    exact h.push hreader hready
  · rw [decide_eq_false hready, if_neg Bool.false_ne_true]
    exact h.keep hready

theorem Releasing.foldl (h : Releasing nodes target left old schedule)
    (hleft : ∀ reader ∈ left, reader < nodes.size) (hsize : nodes.size ≤ 2 ^ 32) :
    Releasing nodes target [] old ((left.map UInt32.ofNat).foldl Schedule.release schedule) := by
  induction left generalizing schedule with
  | nil => exact h
  | cons reader left ih =>
    rw [List.map_cons, List.foldl_cons]
    exact ih (h.release (hleft reader (by simp)) hsize)
      (fun reader member => hleft reader (by simp [member]))

end Releasing

/-- The schedule after the first `head` nodes of the order have released their
readers. Every node of the order stands behind its operands. -/
structure Released (nodes : Array Node) (head : Nat) (schedule : Schedule) : Prop where
  size : schedule.waiting.size = nodes.size
  head_le : head ≤ schedule.order.size
  waiting : ∀ w < nodes.size, schedule.waiting[w]? =
    some (UInt32.ofNat (missing nodes (schedule.order.toList.take head) w))
  mem : ∀ w, w ∈ schedule.order.toList ↔
    w < nodes.size ∧ missing nodes (schedule.order.toList.take head) w = 0
  nodup : schedule.order.toList.Nodup
  earlier : ∀ (i : Nat) (w : Wire), schedule.order.toList[i]? = some w →
    ∀ v ∈ operandsOf nodes w, ∃ j < i, schedule.order.toList[j]? = some v

/-- At the start the nodes without operands are ready, and every other node waits for as many
operands as it has. -/
theorem released_start (nodes : Array Node) : Released nodes 0 (start nodes) := by
  have hmem (w : Nat) :
      w ∈ (start nodes).order.toList ↔ w < nodes.size ∧ missing nodes [] w = 0 := by
    rw [missing_eq_zero_iff]
    simp [start, operandsOf, List.eq_nil_iff_forall_not_mem]
  refine ⟨?_, Nat.zero_le _, ?_, ?_, ?_, ?_⟩
  · simp [start]
  · intro w hw
    simp [start, missing, operandsOf, hw]
  · simpa using hmem
  · rw [start, Array.toList_filter, Array.toList_range]
    exact List.nodup_range.filter _
  · intro i w hi v hv
    have hnone := ((hmem w).mp (List.mem_of_getElem? hi)).2
    rw [missing_eq_zero_iff] at hnone
    cases hnone v hv

section Released

variable {fanout : Fanout} {head : Nat} {schedule : Schedule} {wire : Wire}

theorem Released.subset (h : Released nodes head schedule) :
    schedule.order.toList ⊆ List.range nodes.size :=
  fun w hw => List.mem_range.mpr ((h.mem w).mp hw).1

/-- Nodes that are ready occur once, so there are at most as many as nodes. -/
theorem Released.size_le (h : Released nodes head schedule) :
    schedule.order.size ≤ nodes.size := by
  have hlength := (List.subperm_of_subset h.nodup h.subset).length_le
  simpa using hlength

private theorem getElem_not_mem_take {xs : List Nat} (hnodup : xs.Nodup) (i : Nat)
    (hi : i < xs.length) : xs[i] ∉ xs.take i := by
  intro member
  obtain ⟨j, hj, heq⟩ := List.mem_iff_getElem.mp member
  rw [List.length_take] at hj
  rw [List.getElem_take] at heq
  have hjlt : j < xs.length := by omega
  have hindex : j = i := hnodup.getElem_inj_iff.mp heq
  omega

theorem Released.releasing (h : Released nodes head schedule)
    (hwire : schedule.order.toList[head]? = some wire) :
    Releasing nodes (missing nodes (schedule.order.toList.take (head + 1)))
      (Fanout.readersIn (reads nodes) wire) schedule.order.toList schedule := by
  obtain ⟨hhead, hget⟩ := List.getElem?_eq_some_iff.mp hwire
  have hfresh : wire ∉ schedule.order.toList.take head :=
    hget ▸ getElem_not_mem_take h.nodup head hhead
  have hcount (w : Nat) (hw : w < nodes.size) :
      missing nodes (schedule.order.toList.take (head + 1)) w +
        (Fanout.readersIn (reads nodes) wire).count w =
      missing nodes (schedule.order.toList.take head) w := by
    rw [count_readersIn wire w hw, ← missing_concat _ wire w hfresh,
      List.take_succ_eq_append_getElem hhead, hget]
  refine ⟨h.size, ?_, ?_, ?_, h.nodup, [], (List.append_nil _).symm, by simp⟩
  · intro w hw
    rw [hcount w hw]
    exact h.waiting w hw
  · intro w hw
    rw [hcount w hw]
    exact missing_le _ w
  · intro w
    rw [h.mem]
    exact and_congr_right fun hw => by rw [hcount w hw]

private theorem Releasing.released {old : List Wire}
    (h : Releasing nodes (missing nodes (old.take (head + 1))) [] old schedule)
    (hhead : head < old.length)
    (hearlier : ∀ (i : Nat) (w : Wire), old[i]? = some w →
      ∀ v ∈ operandsOf nodes w, ∃ j < i, old[j]? = some v) :
    Released nodes (head + 1) schedule := by
  obtain ⟨new, hgrown, hnew⟩ := h.grown
  have htake : schedule.order.toList.take (head + 1) = old.take (head + 1) := by
    rw [hgrown, List.take_append_of_le_length hhead]
  refine ⟨h.size, ?_, ?_, ?_, h.nodup, ?_⟩
  · have hlength := congrArg List.length hgrown
    rw [List.length_append, Array.length_toList] at hlength
    omega
  · intro w hw
    rw [h.waiting w hw, htake]
    rfl
  · intro w
    rw [h.mem, htake]
    rfl
  · intro i w hi v hv
    rw [hgrown] at hi ⊢
    by_cases hold : i < old.length
    · rw [List.getElem?_append_left hold] at hi
      obtain ⟨j, hj, heq⟩ := hearlier i w hi v hv
      exact ⟨j, hj, by rw [List.getElem?_append_left (by omega)]; exact heq⟩
    · -- a node that has just become ready has all its operands among the first ones
      rw [List.getElem?_append_right (by omega)] at hi
      have hready := (missing_eq_zero_iff _ w).mp (hnew w (List.mem_of_getElem? hi)) v hv
      obtain ⟨j, hj, heq⟩ := List.mem_iff_getElem.mp hready
      rw [List.length_take] at hj
      rw [List.getElem_take] at heq
      refine ⟨j, by omega, ?_⟩
      rw [List.getElem?_append_left (by omega), List.getElem?_eq_getElem (by omega), heq]

/-- Releasing the readers of the next node moves it to the nodes that are done. Afterwards
every node misses exactly those operands that are not done. -/
theorem Released.step (h : Released nodes head schedule)
    (hexist : OperandsExist nodes) (hsize : nodes.size ≤ 2 ^ 32)
    (hfanout : Fanout.ofNodes? nodes = some fanout) (hwire : schedule.order[head]? = some wire) :
    Released nodes (head + 1) ((fanout.readersOf wire).foldl Schedule.release schedule) := by
  rw [← Array.getElem?_toList] at hwire
  have hwireLt : wire < nodes.size := ((h.mem wire).mp (List.mem_of_getElem? hwire)).1
  rw [← Array.foldl_toList, Fanout.readersOf_toList hexist.reads hfanout wire hwireLt]
  exact ((h.releasing hwire).foldl (fun _ => lt_of_mem_readersIn) hsize).released
    (List.getElem?_eq_some_iff.mp hwire).1 h.earlier

/-- With enough fuel, all ready nodes release their readers. Each step does one node, and none
is done twice, so as many steps as nodes are enough. -/
theorem Released.advance (h : Released nodes head schedule)
    (hexist : OperandsExist nodes) (hsize : nodes.size ≤ 2 ^ 32)
    (hfanout : Fanout.ofNodes? nodes = some fanout) (fuel : Nat)
    (hfuel : nodes.size ≤ head + fuel) :
    Released nodes (advance fanout fuel head schedule).order.size
      (advance fanout fuel head schedule) := by
  induction fuel generalizing head schedule with
  | zero =>
    have hle := h.size_le
    have hhead := h.head_le
    obtain rfl : head = schedule.order.size := by omega
    exact h
  | succ fuel ih =>
    rw [Schedule.advance]
    cases hwire : schedule.order[head]? with
    | none =>
      have hle := Array.getElem?_eq_none_iff.mp hwire
      have hhead := h.head_le
      obtain rfl : head = schedule.order.size := by omega
      exact h
    | some wire => exact ih (h.step hexist hsize hfanout hwire) (by omega)

end Released

section Complete

variable {schedule : Schedule} (h : Released nodes schedule.order.size schedule)

include h

theorem Released.mem_order_iff (w : Nat) :
    w ∈ schedule.order.toList ↔
      w < nodes.size ∧ ∀ v ∈ operandsOf nodes w, v ∈ schedule.order.toList := by
  rw [h.mem, missing_eq_zero_iff, List.take_of_length_le (by simp)]

/-- What a node of the order waits for stands before it, however far away in the netlist. -/
theorem Released.earlier_of_transGen {w v : Nat}
    (hpath : Relation.TransGen (ReadsWire nodes) w v) (i : Nat)
    (hi : schedule.order.toList[i]? = some w) :
    ∃ j < i, schedule.order.toList[j]? = some v := by
  induction hpath with
  | single hread => exact h.earlier i w hi _ ((readsWire_iff _ _).mp hread)
  | tail _ hread ih =>
    obtain ⟨j, hj, hget⟩ := ih
    obtain ⟨k, hk, hnext⟩ := h.earlier j _ hget _ ((readsWire_iff _ _).mp hread)
    exact ⟨k, by omega, hnext⟩

/-- A node of the order is on no loop, as it would have to stand before itself. -/
theorem Released.not_onLoop {w : Nat} (hw : w ∈ schedule.order.toList) : ¬ OnLoop nodes w := by
  intro hloop
  obtain ⟨i, hi⟩ := List.getElem?_of_mem hw
  obtain ⟨j, hj, hget⟩ := h.earlier_of_transGen hloop i hi
  have hlt := (List.getElem?_eq_some_iff.mp hi).1
  have hsame : i = j := (List.getElem?_inj hlt h.nodup).mp (by rw [hi, hget])
  omega

/-- A node that is never released has an operand that is never released, and among finitely
many nodes the chain of these operands runs into itself. -/
theorem Released.behindLoop_of_not_mem (hexist : OperandsExist nodes) {w : Nat}
    (hw : w < nodes.size) (hstuck : w ∉ schedule.order.toList) : BehindLoop nodes w := by
  have hnext (u : {u : Fin nodes.size // u.val ∉ schedule.order.toList}) :
      ∃ v : {v : Fin nodes.size // v.val ∉ schedule.order.toList},
        ReadsWire nodes u.val.val v.val.val := by
    obtain ⟨⟨u, hu⟩, hstuck⟩ := u
    rw [h.mem_order_iff] at hstuck
    push Not at hstuck
    obtain ⟨v, hv, hvstuck⟩ := hstuck hu
    exact ⟨⟨⟨v, hexist u v hv⟩, hvstuck⟩, (readsWire_iff u v).mpr hv⟩
  -- following such operands on and on never leaves the finitely many nodes that are stuck
  choose next hreads using hnext
  let chain (k : Nat) := next^[k] ⟨⟨w, hw⟩, hstuck⟩
  have hstep (k : Nat) :
      ReadsWire nodes (chain k).val.val (chain (k + 1)).val.val := by
    simp only [chain, Function.iterate_succ_apply']
    exact hreads _
  have hpath (i k : Nat) : Relation.ReflTransGen (ReadsWire nodes)
      (chain i).val.val (chain (i + k)).val.val := by
    induction k with
    | zero => exact .refl
    | succ k ih => exact ih.tail (hstep (i + k))
  -- so the chain comes back to where it was, and from there on it is a loop
  obtain ⟨i, j, hne, heq⟩ := Finite.exists_ne_map_eq_of_infinite chain
  wlog hlt : i < j generalizing i j
  · exact this j i hne.symm heq.symm (by omega)
  obtain ⟨k, rfl⟩ : ∃ k, j = i + 1 + k := ⟨j - i - 1, by omega⟩
  have hreach := hpath 0 i
  rw [Nat.zero_add] at hreach
  refine ⟨(chain i).val.val, hreach, ?_⟩
  have hloop := Relation.TransGen.head' (hstep i) (hpath (i + 1) k)
  rw [← heq] at hloop
  exact hloop

/-- The ready nodes are those that do not lie on a loop or behind one. This describes the
order without the counters. -/
theorem Released.mem_order_iff_not_behindLoop (hexist : OperandsExist nodes) (w : Nat) :
    w ∈ schedule.order.toList ↔ w < nodes.size ∧ ¬ BehindLoop nodes w := by
  constructor
  · intro hw
    refine ⟨((h.mem_order_iff w).mp hw).1, ?_⟩
    rintro ⟨v, hpath, hloop⟩
    have hv : v ∈ schedule.order.toList := by
      clear hloop
      induction hpath with
      | refl => exact hw
      | tail _ hread ih =>
        exact ((h.mem_order_iff _).mp ih).2 _ ((readsWire_iff _ _).mp hread)
    exact h.not_onLoop hv hloop
  · rintro ⟨hw, hfree⟩
    by_contra hstuck
    exact hfree (h.behindLoop_of_not_mem hexist hw hstuck)

end Complete

end Schedule

end NandComputer
