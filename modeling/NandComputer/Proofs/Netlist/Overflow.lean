import Mathlib.Data.List.TakeWhile
import NandComputer.Proofs.Netlist.Compilation

/-!
Compilation without wrapping words. The number of nodes of a netlist is below
`2 ^ 32`, but group sizes, group starts and places of the fan-out table count
reads, of which a node makes up to two. Here every step of the compilation is
preceded by the checks that make it exact: sums stay below `2 ^ 32`, nothing is
taken from zero, and every index lies in its array. The checked compilation has
a result exactly if the reads fit, and then it is that of the compilation
itself. Fewer than `2 ^ 31` nodes always fit; one wire that `2 ^ 31` gates read
on both sides does not.
-/

namespace NandComputer

variable {nodes : Array Node}

namespace Fanout

/-- Counts a read of `wire`, if the count stays a word. -/
def count? (counts : Array UInt32) (wire : Wire) : Option (Array UInt32) :=
  if counts[wire + 1]?.any (·.toNat + 1 < 2 ^ 32) then
    some (counts.modify (wire + 1) (· + 1))
  else none

/-- Counts reads among `size` wires. -/
def counts? (size : Nat) (entries : List (Wire × Wire)) : Option (Array UInt32) :=
  entries.foldlM (fun counts entry => count? counts entry.1) (Array.replicate (size + 1) 0)

/-- One step of the running sums: the sums so far, and the last of them. -/
def nextSum (sums : Array UInt32 × UInt32) (count : UInt32) : Array UInt32 × UInt32 :=
  (sums.1.push (sums.2 + count), sums.2 + count)

def nextSum? (sums : Array UInt32 × UInt32) (count : UInt32) : Option (Array UInt32 × UInt32) :=
  if sums.2.toNat + count.toNat < 2 ^ 32 then some (nextSum sums count) else none

/-- The running sums, if they are words. -/
def runningSums? (counts : Array UInt32) : Option (Array UInt32) :=
  (counts.toList.foldlM nextSum? (#[], 0)).map (·.1)

/-- Puts a reader at the next free place of its group, if the place is in the
table and reader and next place are words. -/
def Filling.placeExact? (filling : Filling) (entry : Wire × Wire) : Option Filling :=
  if filling.cursors[entry.1]?.any
      (fun slot => slot.toNat < filling.readers.size ∧ slot.toNat + 1 < 2 ^ 32) ∧
      entry.2 < (2 ^ 32 : Nat) then
    filling.place entry.1 entry.2
  else none

/-- The table of a netlist whose reads have been counted. -/
def ofCounts? (nodes : Array Node) (counts : Array UInt32) : Option Fanout := do
  let starts ← runningSums? counts
  let total ← starts[nodes.size]?
  let filling ← (reads nodes).foldlM Filling.placeExact?
    ⟨starts, Array.replicate total.toNat 0⟩
  return ⟨starts, filling.readers⟩

/-- The readers of one wire, if its group lies in the table. -/
def readersOf? (fanout : Fanout) (wire : Wire) : Option (Array UInt32) := do
  let first ← fanout.starts[wire]?
  let last ← fanout.starts[wire + 1]?
  if first ≤ last ∧ last.toNat ≤ fanout.readers.size then
    return fanout.readers.extract first.toNat last.toNat
  else none

/-- The counts of some reads, as words that wrap around. -/
def countsOf (size : Nat) (entries : List (Wire × Wire)) : Array UInt32 :=
  entries.foldl (fun counts entry => counts.modify (entry.1 + 1) (· + 1))
    (Array.replicate (size + 1) 0)

section Counting

variable {counts result : Array UInt32} {size : Nat} {entries : List (Wire × Wire)}

theorem counts_eq_countsOf (nodes : Array Node) :
    Fanout.counts nodes = countsOf nodes.size (reads nodes) :=
  foldOperands_eq_foldl _ _ _

theorem countsOf_concat (size : Nat) (entries : List (Wire × Wire)) (entry : Wire × Wire) :
    countsOf size (entries ++ [entry]) =
      (countsOf size entries).modify (entry.1 + 1) (· + 1) := by
  rw [countsOf, List.foldl_append]
  rfl

theorem getElem?_countsOf (size : Nat) (entries : List (Wire × Wire)) (w : Nat) :
    (countsOf size entries)[w + 1]? =
      if w < size then some (UInt32.ofNat (readersIn entries w).length) else none := by
  rw [countsOf, getElem?_counting, Array.getElem?_replicate]
  by_cases hw : w < size <;> simp [hw, readersIn, List.countP_eq_length_filter]

theorem count?_eq_some_iff (wire : Wire) : count? counts wire = some result ↔
    (∃ count, counts[wire + 1]? = some count ∧ count.toNat + 1 < 2 ^ 32) ∧
      counts.modify (wire + 1) (· + 1) = result := by
  rw [count?, Option.ite_none_right_eq_some, Option.any_eq_true, Option.some.injEq]
  simp only [decide_eq_true_eq]

/-- Counting one more read is exact as long as the count stays a word and the wire is a node.
-/
theorem count?_countsOf_eq_some_iff {entry : Wire × Wire}
    (hfits : (readersIn entries entry.1).length < 2 ^ 32) :
    count? (countsOf size entries) entry.1 = some result ↔
      entry.1 < size ∧ (readersIn entries entry.1).length + 1 < 2 ^ 32 ∧
        countsOf size (entries ++ [entry]) = result := by
  rw [count?_eq_some_iff, getElem?_countsOf, countsOf_concat, ← and_assoc]
  refine and_congr_left fun _ => ?_
  constructor
  · rintro ⟨count, hcount, hnext⟩
    obtain ⟨hsize, heq⟩ := Option.ite_none_right_eq_some.mp hcount
    obtain rfl := Option.some.inj heq
    rw [UInt32.toNat_ofNat', Nat.mod_eq_of_lt hfits] at hnext
    exact ⟨hsize, hnext⟩
  · rintro ⟨hsize, hnext⟩
    refine ⟨_, if_pos hsize, ?_⟩
    rwa [UInt32.toNat_ofNat', Nat.mod_eq_of_lt hfits]

theorem counts?_concat (size : Nat) (entries : List (Wire × Wire)) (entry : Wire × Wire) :
    counts? size (entries ++ [entry]) =
      (counts? size entries).bind fun counts => count? counts entry.1 := by
  rw [counts?, List.foldlM_append, Option.bind_eq_bind, ← counts?]
  congr 1
  funext counts
  rw [List.foldlM_cons, Option.bind_eq_bind]
  exact Option.bind_fun_some _

/-- Counting is exact if all wires exist and no wire has `2 ^ 32` reads. The induction is over
the reads, from the last one. -/
theorem counts?_eq_some_iff (size : Nat) (entries : List (Wire × Wire)) :
    counts? size entries = some result ↔ (∀ entry ∈ entries, entry.1 < size) ∧
      (∀ w, (readersIn entries w).length < 2 ^ 32) ∧ countsOf size entries = result := by
  -- from the end, so that the last read meets the exact counts of those before it
  induction entries using List.reverseRecOn generalizing result with
  | nil => simp [counts?, countsOf, readersIn]
  | append_singleton rest entry ih =>
    rw [counts?_concat, Option.bind_eq_some_iff]
    simp only [ih, List.forall_mem_append, List.forall_mem_singleton]
    constructor
    · rintro ⟨_, ⟨hwires, hlengths, rfl⟩, hcount⟩
      obtain ⟨hwire, hnext, hresult⟩ :=
        (count?_countsOf_eq_some_iff (hlengths entry.1)).mp hcount
      refine ⟨⟨hwires, hwire⟩, fun w => ?_, hresult⟩
      rw [readersIn_concat]
      split
      case isTrue heq =>
        rwa [List.length_append, ← heq]
      case isFalse => exact hlengths w
    · rintro ⟨⟨hwires, hwire⟩, hlengths, hresult⟩
      have hold (w : Nat) : (readersIn rest w).length < 2 ^ 32 := by
        have hall := hlengths w
        rw [readersIn_append, List.length_append] at hall
        omega
      have hnext := hlengths entry.1
      rw [readersIn_concat, if_pos rfl, List.length_append] at hnext
      exact ⟨_, ⟨hwires, hold, rfl⟩,
        (count?_countsOf_eq_some_iff (hold entry.1)).mpr ⟨hwire, hnext, hresult⟩⟩

end Counting

section Summing

variable {sums result : Array UInt32 × UInt32}

theorem runningSums_eq (counts : Array UInt32) :
    runningSums counts = (counts.toList.foldl nextSum (#[], 0)).1 := by
  rw [runningSums, ← Array.foldl_toList]
  rfl

theorem nextSum?_eq_some_iff (count : UInt32) : nextSum? sums count = some result ↔
    sums.2.toNat + count.toNat < 2 ^ 32 ∧ nextSum sums count = result := by
  rw [nextSum?, Option.ite_none_right_eq_some, Option.some.injEq]

/-- Summing is exact if the last sum stays a word, since the sums never become smaller on the
way. -/
theorem foldlM_nextSum?_eq_some_iff (counts : List UInt32) :
    counts.foldlM nextSum? sums = some result ↔
      sums.2.toNat + (counts.map UInt32.toNat).sum < 2 ^ 32 ∧
        counts.foldl nextSum sums = result := by
  induction counts generalizing sums with
  | nil =>
    have hfits : sums.2.toNat < 2 ^ 32 := sums.2.toNat_lt
    simp only [List.foldlM_nil, List.map_nil, List.sum_nil, Nat.add_zero, List.foldl_nil, hfits,
      true_and]
    exact Option.some_inj
  | cons count rest ih =>
    rw [List.foldlM_cons, Option.bind_eq_bind, Option.bind_eq_some_iff, List.map_cons,
      List.sum_cons, List.foldl_cons]
    simp only [nextSum?_eq_some_iff, ih]
    constructor
    · rintro ⟨_, ⟨hfirst, rfl⟩, hrest, hresult⟩
      rw [nextSum, UInt32.toNat_add, Nat.mod_eq_of_lt hfirst] at hrest
      exact ⟨by omega, hresult⟩
    · rintro ⟨hall, hresult⟩
      have hfirst : sums.2.toNat + count.toNat < 2 ^ 32 := by omega
      refine ⟨_, ⟨hfirst, rfl⟩, ?_, hresult⟩
      rw [nextSum, UInt32.toNat_add, Nat.mod_eq_of_lt hfirst]
      omega

/-- Exact counts add up to the places before the next wire, now as numbers and not as
remainders. -/
theorem sum_take_countsOf {size : Nat} {entries : List (Wire × Wire)}
    (hlengths : ∀ w, (readersIn entries w).length < 2 ^ 32) (w : Nat) (hw : w ≤ size) :
    (((countsOf size entries).toList.take (w + 1)).map UInt32.toNat).sum =
      placesBefore entries w := by
  induction w with
  | zero =>
    have hfirst : (countsOf size entries)[0]? = some 0 := by
      rw [countsOf, getElem?_counting]
      simp
    rw [List.take_add_one, Array.getElem?_toList, hfirst, placesBefore_zero]
    rfl
  | succ w ih =>
    rw [List.take_add_one, Array.getElem?_toList, getElem?_countsOf, if_pos (by omega),
      List.map_append, List.sum_append, ih (by omega), placesBefore_succ]
    simp only [Option.toList_some, List.map_singleton, List.sum_singleton, UInt32.toNat_ofNat']
    rw [Nat.mod_eq_of_lt (hlengths w)]

/-- If no wire has `2 ^ 32` reads, the group starts are exact if there are fewer in all. -/
theorem runningSums?_counts {starts : Array UInt32}
    (hwires : ∀ entry ∈ reads nodes, entry.1 < nodes.size)
    (hlengths : ∀ w, (readersIn (reads nodes) w).length < 2 ^ 32) :
    runningSums? (Fanout.counts nodes) = some starts ↔
      (reads nodes).length < 2 ^ 32 ∧ runningSums (Fanout.counts nodes) = starts := by
  have hsize : (Fanout.counts nodes).toList.length ≤ nodes.size + 1 := by
    rw [Array.length_toList, size_counts]
  have hsum := sum_take_countsOf hlengths nodes.size (Nat.le_refl _)
  rw [← counts_eq_countsOf, List.take_of_length_le hsize, placesBefore_eq_length _ hwires] at hsum
  rw [runningSums?, Option.map_eq_some_iff, runningSums_eq]
  simp only [foldlM_nextSum?_eq_some_iff, hsum, UInt32.toNat_zero, Nat.zero_add]
  constructor
  · rintro ⟨_, ⟨hfits, rfl⟩, hstarts⟩
    exact ⟨hfits, hstarts⟩
  · rintro ⟨hfits, hstarts⟩
    exact ⟨_, ⟨hfits, rfl⟩, hstarts⟩

end Summing

section Placing

variable {entries done rest : List (Wire × Wire)} {entry : Wire × Wire} {bound : Nat}
  {filling next : Filling}

/-- Without wrapping, placing a reader passes its checks: the place is in the table, and the
next one is a word again. -/
theorem Filled.placeExact?_eq (h : Filled entries done bound filling)
    (hentries : entries = done ++ entry :: rest) (hbound : entry.1 < bound)
    (hreader : entry.2 < (2 ^ 32 : Nat)) (hfits : entries.length < 2 ^ 32) :
    filling.placeExact? entry = filling.place entry.1 entry.2 := by
  obtain ⟨next, hplace⟩ := h.place_isSome hentries hbound hfits
  obtain ⟨hinside, -⟩ := (Filling.place_eq_some_iff entry.1 entry.2).mp hplace
  have hsize := h.size
  rw [Nat.mod_eq_of_lt hfits] at hsize
  rw [Filling.placeExact?, if_pos]
  refine ⟨?_, hreader⟩
  rw [Array.getD_eq_getD_getElem?] at hinside
  rw [h.cursors entry.1 hbound] at hinside ⊢
  rw [Option.getD_some] at hinside
  rw [Option.any_some, decide_eq_true_eq]
  exact ⟨hinside, by omega⟩

/-- Placing the reads one after the other passes all checks, by induction on those that
remain. -/
theorem Filled.foldlM_placeExact? (h : Filled entries done bound filling)
    (hentries : entries = done ++ rest) (hbound : ∀ entry ∈ rest, entry.1 < bound)
    (hreaders : ∀ entry ∈ rest, entry.2 < (2 ^ 32 : Nat)) (hfits : entries.length < 2 ^ 32) :
    rest.foldlM Filling.placeExact? filling =
      rest.foldl (fun filling? entry => filling?.bind (Filling.place · entry.1 entry.2))
        (some filling) := by
  induction rest generalizing done filling with
  | nil => rfl
  | cons entry rest ih =>
    rw [List.forall_mem_cons] at hbound hreaders
    obtain ⟨placed, hplace⟩ := h.place_isSome hentries hbound.1 hfits
    rw [List.foldlM_cons, List.foldl_cons, Option.bind_some,
      h.placeExact?_eq hentries hbound.1 hreaders.1 hfits, hplace]
    exact ih (h.place hentries hbound.1 hplace) (by rw [hentries, List.append_assoc]; rfl)
      hbound.2 hreaders.2

end Placing

section Table

variable {fanout : Fanout} (hwires : ∀ entry ∈ reads nodes, entry.1 < nodes.size)

include hwires

/-- If no wire has `2 ^ 32` reads, the checked table is the table. What it checks beyond the
number of reads always holds. -/
theorem ofCounts?_counts (hlengths : ∀ w, (readersIn (reads nodes) w).length < 2 ^ 32)
    (hsize : nodes.size ≤ 2 ^ 32) : ofCounts? nodes (Fanout.counts nodes) = ofNodes? nodes := by
  by_cases hfits : (reads nodes).length < 2 ^ 32
  · have hreaders (entry : Wire × Wire) (member : entry ∈ reads nodes) :
        entry.2 < (2 ^ 32 : Nat) :=
      Nat.lt_of_lt_of_le (reader_lt member) hsize
    have hstarts := (runningSums?_counts hwires hlengths).mpr ⟨hfits, rfl⟩
    have htotal := getElem?_starts nodes nodes.size (Nat.le_refl _)
    have hfill := (filled_start hwires).foldlM_placeExact? (List.nil_append _).symm hwires
      hreaders hfits
    rw [Array.getD_eq_getD_getElem?, htotal, Option.getD_some] at hfill
    simp only [ofCounts?, hstarts, htotal, hfill, Option.bind_eq_bind, Option.bind_some, ofNodes?,
      fill?, foldOperands_eq_foldl, Array.getD_eq_getD_getElem?, Option.getD_some]
    exact Option.map_eq_bind.symm
  · have hstarts : runningSums? (Fanout.counts nodes) = none := by
      rw [Option.eq_none_iff_forall_ne_some]
      exact fun starts h => hfits ((runningSums?_counts hwires hlengths).mp h).1
    have htable : ofNodes? nodes = none := by
      rw [← Option.not_isSome_iff_eq_none, ofNodes?_isSome_iff hwires]
      exact hfits
    rw [ofCounts?, hstarts, htable]
    rfl

/-- Every group lies in the table, so looking up the readers of a wire stays inside. -/
theorem readersOf?_eq (h : ofNodes? nodes = some fanout) (w : Nat) (hw : w < nodes.size) :
    fanout.readersOf? w = some (fanout.readersOf w) := by
  obtain ⟨first, hfirst, hfirstPlace⟩ := exists_start hwires h w (Nat.le_of_lt hw)
  obtain ⟨last, hlast, hlastPlace⟩ := exists_start hwires h (w + 1) hw
  have hle := placesBefore_le (reads nodes) (Nat.le_succ w)
  have hend : placesBefore (reads nodes) (w + 1) ≤ (reads nodes).length := List.countP_le_length
  have hgroup : first ≤ last ∧ last.toNat ≤ fanout.readers.size := by
    rw [UInt32.le_iff_toNat_le, size_readers hwires h, hfirstPlace, hlastPlace]
    exact ⟨hle, hend⟩
  rw [readersOf?, hfirst, hlast, readersOf, Array.getD_eq_getD_getElem?,
    Array.getD_eq_getD_getElem?, hfirst, hlast]
  exact if_pos hgroup

end Table

end Fanout

namespace Schedule

/-- Releases a reader, if it is a node that still waits. -/
def release? (schedule : Schedule) (reader : UInt32) : Option Schedule :=
  if schedule.waiting[reader.toNat]?.any (0 < ·) then some (schedule.release reader) else none

/-- Lets the ready nodes from position `head` on release their readers. -/
def advance? (fanout : Fanout) : (fuel head : Nat) → Schedule → Option Schedule
  | 0, _, schedule => some schedule
  | fuel + 1, head, schedule =>
    match schedule.order[head]? with
    | none => some schedule
    | some wire => do
      let readers ← fanout.readersOf? wire
      advance? fanout fuel (head + 1) (← readers.toList.foldlM release? schedule)

section Releasing

variable {target : Wire → Nat} {reader : Nat} {left old : List Wire} {schedule : Schedule}

/-- A reader that is still to be released waits, so its counter is not taken below zero. -/
theorem Releasing.release?_eq (h : Releasing nodes target (reader :: left) old schedule)
    (hreader : reader < nodes.size) (hsize : nodes.size ≤ 2 ^ 32) :
    schedule.release? (UInt32.ofNat reader) = some (schedule.release (UInt32.ofNat reader)) := by
  have hsmall := h.small reader hreader
  rw [List.count_cons_self] at hsmall
  rw [release?, if_pos]
  rw [UInt32.toNat_ofNat', Nat.mod_eq_of_lt (by omega), h.waiting reader hreader,
    List.count_cons_self, Option.any_some, decide_eq_true_eq, UInt32.lt_iff_toNat_lt,
    UInt32.toNat_ofNat', Nat.mod_eq_of_lt (by omega)]
  exact Nat.succ_pos _

theorem Releasing.foldlM_release? (h : Releasing nodes target left old schedule)
    (hleft : ∀ reader ∈ left, reader < nodes.size) (hsize : nodes.size ≤ 2 ^ 32) :
    (left.map UInt32.ofNat).foldlM release? schedule =
      some ((left.map UInt32.ofNat).foldl Schedule.release schedule) := by
  induction left generalizing schedule with
  | nil => rfl
  | cons reader left ih =>
    rw [List.forall_mem_cons] at hleft
    rw [List.map_cons, List.foldlM_cons, List.foldl_cons, h.release?_eq hleft.1 hsize]
    exact ih (h.release hleft.1 hsize) hleft.2

end Releasing

/-- Releasing the readers of all ready nodes takes nothing from zero, and looks up nothing
outside. -/
theorem Released.advance?_eq {fanout : Fanout} {head : Nat} {schedule : Schedule}
    (h : Released nodes head schedule) (hexist : OperandsExist nodes) (hsize : nodes.size ≤ 2 ^ 32)
    (hfanout : Fanout.ofNodes? nodes = some fanout) (fuel : Nat) :
    advance? fanout fuel head schedule = some (Schedule.advance fanout fuel head schedule) := by
  induction fuel generalizing head schedule with
  | zero => rfl
  | succ fuel ih =>
    rw [advance?, Schedule.advance]
    cases hwire : schedule.order[head]? with
    | none => rfl
    | some wire =>
      have hnext := h.step hexist hsize hfanout hwire
      rw [← Array.getElem?_toList] at hwire
      have hlt := ((h.mem wire).mp (List.mem_of_getElem? hwire)).1
      have hreaders := Fanout.readersOf_toList hexist.reads hfanout wire hlt
      have hrelease := (h.releasing hwire).foldlM_release? (fun _ => lt_of_mem_readersIn) hsize
      rw [← hreaders, Array.foldl_toList] at hrelease
      simp only [Fanout.readersOf?_eq hexist.reads hfanout wire hlt, hrelease,
        Option.bind_eq_bind, Option.bind_some]
      exact ih hnext

/-- The ordering of a netlist whose reads have been counted. -/
def ofCounts? (nodes : Array Node) (counts : Array UInt32) : Option Schedule := do
  let fanout ← Fanout.ofCounts? nodes counts
  advance? fanout nodes.size 0 (start nodes)

/-- If no wire has `2 ^ 32` reads, the ordering is exact if there are fewer in all, and it is
then the one that is computed without checks. -/
theorem ofCounts?_eq_some_iff {schedule : Schedule} (hexist : OperandsExist nodes)
    (hlengths : ∀ w, (Fanout.readersIn (reads nodes) w).length < 2 ^ 32)
    (hsize : nodes.size ≤ 2 ^ 32) :
    ofCounts? nodes (Fanout.counts nodes) = some schedule ↔
      (reads nodes).length < 2 ^ 32 ∧ ofNodes nodes = schedule := by
  rw [ofCounts?, Fanout.ofCounts?_counts hexist.reads hlengths hsize,
    ← Fanout.ofNodes?_isSome_iff hexist.reads, ofNodes]
  cases hfanout : Fanout.ofNodes? nodes with
  | none => simp
  | some fanout =>
    rw [Option.bind_eq_bind, Option.bind_some,
      (released_start nodes).advance?_eq hexist hsize hfanout, Option.some.injEq]
    simp

end Schedule

/-- A slot that was never connected. -/
def Node.isOpen : Node → Bool
  | .forward none | .flipFlop none => true
  | _ => false

theorem Node.isOpen_iff (node : Node) :
    node.isOpen ↔ node = .forward none ∨ node = .flipFlop none := by
  cases node with
  | flipFlop next? => cases next? <;> simp [isOpen]
  | forward source? => cases source? <;> simp [isOpen]
  | _ => simp [isOpen]

namespace Netlist

/-- The reads that are counted: those of the nodes before the first open slot. -/
def countedReads (n : Netlist) : List (Wire × Wire) := reads (n.nodes.takeWhile (!·.isOpen))

/-- What an ordering of the nodes means for a netlist without faults. -/
def conclude (n : Netlist) (schedule : Schedule) : Except CircuitError Circuit :=
  if schedule.order.size < n.nodes.size then
    .error (.combinationalLoop schedule.stuck (n.nodes.size - schedule.order.size))
  else .ok (n.circuit schedule.order)

/-- The compilation of a netlist whose reads have been counted. -/
def compileCounted? (n : Netlist) (counts : Array UInt32) :
    Option (Except CircuitError Circuit) :=
  match n.fault? with
  | some fault => some (.error fault)
  | none => (Schedule.ofCounts? n.nodes counts).map n.conclude

/-- Compilation that has no result where a word would wrap around or an index
would lie outside its array. -/
def compileChecked? (n : Netlist) : Option (Except CircuitError Circuit) :=
  match n.defects[0]? with
  | some defect => some (.error defect)
  | none => (Fanout.counts? n.size n.countedReads).bind n.compileCounted?

/-- The reads of a netlist have room in 32-bit words. -/
structure ReadsFit (n : Netlist) : Prop where
  exist : ∀ entry ∈ n.countedReads, entry.1 < n.size
  each : ∀ w, (Fanout.readersIn n.countedReads w).length < 2 ^ 32
  /-- The starts of the groups are only computed if no slot is open. -/
  all : (∀ w, ¬ n.OpenSlot w) → (reads n.nodes).length < 2 ^ 32

variable {n : Netlist}

section Counted

theorem countedReads_of_closed (h : ∀ w, ¬ n.OpenSlot w) : n.countedReads = reads n.nodes := by
  have hall : n.nodes.takeWhile (!·.isOpen) = n.nodes := by
    apply Array.ext'
    rw [Array.toList_takeWhile, List.takeWhile_eq_self_iff]
    intro node member
    obtain ⟨w, hw⟩ := List.getElem?_of_mem member
    rw [Array.getElem?_toList] at hw
    rw [Bool.not_eq_true', ← Bool.not_eq_true, node.isOpen_iff]
    rintro (rfl | rfl)
    · exact h w (.inl hw)
    · exact h w (.inr hw)
  rw [countedReads, hall]

theorem countedReads_subset (n : Netlist) : n.countedReads ⊆ reads n.nodes := by
  rintro ⟨v, w⟩ member
  obtain ⟨node, hnode, hread⟩ := (mem_reads_iff _ v w).mp member
  refine (mem_reads_iff n.nodes v w).mpr ⟨node, ?_, hread⟩
  rw [← Array.getElem?_toList, Array.toList_takeWhile] at hnode
  rw [← Array.getElem?_toList]
  obtain ⟨hlt, rfl⟩ := List.getElem?_eq_some_iff.mp hnode
  rw [(List.takeWhile_prefix _).getElem hlt]
  exact List.getElem?_eq_getElem _

theorem length_countedReads_le (n : Netlist) : n.countedReads.length ≤ 2 * n.size := by
  have hsize : (n.nodes.takeWhile (!·.isOpen)).size ≤ n.size := by
    rw [← Array.length_toList, Array.toList_takeWhile, size, ← Array.length_toList]
    exact (List.takeWhile_prefix _).length_le
  have hreads := length_reads_le (n.nodes.takeWhile (!·.isOpen))
  rw [countedReads]
  omega

end Counted

theorem compile_of_fault?_eq_none (h : n.fault? = none) :
    n.compile = n.conclude (Schedule.ofNodes n.nodes) := by
  rw [compile, h]
  rfl

theorem compile_of_fault? {fault : CircuitError} (h : n.fault? = some fault) :
    n.compile = .error fault := by
  rw [compile, h]

theorem readsFit_of_closed_iff (h : ∀ w, ¬ n.OpenSlot w) : n.ReadsFit ↔
    (∀ entry ∈ reads n.nodes, entry.1 < n.size) ∧
      (∀ w, (Fanout.readersIn (reads n.nodes) w).length < 2 ^ 32) ∧
      (reads n.nodes).length < 2 ^ 32 := by
  rw [← countedReads_of_closed h]
  constructor
  · intro hfit
    refine ⟨hfit.exist, hfit.each, ?_⟩
    rw [countedReads_of_closed h]
    exact hfit.all h
  · rintro ⟨hexist, heach, hall⟩
    rw [countedReads_of_closed h] at hall
    exact ⟨hexist, heach, fun _ => hall⟩

theorem readsFit_of_open_iff (h : ¬ ∀ w, ¬ n.OpenSlot w) : n.ReadsFit ↔
    (∀ entry ∈ n.countedReads, entry.1 < n.size) ∧
      ∀ w, (Fanout.readersIn n.countedReads w).length < 2 ^ 32 :=
  ⟨fun hfit => ⟨hfit.exist, hfit.each⟩,
    fun ⟨hexist, heach⟩ => ⟨hexist, heach, fun hclosed => absurd hclosed h⟩⟩

section Checked

variable {result : Except CircuitError Circuit}

/-- Without a recorded defect, the reads are counted first, before open slots are looked for.
-/
theorem compileChecked?_of_clean (h : n.defects = #[]) : n.compileChecked? = some result ↔
    ∃ counts, Fanout.counts? n.size n.countedReads = some counts ∧
      n.compileCounted? counts = some result := by
  rw [compileChecked?, h]
  exact Option.bind_eq_some_iff

/-- With an open slot, only the counts have to fit, since the table is not made then. -/
theorem compileChecked?_of_open {fault : CircuitError} (hclean : n.defects = #[])
    (hfault : n.fault? = some fault) :
    n.compileChecked? = some result ↔ n.ReadsFit ∧ n.compile = result := by
  have hopen : ¬ ∀ w, ¬ n.OpenSlot w := by
    intro hclosed
    rw [fault?_eq_none_iff.mpr ⟨hclean, hclosed⟩] at hfault
    cases hfault
  rw [compileChecked?_of_clean hclean, readsFit_of_open_iff hopen, compile_of_fault? hfault]
  simp only [Fanout.counts?_eq_some_iff, compileCounted?, hfault, Option.some.injEq]
  constructor
  · rintro ⟨_, ⟨hexist, heach, -⟩, hresult⟩
    exact ⟨⟨hexist, heach⟩, hresult⟩
  · rintro ⟨⟨hexist, heach⟩, hresult⟩
    exact ⟨_, ⟨hexist, heach, rfl⟩, hresult⟩

/-- With all slots connected, counts, sums and places have to fit, and then the checks change
nothing of the result. -/
theorem compileChecked?_of_closed (hclean : n.defects = #[]) (hclosed : ∀ w, ¬ n.OpenSlot w)
    (hsize : n.size ≤ 2 ^ 32) :
    n.compileChecked? = some result ↔ n.ReadsFit ∧ n.compile = result := by
  have hfault := fault?_eq_none_iff.mpr ⟨hclean, hclosed⟩
  rw [compileChecked?_of_clean hclean, readsFit_of_closed_iff hclosed,
    compile_of_fault?_eq_none hfault, countedReads_of_closed hclosed]
  have hcounts := Fanout.counts_eq_countsOf n.nodes
  rw [← size] at hcounts
  simp only [Fanout.counts?_eq_some_iff, compileCounted?, hfault, Option.map_eq_some_iff,
    ← hcounts]
  constructor
  · rintro ⟨_, ⟨hexist, heach, rfl⟩, schedule, hschedule, hresult⟩
    -- the ordering is the only step left that the counts don't make exact
    obtain ⟨hall, rfl⟩ := (Schedule.ofCounts?_eq_some_iff (operandsExist_of_reads hexist) heach
      hsize).mp hschedule
    exact ⟨⟨hexist, heach, hall⟩, hresult⟩
  · rintro ⟨⟨hexist, heach, hall⟩, hresult⟩
    refine ⟨_, ⟨hexist, heach, rfl⟩, _, ?_, hresult⟩
    exact (Schedule.ofCounts?_eq_some_iff (operandsExist_of_reads hexist) heach
      hsize).mpr ⟨hall, rfl⟩

/-- The checked compilation has a result exactly if the reads fit, and it is the result of the
compilation. With a recorded defect nothing is counted, and nothing has to fit. -/
theorem compileChecked?_eq_some (hsize : n.size ≤ 2 ^ 32) :
    n.compileChecked? = some result ↔ (n.defects = #[] → n.ReadsFit) ∧ n.compile = result := by
  rcases n.defects_eq_empty_or with hclean | ⟨defect, hdefect⟩
  · rw [forall_prop_of_true hclean]
    cases hfault : n.fault? with
    | some fault => exact compileChecked?_of_open hclean hfault
    | none => exact compileChecked?_of_closed hclean (fault?_eq_none_iff.mp hfault).2 hsize
  · have hdirty : n.defects ≠ #[] := by
      intro h
      rw [h] at hdefect
      cases hdefect
    rw [compileChecked?, hdefect, compile_of_fault? (fault?_of_defects hdefect),
      Option.some.injEq, and_iff_right fun h => absurd h hdirty]

end Checked

/-- Fewer than `2 ^ 31` nodes make too few reads to wrap around, as each has two at most. -/
theorem readsFit_of_size_lt (hexist : OperandsExist n.nodes) (hsize : n.size < 2 ^ 31) :
    n.ReadsFit where
  exist := fun entry member => hexist.reads entry (n.countedReads_subset member)
  each := by
    intro w
    have hcounted := n.length_countedReads_le
    have hgroup : (Fanout.readersIn n.countedReads w).length ≤ n.countedReads.length := by
      rw [Fanout.readersIn, List.length_map]
      exact List.length_filter_le _ _
    omega
  all := by
    intro _
    have hreads := length_reads_le n.nodes
    rw [size] at hsize
    omega

/-- One wire that many gates read on both sides. -/
def crowdedCalls (gates : Nat) : List BuilderCall :=
  .input "in" 1 :: List.replicate gates (.nand 0 0)

theorem after_replicate_nand (n : Netlist) (gates : Nat) (a b : Wire) :
    n.after (List.replicate gates (.nand a b)) =
      { n with nodes := n.nodes ++ Array.replicate gates (.nand a b) } := by
  induction gates with
  | zero =>
    rw [Array.replicate_zero, Array.append_empty]
    rfl
  | succ gates ih =>
    have hlast : n.after (List.replicate (gates + 1) (.nand a b)) =
        (n.after (List.replicate gates (.nand a b))).append (.nand a b) := by
      rw [List.replicate_succ', after, List.foldl_append]
      rfl
    rw [hlast, ih, append, Array.replicate_succ, Array.append_push]

theorem wiresExist_replicate_nand {n : Netlist} {a b : Wire} (ha : a < n.size) (hb : b < n.size)
    (gates : Nat) : n.WiresExist (List.replicate gates (.nand a b)) := by
  induction gates generalizing n with
  | zero => trivial
  | succ gates ih =>
    have hgrown : n.size ≤ ((BuilderCall.nand a b).apply n).size :=
      size_le (BuilderCall.le_apply n _)
    refine ⟨?_, ih (Nat.lt_of_lt_of_le ha hgrown) (Nat.lt_of_lt_of_le hb hgrown)⟩
    simp [BuilderCall.wires, ha, hb]

theorem length_readersIn_append_replicate_nand (nodes : Array Node) (gates : Nat) (w : Wire) :
    (Fanout.readersIn (reads (nodes ++ Array.replicate gates (.nand w w))) w).length =
      (Fanout.readersIn (reads nodes) w).length + 2 * gates := by
  induction gates with
  | zero => simp
  | succ gates ih =>
    rw [Array.replicate_succ, Array.append_push, reads_push, Fanout.readersIn_append,
      List.length_append, ih]
    simp [Node.operands, Fanout.readersIn]
    omega

section Crowded

variable (gates : Nat)

/-- The nodes of this netlist are one input and the gates that read it, so its size and its
reads can be counted. -/
theorem after_crowdedCalls : empty.after (crowdedCalls gates) =
    ⟨(#[.input] : Array Node) ++ Array.replicate gates (.nand 0 0),
      #[⟨"in", .input, [0]⟩], #[], none, none⟩ := by
  have hinput : (BuilderCall.input "in" 1).apply empty =
      ⟨#[.input], #[⟨"in", .input, [0]⟩], #[], none, none⟩ := by
    with_unfolding_all rfl
  have hgates := after_replicate_nand ((BuilderCall.input "in" 1).apply empty) gates 0 0
  rw [hinput] at hgates
  rw [← hgates, crowdedCalls, after, List.foldl_cons, hinput]
  rfl

theorem size_crowded : (empty.after (crowdedCalls gates)).size = gates + 1 := by
  rw [after_crowdedCalls, size, Array.size_append, Array.size_replicate]
  exact Nat.add_comm 1 gates

theorem wiresExist_crowdedCalls : empty.WiresExist (crowdedCalls gates) := by
  have hsize : 0 < ((BuilderCall.input "in" 1).apply empty).size := by
    have hone := size_crowded 0
    rw [crowdedCalls, after, List.foldl_cons] at hone
    exact hone ▸ Nat.one_pos
  exact ⟨fun _ h => absurd h List.not_mem_nil, wiresExist_replicate_nand hsize hsize gates⟩

theorem not_openSlot_crowded (w : Wire) : ¬ (empty.after (crowdedCalls gates)).OpenSlot w := by
  rw [after_crowdedCalls]
  rintro (hopen | hopen) <;> simpa using Array.mem_of_getElem? hopen

theorem length_readersIn_crowded :
    (Fanout.readersIn (reads (empty.after (crowdedCalls gates)).nodes) 0).length = 2 * gates := by
  rw [after_crowdedCalls, length_readersIn_append_replicate_nand]
  exact Nat.zero_add _

/-- With `2 ^ 31` gates or more, the count of their reads wraps around, so there is no exact
compilation. -/
theorem compileChecked?_crowded (hsize : gates < 2 ^ 32) (hmany : 2 ^ 31 ≤ gates) :
    (empty.after (crowdedCalls gates)).compileChecked? = none := by
  rw [Option.eq_none_iff_forall_ne_some]
  intro result hresult
  have hwords : (empty.after (crowdedCalls gates)).size ≤ 2 ^ 32 := by
    rw [size_crowded]
    exact hsize
  have hclean : (empty.after (crowdedCalls gates)).defects = #[] := by
    rw [after_crowdedCalls]
  have hfit := ((compileChecked?_eq_some hwords).mp hresult).1 hclean
  have hgroup := hfit.each 0
  rw [countedReads_of_closed (not_openSlot_crowded gates), length_readersIn_crowded] at hgroup
  omega

end Crowded

/-- For every netlist within the size limit, no word of the compilation wraps around and no
index lies outside its array exactly if it stops at a recorded mistake or its reads fit. Reads
of existing wires by fewer than `2 ^ 31` nodes always fit. The condition is on the reads of
each wire and, if every slot is connected, on all of them together. -/
theorem compile_isExact_iff (n : Netlist) (hsize : n.size ≤ capacity) :
    (∀ result, n.compileChecked? = some result ↔
      (n.defects = #[] → n.ReadsFit) ∧ n.compile = result) ∧
    (OperandsExist n.nodes → n.size < 2 ^ 31 → n.ReadsFit) := by
  have hwords : capacity ≤ 2 ^ 32 := by decide
  exact ⟨fun _ => compileChecked?_eq_some (Nat.le_trans hsize hwords), readsFit_of_size_lt⟩

/-- The calls of a toggle compile without wrapping around, and the checked compilation has the
same result. -/
theorem compile_isExact_iff_toggle : (empty.after toggleCalls).size ≤ capacity ∧
    (empty.after toggleCalls).compileChecked? = some (empty.after toggleCalls).compile := by
  have htwo : (empty.after toggleCalls).size = 2 := by with_unfolding_all rfl
  have hsize : (empty.after toggleCalls).size ≤ capacity := by
    rw [htwo]
    decide
  have hexist : OperandsExist (empty.after toggleCalls).nodes :=
    (wellFormed_empty.after toggleCalls (by decide)).operandsExist
  obtain ⟨hexact, hfits⟩ := compile_isExact_iff (empty.after toggleCalls) hsize
  exact ⟨hsize, (hexact _).mpr ⟨fun _ => hfits hexist (by omega), rfl⟩⟩

/-- One wire that `2 ^ 31` gates read on both sides has `2 ^ 32` reads, whose count wraps
around to zero, although the size limit allows almost twice as many nodes. -/
theorem compile_not_isExact_crowded : empty.WiresExist (crowdedCalls (2 ^ 31)) ∧
    (empty.after (crowdedCalls (2 ^ 31))).size < capacity ∧
    (Fanout.counts (empty.after (crowdedCalls (2 ^ 31))).nodes)[1]? = some 0 ∧
    (empty.after (crowdedCalls (2 ^ 31))).compileChecked? = none := by
  refine ⟨wiresExist_crowdedCalls _, ?_, ?_, ?_⟩
  · rw [size_crowded]
    decide
  · rw [Fanout.counts_eq_countsOf, Fanout.getElem?_countsOf, length_readersIn_crowded, ← size,
      size_crowded]
    rfl
  · exact compileChecked?_crowded _ (by decide) (Nat.le_refl _)

end Netlist

end NandComputer
