import Mathlib.Algebra.Group.Nat.Defs
import Mathlib.Tactic.Common
import NandComputer.Netlist.Fanout

/-!
The fan-out table lists the readers of every wire. Entries are counted and
placed with 32-bit numbers that wrap around, so all intermediate arrays are
described by the remainders of exact counts. The table is made exactly when
the number of reads is below `2 ^ 32`, and then nothing has wrapped.
-/

namespace NandComputer

/-- All reads of a netlist in node order: the wire and the node that reads it. -/
def reads (nodes : Array Node) : List (Wire × Wire) :=
  (List.finRange nodes.size).flatMap fun reader =>
    nodes[reader].operands.map fun wire => (wire, reader.val)

/-- The loop over nodes and their operands is a fold over the list of all reads, which the
further proofs are about. -/
theorem foldOperands_eq_foldl {β : Type} (nodes : Array Node) (f : β → Wire → Wire → β)
    (start : β) :
    foldOperands nodes f start =
      (reads nodes).foldl (fun acc entry => f acc entry.1 entry.2) start := by
  unfold foldOperands reads
  rw [Nat.fold_eq_finRange_foldl, List.foldl_flatMap]
  congr 1
  funext acc reader
  rw [List.foldl_map]
  rfl

theorem mem_reads_iff (nodes : Array Node) (wire reader : Wire) :
    (wire, reader) ∈ reads nodes ↔
      ∃ node, nodes[reader]? = some node ∧ wire ∈ node.operands := by
  simp only [reads, List.mem_flatMap, List.mem_finRange, List.mem_map, Prod.mk.injEq, true_and]
  constructor
  · rintro ⟨i, v, hv, rfl, rfl⟩
    exact ⟨nodes[i], by simp, hv⟩
  · rintro ⟨node, hnode, hwire⟩
    obtain ⟨hlt, rfl⟩ := Array.getElem?_eq_some_iff.mp hnode
    exact ⟨⟨reader, hlt⟩, wire, hwire, rfl, rfl⟩

/-- What reads a wire is a node, so it has a place in the netlist. -/
theorem reader_lt {nodes : Array Node} {wire reader : Wire} (h : (wire, reader) ∈ reads nodes) :
    reader < nodes.size := by
  obtain ⟨node, hnode, -⟩ := (mem_reads_iff nodes wire reader).mp h
  exact (Array.getElem?_eq_some_iff.mp hnode).1

namespace Fanout

/-- The readers of one wire among some reads, in their order. -/
def readersIn (entries : List (Wire × Wire)) (wire : Wire) : List Wire :=
  (entries.filter (·.1 = wire)).map (·.2)

/-- The place of the first reader of a wire: the number of reads of smaller wires. -/
def placesBefore (entries : List (Wire × Wire)) (wire : Wire) : Nat :=
  entries.countP (·.1 < wire)

section Places

variable (entries : List (Wire × Wire))

theorem readersIn_append (more : List (Wire × Wire)) (wire : Wire) :
    readersIn (entries ++ more) wire = readersIn entries wire ++ readersIn more wire := by
  simp [readersIn]

theorem readersIn_cons (entry : Wire × Wire) (wire : Wire) :
    readersIn (entry :: entries) wire =
      if entry.1 = wire then entry.2 :: readersIn entries wire else readersIn entries wire := by
  by_cases h : entry.1 = wire <;> simp [readersIn, h]

theorem mem_readersIn_iff (wire reader : Wire) :
    reader ∈ readersIn entries wire ↔ (wire, reader) ∈ entries := by
  simp [readersIn]

theorem placesBefore_zero : placesBefore entries 0 = 0 := by
  simp [placesBefore]

/-- The places of the next wire begin where those of this one end. -/
theorem placesBefore_succ (wire : Wire) :
    placesBefore entries (wire + 1) =
      placesBefore entries wire + (readersIn entries wire).length := by
  induction entries with
  | nil => rfl
  | cons entry rest ih =>
    simp only [placesBefore, List.countP_cons, readersIn_cons, decide_eq_true_eq] at ih ⊢
    rw [ih]
    rcases Nat.lt_trichotomy entry.1 wire with h | h | h
    · simp [h, Nat.ne_of_lt h, Nat.lt_succ_of_lt h]
      omega
    · simp [h]
      omega
    · have hnot : ¬ entry.1 < wire + 1 := Nat.not_lt.mpr h
      simp [hnot, Nat.ne_of_gt h, Nat.lt_asymm h]

theorem placesBefore_le {wire later : Wire} (h : wire ≤ later) :
    placesBefore entries wire ≤ placesBefore entries later := by
  induction h with
  | refl => exact Nat.le_refl _
  | step _ ih =>
    rw [placesBefore_succ]
    omega

theorem placesBefore_eq_length {bound : Nat} (h : ∀ entry ∈ entries, entry.1 < bound) :
    placesBefore entries bound = entries.length := by
  rw [placesBefore, List.countP_eq_length]
  simpa using h

/-- The places of different wires do not overlap, since those of a later wire begin behind all
of an earlier one. -/
theorem place_lt_of_lt {wire later : Wire} {i : Nat} (h : wire < later)
    (hi : i < (readersIn entries wire).length) :
    placesBefore entries wire + i < placesBefore entries later := by
  have hnext := placesBefore_succ entries wire
  have hle := placesBefore_le entries (show wire + 1 ≤ later from h)
  omega

theorem place_injective {wire other : Wire} {i j : Nat}
    (hi : i < (readersIn entries wire).length) (hj : j < (readersIn entries other).length)
    (h : placesBefore entries wire + i = placesBefore entries other + j) :
    wire = other ∧ i = j := by
  rcases Nat.lt_trichotomy wire other with hlt | heq | hlt
  · have hplace := place_lt_of_lt entries hlt hi
    omega
  · subst heq
    exact ⟨rfl, by omega⟩
  · have hplace := place_lt_of_lt entries hlt hj
    omega

/-- Every place belongs to some wire, so there are no gaps between the groups. -/
theorem exists_place_of_lt {bound place : Nat} (h : place < placesBefore entries bound) :
    ∃ wire < bound, ∃ i < (readersIn entries wire).length,
      placesBefore entries wire + i = place := by
  induction bound with
  | zero =>
    rw [placesBefore_zero] at h
    omega
  | succ bound ih =>
    by_cases hlt : place < placesBefore entries bound
    · obtain ⟨wire, hwire, i, hi, heq⟩ := ih hlt
      exact ⟨wire, by omega, i, hi, heq⟩
    · rw [placesBefore_succ] at h
      exact ⟨bound, by omega, place - placesBefore entries bound, by omega, by omega⟩

end Places

theorem getElem?_counting (entries : List (Wire × Wire)) (counts : Array UInt32) (i : Nat) :
    (entries.foldl (fun counts entry => counts.modify (entry.1 + 1) (· + 1)) counts)[i]? =
      counts[i]?.map (· + UInt32.ofNat (entries.countP (·.1 + 1 = i))) := by
  induction entries generalizing counts with
  | nil => simp
  | cons entry rest ih =>
    rw [List.foldl_cons, ih, Array.getElem?_modify, List.countP_cons]
    by_cases h : entry.1 + 1 = i
    · cases counts[i]? with
      | none => simp [h]
      | some count =>
        simp only [h, if_true, Option.map_some, decide_true, Option.some.injEq]
        rw [UInt32.ofNat_add, UInt32.add_assoc]
        congr 1
        rw [UInt32.add_comm]
        rfl
    · simp [h]

/-- The counts of the readers of each wire, as remainders modulo `2 ^ 32`: the array holds
words, which wrap around. -/
theorem getElem?_counts (nodes : Array Node) (i : Nat) (hi : i ≤ nodes.size) :
    (counts nodes)[i]? = some (UInt32.ofNat ((reads nodes).countP (·.1 + 1 = i))) := by
  rw [counts, foldOperands_eq_foldl, getElem?_counting]
  have hlt : i < nodes.size + 1 := by omega
  simp [hlt]

theorem size_counts (nodes : Array Node) : (counts nodes).size = nodes.size + 1 := by
  rw [counts, foldOperands_eq_foldl]
  have hsize (entries : List (Wire × Wire)) (start : Array UInt32) :
      (entries.foldl (fun counts entry => counts.modify (entry.1 + 1) (· + 1)) start).size =
        start.size := by
    induction entries generalizing start with
    | nil => rfl
    | cons entry rest ih => rw [List.foldl_cons, ih, Array.size_modify]
  rw [hsize, Array.size_replicate]

private theorem getElem?_summing (counts : List UInt32) (sums : Array UInt32) (total : UInt32)
    (i : Nat) :
    (counts.foldl (fun (sums, total) count =>
      let total := total + count
      (sums.push total, total)) (sums, total)).1[i]? =
      if i < sums.size then sums[i]?
      else if i < sums.size + counts.length then
        some ((counts.take (i - sums.size + 1)).foldl (· + ·) total)
      else none := by
  induction counts generalizing sums total with
  | nil =>
    by_cases h : i < sums.size <;> simp [h]
  | cons count rest ih =>
    rw [List.foldl_cons, ih, Array.size_push, List.length_cons]
    rcases Nat.lt_trichotomy i sums.size with h | h | h
    · rw [if_pos (by omega), if_pos h, Array.getElem?_push_lt h, Array.getElem?_eq_getElem h]
    · subst h
      simp
    · obtain ⟨k, rfl⟩ : ∃ k, i = sums.size + 1 + k := ⟨i - sums.size - 1, by omega⟩
      have hpushed : ¬ sums.size + 1 + k < sums.size + 1 := by omega
      have hold : ¬ sums.size + 1 + k < sums.size := by omega
      rw [if_neg hpushed, if_neg hold,
        show sums.size + 1 + k - (sums.size + 1) + 1 = k + 1 by omega,
        show sums.size + 1 + k - sums.size + 1 = k + 1 + 1 by omega, List.take_succ_cons,
        List.foldl_cons]
      exact if_congr (by omega) rfl rfl

theorem getElem?_runningSums (counts : Array UInt32) (i : Nat) (hi : i < counts.size) :
    (runningSums counts)[i]? = some ((counts.toList.take (i + 1)).foldl (· + ·) 0) := by
  unfold runningSums
  rw [← Array.foldl_toList, getElem?_summing]
  simp [hi]

theorem getElem?_runningSums_succ (counts : Array UInt32) (i : Nat) (sum count : UInt32)
    (hsum : (runningSums counts)[i]? = some sum) (hcount : counts[i + 1]? = some count) :
    (runningSums counts)[i + 1]? = some (sum + count) := by
  obtain ⟨hlt, rfl⟩ := Array.getElem?_eq_some_iff.mp hcount
  rw [getElem?_runningSums counts i (by omega), Option.some.injEq] at hsum
  rw [getElem?_runningSums counts (i + 1) hlt, ← hsum,
    List.take_succ_eq_append_getElem (by simpa using hlt), List.foldl_append]
  rfl

/-- The start of a group is its exact place, as a remainder modulo `2 ^ 32`. Remainders add up
whether or not a sum has wrapped. -/
theorem getElem?_starts (nodes : Array Node) (w : Nat) (hw : w ≤ nodes.size) :
    (runningSums (counts nodes))[w]? =
      some (UInt32.ofNat (placesBefore (reads nodes) w)) := by
  induction w with
  | zero =>
    have hpos : 0 < (counts nodes).size := by rw [size_counts]; omega
    have hzero := getElem?_counts nodes 0 (Nat.zero_le _)
    rw [Array.getElem?_eq_getElem hpos, Option.some.injEq] at hzero
    rw [getElem?_runningSums _ 0 hpos, placesBefore_zero,
      List.take_succ_eq_append_getElem (by simpa using hpos)]
    simp [hzero]
  | succ w ih =>
    have hcount := getElem?_counts nodes (w + 1) hw
    rw [getElem?_runningSums_succ _ w _ _ (ih (by omega)) hcount, placesBefore_succ,
      UInt32.ofNat_add]
    congr 3
    simp [readersIn, List.countP_eq_length_filter]

/-- The table and its cursors after the reads in `done` have been placed. The
cursors are remainders; no place lies outside the table; and if nothing wraps
around, the readers placed so far are where they belong. -/
structure Filled (entries done : List (Wire × Wire)) (bound : Nat) (filling : Filling) :
    Prop where
  cursors : ∀ w < bound, filling.cursors[w]? =
    some (UInt32.ofNat (placesBefore entries w + (readersIn done w).length))
  size : filling.readers.size = entries.length % 2 ^ 32
  inside : ∀ w < bound, ∀ i < (readersIn done w).length,
    (placesBefore entries w + i) % 2 ^ 32 < filling.readers.size
  readers : entries.length < 2 ^ 32 → ∀ w < bound, ∀ i reader,
    (readersIn done w)[i]? = some reader →
    filling.readers[placesBefore entries w + i]? = some (UInt32.ofNat reader)

theorem readersIn_concat (entries : List (Wire × Wire)) (entry : Wire × Wire) (w : Nat) :
    readersIn (entries ++ [entry]) w =
      if entry.1 = w then readersIn entries w ++ [entry.2] else readersIn entries w := by
  rw [readersIn_append, readersIn_cons]
  split
  · rfl
  · exact List.append_nil _

section Filling

variable {entries done rest : List (Wire × Wire)} {entry : Wire × Wire} {bound : Nat}
  {filling next : Filling}

/-- A read that is still to be placed has a place of its own in the group of its wire. -/
private theorem placed_lt (hentries : entries = done ++ entry :: rest) :
    (readersIn done entry.1).length < (readersIn entries entry.1).length := by
  rw [hentries, readersIn_append, List.length_append, readersIn_cons, if_pos rfl,
    List.length_cons]
  omega

private theorem placed_le (hentries : entries = done ++ rest) (w : Nat) :
    (readersIn done w).length ≤ (readersIn entries w).length := by
  rw [hentries, readersIn_append, List.length_append]
  omega

theorem Filling.place_eq_some_iff (w reader : Nat) :
    filling.place w reader = some next ↔
      (filling.cursors.getD w 0).toNat < filling.readers.size ∧
      next = ⟨filling.cursors.modify w (· + 1), filling.readers.setIfInBounds
        (filling.cursors.getD w 0).toNat (UInt32.ofNat reader)⟩ := by
  dsimp only [Filling.place]
  split
  case isTrue h =>
    rw [Option.some.injEq]
    exact ⟨fun heq => ⟨h, heq.symm⟩, fun heq => heq.2.symm⟩
  case isFalse h => exact ⟨nofun, fun heq => absurd heq.1 h⟩

theorem Filled.slot (h : Filled entries done bound filling) (w : Nat) (hw : w < bound) :
    (filling.cursors.getD w 0).toNat =
      (placesBefore entries w + (readersIn done w).length) % 2 ^ 32 := by
  rw [Array.getD_eq_getD_getElem?, h.cursors w hw, Option.getD_some, UInt32.toNat_ofNat']

/-- If nothing wraps around, the next place for a reader of `entry.1` is exact: behind the
readers of this wire that are placed already. -/
theorem Filled.slot_exact (h : Filled entries done bound filling)
    (hentries : entries = done ++ entry :: rest) (hbound : entry.1 < bound)
    (hfits : entries.length < 2 ^ 32) :
    (filling.cursors.getD entry.1 0).toNat =
      placesBefore entries entry.1 + (readersIn done entry.1).length := by
  have hlt := placed_lt hentries
  have hnext := placesBefore_succ entries entry.1
  have hall : placesBefore entries (entry.1 + 1) ≤ entries.length := List.countP_le_length
  rw [h.slot entry.1 hbound, Nat.mod_eq_of_lt (by omega)]

private theorem Filled.place_readers (h : Filled entries done bound filling)
    (hentries : entries = done ++ entry :: rest) (hbound : entry.1 < bound)
    (hinside : (filling.cursors.getD entry.1 0).toNat < filling.readers.size)
    (hfits : entries.length < 2 ^ 32) (w : Nat) (hw : w < bound) (i reader : Nat)
    (hi : (readersIn (done ++ [entry]) w)[i]? = some reader) :
    (filling.readers.setIfInBounds (filling.cursors.getD entry.1 0).toNat
      (UInt32.ofNat entry.2))[placesBefore entries w + i]? = some (UInt32.ofNat reader) := by
  have hlength : i < (readersIn (done ++ [entry]) w).length :=
    (List.getElem?_eq_some_iff.mp hi).1
  have hsplit : entries = (done ++ [entry]) ++ rest := by
    rw [hentries, List.append_assoc]
    rfl
  have hwhole : (readersIn (done ++ [entry]) w).length ≤ (readersIn entries w).length :=
    placed_le hsplit w
  have hentry : i < (readersIn entries w).length := by omega
  rw [Array.getElem?_setIfInBounds, h.slot_exact hentries hbound hfits]
  rw [h.slot_exact hentries hbound hfits] at hinside
  rw [readersIn_concat] at hi hlength
  split
  case isTrue heq =>
    -- two equal places belong to the same read, the one just placed
    obtain ⟨rfl, rfl⟩ := place_injective entries (placed_lt hentries) hentry heq
    rw [if_pos rfl, List.getElem?_concat_length, Option.some.injEq] at hi
    rw [hi]
  case isFalse hne =>
    apply h.readers hfits w hw i reader
    by_cases heq : entry.1 = w
    · subst heq
      rw [if_pos rfl] at hi hlength
      rw [List.length_append, List.length_singleton] at hlength
      have hother : i ≠ (readersIn done entry.1).length := by
        rintro rfl
        exact hne rfl
      rwa [List.getElem?_append_left (by omega)] at hi
    · rwa [if_neg heq] at hi

/-- Placing one more reader keeps the table filled as far as the reads are done. It is put
into the group of its wire, and no other entry is overwritten. -/
theorem Filled.place (h : Filled entries done bound filling)
    (hentries : entries = done ++ entry :: rest) (hbound : entry.1 < bound)
    (hplace : filling.place entry.1 entry.2 = some next) :
    Filled entries (done ++ [entry]) bound next := by
  obtain ⟨hinside, rfl⟩ := (Filling.place_eq_some_iff entry.1 entry.2).mp hplace
  refine ⟨?_, ?_, ?_, fun hfits w hw i reader hi =>
    h.place_readers hentries hbound hinside hfits w hw i reader hi⟩
  · intro w hw
    rw [Array.getElem?_modify, h.cursors w hw, readersIn_concat]
    split
    · rw [Option.map_some, List.length_append, List.length_singleton, ← Nat.add_assoc,
        UInt32.ofNat_add _ 1]
      rfl
    · rfl
  · rw [Array.size_setIfInBounds, h.size]
  · intro w hw i hi
    rw [Array.size_setIfInBounds]
    rw [readersIn_concat] at hi
    by_cases heq : entry.1 = w
    · subst heq
      rw [if_pos rfl, List.length_append, List.length_singleton] at hi
      by_cases hold : i < (readersIn done entry.1).length
      · exact h.inside _ hw i hold
      · obtain rfl : i = (readersIn done entry.1).length := by omega
        rw [← h.slot entry.1 hbound]
        exact hinside
    · rw [if_neg heq] at hi
      exact h.inside w hw i hi

/-- Without wrapping there is room for every reader, so the table never fails to be made. -/
theorem Filled.place_isSome (h : Filled entries done bound filling)
    (hentries : entries = done ++ entry :: rest) (hbound : entry.1 < bound)
    (hfits : entries.length < 2 ^ 32) :
    ∃ next, filling.place entry.1 entry.2 = some next := by
  have hlt := placed_lt hentries
  have hnext := placesBefore_succ entries entry.1
  have hall : placesBefore entries (entry.1 + 1) ≤ entries.length := List.countP_le_length
  refine ⟨_, (Filling.place_eq_some_iff entry.1 entry.2).mpr ⟨?_, rfl⟩⟩
  rw [h.slot_exact hentries hbound hfits, h.size, Nat.mod_eq_of_lt hfits]
  omega

/-- Placing the reads one after the other, by induction on those that remain. What is done is
a prefix of all reads. -/
theorem Filled.foldl (h : Filled entries done bound filling) (hentries : entries = done ++ rest)
    (hbound : ∀ entry ∈ rest, entry.1 < bound)
    (hfill : rest.foldl (fun filling? entry => filling?.bind (Filling.place · entry.1 entry.2))
      (some filling) = some next) :
    Filled entries entries bound next := by
  induction rest generalizing done filling with
  | nil =>
    obtain rfl := Option.some.inj hfill
    rw [List.append_nil] at hentries
    exact hentries ▸ h
  | cons entry rest ih =>
    rw [List.foldl_cons, Option.bind_some] at hfill
    cases hplace : filling.place entry.1 entry.2 with
    | none =>
      have hnone (entries : List (Wire × Wire)) : entries.foldl
          (fun filling? entry => filling?.bind (Filling.place · entry.1 entry.2)) none = none := by
        induction entries with
        | nil => rfl
        | cons _ _ ih => exact ih
      rw [hplace, hnone] at hfill
      cases hfill
    | some placed =>
      rw [hplace] at hfill
      exact ih (h.place hentries (hbound entry (by simp)) hplace)
        (by rw [hentries, List.append_assoc]; rfl)
        (fun entry member => hbound entry (by simp [member])) hfill

theorem Filled.foldl_isSome (h : Filled entries done bound filling)
    (hentries : entries = done ++ rest) (hbound : ∀ entry ∈ rest, entry.1 < bound)
    (hfits : entries.length < 2 ^ 32) :
    ∃ next, rest.foldl (fun filling? entry => filling?.bind (Filling.place · entry.1 entry.2))
      (some filling) = some next := by
  induction rest generalizing done filling with
  | nil => exact ⟨filling, rfl⟩
  | cons entry rest ih =>
    have hentry : entry.1 < bound := hbound entry (by simp)
    obtain ⟨placed, hplace⟩ := h.place_isSome hentries hentry hfits
    rw [List.foldl_cons, Option.bind_some, hplace]
    exact ih (h.place hentries hentry hplace) (by rw [hentries, List.append_assoc]; rfl)
      (fun entry member => hbound entry (by simp [member]))

end Filling

section Table

variable {nodes : Array Node} {fanout : Fanout}
  (hwires : ∀ entry ∈ reads nodes, entry.1 < nodes.size)

include hwires

/-- The exact number of places of the table is the number of reads. -/
private theorem places_eq_length :
    placesBefore (reads nodes) nodes.size = (reads nodes).length :=
  placesBefore_eq_length _ hwires

theorem filled_start : Filled (reads nodes) [] nodes.size
    ⟨runningSums (counts nodes),
      .replicate ((runningSums (counts nodes)).getD nodes.size 0).toNat 0⟩ := by
  refine ⟨fun w hw => getElem?_starts nodes w (Nat.le_of_lt hw), ?_, ?_, ?_⟩
  · rw [Array.size_replicate, Array.getD_eq_getD_getElem?, getElem?_starts nodes _ (Nat.le_refl _),
      Option.getD_some, UInt32.toNat_ofNat', places_eq_length hwires]
  · intro w _ i hi
    cases hi
  · intro _ w _ i reader hi
    cases hi

theorem ofNodes?_eq_some (h : ofNodes? nodes = some fanout) :
    fanout.starts = runningSums (counts nodes) ∧
      ∃ cursors, Filled (reads nodes) (reads nodes) nodes.size ⟨cursors, fanout.readers⟩ := by
  dsimp only [ofNodes?, fill?] at h
  rw [foldOperands_eq_foldl] at h
  obtain ⟨filling, hfill, rfl⟩ := Option.map_eq_some_iff.mp h
  exact ⟨rfl, filling.cursors, (filled_start hwires).foldl (List.nil_append _).symm hwires hfill⟩

/-- The table is made exactly if the reads have 32-bit numbers. Otherwise the last start has
wrapped around, and some reader finds no room. -/
theorem ofNodes?_isSome_iff :
    (ofNodes? nodes).isSome ↔ (reads nodes).length < 2 ^ 32 := by
  rw [Option.isSome_iff_exists]
  constructor
  · rintro ⟨fanout, h⟩
    obtain ⟨-, cursors, hfilled⟩ := ofNodes?_eq_some hwires h
    -- otherwise the place 2 ^ 32 - 1 is used, but lies outside the table
    by_contra hlarge
    have hplace : 2 ^ 32 - 1 < placesBefore (reads nodes) nodes.size := by
      rw [places_eq_length hwires]
      omega
    obtain ⟨w, hw, i, hi, heq⟩ := exists_place_of_lt _ hplace
    have hinside := hfilled.inside w hw i hi
    rw [heq, hfilled.size] at hinside
    omega
  · intro hfits
    obtain ⟨filling, hfill⟩ :=
      (filled_start hwires).foldl_isSome (List.nil_append _).symm hwires hfits
    refine ⟨⟨runningSums (counts nodes), filling.readers⟩, ?_⟩
    dsimp only [ofNodes?, fill?]
    rw [foldOperands_eq_foldl, hfill]
    rfl

theorem length_reads_lt (h : ofNodes? nodes = some fanout) : (reads nodes).length < 2 ^ 32 :=
  (ofNodes?_isSome_iff hwires).mp (by rw [h]; rfl)

/-- In a table that was made, the start of a group is its exact place, since the number of all
reads fits. -/
theorem exists_start (h : ofNodes? nodes = some fanout) (w : Nat) (hw : w ≤ nodes.size) :
    ∃ start, fanout.starts[w]? = some start ∧
      start.toNat = placesBefore (reads nodes) w := by
  have hfits := length_reads_lt hwires h
  have hend : placesBefore (reads nodes) w ≤ (reads nodes).length := List.countP_le_length
  refine ⟨_, by rw [(ofNodes?_eq_some hwires h).1]; exact getElem?_starts nodes w hw, ?_⟩
  rw [UInt32.toNat_ofNat', Nat.mod_eq_of_lt (by omega)]

theorem size_readers (h : ofNodes? nodes = some fanout) :
    fanout.readers.size = (reads nodes).length := by
  have hfits := length_reads_lt hwires h
  obtain ⟨-, cursors, hfilled⟩ := ofNodes?_eq_some hwires h
  exact hfilled.size.trans (Nat.mod_eq_of_lt hfits)

/-- The table lists the readers of every wire, each as often as it reads the wire, and in the
order of the nodes. -/
theorem readersOf_toList (h : ofNodes? nodes = some fanout) (w : Nat) (hw : w < nodes.size) :
    (fanout.readersOf w).toList = (readersIn (reads nodes) w).map UInt32.ofNat := by
  have hfits := length_reads_lt hwires h
  obtain ⟨-, cursors, hfilled⟩ := ofNodes?_eq_some hwires h
  have hnext := placesBefore_succ (reads nodes) w
  have hend : placesBefore (reads nodes) (w + 1) ≤ (reads nodes).length := List.countP_le_length
  have hsize := size_readers hwires h
  obtain ⟨first, hfirst, hfirstPlace⟩ := exists_start hwires h w (Nat.le_of_lt hw)
  obtain ⟨last, hlast, hlastPlace⟩ := exists_start hwires h (w + 1) hw
  rw [readersOf, Array.getD_eq_getD_getElem?, Array.getD_eq_getD_getElem?, hfirst, hlast,
    Option.getD_some, Option.getD_some, hfirstPlace, hlastPlace]
  apply List.ext_getElem?
  intro i
  rw [Array.getElem?_toList, Array.getElem?_extract, List.getElem?_map]
  by_cases hi : i < (readersIn (reads nodes) w).length
  · rw [if_pos (by omega), List.getElem?_eq_getElem hi,
      hfilled.readers hfits w hw i _ (List.getElem?_eq_getElem hi)]
    rfl
  · rw [if_neg (by omega), List.getElem?_eq_none (by omega)]
    rfl

end Table

end Fanout

end NandComputer
