import Mathlib.Tactic.Common
import NandComputer.Cli.Directory
import NandComputer.Cli.Path

/-!
Files that differ in their extension only, and what a file written to a directory
changes there. A path is followed the same way before and after, since the place
that is written to was no directory.
-/

namespace NandComputer.Cli

/-- A path that ends inside a name. -/
def EndsInName (path : String) : Prop := ∃ c ∈ path.toList.getLast?, c ≠ '/'

/-- What can stand behind the last dot of a name. -/
structure IsExtension (extension : String) : Prop where
  nonempty : extension ≠ ""
  dot : '.' ∉ extension.toList
  slash : '/' ∉ extension.toList

/-- The path with a dot and an extension at its end. -/
def extended (path extension : String) : String := path ++ "." ++ extension

theorem toList_extended (path extension : String) :
    (extended path extension).toList = path.toList ++ '.' :: extension.toList := by
  simp [extended]

section Cut

/-- The rest of a text after the part before its first mark. -/
def StartsWith (mark : Char) (rest : List Char) : Prop := ∀ c ∈ rest.head?, c = mark

/-- Every text is cut at its first mark, or has none. -/
theorem exists_cut (mark : Char) (text : List Char) :
    ∃ part rest, text = part ++ rest ∧ mark ∉ part ∧ StartsWith mark rest := by
  induction text with
  | nil => exact ⟨[], [], rfl, List.not_mem_nil, by simp [StartsWith]⟩
  | cons c text ih =>
    by_cases hc : c = mark
    · exact ⟨[], c :: text, rfl, List.not_mem_nil, by simp [StartsWith, hc]⟩
    · obtain ⟨part, rest, rfl, hpart, hrest⟩ := ih
      exact ⟨c :: part, rest, rfl, by simp [Ne.symm hc, hpart], hrest⟩

variable {mark : Char} {part rest : List Char} (hpart : mark ∉ part) (hrest : StartsWith mark rest)

include hpart hrest

theorem takeWhile_cut : (part ++ rest).takeWhile (· ≠ mark) = part := by
  induction part with
  | nil =>
    cases rest with
    | nil => rfl
    | cons c tail => simp [hrest c rfl]
  | cons c part ih =>
    rw [List.mem_cons, not_or] at hpart
    rw [List.cons_append, List.takeWhile_cons_of_pos (by simpa using Ne.symm hpart.1), ih hpart.2]

theorem dropWhile_cut : (part ++ rest).dropWhile (· ≠ mark) = rest := by
  induction part with
  | nil =>
    cases rest with
    | nil => rfl
    | cons c tail => simp [hrest c rfl]
  | cons c part ih =>
    rw [List.mem_cons, not_or] at hpart
    rw [List.cons_append, List.dropWhile_cons_of_pos (by simpa using Ne.symm hpart.1), ih hpart.2]

end Cut

section Path

variable {path extension : String}

/-- The last part of a path, which is not empty, and what is before it up to the last slash.
-/
theorem EndsInName.exists_last (h : EndsInName path) : ∃ before last : List Char,
    path.toList = before ++ last ∧ last ≠ [] ∧ '/' ∉ last ∧ StartsWith '/' before.reverse := by
  obtain ⟨c, hlast, hslash⟩ := h
  obtain ⟨part, rest, hcut, hpart, hrest⟩ := exists_cut '/' path.toList.reverse
  refine ⟨rest.reverse, part.reverse, ?_, ?_, ?_, ?_⟩
  · rw [← List.reverse_append, ← hcut, List.reverse_reverse]
  · intro hnil
    rw [List.reverse_eq_nil_iff.mp hnil, List.nil_append] at hcut
    rw [← List.head?_reverse, hcut] at hlast
    exact hslash (hrest c hlast)
  · rwa [List.mem_reverse]
  · rwa [List.reverse_reverse]

/-- A name is split at its last dot, unless there is nothing before the dot. -/
theorem splitExtension_append {stem rest : List Char} (hstem : stem ≠ []) (hdot : '.' ∉ rest) :
    splitExtension (stem ++ '.' :: rest) = (stem, some rest) := by
  have hreverse : (stem ++ '.' :: rest).reverse = rest.reverse ++ '.' :: stem.reverse := by simp
  have hpart : '.' ∉ rest.reverse := by rwa [List.mem_reverse]
  have hstarts : StartsWith '.' ('.' :: stem.reverse) := by simp [StartsWith]
  rw [splitExtension, hreverse, dropWhile_cut hpart hstarts]
  dsimp only
  rw [takeWhile_cut hpart hstarts, if_neg (by simpa using hstem), List.reverse_reverse,
    List.reverse_reverse]

theorem trimPath_eq_self {c : Char} {rest : List Char} (hslash : c ≠ '/') (hdot : c ≠ '.') :
    trimPath (c :: rest) = c :: rest := by
  rw [trimPath]
  · exact fun _ h => hslash (List.cons.inj h).1
  · exact fun _ h => hdot (List.cons.inj h).1

theorem IsExtension.three_le_length (h : IsExtension extension) {stem : List Char}
    (hstem : stem ≠ []) : 3 ≤ (stem ++ '.' :: extension.toList).length := by
  have hpos := List.length_pos_iff.mpr hstem
  have hname : extension.toList ≠ [] := fun hnil => h.nonempty (String.toList_eq_nil_iff.mp hnil)
  have hname' := List.length_pos_iff.mpr hname
  rw [List.length_append, List.length_cons]
  omega

/-- The name at the end of a path with an extension is the last part of the path with this
extension. -/
theorem splitName_extended {before last : List Char} (hpath : path.toList = before ++ last)
    (hlast : last ≠ []) (hslash : '/' ∉ last) (hbefore : StartsWith '/' before.reverse)
    (h : IsExtension extension) :
    splitName (extended path extension) = some (before, last ++ '.' :: extension.toList) := by
  have htrim : trimPath (extended path extension).toList.reverse =
      (last ++ '.' :: extension.toList).reverse ++ before.reverse := by
    have hreverse : (extended path extension).toList.reverse =
        (last ++ '.' :: extension.toList).reverse ++ before.reverse := by
      simp [toList_extended, hpath]
    rw [hreverse]
    cases hends : extension.toList.reverse with
    | nil =>
      have hnil := List.reverse_eq_nil_iff.mp hends
      exact absurd (String.toList_eq_nil_iff.mp hnil) h.nonempty
    | cons c front =>
      have hmem : c ∈ extension.toList := by
        rw [← List.mem_reverse, hends]
        exact List.mem_cons_self ..
      simp only [List.reverse_append, List.reverse_cons, hends, List.cons_append]
      exact trimPath_eq_self (fun hc => h.slash (hc ▸ hmem)) (fun hc => h.dot (hc ▸ hmem))
  have hpart : '/' ∉ (last ++ '.' :: extension.toList).reverse := by
    simp [hslash, h.slash]
  have hlength := h.three_le_length hlast
  rw [splitName, htrim, takeWhile_cut hpart hbefore, dropWhile_cut hpart hbefore,
    List.reverse_reverse, List.reverse_reverse, if_neg]
  rintro (hnil | hdot | hdots)
  · simp [hnil] at hlength
  · simp [hdot] at hlength
  · simp [hdots] at hlength

theorem extension?_extended (hpath : EndsInName path) (h : IsExtension extension) :
    extension? (extended path extension) = some extension := by
  obtain ⟨before, last, htext, hlast, hslash, hbefore⟩ := hpath.exists_last
  rw [extension?, splitName_extended htext hlast hslash hbefore h]
  change ((splitExtension (last ++ '.' :: extension.toList)).2.bind fun name =>
    some (String.ofList name)) = some extension
  rw [splitExtension_append hlast h.dot, Option.bind_some, String.ofList_toList]

/-- A file with another extension has the same path before it, and its own extension is not
kept. -/
theorem withExtension_extended (hpath : EndsInName path) (h : IsExtension extension)
    (other : String) : withExtension (extended path extension) other = extended path other := by
  obtain ⟨before, last, htext, hlast, hslash, hbefore⟩ := hpath.exists_last
  rw [withExtension, splitName_extended htext hlast hslash hbefore h]
  dsimp only
  rw [splitExtension_append hlast h.dot, ← htext, String.ofList_toList, extended]

end Path

/-- The file with the name is there, or can be put there. -/
def Place.Offers (place : Place) (name : String) : Prop := place = .file name ∨ place = .vacant name

namespace Directory

variable (dir : Directory) (name contents : String)

/-- Where the contents of a file are replaced, only those under its name are. -/
theorem lookup_map_replace (files : List (String × String)) (other : String) :
    (files.map fun entry => (entry.1, if entry.1 = name then contents else entry.2)).lookup other =
      (files.lookup other).map fun old => if other = name then contents else old := by
  induction files with
  | nil => rfl
  | cons entry files ih =>
    rw [List.map_cons, List.lookup_cons, List.lookup_cons, ih]
    cases hother : other == entry.1 with
    | true => rw [beq_iff_eq.mp hother, Option.map_some]
    | false => rfl

theorem contents?_put (other : String) : (dir.put name contents).contents? other =
    if other = name then some contents else dir.contents? other := by
  rw [put]
  split
  case isTrue hsome =>
    rw [contents?, lookup_map_replace, ← contents?]
    split
    case isTrue heq =>
      obtain ⟨old, hold⟩ := Option.isSome_iff_exists.mp hsome
      rw [heq, hold, Option.map_some]
    case isFalse => exact Option.map_id' ..
  case isFalse hnone =>
    rw [contents?, List.lookup_append, ← contents?, List.lookup_cons, List.lookup_nil]
    rw [Bool.not_eq_true, Option.isSome_eq_false_iff, Option.isNone_iff_eq_none] at hnone
    by_cases heq : other = name
    · simp [heq, hnone]
    · rw [beq_false_of_ne heq, Option.or_none, if_neg heq]

/-- What is a directory stays one when a file is put somewhere. -/
theorem isDirectory_put {other : String} (h : dir.isDirectory other = true) :
    (dir.put name contents).isDirectory other = true := by
  rw [isDirectory] at h ⊢
  rw [put]
  split
  case isTrue =>
    rw [List.any_map]
    exact h
  case isFalse =>
    rw [List.any_append, h, Bool.true_or]

/-- A part that is a name leads to what has the name: to a file if the path ends there, to a
directory, or to a place where there is nothing. -/
theorem follow_name {part : String} (hskip : ¬ (part = "" ∨ part = ".")) (hup : part ≠ "..")
    (above rest : List String) {place : String}
    (hplace : "/".intercalate (part :: above).reverse = place) :
    dir.follow above (part :: rest) =
      if (dir.contents? place).isSome then
        if rest = [] then .file place else .unreachable .notDirectory
      else if dir.isDirectory place then dir.follow (part :: above) rest
      else if rest = [] then .vacant place
      else if rest.all (· = "") then .vacantDirectory
      else .unreachable .notFound := by
  subst hplace
  exact (if_neg hskip).trans (if_neg hup)

/-- Nothing is written over a directory. -/
def Writable (dir : Directory) (name : String) : Prop :=
  (dir.contents? name).isSome = true ∨ dir.isDirectory name = false

variable {dir name}

/-- Where a file is or can be put, there is no directory. -/
theorem writable_of_follow {above parts : List String} (h : (dir.follow above parts).Offers name) :
    dir.Writable name := by
  fun_induction follow dir above parts with
  | case2 _ _ _ _ ih | case4 _ _ _ _ ih => exact ih h
  | case5 above part _ _ place hsome =>
    obtain rfl : place = name := by simpa [Place.Offers] using h
    exact .inl hsome
  | case7 above part rest _ _ place _ _ ih => exact ih h
  | case8 above part _ _ place _ hdirectory =>
    obtain rfl : place = name := by simpa [Place.Offers] using h
    exact .inr (Bool.not_eq_true _ ▸ hdirectory)
  | case1 | case3 | case6 | case9 | case10 => simp [Place.Offers] at h

/-- A path to a file is a path to this file after a write, and a path to the place of a new
file is one to the file. -/
theorem follow_put (hwritable : dir.Writable name) {above parts : List String} {found : String}
    (h : dir.follow above parts = .file found ∨
      dir.follow above parts = .vacant found ∧ found = name) :
    (dir.put name contents).follow above parts = .file found := by
  have hkept (place : String) (hsome : (dir.contents? place).isSome = true) :
      ((dir.put name contents).contents? place).isSome = true := by
    rw [contents?_put]
    split
    case isTrue => rfl
    case isFalse => exact hsome
  fun_induction follow dir above parts with
  | case2 _ _ _ hskip ih =>
    unfold follow
    rw [if_pos hskip]
    exact ih h
  | case4 _ _ _ _ ih => exact ih h
  | case5 above part hskip hup place hsome =>
    have hfound : place = found := by simpa using h
    rw [follow_name _ hskip hup above [] rfl, if_pos (hkept place hsome), if_pos rfl]
    exact congrArg Place.file hfound
  -- a directory on the way is not where the file is put, since no file can be put there
  | case7 above part rest hskip hup place hnone hdirectory ih =>
    have hplace : place ≠ name := by
      intro heq
      rcases hwritable with hsome | hno
      · exact hnone (heq ▸ hsome)
      · exact absurd (heq ▸ hdirectory) (by simp [hno])
    rw [follow_name _ hskip hup above rest rfl, contents?_put, if_neg hplace, if_neg hnone,
      if_pos (isDirectory_put dir name contents hdirectory)]
    exact ih h
  | case8 above part hskip hup place =>
    obtain ⟨hfound, hname⟩ : place = found ∧ found = name := by simpa using h
    rw [follow_name _ hskip hup above [] rfl, contents?_put, if_pos (hfound.trans hname),
      Option.isSome_some, if_pos rfl, if_pos rfl]
    exact congrArg Place.file hfound
  -- the other ways lead to no file and to no place for one
  | case1 | case3 | case6 | case9 | case10 => simp at h

section Resolve

variable {contents} {path found : String}

theorem writable_of_resolve (h : (dir.resolve path).Offers name) : dir.Writable name := by
  rw [resolve] at h
  split at h
  case isTrue => simp [Place.Offers] at h
  case isFalse => exact writable_of_follow h

variable (contents) in
theorem resolve_put (hwritable : dir.Writable name)
    (h : dir.resolve path = .file found ∨ dir.resolve path = .vacant found ∧ found = name) :
    (dir.put name contents).resolve path = .file found := by
  rw [resolve] at h ⊢
  split
  case isTrue hnowhere =>
    rw [if_pos hnowhere] at h
    simp at h
  case isFalse hpath =>
    rw [if_neg hpath] at h
    exact follow_put contents hwritable h

theorem read_of_resolve (h : dir.resolve path = .file found) :
    dir.read path = .ok ((dir.contents? found).getD "") := by
  rw [read, h]

theorem exists_resolve_of_read {text : String} (h : dir.read path = .ok text) :
    ∃ found, dir.resolve path = .file found := by
  rw [read] at h
  split at h
  case h_1 found hfound => exact ⟨found, hfound⟩
  all_goals cases h

theorem write_eq_ok_iff {after : Directory} : dir.write path contents = .ok after ↔
    ∃ found, (dir.resolve path).Offers found ∧ after = dir.put found contents := by
  rw [write]
  cases dir.resolve path <;> simp [Place.Offers, eq_comm]

variable {after : Directory} (h : dir.write path contents = .ok after)

include h

/-- What is written is read back at the same path, however the path leads there. -/
theorem read_write : after.read path = .ok contents := by
  obtain ⟨found, hoffers, rfl⟩ := write_eq_ok_iff.mp h
  have hresolve : (dir.put found contents).resolve path = .file found :=
    resolve_put contents (writable_of_resolve hoffers)
      (hoffers.imp_right fun hvacant => ⟨hvacant, rfl⟩)
  rw [read_of_resolve hresolve, contents?_put, if_pos rfl, Option.getD_some]

/-- At another path stands what stood there, or what was written. The two may be one file
under two paths. -/
theorem read_of_write {other text : String} (hread : dir.read other = .ok text) :
    after.read other = .ok text ∨ after.read other = .ok contents := by
  obtain ⟨found, hoffers, rfl⟩ := write_eq_ok_iff.mp h
  obtain ⟨place, hplace⟩ := exists_resolve_of_read hread
  have hresolve : (dir.put found contents).resolve other = .file place :=
    resolve_put contents (writable_of_resolve hoffers) (.inl hplace)
  rw [read_of_resolve hplace] at hread
  rw [read_of_resolve hresolve, contents?_put]
  split
  case isTrue => exact .inr rfl
  case isFalse => exact .inl hread

end Resolve

/-- Names at the end of a path are looked for in the same directory, or none of them can be
reached. -/
theorem exists_follow_concat (dir : Directory) (above parents : List String) :
    (∃ error, ∀ last, last ≠ "" → dir.follow above (parents ++ [last]) = .unreachable error) ∨
      ∃ within, ∀ last, last ≠ "" →
        dir.follow above (parents ++ [last]) = dir.follow within [last] := by
  induction parents generalizing above with
  | nil => exact .inr ⟨above, fun _ _ => rfl⟩
  | cons part rest ih =>
    by_cases hskip : part = "" ∨ part = "."
    · have hfollow (last : String) :
          dir.follow above (part :: rest ++ [last]) = dir.follow above (rest ++ [last]) :=
        if_pos hskip
      simp only [hfollow]
      exact ih above
    by_cases hup : part = ".."
    · subst hup
      cases above with
      | nil => exact .inl ⟨.notFound, fun _ _ => rfl⟩
      | cons last above => exact ih above
    have hfollow (last : String) := dir.follow_name hskip hup above (rest ++ [last]) rfl
    simp only [List.cons_append, hfollow]
    split
    case isTrue => exact .inl ⟨.notDirectory, fun last _ => if_neg (by simp)⟩
    case isFalse =>
      split
      case isTrue => exact ih (part :: above)
      case isFalse =>
        refine .inl ⟨.notFound, fun last hlast => ?_⟩
        rw [if_neg (by simp), if_neg (by simp [hlast])]

section Extended

variable {path : String} (hpath : EndsInName path)

include hpath

/-- The parts of paths that differ in their extension differ in the last one only. -/
theorem exists_parts_extended : ∃ (parents : List String) (last : List Char), last ≠ [] ∧
    ∀ extension, IsExtension extension →
      ((extended path extension).toList.splitOn '/').map String.ofList =
        parents ++ [String.ofList (last ++ '.' :: extension.toList)] := by
  obtain ⟨before, last, htext, hlast, hslash, hbefore⟩ := hpath.exists_last
  have hname (extension : String) (h : IsExtension extension) :
      '/' ∉ last ++ '.' :: extension.toList := by
    simp [hslash, h.slash]
  cases hfront : before.reverse with
  | nil =>
    refine ⟨[], last, hlast, fun extension h => ?_⟩
    rw [toList_extended, htext, List.reverse_eq_nil_iff.mp hfront, List.nil_append,
      List.splitOn_eq_singleton (hname extension h)]
    rfl
  | cons c front =>
    obtain rfl : c = '/' := hbefore c (by rw [hfront]; rfl)
    refine ⟨(front.reverse.splitOn '/').map String.ofList, last, hlast, fun extension h => ?_⟩
    have hcut : (extended path extension).toList =
        front.reverse ++ '/' :: (last ++ '.' :: extension.toList) := by
      rw [toList_extended, htext, ← List.reverse_reverse before, hfront]
      simp
    rw [hcut, List.splitOn_append_cons_self, List.splitOn_eq_singleton (hname extension h),
      List.map_append]
    rfl

/-- Files that differ in their extension are looked for in the same directory, or none of them
can be reached. -/
theorem exists_resolve_extended (dir : Directory) :
    (∃ error, ∀ extension, IsExtension extension →
      dir.resolve (extended path extension) = .unreachable error) ∨
    ∃ within last, last ≠ [] ∧ ∀ extension, IsExtension extension →
      dir.resolve (extended path extension) =
        dir.follow within [String.ofList (last ++ '.' :: extension.toList)] := by
  obtain ⟨parents, last, hlast, hparents⟩ := exists_parts_extended hpath
  obtain ⟨c, hends, -⟩ := hpath
  have hhead (extension : String) :
      (extended path extension).toList.head? = path.toList.head? := by
    rw [toList_extended]
    cases htext : path.toList with
    | nil => simp [htext] at hends
    | cons first rest => rfl
  by_cases hroot : path.toList.head? = some '/'
  · exact .inl ⟨.notFound, fun extension _ => if_pos (.inr ((hhead extension).trans hroot))⟩
  have hresolve (extension : String) (h : IsExtension extension) :
      dir.resolve (extended path extension) =
        dir.follow [] (parents ++ [String.ofList (last ++ '.' :: extension.toList)]) := by
    rw [resolve, if_neg, hparents extension h]
    rintro (hempty | hslash)
    · have hnil := congrArg String.toList hempty
      simp [toList_extended] at hnil
    · exact hroot ((hhead extension).symm.trans hslash)
  have hname (extension : String) : String.ofList (last ++ '.' :: extension.toList) ≠ "" := by
    intro hempty
    have hnil := congrArg String.toList hempty
    simp at hnil
  rcases exists_follow_concat dir [] parents with ⟨error, hunreachable⟩ | ⟨within, hwithin⟩
  · exact .inl ⟨error, fun extension h => (hresolve extension h).trans (hunreachable _ (hname _))⟩
  · exact .inr ⟨within, last, hlast, fun extension h =>
      (hresolve extension h).trans (hwithin _ (hname _))⟩

/-- A file can be written beside one that can be read, unless a directory is there. The
directory that both are in exists then. -/
theorem exists_write_extended {dir : Directory} {extension other text : String}
    (hextension : IsExtension extension) (hother : IsExtension other)
    (hread : dir.read (extended path extension) = .ok text)
    (hfree : dir.resolve (extended path other) ≠ .directory) (contents : String) :
    ∃ after, dir.write (extended path other) contents = .ok after := by
  obtain ⟨found, hfound⟩ := exists_resolve_of_read hread
  rcases exists_resolve_extended hpath dir with ⟨error, hunreachable⟩ |
    ⟨within, last, hlast, hfollow⟩
  · rw [hunreachable extension hextension] at hfound
    cases hfound
  have hlength := hother.three_le_length hlast
  have hne (name : String) (hshort : name.length < 3) :
      String.ofList (last ++ '.' :: other.toList) ≠ name := by
    rintro rfl
    rw [String.length_ofList] at hshort
    omega
  have hresolve := (hfollow other hother).trans
    (dir.follow_name (not_or.mpr ⟨hne "" (by decide), hne "." (by decide)⟩) (hne ".." (by decide))
      within [] rfl)
  obtain ⟨place, hoffers⟩ : ∃ place, (dir.resolve (extended path other)).Offers place := by
    rw [hresolve] at hfree ⊢
    split
    case isTrue => exact ⟨_, .inl rfl⟩
    case isFalse hnone =>
      rw [if_neg hnone] at hfree
      split
      case isTrue hdirectory => exact absurd (if_pos hdirectory) hfree
      case isFalse => exact ⟨_, .inr rfl⟩
  exact ⟨_, write_eq_ok_iff.mpr ⟨place, hoffers, rfl⟩⟩

end Extended

end Directory

end NandComputer.Cli
