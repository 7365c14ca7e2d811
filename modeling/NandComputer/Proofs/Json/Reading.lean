import Mathlib.Tactic.Common
import Mathlib.Tactic.IntervalCases
import NandComputer.Json.Printer
import NandComputer.Json.Reader
import NandComputer.Proofs.Text.Numeral

/-!
JSON is read back as the value that it was written for. The reader takes a value off the
front of a text, so each part is shown to be read whatever follows it, as long as that
cannot continue a number.
-/

namespace NandComputer.Json

section Strings

/-- An escape with a letter is read as its character, whatever follows it. -/
theorem stringUnits_of_letterEscape {c : Char} {escape : String}
    (h : letterEscapes.lookup c = some escape) (units : List Nat) (rest : List Char) :
    stringUnits units (escape.toList ++ rest) = stringUnits (c.toNat :: units) rest := by
  obtain ⟨_, _, hsplit, -⟩ := List.lookup_eq_some_iff.mp h
  have hmem : (c, escape) ∈ letterEscapes := by
    rw [hsplit]
    simp
  simp only [letterEscapes, List.mem_cons, Prod.mk.injEq, List.not_mem_nil, or_false] at hmem
  rcases hmem with ⟨rfl, rfl⟩ | ⟨rfl, rfl⟩ | ⟨rfl, rfl⟩ | ⟨rfl, rfl⟩ | ⟨rfl, rfl⟩ | ⟨rfl, rfl⟩ |
    ⟨rfl, rfl⟩
  all_goals rfl

/-- A control character is escaped with four digits, which are read back as its number. -/
theorem exists_hexDigits {n : Nat} (h : n < 0x20) : ∃ a b c d : Char,
    (Nat.toDigits 16 n).leftpad 4 '0' = [a, b, c, d] ∧
      ∃ digits, [a, b, c, d].mapM hexDigit? = some digits ∧ digits.foldl (16 * · + ·) 0 = n := by
  interval_cases n
  all_goals exact ⟨_, _, _, _, rfl, _, rfl, rfl⟩

/-- A character is read back from what is written for it: itself, a letter behind a backslash,
or four digits. -/
theorem stringUnits_writeChar (c : Char) (units : List Nat) (rest : List Char) :
    stringUnits units ((writeChar c).toList ++ rest) = stringUnits (c.toNat :: units) rest := by
  unfold writeChar
  split
  case h_1 escape h => exact stringUnits_of_letterEscape h units rest
  case h_2 h =>
    split
    case isTrue hcontrol =>
      obtain ⟨first, second, third, last, hdigits, values, hread, hvalue⟩ :=
        exists_hexDigits hcontrol
      rw [String.toList_append, hdigits, String.toList_ofList, String.toList_ofList]
      change stringUnits units ('\\' :: 'u' :: first :: second :: third :: last :: rest) = _
      rw [stringUnits, hread]
      dsimp only
      rw [hvalue]
    case isFalse hvisible =>
      have hquote : c ≠ '"' := by
        rintro rfl
        cases h
      have hslash : c ≠ '\\' := by
        rintro rfl
        cases h
      rw [Char.toString, String.toList_singleton, List.singleton_append, stringUnits,
        if_neg hvisible]
      · exact hquote
      · exact fun _ _ _ _ _ => fun hc => absurd hc hslash
      · exact fun _ _ => fun hc => absurd hc hslash

theorem stringUnits_text (chars : List Char) (units : List Nat) (rest : List Char) :
    stringUnits units ((chars.flatMap fun c => (writeChar c).toList) ++ '"' :: rest) =
      some ((chars.map Char.toNat).reverse ++ units, rest) := by
  induction chars generalizing units with
  | nil => rfl
  | cons c chars ih =>
    rw [List.flatMap_cons, List.append_assoc, stringUnits_writeChar, ih, List.map_cons,
      List.reverse_cons, List.append_assoc]
    rfl

/-- Characters are no surrogates, so each is its own code unit. -/
theorem textOfUnits_map_toNat (chars collected : List Char) :
    textOfUnits collected (chars.map Char.toNat) = some (collected.reverse ++ chars) := by
  have hwhole (c : Char) : ¬ (0xD800 ≤ c.toNat ∧ c.toNat < 0xE000) := by
    have hvalid : Nat.isValidChar c.toNat := c.valid
    rw [Nat.isValidChar] at hvalid
    omega
  have hhigh (c : Char) (low : Nat) : ¬ (0xD800 ≤ c.toNat ∧ c.toNat < 0xDC00 ∧
      0xDC00 ≤ low ∧ low < 0xE000) := by
    have hfree := hwhole c
    omega
  induction chars generalizing collected with
  | nil => rw [List.append_nil]; rfl
  | cons c chars ih =>
    cases chars with
    | nil =>
      rw [List.map_cons, List.map_nil, textOfUnits, if_neg (hwhole c), Char.ofNat_toNat,
        List.reverse_cons]
    | cons next chars =>
      rw [List.map_cons, List.map_cons, textOfUnits, if_neg (hhigh c _), if_neg (hwhole c),
        Char.ofNat_toNat, ← List.map_cons, ih, List.reverse_cons, List.append_assoc]
      rfl

/-- A string is read back, whatever characters it has, and the text behind its closing quote
is left. -/
theorem readString_writeString (text : String) (rest : List Char) :
    ∃ body, (writeString text).toList ++ rest = '"' :: body ∧
      readString body = some (some text, rest) := by
  refine ⟨(text.toList.flatMap fun c => (writeChar c).toList) ++ '"' :: rest, ?_, ?_⟩
  · rw [writeString, String.toList_append, String.toList_append, String.toList_join,
      List.flatMap_map]
    change '"' :: (_ ++ ['"']) ++ rest = _
    rw [List.cons_append, List.append_assoc]
    rfl
  · rw [readString, stringUnits_text, List.append_nil]
    dsimp only
    rw [List.reverse_reverse, textOfUnits_map_toNat]
    simp

end Strings

section Numbers

/-- What can come after a value: nothing, or the end of an item, of an array or of an object. -/
def EndsValue (rest : List Char) : Prop :=
  ∀ c, rest.head? = some c → c = ',' ∨ c = ']' ∨ c = '\x7d'

theorem endsValue_nil : EndsValue [] := nofun

theorem endsValue_cons {c : Char} (h : c = ',' ∨ c = ']' ∨ c = '\x7d') (rest : List Char) :
    EndsValue (c :: rest) := by
  intro other hother
  rw [List.head?_cons, Option.some.injEq] at hother
  exact hother ▸ h

/-- A value reaches up to its end: no digit, fraction or exponent follows that could belong to
a number. -/
theorem EndsValue.stops {rest : List Char} (h : EndsValue rest) :
    rest.takeWhile Char.isDigit = [] ∧ rest.dropWhile Char.isDigit = rest ∧
      readFraction rest = some ([], rest) ∧ readExponent rest = some ([], rest) := by
  cases rest with
  | nil => exact ⟨rfl, rfl, rfl, rfl⟩
  | cons c rest =>
    rcases h c rfl with rfl | rfl | rfl
    all_goals exact ⟨rfl, rfl, rfl, rfl⟩

/-- A positive number is written without leading zeros, which a reader would not take. -/
theorem head?_decimal_ne_zero {n : Nat} (h : n ≠ 0) : (Text.decimal n).head? ≠ some '0' := by
  rw [Text.decimal]
  induction n using Nat.strongRecOn with
  | ind n ih =>
    rw [Nat.toDigits_eq_if (by decide)]
    split
    case isTrue hsmall =>
      interval_cases n
      · exact absurd rfl h
      all_goals decide
    case isFalse hlarge =>
      have hfront := ih (n / 10) (by omega) (by omega)
      have hsome : (Nat.toDigits 10 (n / 10)).head?.isSome := by
        simp [List.isSome_head?, Nat.toDigits_ne_nil]
      rwa [List.head?_append, Option.or_of_isSome hsome]

/-- A number is written with a digit first, so it is told from all other values. -/
theorem exists_decimal_eq_cons (n : Nat) :
    ∃ c digits, Text.decimal n = c :: digits ∧ c.isDigit := by
  cases hdigits : Text.decimal n with
  | nil => exact absurd hdigits Nat.toDigits_ne_nil
  | cons c digits =>
    exact ⟨c, digits, rfl, Text.isDigit_of_mem_decimal (n := n) (by rw [hdigits]; simp)⟩

theorem readDigits_append {digits rest : List Char} (hnil : digits ≠ [])
    (hdigits : ∀ c ∈ digits, c.isDigit) (h : EndsValue rest) :
    readDigits (digits ++ rest) = some (digits, rest) := by
  have htake : (digits ++ rest).takeWhile Char.isDigit = digits := by
    rw [List.takeWhile_append_of_pos hdigits, h.stops.1, List.append_nil]
  have hdrop : (digits ++ rest).dropWhile Char.isDigit = rest := by
    rw [List.dropWhile_append_of_pos hdigits, h.stops.2.1]
  rw [readDigits, htake, hdrop]
  cases digits with
  | nil => exact absurd rfl hnil
  | cons c digits => rfl

theorem readWhole_decimal (n : Nat) {rest : List Char} (h : EndsValue rest) :
    readWhole (Text.decimal n ++ rest) = some (Text.decimal n, rest) := by
  by_cases hzero : n = 0
  · subst hzero
    rfl
  · have hhead := head?_decimal_ne_zero hzero
    have hread : readDigits (Text.decimal n ++ rest) = some (Text.decimal n, rest) :=
      readDigits_append Nat.toDigits_ne_nil (fun c member => Text.isDigit_of_mem_decimal member) h
    obtain ⟨c, digits, hdigits, -⟩ := exists_decimal_eq_cons n
    rw [hdigits] at hhead hread ⊢
    rw [List.cons_append] at hread ⊢
    rw [readWhole, hread]
    rintro tail heq
    cases heq
    exact hhead rfl

/-- A natural number is read back from its digits. There is no sign, as a digit is none, and
nothing behind the digits continues them. -/
theorem readNumber_decimal (n : Nat) {rest : List Char} (h : EndsValue rest) :
    readNumber (Text.decimal n ++ rest) = some (.natural n, rest) := by
  obtain ⟨-, -, hfraction, hexponent⟩ := h.stops
  have hwhole := readWhole_decimal n h
  have hvalue : Nat.ofDigitChars 10 (Text.decimal n) 0 = n := Nat.ofDigitChars_ten_toDigits
  obtain ⟨c, digits, hdigits, hdigit⟩ := exists_decimal_eq_cons n
  have hsign : c ≠ '-' := by
    rintro rfl
    cases hdigit
  rw [hdigits] at hwhole hvalue ⊢
  rw [List.cons_append] at hwhole ⊢
  dsimp only [readNumber]
  split
  case h_1 heq =>
    cases heq
    exact absurd rfl hsign
  case h_2 =>
    dsimp only
    rw [hwhole]
    simp only [Option.bind_eq_bind, Option.bind_some, hfraction, hexponent, hvalue]

end Numbers

section Values

/-- The values that are written: every string is a text, and every number is a whole number. -/
inductive Plain : Json → Prop
  | null : Plain .null
  | bool (value : Bool) : Plain (.bool value)
  | natural (value : Nat) : Plain (.ofNat value)
  | string (text : String) : Plain (.ofString text)
  | array {items : List Json} : (∀ item ∈ items, Plain item) → Plain (.array items)
  | object {fields : List (String × Json)} :
    (∀ field ∈ fields, Plain field.2) → Plain (.ofFields fields)

/-- A field as an entry of an object. -/
def entryOf (field : String × Json) : Option String × Json := (some field.1, field.2)

theorem ofFields_eq (fields : List (String × Json)) :
    Json.ofFields fields = .object (fields.map entryOf) := rfl

/-- The text of a value, as characters. -/
def chars (json : Json) : List Char := json.compact.toList

/-- The text of a field, as characters. -/
def fieldChars (field : String × Json) : List Char :=
  (writeString field.1).toList ++ ':' :: field.2.chars

theorem chars_ofNat (n : Nat) : (Json.ofNat n).chars = Text.decimal n := String.toList_ofList

theorem chars_array (items : List Json) :
    (Json.array items).chars = '[' :: ([','].intercalate (items.map chars) ++ [']']) := by
  have hitems : compactItems items = items.map compact := by
    induction items with
    | nil => rfl
    | cons item rest ih => rw [compactItems, ih, List.map_cons]
  rw [chars, compact, commas, hitems, String.toList_append, String.toList_append,
    String.toList_intercalate, List.map_map]
  rfl

theorem chars_ofFields (fields : List (String × Json)) :
    (Json.ofFields fields).chars =
      '\x7b' :: ([','].intercalate (fields.map fieldChars) ++ ['\x7d']) := by
  have hfields : (compactEntries (fields.map entryOf)).map String.toList =
      fields.map fieldChars := by
    induction fields with
    | nil => rfl
    | cons field rest ih =>
      rw [List.map_cons, entryOf, compactEntries, List.map_cons, ih, List.map_cons, fieldChars,
        String.toList_append, String.toList_append, List.append_assoc]
      rfl
  rw [chars, ofFields_eq, compact, commas, String.toList_append, String.toList_append,
    String.toList_intercalate, hfields]
  rfl

/-- A digit starts a number, and no other value does. -/
theorem readValue_of_isDigit {c : Char} (h : c.isDigit) (fuel : Nat) (rest : List Char) :
    skipBlanks (c :: rest) = c :: rest ∧ readValue (fuel + 1) (c :: rest) =
      (readNumber (c :: rest)).map fun found => (.number found.1, found.2) := by
  have hbound : 48 ≤ c.toNat ∧ c.toNat ≤ 57 := by
    simpa [Char.isDigit, UInt32.le_iff_toNat_le] using h
  obtain ⟨n, hn⟩ : ∃ n, c.toNat = n := ⟨_, rfl⟩
  obtain rfl : c = Char.ofNat n := by rw [← hn, Char.ofNat_toNat]
  rw [hn] at hbound
  obtain ⟨hlow, hhigh⟩ := hbound
  clear h hn
  interval_cases n
  all_goals exact ⟨rfl, rfl⟩

/-- A value starts with a character that is not skipped and ends no array, so it can be an
item. -/
theorem Plain.exists_head {json : Json} (h : Plain json) :
    ∃ c tail, json.chars = c :: tail ∧ (∀ rest, skipBlanks (c :: rest) = c :: rest) ∧ c ≠ ']' := by
  cases h with
  | null => exact ⟨_, _, rfl, fun _ => rfl, by decide⟩
  | bool value => cases value <;> exact ⟨_, _, rfl, fun _ => rfl, by decide⟩
  | natural value =>
    obtain ⟨c, digits, hdigits, hdigit⟩ := exists_decimal_eq_cons value
    refine ⟨c, digits, (chars_ofNat value).trans hdigits,
      fun rest => (readValue_of_isDigit hdigit 0 rest).1, ?_⟩
    rintro rfl
    cases hdigit
  | string text =>
    obtain ⟨body, hbody, -⟩ := readString_writeString text []
    rw [List.append_nil] at hbody
    exact ⟨_, body, hbody, fun _ => rfl, by decide⟩
  | array => exact ⟨_, _, chars_array _, fun _ => rfl, by decide⟩
  | object => exact ⟨_, _, chars_ofFields _, fun _ => rfl, by decide⟩

theorem readValue_quote (fuel : Nat) (body : List Char) : readValue (fuel + 1) ('"' :: body) =
    (readString body).map fun found => (.string found.1, found.2) := rfl

/-- An array that does not end at once has items. -/
theorem readValue_bracket {c : Char} {tail : List Char} (hskip : skipBlanks (c :: tail) = c :: tail)
    (hitem : c ≠ ']') (fuel : Nat) :
    readValue (fuel + 1) ('[' :: c :: tail) = readItems fuel [] (c :: tail) := by
  have hbracket : skipBlanks ('[' :: c :: tail) = '[' :: c :: tail := rfl
  simp only [readValue, hbracket, hskip]
  split
  case h_1 heq =>
    cases heq
    exact absurd rfl hitem
  case h_2 => rfl

/-- An object with a name has entries. -/
theorem readValue_brace (fuel : Nat) (tail : List Char) :
    readValue (fuel + 1) ('\x7b' :: '"' :: tail) = readEntries fuel [] ('"' :: tail) := rfl

/-- The value is read from its text, whatever follows. -/
def IsRead (json : Json) : Prop :=
  ∀ (fuel : Nat) (rest : List Char), EndsValue rest → 2 * json.chars.length ≤ fuel →
    readValue fuel (json.chars ++ rest) = some (json, rest)

/-- The items of an array, by induction on those that are left, each of which is read whatever
follows it. -/
theorem readItems_intercalate {items : List Json} (hnil : items ≠ [])
    (hread : ∀ item ∈ items, IsRead item) (done : List Json) (rest : List Char) (fuel : Nat)
    (hfuel : 2 * ([','].intercalate (items.map chars)).length < fuel) :
    readItems fuel done ([','].intercalate (items.map chars) ++ ']' :: rest) =
      some (.array (done.reverse ++ items), rest) := by
  induction items generalizing done fuel with
  | nil => exact absurd rfl hnil
  | cons item items ih =>
    obtain ⟨fuel, rfl⟩ := Nat.exists_eq_add_one_of_ne_zero (show fuel ≠ 0 by omega)
    cases items with
    | nil =>
      rw [List.map_cons, List.map_nil, List.intercalate_singleton] at hfuel ⊢
      have hitem := hread item (by simp) fuel (']' :: rest) (endsValue_cons (by simp) rest)
        (by omega)
      rw [readItems, hitem]
      change some (Json.array (item :: done).reverse, rest) = _
      rw [List.reverse_cons]
    | cons next items =>
      rw [List.map_cons, List.intercalate_cons_of_ne_nil (by simp)] at hfuel ⊢
      rw [List.length_append, List.length_append, List.length_singleton] at hfuel
      rw [List.append_assoc, List.append_assoc, List.singleton_append]
      have hitem := hread item (by simp) fuel
        (',' :: ([','].intercalate ((next :: items).map chars) ++ ']' :: rest))
        (endsValue_cons (by simp) _) (by omega)
      rw [readItems, hitem]
      change readItems fuel (item :: done) _ = _
      rw [ih (by simp) (fun item member => hread item (by simp [member])) _ fuel (by omega),
        List.reverse_cons, List.append_assoc]
      rfl

/-- The first entry of an object, up to the character behind it, which is a comma or the
closing brace. -/
theorem readEntries_fieldChars {field : String × Json} (hread : IsRead field.2)
    (done : List (Option String × Json)) {c : Char} (hend : c = ',' ∨ c = '\x7d')
    (rest : List Char) (fuel : Nat) (hfuel : 2 * (fieldChars field).length < fuel + 1) :
    readEntries (fuel + 1) done (fieldChars field ++ c :: rest) =
      if c = ',' then readEntries fuel (entryOf field :: done) rest
      else some (.object (entryOf field :: done).reverse, rest) := by
  obtain ⟨body, hbody, hname⟩ :=
    readString_writeString field.1 (':' :: (field.2.chars ++ c :: rest))
  have hvalue : readValue fuel (field.2.chars ++ c :: rest) = some (field.2, c :: rest) := by
    rw [fieldChars, List.length_append, List.length_cons] at hfuel
    exact hread fuel (c :: rest) (endsValue_cons (by rcases hend with rfl | rfl <;> simp) rest)
      (by omega)
  have htext : fieldChars field ++ c :: rest = '"' :: body := by
    rw [fieldChars, List.append_assoc, List.cons_append, hbody]
  have hquote : skipBlanks ('"' :: body) = '"' :: body := rfl
  have hcolon : skipBlanks (':' :: (field.2.chars ++ c :: rest)) =
    ':' :: (field.2.chars ++ c :: rest) := rfl
  rw [htext, readEntries, hquote]
  simp only [hname, hcolon, hvalue]
  rcases hend with rfl | rfl
  all_goals rfl

theorem readEntries_intercalate {fields : List (String × Json)} (hnil : fields ≠ [])
    (hread : ∀ field ∈ fields, IsRead field.2) (done : List (Option String × Json))
    (rest : List Char) (fuel : Nat)
    (hfuel : 2 * ([','].intercalate (fields.map fieldChars)).length < fuel) :
    readEntries fuel done ([','].intercalate (fields.map fieldChars) ++ '\x7d' :: rest) =
      some (.object (done.reverse ++ fields.map entryOf), rest) := by
  induction fields generalizing done fuel with
  | nil => exact absurd rfl hnil
  | cons field fields ih =>
    obtain ⟨fuel, rfl⟩ := Nat.exists_eq_add_one_of_ne_zero (show fuel ≠ 0 by omega)
    have hfield := hread field (by simp)
    cases fields with
    | nil =>
      rw [List.map_cons, List.map_nil, List.intercalate_singleton] at hfuel ⊢
      rw [readEntries_fieldChars hfield done (.inr rfl) rest fuel hfuel, if_neg (by decide),
        List.reverse_cons]
      rfl
    | cons next fields =>
      rw [List.map_cons, List.intercalate_cons_of_ne_nil (by simp)] at hfuel ⊢
      rw [List.length_append, List.length_append, List.length_singleton] at hfuel
      rw [List.append_assoc, List.append_assoc, List.singleton_append,
        readEntries_fieldChars hfield done (.inl rfl) _ fuel (by omega), if_pos rfl,
        ih (by simp) (fun field member => hread field (by simp [member])) _ fuel (by omega),
        List.reverse_cons, List.append_assoc]
      rfl

theorem Plain.exists_fuel {json : Json} (h : Plain json) {fuel : Nat}
    (hle : 2 * json.chars.length ≤ fuel) : ∃ left, fuel = left + 1 := by
  obtain ⟨c, tail, hchars, -⟩ := h.exists_head
  rw [hchars, List.length_cons] at hle
  exact Nat.exists_eq_add_one_of_ne_zero (by omega)

/-- Every plain value is read back, by induction on the value. Two units of fuel for each of
its characters are enough. -/
theorem Plain.isRead {json : Json} (h : Plain json) : IsRead json := by
  induction h with
  | null =>
    intro fuel rest _ hle
    obtain ⟨fuel, rfl⟩ := Plain.null.exists_fuel hle
    rfl
  | bool value =>
    intro fuel rest _ hle
    obtain ⟨fuel, rfl⟩ := (Plain.bool value).exists_fuel hle
    cases value <;> rfl
  | natural value =>
    intro fuel rest hrest hle
    obtain ⟨fuel, rfl⟩ := (Plain.natural value).exists_fuel hle
    have hnumber := readNumber_decimal value hrest
    obtain ⟨c, digits, hdigits, hdigit⟩ := exists_decimal_eq_cons value
    rw [hdigits] at hnumber
    rw [chars_ofNat, hdigits]
    rw [List.cons_append] at hnumber ⊢
    rw [(readValue_of_isDigit hdigit fuel _).2, hnumber]
    rfl
  | string text =>
    intro fuel rest _ hle
    obtain ⟨fuel, rfl⟩ := (Plain.string text).exists_fuel hle
    have hchars : (Json.ofString text).chars = (writeString text).toList := rfl
    obtain ⟨body, hbody, hread⟩ := readString_writeString text rest
    rw [hchars, hbody, readValue_quote, hread]
    rfl
  | @array items hitems ih =>
    intro fuel rest _ hle
    obtain ⟨fuel, rfl⟩ := (Plain.array hitems).exists_fuel hle
    rw [chars_array, List.length_cons, List.length_append, List.length_singleton] at hle
    rw [chars_array, List.cons_append, List.append_assoc, List.singleton_append]
    cases items with
    | nil => rfl
    | cons item items =>
      have hread := readItems_intercalate (List.cons_ne_nil item items) ih [] rest fuel (by omega)
      obtain ⟨c, tail, hhead, hskip, hbracket⟩ := (hitems item (by simp)).exists_head
      -- the text of the items begins with a character of the first one, which is not skipped
      have htext : ∃ more, [','].intercalate ((item :: items).map chars) ++ ']' :: rest =
          c :: more := by
        cases items <;> simp [hhead]
      obtain ⟨more, hmore⟩ := htext
      rw [hmore] at hread ⊢
      rw [readValue_bracket (hskip more) hbracket, hread]
      rfl
  | @object fields hfields ih =>
    intro fuel rest _ hle
    obtain ⟨fuel, rfl⟩ := (Plain.object hfields).exists_fuel hle
    rw [chars_ofFields, List.length_cons, List.length_append, List.length_singleton] at hle
    rw [chars_ofFields, List.cons_append, List.append_assoc, List.singleton_append]
    cases fields with
    | nil => rfl
    | cons field fields =>
      have hread := readEntries_intercalate (List.cons_ne_nil field fields) ih [] rest fuel
        (by omega)
      have htext : ∃ more, [','].intercalate ((field :: fields).map fieldChars) ++ '\x7d' :: rest =
          '"' :: more := by
        obtain ⟨body, hbody, -⟩ := readString_writeString field.1 []
        rw [List.append_nil] at hbody
        cases fields <;> simp [fieldChars, hbody]
      obtain ⟨more, hmore⟩ := htext
      rw [hmore] at hread ⊢
      rw [readValue_brace, hread]
      rfl

/-- What is written is read back, for every value of the kinds that are written: its numbers
are natural and the names of its fields are texts. -/
theorem parse_compact {json : Json} (h : Plain json) : parse json.compact = some json := by
  have hlength : json.compact.length = json.chars.length := String.length_toList.symm
  have hread := h.isRead (2 * json.compact.length + 2) [] endsValue_nil (by omega)
  rw [List.append_nil] at hread
  rw [parse, ← chars, hread]
  rfl

end Values

end NandComputer.Json
