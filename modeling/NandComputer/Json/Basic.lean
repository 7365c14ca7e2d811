import NandComputer.Text.Numeral

/-!
JSON values as they are written: an object keeps all its entries in order,
repeated names included, and a number keeps its form. A string that escapes
half of a surrogate pair is well formed but denotes no text.
-/

namespace NandComputer

inductive JsonNumber where
  /-- Digits alone. -/
  | natural (value : Nat)
  /-- A numeral with a sign, a fraction or an exponent. -/
  | other (numeral : String)
  deriving DecidableEq, Repr, Inhabited

def JsonNumber.text : JsonNumber → String
  | .natural value => String.ofList (Text.decimal value)
  | .other numeral => numeral

inductive Json where
  | null
  | bool (value : Bool)
  | number (value : JsonNumber)
  | string (text? : Option String)
  | array (items : List Json)
  | object (entries : List (Option String × Json))
  deriving Repr, Inhabited

namespace Json

/-- A value that is a whole number written without a sign. -/
def natural? : Json → Option Nat
  | .number (.natural value) => some value
  | _ => none

/-- A whole number below a bound. -/
def naturalBelow? (bound : Nat) (json : Json) : Option Nat :=
  json.natural?.filter (· < bound)

def bool? : Json → Option Bool
  | .bool value => some value
  | _ => none

/-- The value of the entry with a name, which may occur once. -/
def named? (entries : List (Option String × Json)) (name : String) : Option (Option Json) :=
  match entries.filter fun (key, _) => key = some name with
  | [] => some none
  | [(_, value)] => some (some value)
  | _ => none

/-- The values of a record with the given field names. An object gives them by
name, in any order; names that are not fields are refused if `closed` and
ignored otherwise. An array gives them by position, and may stop early. A
missing field is `none`. -/
def fields? (names : List String) (closed : Bool) : Json → Option (List (Option Json))
  | .object entries =>
    if entries.all fun (key, _) => key.any fun name => !closed || names.contains name then
      names.mapM (named? entries)
    else none
  | .array items =>
    if items.length ≤ names.length then
      some (items.map some ++ List.replicate (names.length - items.length) none)
    else none
  | _ => none

/-- A case of a choice and what it carries: the name alone, or an object whose
only entry is the name with a value. -/
def variant? : Json → Option (String × Option Json)
  | .string (some name) => some (name, none)
  | .object [(some name, value)] => some (name, some value)
  | _ => none

/-- A case that carries nothing; in the form of an object it carries null. -/
def plainVariant? (json : Json) : Option String :=
  match json.variant? with
  | some (name, none) => some name
  | some (name, some .null) => some name
  | _ => none

/-- An object with distinct names. -/
def ofFields (fields : List (String × Json)) : Json :=
  .object (fields.map fun (name, value) => (some name, value))

def ofString (text : String) : Json := .string (some text)

def ofNat (n : Nat) : Json := .number (.natural n)

end Json

end NandComputer
