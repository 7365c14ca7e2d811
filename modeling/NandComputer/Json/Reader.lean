import NandComputer.Json.Basic

/-!
Reading JSON. The grammar is the strict one: four blank characters, no leading
zeros, no control characters in strings, and nothing but blanks after the value.
-/

namespace NandComputer.Json

def skipBlanks (text : List Char) : List Char :=
  text.dropWhile fun c => c == ' ' || c == '\t' || c == '\n' || c == '\r'

def hexDigit? (c : Char) : Option Nat :=
  if c.isDigit then some (c.toNat - '0'.toNat)
  else if 'a' ≤ c ∧ c ≤ 'f' then some (c.toNat - 'a'.toNat + 10)
  else if 'A' ≤ c ∧ c ≤ 'F' then some (c.toNat - 'A'.toNat + 10)
  else none

/-- The characters that a backslash and one letter stand for. -/
def escapes : List (Char × Char) :=
  [('"', '"'), ('\\', '\\'), ('/', '/'), ('b', '\x08'), ('f', '\x0c'), ('n', '\n'), ('r', '\r'),
    ('t', '\t')]

/-- The code units of a string after its opening quote, last one first, and the
text after the closing quote. Characters are units of their own, and only an
escape can give a surrogate. -/
def stringUnits (units : List Nat) : List Char → Option (List Nat × List Char)
  | '"' :: rest => some (units, rest)
  | '\\' :: 'u' :: a :: b :: c :: d :: rest =>
    match [a, b, c, d].mapM hexDigit? with
    | some digits => stringUnits (digits.foldl (16 * · + ·) 0 :: units) rest
    | none => none
  | '\\' :: c :: rest =>
    match escapes.lookup c with
    | some char => stringUnits (char.toNat :: units) rest
    | none => none
  | c :: rest => if c.toNat < 0x20 then none else stringUnits (c.toNat :: units) rest
  | [] => none

/-- The text of code units, if every surrogate belongs to a pair. -/
def textOfUnits (collected : List Char) : List Nat → Option (List Char)
  | [] => some collected.reverse
  | high :: low :: rest =>
    if 0xD800 ≤ high ∧ high < 0xDC00 ∧ 0xDC00 ≤ low ∧ low < 0xE000 then
      let code := 0x10000 + (high - 0xD800) * 0x400 + (low - 0xDC00)
      textOfUnits (Char.ofNat code :: collected) rest
    else if 0xD800 ≤ high ∧ high < 0xE000 then none
    else textOfUnits (Char.ofNat high :: collected) (low :: rest)
  | [unit] =>
    if 0xD800 ≤ unit ∧ unit < 0xE000 then none
    else some (Char.ofNat unit :: collected).reverse

/-- The string after an opening quote. -/
def readString (text : List Char) : Option (Option String × List Char) :=
  match stringUnits [] text with
  | some (units, rest) => some ((textOfUnits [] units.reverse).map String.ofList, rest)
  | none => none

/-- At least one digit. -/
def readDigits (text : List Char) : Option (List Char × List Char) :=
  match text.takeWhile Char.isDigit with
  | [] => none
  | digits => some (digits, text.dropWhile Char.isDigit)

/-- The digits of a whole number; none follow a leading zero. -/
def readWhole : List Char → Option (List Char × List Char)
  | '0' :: rest => some (['0'], rest)
  | text => readDigits text

/-- The fraction of a numeral, if it has one. -/
def readFraction : List Char → Option (List Char × List Char)
  | '.' :: rest => (readDigits rest).map fun (digits, rest) => ('.' :: digits, rest)
  | rest => some ([], rest)

/-- The exponent of a numeral, if it has one. -/
def readExponent : List Char → Option (List Char × List Char)
  | e :: rest =>
    if e = 'e' ∨ e = 'E' then
      let (sign, rest) := match rest with
        | '+' :: rest => (['+'], rest)
        | '-' :: rest => (['-'], rest)
        | rest => ([], rest)
      (readDigits rest).map fun (digits, rest) => (e :: sign ++ digits, rest)
    else some ([], e :: rest)
  | [] => some ([], [])

def readNumber (text : List Char) : Option (JsonNumber × List Char) := do
  let (sign, rest) := match text with
    | '-' :: rest => (['-'], rest)
    | rest => ([], rest)
  let (whole, rest) ← readWhole rest
  let (fraction, rest) ← readFraction rest
  let (exponent, rest) ← readExponent rest
  match sign, fraction, exponent with
  | [], [], [] => some (.natural (Nat.ofDigitChars 10 whole 0), rest)
  | _, _, _ => some (.other (String.ofList (sign ++ whole ++ fraction ++ exponent)), rest)

mutual

/-- A value and the text after it. Two units of fuel pay for a character. -/
def readValue : Nat → List Char → Option (Json × List Char)
  | 0, _ => none
  | fuel + 1, text =>
    match skipBlanks text with
    | 'n' :: 'u' :: 'l' :: 'l' :: rest => some (.null, rest)
    | 't' :: 'r' :: 'u' :: 'e' :: rest => some (.bool true, rest)
    | 'f' :: 'a' :: 'l' :: 's' :: 'e' :: rest => some (.bool false, rest)
    | '"' :: rest => (readString rest).map fun (text, rest) => (.string text, rest)
    | '[' :: rest =>
      match skipBlanks rest with
      | ']' :: rest => some (.array [], rest)
      | rest => readItems fuel [] rest
    | '\x7b' :: rest =>
      match skipBlanks rest with
      | '\x7d' :: rest => some (.object [], rest)
      | rest => readEntries fuel [] rest
    | text => (readNumber text).map fun (value, rest) => (.number value, rest)

/-- The items of an array up to its end, after those already read. -/
def readItems : Nat → List Json → List Char → Option (Json × List Char)
  | 0, _, _ => none
  | fuel + 1, items, text =>
    match readValue fuel text with
    | none => none
    | some (item, rest) =>
      match skipBlanks rest with
      | ',' :: rest => readItems fuel (item :: items) rest
      | ']' :: rest => some (.array (item :: items).reverse, rest)
      | _ => none

/-- The entries of an object up to its end, after those already read. -/
def readEntries : Nat → List (Option String × Json) → List Char → Option (Json × List Char)
  | 0, _, _ => none
  | fuel + 1, entries, text =>
    match skipBlanks text with
    | '"' :: rest =>
      match readString rest with
      | none => none
      | some (name, rest) =>
        match skipBlanks rest with
        | ':' :: rest =>
          match readValue fuel rest with
          | none => none
          | some (value, rest) =>
            match skipBlanks rest with
            | ',' :: rest => readEntries fuel ((name, value) :: entries) rest
            | '\x7d' :: rest => some (.object ((name, value) :: entries).reverse, rest)
            | _ => none
        | _ => none
    | _ => none

end

/-- The value that a text denotes. -/
def parse (text : String) : Option Json :=
  match readValue (2 * text.length + 2) text.toList with
  | some (value, rest) => if skipBlanks rest = [] then some value else none
  | none => none

end NandComputer.Json
