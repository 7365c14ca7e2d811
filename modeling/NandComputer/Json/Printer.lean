import NandComputer.Json.Basic

/-!
Writing JSON, on one line without blanks or over several lines with two blanks
per level. Empty arrays and objects stay on one line.
-/

namespace NandComputer.Json

/-- The escapes with a letter of their own. -/
def letterEscapes : List (Char × String) :=
  [('"', "\\\""), ('\\', "\\\\"), ('\x08', "\\b"), ('\x0c', "\\f"), ('\n', "\\n"), ('\r', "\\r"),
    ('\t', "\\t")]

/-- A character inside a string; only quotes, backslashes and control characters
are escaped. -/
def writeChar (c : Char) : String :=
  match letterEscapes.lookup c with
  | some escape => escape
  | none =>
    if c.toNat < 0x20 then "\\u" ++ String.ofList ((Nat.toDigits 16 c.toNat).leftpad 4 '0')
    else c.toString

def writeString (text : String) : String := "\"" ++ String.join (text.toList.map writeChar) ++ "\""

/-- Joins parts with a comma between. -/
def commas (parts : List String) : String := ",".intercalate parts

mutual

/-- The text of a value on one line. -/
def compact : Json → String
  | .null => "null"
  | .bool value => if value then "true" else "false"
  | .number value => value.text
  | .string text? => writeString (text?.getD "")
  | .array items => "[" ++ commas (compactItems items) ++ "]"
  | .object entries => "\x7b" ++ commas (compactEntries entries) ++ "\x7d"

def compactItems : List Json → List String
  | [] => []
  | item :: rest => compact item :: compactItems rest

def compactEntries : List (Option String × Json) → List String
  | [] => []
  | (name, value) :: rest =>
    (writeString (name.getD "") ++ ":" ++ compact value) :: compactEntries rest

end

/-- A line break and the blanks of a level. -/
def newline (level : Nat) : String := "\n" ++ String.ofList (List.replicate (2 * level) ' ')

/-- Parts on lines of their own, between brackets on the level around them. -/
def block (level : Nat) (opening closing : String) : List String → String
  | [] => opening ++ closing
  | parts =>
    opening ++ newline (level + 1) ++ ("," ++ newline (level + 1)).intercalate parts ++
      newline level ++ closing

mutual

/-- The text of a value over several lines, inside so many levels. -/
def prettyAt : Nat → Json → String
  | level, .array items => block level "[" "]" (prettyItems (level + 1) items)
  | level, .object entries => block level "\x7b" "\x7d" (prettyEntries (level + 1) entries)
  | _, value => compact value

def prettyItems : Nat → List Json → List String
  | _, [] => []
  | level, item :: rest => prettyAt level item :: prettyItems level rest

def prettyEntries : Nat → List (Option String × Json) → List String
  | _, [] => []
  | level, (name, value) :: rest =>
    (writeString (name.getD "") ++ ": " ++ prettyAt level value) :: prettyEntries level rest

end

/-- The text of a value over several lines. -/
def pretty (json : Json) : String := prettyAt 0 json

end NandComputer.Json
