/-!
Lines of a text and the comments at their ends.
-/

namespace NandComputer.Text

/-- Removes one carriage return at the end. -/
def dropReturn (line : List Char) : List Char :=
  if line.getLast? = some '\r' then line.dropLast else line

/-- The lines of a text. A line ends at a line feed or at a carriage return and
a line feed; the last one may also end with the text. -/
def lines (text : List Char) : List (List Char) :=
  let pieces := text.splitOn '\n'
  pieces.dropLast.map dropReturn ++ pieces.getLast?.toList.filter (· ≠ [])

/-- Collects a line, last character first, until two slashes. -/
def beforeSlashes (collected : List Char) : List Char → List Char
  | '/' :: '/' :: _ => collected
  | c :: rest => beforeSlashes (c :: collected) rest
  | [] => collected

/-- The part of a line before its first two slashes. -/
def beforeComment (line : List Char) : List Char := (beforeSlashes [] line).reverse

/-- The lines with their numbers, from 1. -/
def numberedLines (text : List Char) : List (Nat × List Char) :=
  (lines text).zipIdx.map fun (line, i) => (i + 1, line)

end NandComputer.Text
