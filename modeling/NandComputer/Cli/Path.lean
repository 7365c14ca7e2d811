/-!
File names in paths. Parts of a path are separated by slashes; slashes at the
end, and parts that are a single dot there, do not count.
-/

namespace NandComputer.Cli

/-- A path, last character first, without the slashes and single dots that do
not count. -/
def trimPath : List Char → List Char
  | '/' :: rest => trimPath rest
  | '.' :: '/' :: rest => trimPath ('/' :: rest)
  | rest => rest

/-- What is before the last name of a path, and that name. -/
def splitName (path : String) : Option (List Char × List Char) :=
  let reversed := trimPath path.toList.reverse
  let name := (reversed.takeWhile (· ≠ '/')).reverse
  if name = [] ∨ name = ['.'] ∨ name = ['.', '.'] then none
  else some ((reversed.dropWhile (· ≠ '/')).reverse, name)

/-- A name before its last dot and after it. A dot in front makes no extension. -/
def splitExtension (name : List Char) : List Char × Option (List Char) :=
  match name.reverse.dropWhile (· ≠ '.') with
  | _ :: stem =>
    if stem = [] then (name, none)
    else (stem.reverse, some (name.reverse.takeWhile (· ≠ '.')).reverse)
  | [] => (name, none)

def extension? (path : String) : Option String := do
  let (_, name) ← splitName path
  return String.ofList (← (splitExtension name).2)

/-- The path with another extension; a path without a name stays as it is. -/
def withExtension (path extension : String) : String :=
  match splitName path with
  | some (before, name) =>
    String.ofList (before ++ (splitExtension name).1) ++ "." ++ extension
  | none => path

end NandComputer.Cli
