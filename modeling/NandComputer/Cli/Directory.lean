import NandComputer.Cli.Host

/-!
A host in memory: a working directory of text files and the text printed so far.
A path is followed from the working directory; nothing outside it exists.
-/

namespace NandComputer.Cli

/-- The files of a directory and of those below it, by their paths from it. -/
structure Directory where
  files : List (String × String)
  deriving DecidableEq, Repr, Inhabited

/-- What is found at a path. -/
inductive Place where
  | file (name : String)
  | directory
  /-- Nothing, in a directory that exists. -/
  | vacant (name : String)
  /-- Nothing, at a path that only a directory can have. -/
  | vacantDirectory
  | unreachable (error : FileError)
  deriving DecidableEq, Repr, Inhabited

namespace Directory

def contents? (dir : Directory) (name : String) : Option String := dir.files.lookup name

def isDirectory (dir : Directory) (name : String) : Bool :=
  dir.files.any fun (file, _) => (name ++ "/").isPrefixOf file

/-- Follows the parts of a path from a directory, which is given by its own
parts, the last one first. -/
def follow (dir : Directory) (above : List String) : List String → Place
  | [] => .directory
  | part :: rest =>
    if part = "" ∨ part = "." then dir.follow above rest
    else if part = ".." then
      match above with
      | [] => .unreachable .notFound
      | _ :: above => dir.follow above rest
    else
      let name := "/".intercalate (part :: above).reverse
      if (dir.contents? name).isSome then
        if rest = [] then .file name else .unreachable .notDirectory
      else if dir.isDirectory name then dir.follow (part :: above) rest
      else if rest = [] then .vacant name
      else if rest.all (· = "") then .vacantDirectory
      else .unreachable .notFound

/-- What is found at a path. -/
def resolve (dir : Directory) (path : String) : Place :=
  if path = "" ∨ path.toList.head? = some '/' then .unreachable .notFound
  else dir.follow [] ((path.toList.splitOn '/').map String.ofList)

def read (dir : Directory) (path : String) : Except FileError String :=
  match dir.resolve path with
  | .file name => .ok ((dir.contents? name).getD "")
  | .directory => .error .isDirectory
  | .vacant _ | .vacantDirectory => .error .notFound
  | .unreachable error => .error error

/-- Replaces the contents of a file that exists, or adds one. -/
def put (dir : Directory) (name contents : String) : Directory :=
  if (dir.contents? name).isSome then
    ⟨dir.files.map fun (file, old) => (file, if file = name then contents else old)⟩
  else ⟨dir.files ++ [(name, contents)]⟩

def write (dir : Directory) (path contents : String) : Except FileError Directory :=
  match dir.resolve path with
  | .file name | .vacant name => .ok (dir.put name contents)
  | .directory | .vacantDirectory => .error .isDirectory
  | .unreachable error => .error error

end Directory

/-- A directory to work in and the text printed. -/
structure Desk where
  directory : Directory
  stdout : String
  deriving DecidableEq, Repr, Inhabited

instance : Host (StateM Desk) where
  readFile path := return (← get).directory.read path
  writeFile path contents := modifyGet fun desk =>
    match desk.directory.write path contents with
    | .ok directory => (.ok (), { desk with directory })
    | .error error => (.error error, desk)
  print text := modify fun desk => { desk with stdout := desk.stdout ++ text }

end NandComputer.Cli
