/-! # Files

The files of a working directory, each by the names on its path. A directory exists if a file lies
below it. Of what lies outside the working directory only this is known: the directories above it
exist, and so does the root of all paths, which is named by a slash. -/

namespace Lineage

structure Files where
  entries : List (List String × String)
deriving DecidableEq, Repr

namespace Files

/-- Why a file could not be reached. -/
inductive Fault where
  | notFound
  | isDirectory
  | notDirectory
  | nameTooLong
  /-- The path holds the character that ends texts in the system. -/
  | nameWithNul
deriving DecidableEq, Repr

/-- The fault in the words of the system. -/
def Fault.message : Fault → String
  | notFound => "No such file or directory (os error 2)"
  | isDirectory => "Is a directory (os error 21)"
  | notDirectory => "Not a directory (os error 20)"
  | nameTooLong => "File name too long (os error 36)"
  | nameWithNul => "file name contained an unexpected NUL byte"

/-- Where a path leads. -/
inductive Place where
  | file (contents : String)
  | directory (path : List String)

/-- A path as its segments. -/
def segments (path : String) : List String :=
  path.splitOn "/"

/-- The segments of a path that lead somewhere else. -/
def steps (path : String) : List String :=
  (segments path).filter fun name => !name.isEmpty && name != "."

/-- Where a path stands in an order: by its steps, of which a step upward comes first. -/
def rank (path : String) : List String :=
  (steps path).map fun name => if name == ".." then "" else name

/-- A path with one more segment. -/
def join (path name : String) : String :=
  if path.isEmpty || path.endsWith "/" then path ++ name else path ++ "/" ++ name

/-- The files with the given paths and contents. -/
def ofList (files : List (String × String)) : Files :=
  ⟨files.map fun (path, contents) => (steps path, contents)⟩

/-- The files by their paths. -/
def toList (files : Files) : List (String × String) :=
  files.entries.map fun (path, contents) => ("/".intercalate path, contents)

def isDirectory (files : Files) (path : List String) : Bool :=
  path.all (· == "..") || path == ["/"] ||
    files.entries.any fun entry => path.isPrefixOf entry.1 && path.length < entry.1.length

/-- What lies at a path from the working directory. -/
def placeAt (files : Files) (path : List String) : Except Fault Place :=
  match files.entries.lookup path with
  | some contents => .ok (.file contents)
  | none => if files.isDirectory path then .ok (.directory path) else .error .notFound

/-- The directory above a directory. -/
def above (path : List String) : List String :=
  match path.getLast? with
  | none | some ".." => path ++ [".."]
  | some "/" => path
  | some _ => path.dropLast

/-- The most bytes in a name. -/
def nameLimit : Nat := 255

/-- The number of bytes that no path reaches. -/
def pathLimit : Nat := 4096

/-- One step along a path. -/
def enter (files : Files) (here : Place) (name : String) : Except Fault Place :=
  match here with
  | .file _ => .error .notDirectory
  | .directory path =>
    if name.isEmpty || name == "." then .ok here
    else if name == ".." then .ok (.directory (above path))
    else if name.utf8ByteSize > nameLimit then .error .nameTooLong
    else files.placeAt (path ++ [name])

/-- Where the segments of a path lead. -/
def follow (files : Files) (path : String) (segments : List String) : Except Fault Place :=
  segments.foldlM files.enter (.directory (if path.startsWith "/" then ["/"] else []))

/-- The path may be given to the system at all. -/
def checkPath (path : String) : Except Fault Unit :=
  if path.contains '\x00' then .error .nameWithNul
  else if path.isEmpty then .error .notFound
  else if path.utf8ByteSize ≥ pathLimit then .error .nameTooLong
  else .ok ()

/-- Where a path leads. -/
def locate (files : Files) (path : String) : Except Fault Place := do
  checkPath path
  files.follow path (segments path)

/-- The path leads to a file or a directory. -/
def holds (files : Files) (path : String) : Bool :=
  match files.locate path with
  | .ok _ => true
  | .error _ => false

/-- The contents of a file. -/
def read (files : Files) (path : String) : Except Fault String :=
  match files.locate path with
  | .ok (.file contents) => .ok contents
  | .ok (.directory _) => .error .isDirectory
  | .error fault => .error fault

/-- Sets the contents of a file at a path from the working directory. -/
def put (files : Files) (path : List String) (contents : String) : Files :=
  if files.entries.any (·.1 == path) then
    ⟨files.entries.map fun entry => if entry.1 == path then (path, contents) else entry⟩
  else ⟨files.entries ++ [(path, contents)]⟩

/-- Writes a file. Its directory must exist, and a path with a slash at its end is one
    of a directory. -/
def write (files : Files) (path contents : String) : Except Fault Files := do
  checkPath path
  let parts := (segments path).reverse.dropWhile String.isEmpty
  let name := parts.headD ""
  match ← files.follow path parts.tail.reverse with
  | .file _ => .error .notDirectory
  | .directory directory =>
    if path.endsWith "/" || name == "." || name == ".." then .error .isDirectory
    else if name.utf8ByteSize > nameLimit then .error .nameTooLong
    else if files.isDirectory (directory ++ [name]) then .error .isDirectory
    else .ok (files.put (directory ++ [name]) contents)

/-- The files that are new or hold something else than before. -/
def changedSince (files before : Files) : Files :=
  ⟨files.entries.filter fun entry => before.entries.lookup entry.1 != some entry.2⟩

/-- The files of the working directory itself. -/
def inside (files : Files) : Files :=
  ⟨files.entries.filter fun entry => entry.1.head? != some ".." && entry.1.head? != some "/"⟩

end Files

end Lineage
