import PeanoCalculus.Error

/-! # A tree of files

    A directory held in memory: files by their paths from its root.  A directory is there when some
    file lies below it, and the root always is.  The directories around the root are there too, but
    nothing is known to lie in them.

    A path is followed component by component; every component but the last has to be a directory.
    Where it leads is a location: the components of the shortest path to it from the root, which may
    begin with some steps up or with the top of everything. -/

namespace PeanoCalculus

/-- Files by the components of their paths. -/
structure FileTree where
  files : List (List String × String) := []

namespace FileTree

/-- The components of a path. -/
def components (path : String) : List String :=
  (path.toList.splitOn '/').map String.ofList

/-- The tree with the given files. -/
def ofList (files : List (String × String)) : FileTree :=
  ⟨files.map fun (path, content) =>
    ((components path).filter fun part => part ≠ "" ∧ part ≠ ".", content)⟩

/-- The most bytes in the name of a file. -/
def maxNameSize : Nat := 255

/-- The most bytes in a path. -/
def maxPathSize : Nat := 4095

/-- The step to the directory above. -/
def up : String := ".."

/-- The directory above all others.  As a component it is no name, since it has a slash. -/
def top : String := "/"

/-- A file. -/
def file? (t : FileTree) (location : List String) : Option String :=
  t.files.lookup location

/-- A directory: one around the tree, its root, or one that a file lies below. -/
def isDirectory (t : FileTree) (location : List String) : Bool :=
  location.all (fun part => part = up ∨ part = top) ||
    t.files.any fun (path, _) => location.isPrefixOf path && location ≠ path

/-- The directory above a location.  Above the top there is the top itself. -/
def parent (location : List String) : List String :=
  match location.getLast? with
  | none => [up]
  | some part =>
    if part = up then location ++ [up]
    else if part = top then location
    else location.dropLast

/-- Follow the components of a path from a location. -/
def follow (t : FileTree) : List String → List String → Except FileFault (List String)
  | location, [] => .ok location
  | location, part :: rest =>
    if (t.file? location).isSome then .error .notDirectory
    else if !t.isDirectory location then .error .notFound
    else if part = "" ∨ part = "." then t.follow location rest
    else if part = up then t.follow (parent location) rest
    else if maxNameSize < part.utf8ByteSize then .error .nameTooLong
    else t.follow (location ++ [part]) rest

/-- The location that the components of a path lead to, from the root or, for a path that begins
    with a slash, from the top. -/
def locate (t : FileTree) (path : String) (parts : List String) :
    Except FileFault (List String) :=
  if path.isEmpty then .error .notFound
  else if maxPathSize < path.utf8ByteSize then .error .nameTooLong
  else t.follow (if path.startsWith "/" then [top] else []) parts

/-- The content of the file with a given path. -/
def read (t : FileTree) (path : String) : Except FileFault String := do
  let location ← t.locate path (components path)
  match t.file? location with
  | some content => .ok content
  | none => if t.isDirectory location then .error .isDirectory else .error .notFound

/-- The components of a path for writing.  A path that ends with a slash asks for a directory,
    whatever its last name is, so that name is not looked at. -/
def writingComponents (path : String) : List String :=
  let parts := components path
  if parts.getLast? = some "" then (parts.reverse.dropWhile (· = "")).tail.reverse ++ ["."]
  else parts

/-- Write a file, in a directory that is there. -/
def write (t : FileTree) (path content : String) : Except FileFault FileTree := do
  let location ← t.locate path (writingComponents path)
  if t.isDirectory location then .error .isDirectory
  else .ok ⟨(location, content) :: t.files.filter (·.1 ≠ location)⟩

end FileTree

end PeanoCalculus
