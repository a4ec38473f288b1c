import RegexSearch.Byte

/-!
A directory of files, and what the paths that start in it lead to. A path is followed one
component at a time. It can walk about in directories before it comes to a file, and nothing can
follow a file, so that a file has many paths: `f`, `./f` and `.//f` are the same one, but `f/`
and `f/.` are none. Of what lies outside the directory, only directories are known, those above
it.

A directory can be opened like a file and has no bytes. Only a path that leads nowhere cannot be
opened.
-/

namespace RegexSearch

/-- The files of a directory, each with its name and its content. -/
structure Directory where
  files : List (Bytes × Bytes)
  deriving DecidableEq, Repr

/-- Where a path can lead. -/
inductive Destination where
  /-- The directory itself. -/
  | inside
  /-- A directory above it. -/
  | outside
  | file (content : Bytes)
  deriving DecidableEq, Repr

/-- What is read from there. -/
def Destination.content : Destination → Bytes
  | inside | outside => []
  | file content => content

/-- The components of a path: what stands between its slashes, with empty ones where two slashes
meet and where a slash begins or ends the path. -/
def components : Bytes → List Bytes
  | [] => [[]]
  | b :: rest =>
    if b.toChar == '/' then [] :: components rest
    else
      match components rest with
      | [] => [[b]]
      | first :: others => (b :: first) :: others

/-- The number of bytes from which on a path is too long to be followed. -/
def pathLimit : Nat := 4096

namespace Directory

/-- Follows one component. The empty one and the dot stay where they are, but not at a file; two
dots lead upwards; any other component is the name of a file. -/
def step? (directory : Directory) (reached : Destination) (component : Bytes) :
    Option Destination :=
  match reached with
  | .file _ => none
  | .inside | .outside =>
    if component = [] ∨ component = ascii "." then some reached
    else if component = ascii ".." then some .outside
    else if reached = .inside then (directory.files.lookup component).map .file
    else none

/-- Where a path begins: with a slash at the top of all directories, else in this one. -/
def start (path : Bytes) : Destination :=
  match path with
  | [] => .inside
  | first :: _ => if first.toChar == '/' then .outside else .inside

/-- Follows a path to its end. The empty path leads nowhere. -/
def find? (directory : Directory) (path : Bytes) : Option Destination :=
  if path = [] ∨ pathLimit ≤ path.length then none
  else (components path).foldlM directory.step? (start path)

/-- The bytes that a path gives to read, unless it cannot be opened. -/
def read? (directory : Directory) (path : Bytes) : Option Bytes :=
  (directory.find? path).map Destination.content

end Directory

end RegexSearch
