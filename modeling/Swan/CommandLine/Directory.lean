import Swan.CommandLine.FileError
import Swan.Image

/-! A directory held in memory, and what paths name when they are read from it. A path
is walked name by name, each of them from a directory, so the first name that leads
nowhere decides how the walk fails. Of the rest of the system no more is known than
what every system has. -/
namespace Swan.CommandLine

/-- The files below a directory, each with the names that lead to it. -/
structure Directory where
  files : List (List String × Image)

inductive Entry where
  | file (image : Image)
  | directory

inductive Origin where
  | here
  /-- A directory that it lies in, at any distance. -/
  | above
  | root
  deriving DecidableEq, Repr

/-- A place that a path can lead to. There need not be anything. -/
structure Place where
  origin : Origin
  names : List String
  deriving DecidableEq, Repr

def Place.child (p : Place) (name : String) : Place := { p with names := p.names ++ [name] }

/-- The directory a place lies in. The root lies in itself. -/
def Place.parent (p : Place) : Place :=
  if p.names ≠ [] then { p with names := p.names.dropLast }
  else match p.origin with
    | .here | .above => ⟨.above, []⟩
    | .root => ⟨.root, []⟩

/-- The names that make up a path. An empty one stands between two slashes, or before
or after a slash at an end. -/
def pathNames (path : String) : List String := path.splitOn "/"

/-- Whether a name leads back to the directory it is looked up in. -/
def staysPut (name : String) : Bool := name == "" || name == "."

def nameLimit : Nat := 255

def pathLimit : Nat := 4095

def rootDirectories : List String :=
  ["bin", "boot", "dev", "etc", "home", "lib", "media", "mnt", "opt", "proc", "root", "run",
    "sbin", "srv", "sys", "tmp", "usr", "var"]

/-- What every system has, with the device that reads as an empty file. -/
def systemEntry? : List String → Option Entry
  | [] => some .directory
  | [name] => if rootDirectories.contains name then some .directory else none
  | ["dev", "null"] => some (.file {})
  | _ => none

namespace Directory

def ofFiles (files : List (String × Image)) : Directory :=
  ⟨files.map fun (path, image) => ((pathNames path).filter (!staysPut ·), image)⟩

/-- What is below the directory itself. Names that lead on to a file name a directory. -/
def entryBelow? (d : Directory) (names : List String) : Option Entry :=
  match d.files.lookup names with
  | some image => some (.file image)
  | none =>
    if names.isEmpty || d.files.any (names.isPrefixOf ·.1) then some .directory else none

def entry? (d : Directory) (p : Place) : Option Entry :=
  match p.origin with
  | .here => d.entryBelow? p.names
  | .above => if p.names.isEmpty then some .directory else none
  | .root => systemEntry? p.names

def follow (d : Directory) (p : Place) (name : String) : Except FileError Place :=
  match d.entry? p with
  | none => .error .missing
  | some (.file _) => .error .notDirectory
  | some .directory =>
    if staysPut name then .ok p
    else if name = ".." then .ok p.parent
    else if nameLimit < name.utf8ByteSize then .error .nameTooLong
    else .ok (p.child name)

def find (d : Directory) (path : String) : Except FileError Place :=
  if path.isEmpty then .error .missing
  else if pathLimit < path.utf8ByteSize then .error .nameTooLong
  else
    let origin : Origin := if path.toList.head? = some '/' then .root else .here
    (pathNames path).foldlM d.follow ⟨origin, []⟩

def read (d : Directory) (path : String) : Except FileError Image := do
  match d.entry? (← d.find path) with
  | none => throw .missing
  | some .directory => throw .isDirectory
  | some (.file image) => return image

end Directory

end Swan.CommandLine
