import BluespecDocs.Lines

/-!
Files of a directory, and what reading a path in it gives. A path is walked name by name; an empty name
and a single dot stay where they are, two dots go back. Files are put in along paths too, so that every
folder on the way exists.
-/

namespace BluespecDocs

/-- Why a path cannot be read as a text. -/
inductive ReadError where
  | notFound | isDirectory | notDirectory | notUtf8
deriving DecidableEq, Repr

namespace ReadError

def message : ReadError → String
  | notFound => "No such file or directory (os error 2)"
  | isDirectory => "Is a directory (os error 21)"
  | notDirectory => "Not a directory (os error 20)"
  | notUtf8 => "stream did not contain valid UTF-8"

end ReadError

/-- A folder or file, by the names that lead to it from the directory. Two dots in front lead out of the
directory, and a slash in front leads to the root. -/
abbrev Location := List String

namespace Location

/-- Goes on by one name. -/
def enter (here : Location) : String → Location
  | "" | "." => here
  | ".." =>
    match here.getLast? with
    | none | some ".." => here ++ [".."]
    | some "/" => here
    | some _ => here.dropLast
  | name => here ++ [name]

/-- Whether a location is the directory itself, the root, or some folder that only two dots lead to. -/
def isOutside (location : Location) : Bool := location.all fun name => name == ".." || name == "/"

end Location

/-- Folders and files. A file that was put in later comes first. -/
structure Directory where
  folders : List Location := []
  files : List (Location × ByteArray) := []

namespace Directory

def names (path : String) : List String := (Text.segments '/' path.toList).map String.ofList

/-- Where a path starts, and the names in it from there. -/
def start (path : String) : Location × List String :=
  match names path with
  | "" :: rest => (["/"], rest)
  | names => ([], names)

/-- A directory with a file put in at a path, and with the folders on the way. -/
def put (dir : Directory) (path : String) (bytes : ByteArray) : Directory :=
  let (origin, names) := start path
  let (folder, folders) := names.dropLast.foldl
    (fun (here, folders) name => (here.enter name, here.enter name :: folders)) (origin, dir.folders)
  ⟨folders, (folder.enter (names.getLastD ""), bytes) :: dir.files⟩

/-- A directory with the given files, put in one by one. -/
def ofFiles (files : List (String × ByteArray)) : Directory :=
  files.foldl (fun dir (path, bytes) => dir.put path bytes) {}

/-- Whether there is a folder at a location. Nothing is known of what lies outside of the directory, but
folders that two dots lead to are there. -/
def hasFolder (dir : Directory) (location : Location) : Bool :=
  location.isOutside || dir.folders.contains location

/-- Where a walk stands: in a folder or at a file. -/
inductive Place where
  | folder (location : Location)
  | file (bytes : ByteArray)

/-- Goes on by one name. -/
def step (dir : Directory) (place : Place) (name : String) : Except ReadError Place :=
  match place with
  | .file _ => .error .notDirectory
  | .folder here =>
    let next := here.enter name
    match dir.files.lookup next with
    | some bytes => .ok (.file bytes)
    | none => if dir.hasFolder next then .ok (.folder next) else .error .notFound

/-- Where a path leads. The empty path leads nowhere. -/
def walk (dir : Directory) (path : String) : Except ReadError Place :=
  if path = "" then .error .notFound
  else
    let (origin, names) := start path
    names.foldlM dir.step (.folder origin)

/-- The text of the file at a path. -/
def read (dir : Directory) (path : String) : Except ReadError String := do
  match ← dir.walk path with
  | .file bytes =>
    match String.fromUTF8? bytes with
    | some text => return text
    | none => throw .notUtf8
  | .folder _ => throw .isDirectory

end Directory

end BluespecDocs
