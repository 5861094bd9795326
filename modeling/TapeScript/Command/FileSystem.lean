import TapeScript.Command.Path
import TapeScript.Error

/-! Files and directories as seen from the working directory. -/
namespace TapeScript

inductive Entry where
  | directory
  | file (content : String)
  deriving DecidableEq, Repr

/-- The names on the way from the working directory, or from the root if the first one is a slash.
Names of two dots stand at the front only, for the directories above. -/
abbrev Location := List String

/-- What is known to exist, besides the working directory and those above it. -/
structure FileSystem where
  entries : List (Location × Entry) := []
  deriving DecidableEq, Repr

namespace FileSystem

def entry? (files : FileSystem) (location : Location) : Option Entry :=
  if location = ["/"] ∨ location.all (· == "..") then some .directory else files.entries.lookup location

/-- The directory above. -/
def parent (location : Location) : Location :=
  if location = ["/"] then location
  else if location.all (· == "..") then location ++ [".."]
  else location.dropLast

/-- Follow names from a location. Every name but the last has to be a directory on the way. -/
def follow (files : FileSystem) (location : Location) : List String → Except DiskFault Location
  | [] => .ok location
  | name :: names =>
    match files.entry? location with
    | none => .error .notFound
    | some (.file _) => .error .notDirectory
    | some .directory =>
      if name = "" ∨ name = "." then follow files location names
      else if name = ".." then follow files (parent location) names
      else follow files (location ++ [name]) names

/-- Where a path leads; the last name need not exist. -/
def locate (files : FileSystem) (path : String) : Except DiskFault Location :=
  if path.isEmpty then .error .notFound
  else follow files (if path.toList.head? = some '/' then ["/"] else []) (path.splitOn "/")

def lookup? (files : FileSystem) (path : String) : Option Entry :=
  match files.locate path with
  | .ok location => files.entry? location
  | .error _ => none

def contains (files : FileSystem) (path : String) : Bool := (files.lookup? path).isSome

/-- The text of a file. -/
def read (files : FileSystem) (path : String) : Except Error String :=
  let opening := s!"open '{path}'"
  match files.locate path with
  | .error fault => .error (.disk fault opening)
  | .ok location =>
    match files.entry? location with
    | none => .error (.disk .notFound opening)
    | some .directory => .error (.disk .isDirectory "read")
    | some (.file content) => .ok content

/-- Put a node where a location leads. -/
def insert (files : FileSystem) (location : Location) (entry : Entry) : FileSystem :=
  ⟨(location, entry) :: files.entries.filter (·.1 != location)⟩

/-- A path without the slashes at its end. -/
def trimmed (path : String) : String :=
  match path.toList.reverse.dropWhile (· == '/') with
  | [] => path
  | chars => String.ofList chars.reverse

/-- Make a directory in one that exists. -/
def makeDirectory (files : FileSystem) (path : String) : Except Error FileSystem :=
  let making := s!"mkdir '{path}'"
  match files.locate (trimmed path) with
  | .error fault => .error (.disk fault making)
  | .ok location =>
    match files.entry? location with
    | some _ => .error (.disk .alreadyExists making)
    | none => .ok (files.insert location .directory)

/-- Make a directory with all those above it that are missing, at most so many. What was made
before an error stays. -/
def makeDirectories (files : FileSystem) : Nat → String → Except Error Unit × FileSystem
  | 0, _ => (.ok (), files)
  | limit + 1, path =>
    if path = "." ∨ path = "" ∨ files.contains path then (.ok (), files)
    else
      match makeDirectories files limit (Path.dirname path) with
      | (.error error, files) => (.error error, files)
      | (.ok (), files) =>
        match makeDirectory files path with
        | .error error => (.error error, files)
        | .ok files => (.ok (), files)

/-- Make a directory unless it is there. Every path above is shorter, so its length is limit enough. -/
def ensureDirectory (files : FileSystem) (path : String) : Except Error Unit × FileSystem :=
  files.makeDirectories (path.length + 1) path

/-- Write a file, in a directory that exists. -/
def write (files : FileSystem) (path content : String) : Except Error FileSystem :=
  let opening := s!"open '{path}'"
  match files.locate path with
  | .error fault => .error (.disk fault opening)
  | .ok location =>
    match files.entry? location with
    | some .directory => .error (.disk .isDirectory opening)
    | _ => .ok (files.insert location (.file content))

/-- Add a file with the directories above it, over what is there. -/
def withFile (files : FileSystem) (path content : String) : FileSystem :=
  let location := (path.splitOn "/").filter fun name => name != "" && name != "."
  let above := (List.range location.length).map location.take
  let files := above.foldl (fun files location => files.insert location .directory) files
  files.insert location (.file content)

/-- The files below the working directory. -/
def contents (files : FileSystem) : List (String × String) :=
  files.entries.filterMap fun (location, entry) =>
    match entry with
    | .file content =>
      if location.head? = some ".." ∨ location.head? = some "/" then none
      else some ("/".intercalate location, content)
    | .directory => none

/-- The files that are new or changed since another moment. -/
def changedSince (files before : FileSystem) : List (String × String) :=
  files.contents.filter fun file => !before.contents.contains file

/-- The path of a location. -/
def pathOf : Location → String
  | "/" :: names => "/" ++ "/".intercalate names
  | names => "/".intercalate names

/-- What is new or changed since another moment, in the order in which it came about. -/
def entriesSince (files before : FileSystem) : List (String × Entry) :=
  ((files.entries.filter fun entry => !before.entries.contains entry).reverse).map fun entry =>
    (pathOf entry.1, entry.2)

end FileSystem
end TapeScript
