import WasmBinary.Bytes

/-! A tree of files.

What a program can see of a file system when it replaces one file: which places are
directories, which hold a file, and what happens to a path. A path is followed name by
name from the root, when it starts with a slash, or else from the working directory, and
everything before its last name has to be a directory. Two dots lead one step up, and stay
at the root. Names and paths are limited in length; a path is measured as a whole, a name
only when it is looked for. -/
namespace WasmBinary

/-- Why a file cannot be written. -/
inductive FileFault where
  | noSuchFile
  | notDirectory
  | isDirectory
  | noSpace
  | nameTooLong
deriving DecidableEq

/-- The fault in words, with its number. -/
def FileFault.message : FileFault → String
  | noSuchFile => "No such file or directory (os error 2)"
  | notDirectory => "Not a directory (os error 20)"
  | isDirectory => "Is a directory (os error 21)"
  | noSpace => "No space left on device (os error 28)"
  | nameTooLong => "File name too long (os error 36)"

/-- A place: the names that lead to it from the root. -/
abbrev Place := List String

/-- What is at a place. -/
inductive Node where
  | directory
  | file (bytes : Bytes)
  /-- A device that has no room for a single byte. -/
  | fullDevice
deriving DecidableEq

/-- A tree of files as a program sees it. -/
structure Files where
  /-- The directory that a path starts from if it does not start with a slash. -/
  workingDirectory : Place
  /-- The places that hold something, but for the root. -/
  nodes : List (Place × Node)
deriving DecidableEq

def maxNameSize : Nat := 255

def maxPathSize : Nat := 4095

namespace Files

def node? (files : Files) (place : Place) : Option Node :=
  if place = [] then some .directory else files.nodes.lookup place

/-- The place of a name in a directory. -/
def entry (directory : Place) (name : String) : Except FileFault Place :=
  if maxNameSize < name.utf8ByteSize then .error .nameTooLong
  else .ok (directory ++ [name])

/-- Takes one step from a place that is a directory. -/
def step (files : Files) (place : Place) (name : String) : Except FileFault Place :=
  if name = "." then .ok place
  else if name = ".." then .ok place.dropLast
  else do
    let next ← entry place name
    match files.node? next with
    | some .directory => .ok next
    | some _ => .error .notDirectory
    | none => .error .noSuchFile

/-- The place of the file that these pieces of a path, between its slashes, lead to. -/
def locateFrom (files : Files) (start : Place) (pieces : List (List Char)) : Except FileFault Place :=
  let names := (pieces.filter (· ≠ [])).map String.ofList
  match names.getLast? with
  | none => .error .isDirectory
  | some last => do
    let parent ← names.dropLast.foldlM files.step start
    if last = "." ∨ last = ".." ∨ pieces.getLast? = some [] then .error .isDirectory
    else
      let place ← entry parent last
      if files.node? place = some .directory then .error .isDirectory else .ok place

/-- The place of the file that a path leads to, which need not exist yet. -/
def locate (files : Files) (path : String) : Except FileFault Place :=
  if maxPathSize < path.utf8ByteSize then .error .nameTooLong
  else
    let start := if path.toList.head? = some '/' then [] else files.workingDirectory
    files.locateFrom start (path.toList.splitOn '/')

def set (files : Files) (place : Place) (node : Node) : Files :=
  { files with nodes := (place, node) :: files.nodes.filter (fun entry => entry.1 ≠ place) }

/-- Writes a file, in place of an older one. -/
def write (files : Files) (path : String) (bytes : Bytes) : Except FileFault Files := do
  let place ← files.locate path
  match files.node? place with
  | some .fullDevice => if bytes.isEmpty then .ok files else .error .noSpace
  | _ => .ok (files.set place (.file bytes))

/-- The content of the file that a path leads to. -/
def content? (files : Files) (path : String) : Option Bytes :=
  match files.locate path with
  | .error _ => none
  | .ok place =>
    match files.node? place with
    | some (.file bytes) => some bytes
    | _ => none

end Files
end WasmBinary
