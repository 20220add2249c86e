import Suspension.CommandLine.Interaction

/-!
# Files held in memory

A file system that is a value: what stands at which place. A command run on it gives an output and
the files that it leaves behind, so that both can be stated and computed.

A path is walked from its first name on, and every name but the last one has to lead to a folder.
The first name that does not lead on decides the error. A path that ends in a slash can lead to a
folder only, so no file is made there.
-/

namespace Suspension.CommandLine

/-- The names that lead from the root of a file system to a place in it. -/
abbrev Place := List String

/-- What stands at a place. -/
inductive Entry
  | folder
  | file (content : ByteArray)
  /-- A file that stays empty, whatever is written to it. -/
  | sink

/-- A file system. -/
structure FileTree where
  /-- The folder in which a command is run. -/
  home : Place := []
  /-- What stands where; the folders on the way to a place need not be among it. -/
  entries : List (Place × Entry) := []

/-- The bytes that a name has at most. -/
def longestName : Nat := 255

/-- The bytes that a path has at most. -/
def longestPath : Nat := 4095

/-- The names of a path. -/
def namesOf (path : String) : List String :=
  (path.splitOn "/").filter fun name ↦ !name.isEmpty

namespace FileTree

/-- What stands at a place. -/
def entry? (t : FileTree) (p : Place) : Option Entry :=
  match t.entries.find? fun (q, _) ↦ q == p with
  | some (_, e) => some e
  | none =>
    if p.isPrefixOf t.home || t.entries.any fun (q, _) ↦ p.isPrefixOf q then some .folder else none

/-- The folder that a name leads to from a folder. -/
def enter (t : FileTree) (p : Place) (name : String) : Except FileError Place :=
  if name == "." then .ok p
  else if name == ".." then .ok p.dropLast
  else if longestName < name.utf8ByteSize then .error .nameTooLong
  else
    match t.entry? (p ++ [name]) with
    | some .folder => .ok (p ++ [name])
    | some _ => .error .notDirectory
    | none => .error .notFound

/-- The place of a file that a name leads to from a folder, and the file, if there is one. -/
def fileAt (t : FileTree) (p : Place) (name : String) : Except FileError (Place × Option Entry) :=
  if name == "." || name == ".." then .error .isDirectory
  else if longestName < name.utf8ByteSize then .error .nameTooLong
  else
    match t.entry? (p ++ [name]) with
    | some .folder => .error .isDirectory
    | found => .ok (p ++ [name], found)

/-- The place of a file that a path leads to, and the file, if there is one. `making` says whether
it is made if there is none. -/
def locate (t : FileTree) (making : Bool) (path : String) :
    Except FileError (Place × Option Entry) := do
  let names := namesOf path
  if path.isEmpty then throw .notFound
  else if longestPath < path.utf8ByteSize then throw .nameTooLong
  else
    let folder ← names.dropLast.foldlM t.enter (if path.startsWith "/" then [] else t.home)
    match names.getLast? with
    | none => throw .isDirectory
    | some name =>
      if !path.endsWith "/" then t.fileAt folder name
      else if making then throw .isDirectory
      else
        let _ ← t.enter folder name
        throw .isDirectory

/-- The content of the file at a path. -/
def read (t : FileTree) (path : String) : Except FileError ByteArray := do
  match (← t.locate false path).2 with
  | some (.file content) => return content
  | some _ => return .empty
  | none => throw .notFound

/-- The files after a text was written to the file at a path. -/
def write (t : FileTree) (path text : String) : Except FileError FileTree := do
  match ← t.locate true path with
  | (_, some .sink) => return t
  | (p, _) =>
    let others := t.entries.filter fun (q, _) ↦ q != p
    return { t with entries := (p, .file text.toUTF8) :: others }

/-- The file system whose files are the state. -/
def system : FileSystem (StateM FileTree) where
  read path := do return (← get).read path
  write path text := do
    match (← get).write path text with
    | .ok t =>
      set t
      return .ok ()
    | .error e => return .error e

end FileTree

end Suspension.CommandLine
