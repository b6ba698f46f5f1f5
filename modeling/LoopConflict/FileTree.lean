import LoopConflict.Settings.Lookup

/-!
Files kept in memory: texts under paths below a root. Reading follows a path name by name, as a file
system does, and fails for the same reasons.
-/
namespace LoopConflict

/-- Files by the names on their paths, the outermost first. -/
structure FileTree where
  files : List (List String × String)
deriving Repr

/-- The names on a path. -/
def pathNames (path : String) : List String :=
  (path.splitOn "/").filter fun name => name ≠ "" && name ≠ "."

/-- The names on a path, where a step upwards takes away the name before it. -/
def cleanNames (path : String) : List String :=
  ((pathNames path).foldl (fun up name => if name = ".." then up.tail else name :: up) []).reverse

/-- The longest name that a file may have, in bytes. -/
def longestName : Nat := 255

namespace FileTree

/-- Files from their paths and texts. -/
def ofFiles (files : List (String × String)) : FileTree :=
  ⟨files.map fun (path, text) => (cleanNames path, text)⟩

/-- The text of the file at a place; the last one given counts. -/
def file? (t : FileTree) (place : List String) : Option String :=
  t.files.reverse.lookup place

/-- A directory stands at a place. -/
def isDirectory (t : FileTree) (place : List String) : Bool :=
  t.files.any fun (names, _) => place.isPrefixOf names && place.length < names.length

/-- Follows names from a directory; gives the text of the file they lead to. Directories in `known` exist
    even if they are empty. -/
def follow (t : FileTree) (known : List (List String)) (place : List String) :
    List String → Except ReadError String
  | [] => .error .isDirectory
  | name :: names =>
    if name = ".." then follow t known place.dropLast names
    else if longestName < name.utf8ByteSize then .error .nameTooLong
    else
      let next := place ++ [name]
      match t.file? next with
      | some text => if names.isEmpty then .ok text else .error .notDirectory
      | none =>
        if t.isDirectory next || known.any (next.isPrefixOf ·) then follow t known next names
        else .error .missing

/-- Reads settings files: named ones relative to the working directory `cwd`. -/
def reading (t : FileTree) (cwd : List String) : Settings.Files
  | .named name =>
    if name = "" then .error .missing
    else match t.follow [cwd] cwd (pathNames name) with
      | .ok text => if name.endsWith "/" then .error .notDirectory else .ok text
      | .error e => .error e
  | .within dir => t.follow [cwd] [] (dir.reverse ++ [settingsName])

end FileTree

end LoopConflict
