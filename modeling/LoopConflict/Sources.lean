import LoopConflict.Text.Decimal

/-!
The functions that are declared in the files of packages, in source order, each with the function
literals inside of it. A position is listed once, however many packages declare something there.
-/
namespace LoopConflict

/-- A function literal, with those inside of it. -/
inductive FunctionLiteral where
  | node (inner : List FunctionLiteral)
deriving Repr, Inhabited

/-- A declared function. -/
structure FunctionDecl where
  name : String
  line : Nat
  column : Nat
  /-- The type whose method it is. -/
  receiver : Option String := none
  /-- Its name stands for a function. -/
  isDefined : Bool := true
  /-- It has an analyzed form. -/
  isBuilt : Bool := true
  literals : List FunctionLiteral := []
deriving Repr

structure SourceFile where
  name : String
  /-- The declared functions; other declarations do not count. -/
  functions : List FunctionDecl
deriving Repr

structure Package where
  path : String
  files : List SourceFile
deriving Repr

namespace Sources

/-- A position: the file, the line from 1 and the column, as far as they are known. -/
def positionText (file : String) (line column : Nat) : String :=
  let place := if line = 0 then "" else
    (if file = "" then "" else ":") ++ Text.nat line ++ (if column = 0 then "" else ":" ++ Text.nat column)
  let s := file ++ place
  if s = "" then "-" else s

mutual

/-- The names of a literal and of those inside of it. -/
def literalNames (name : String) : FunctionLiteral → List String
  | .node inner => name :: literalsNames name 1 inner

/-- The names of the literals of the function `outer`, which are numbered from `n`. -/
def literalsNames (outer : String) (n : Nat) : List FunctionLiteral → List String
  | [] => []
  | l :: rest => literalNames (outer ++ "$" ++ Text.nat n) l ++ literalsNames outer (n + 1) rest

end

def functionName (path : String) (d : FunctionDecl) : String :=
  match d.receiver with
  | some type => "(*" ++ path ++ "." ++ type ++ ")." ++ d.name
  | none => path ++ "." ++ d.name

/-- The functions found and the positions seen. -/
structure Found where
  functions : List String := []
  seen : List String := []
deriving DecidableEq, Repr

/-- Adds a function of a file, unless something at its position was seen. -/
def addFunction (path file : String) (found : Found) (d : FunctionDecl) : Found :=
  let key := positionText file d.line d.column
  if d.name = "_" || !d.isDefined || found.seen.contains key then found
  else
    { functions := if d.isBuilt then
          let name := functionName path d
          found.functions ++ name :: literalsNames name 1 d.literals
        else found.functions
      seen := found.seen ++ [key] }

/-- The functions of a package, after the positions that were seen before. -/
def functionsOf (p : Package) (seen : List String) : Found :=
  p.files.foldl (fun found file => file.functions.foldl (addFunction p.path file.name) found) { seen := seen }

/-- What each package adds, one after the other. -/
def functionsOfAll : List Package → (seen : List String) → List Found
  | [], _ => []
  | p :: rest, seen =>
    let found := functionsOf p seen
    found :: functionsOfAll rest found.seen

end Sources

end LoopConflict
