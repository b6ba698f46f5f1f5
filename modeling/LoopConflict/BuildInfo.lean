import LoopConflict.Text.Columns
import LoopConflict.Text.Limited

/-!
What the program says about its own build: one line with its version, or a table of all modules it was
built from.
-/
namespace LoopConflict

/-- A module that a program was built from. -/
structure BuildModule where
  path : String
  version : String
  /-- The path of the module that stands in for it. -/
  replacement : Option String := none
deriving DecidableEq, Repr

/-- How a program was built. -/
structure BuildInfo where
  name : String
  version : String
  release : Bool := false
  /-- The version of the tool chain. -/
  toolchain : String := ""
  /-- The modules, the main one first. -/
  modules : List BuildModule := []
deriving DecidableEq, Repr

namespace BuildInfo

/-- The version of a build that has none. -/
def development : String := "devel"

/-- The module that gives programs their analyzed form. -/
def analyzedFormModule : String := "golang.org/x/tools"

/-- The version of the module that gives programs their analyzed form; empty if it is not used. -/
def formVersion (info : BuildInfo) : String :=
  match info.modules.find? (·.path = analyzedFormModule) with
  | some m => m.version
  | none => ""

/-- The name with the version. -/
def line (info : BuildInfo) : String :=
  if info.release then info.name ++ " " ++ info.version
  else if info.version = development then info.name ++ " (no version)"
  else info.name ++ " (devel, " ++ info.version ++ ")"

/-- The row of a module, after its role. -/
def moduleRow (role : String) (m : BuildModule) : List String :=
  [role, m.path, m.version] ++
    match m.replacement with
    | some path => ["=> " ++ path]
    | none => []

/-- The rows of the table. -/
def rows (info : BuildInfo) : List (List String) :=
  [["go", info.toolchain]] ++
  (if info.formVersion = "" then [] else [["ssa", analyzedFormModule ++ " " ++ info.formVersion]]) ++
  match info.modules with
  | [] => [["modules", "none"]]
  | main :: others => moduleRow "main" main :: others.map (moduleRow "dep")

/-- The line with the version, and the table after an empty line. -/
def text (info : BuildInfo) : String :=
  info.line ++ "\n\n" ++ String.join ((Text.columns info.rows).map (· ++ "\n"))

end BuildInfo

end LoopConflict
