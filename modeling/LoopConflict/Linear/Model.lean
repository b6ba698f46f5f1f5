import LoopConflict.Linear.Form
import LoopConflict.Text.Buffer

/-!
Feasibility problems over bounded integer variables, and their text in the modelling language. The
objective only names a variable to maximise; its optimum carries no meaning.
-/
namespace LoopConflict.Linear

/-- A variable with optional bounds. -/
structure Var where
  name : String
  lower : Option Int64
  upper : Option Int64
deriving DecidableEq, Repr

structure Model where
  label : String
  vars : List Var
  objective : String
  constraints : List Constraint
deriving DecidableEq, Repr

/-- A bound after its relation sign, or nothing. -/
def boundPieces (relation : String) : Option Int64 → List String
  | none => []
  | some n => [relation ++ Text.word n]

def Var.pieces (v : Var) : List String :=
  ["var " ++ v.name] ++ boundPieces " >= " v.lower ++ boundPieces " <= " v.upper ++ [" integer;\n"]

def Constraint.declaration (c : Constraint) : String :=
  "s.t. " ++ c.text ++ ";\n"

/-- The pieces that a model is written in, in order. -/
def Model.pieces (m : Model) : List String :=
  m.vars.flatMap Var.pieces ++ ["\nmaximize " ++ m.label ++ ": " ++ m.objective ++ ";\n\n"] ++
    m.constraints.map Constraint.declaration ++
    ["solve;\n", "display " ++ Text.joined ", " (m.vars.map Var.name) ++ ";\n", "end;\n"]

def Model.text (m : Model) : String :=
  Text.concat m.pieces

/-- Writes a model to a buffer and flushes it; also, how many bytes went into the buffer. -/
def Model.writeTo (m : Model) (b : Text.Buffer) : Text.Buffer × Nat :=
  let c := m.pieces.foldl Text.Counter.write { buffer := b }
  (if c.failed then c.buffer else c.buffer.flush, c.count)

/-- Writes a model through a buffer to a writer with a limit. -/
def Model.write (m : Model) (limit : Option Nat) : Text.Written :=
  let (b, count) := m.writeTo { sink := { limit } }
  { text := Text.decoded b.sink.taken, count, failed := b.failed }

end LoopConflict.Linear
