import LoopConflict.Analysis
import LoopConflict.Text.Literal

/-!
Reports over several functions: the loop forests as text, and a diagnostic for every pair of accesses
that is not known to be independent.
-/
namespace LoopConflict

open Loop (Forest)
open Program (Function)

/-- The loops of a function, one to a line, indented by depth. -/
def forestText (F : Forest) : String :=
  F.function.text ++ ":\n" ++ Text.concat (F.ids.map fun l =>
    Text.repeated "  " (F.depth l) ++ F.name l ++ " (depth " ++ Text.nat (F.depth l) ++ ", " ++
      Text.nat (((F.loop? l).map (·.blocks.length)).getD 0) ++ " blocks)\n")

structure Diagnostic where
  pos : Int
  message : String
deriving DecidableEq, Repr

/-- The diagnostics of a function: its pairs that may access the same address. -/
def diagnosticsOf (r : FunctionResult) : List Diagnostic :=
  (r.loops.flatMap (·.pairs)).filterMap fun p =>
    if p.result.status = .infeasible then none
    else some
      { pos := p.a.pos r.function
        message := p.a.kind ++ " and " ++ p.b.kind ++ " of " ++ Access.baseName r.context p.base ++
          " may access the same address" }

structure Report where
  results : List FunctionResult
  diagnostics : List Diagnostic
  forests : String
  trace : String

/-- Analyzes the functions that have loops. -/
def report (functions : List Function) (o : Options) : Report :=
  let forests := (functions.map Forest.ofFunction).filter fun F => !F.loops.isEmpty
  let results := forests.map fun F => analyzeForest F o
  { results := results
    diagnostics := results.flatMap diagnosticsOf
    forests := Text.concat (forests.map forestText)
    trace := Text.concat (results.map (·.trace)) }

/-- The options of a report where nothing is set. -/
def defaultOptions : Options :=
  { budget := Linear.defaultBudget }

/-- Why an option is refused. -/
inductive OptionError where
  | unknown (name : String)
  | invalid (cause : Text.LiteralError)
deriving DecidableEq, Repr

def OptionError.message : OptionError → String
  | .unknown name => "no such flag -" ++ name
  | .invalid cause => cause.message

/-- Sets an option by its name. -/
def Options.set (o : Options) (name value : String) : Except OptionError Options :=
  match name with
  | "trace" => ((Text.readBoolean value).mapError .invalid).map fun b => { o with trace := b }
  | "wide" => ((Text.readBoolean value).mapError .invalid).map fun b => { o with wide := b }
  | "budget" => ((Text.readInteger value).mapError .invalid).map fun n => { o with budget := n.toInt }
  | _ => .error (.unknown name)

/-- Sets options in order. -/
def Options.setAll (o : Options) : List (String × String) → Except OptionError Options
  | [] => .ok o
  | (name, value) :: rest => do
    let o ← o.set name value
    o.setAll rest

end LoopConflict
