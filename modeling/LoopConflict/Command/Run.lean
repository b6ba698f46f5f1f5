import LoopConflict.Analysis
import LoopConflict.Command.Flags
import LoopConflict.Settings.Lookup

/-!
A run of the command on functions: the settings in effect, the functions that are looked at, and the
models that are written, each under the name of its function and loop.
-/
namespace LoopConflict.Command

open Program (Function)

/-- The settings that flags set. -/
def Flags.layer (flags : Flags) : SettingsLayer :=
  { output := flags.output, objective := flags.objective, trace := flags.trace, wide := flags.wide,
    budget := flags.budget }

/-- The file that the flags name for the settings; an empty name counts as none. -/
def Flags.settingsFile? (flags : Flags) : Option String :=
  match flags.config with
  | some name => if name = "" then none else some name
  | none => none

/-- The settings in effect: those of the named file, or of the working directory, under the flags. -/
def settings (flags : Flags) (files : Settings.Files) (cwd : Directory)
    (decode : Settings.Decoder := SettingsLayer.ofText?) : Except SettingsError Settings := do
  let s ← match flags.settingsFile? with
    | some name => Settings.loadFile files name decode
    | none => Settings.load files cwd decode
  return s.override flags.layer

/-- The analysis that settings ask for. -/
def options (s : Settings) : Options :=
  { trace := s.trace, wide := s.wide, budget := s.budget.toInt, objective := s.objective }

/-- The functions with a body that are not excluded. -/
def kept (s : Settings) (functions : List Function) : List Function :=
  functions.filter fun f => !f.blocks.isEmpty && !s.isExcluded f.text

/-- The models of the results, in order, each with the line that names its function and loop. -/
def namedModels (results : List FunctionResult) : List (String × Linear.Model) :=
  results.flatMap fun r => r.models.map fun (l, m) => ("# " ++ r.function.text ++ " " ++ r.context.forest.name l ++ "\n", m)

/-- Writes models to a buffer, with an empty line between two of them; `n` have been written before. Also, how many
    are written until the writer fails. -/
def writeAll (b : Text.Buffer) (n : Nat) : List (String × Linear.Model) → Text.Buffer × Nat
  | [] => (b.flush, n)
  | (line, m) :: rest =>
    let b := if 0 < n then (b.write "\n".toUTF8).1 else b
    let b := (b.write line.toUTF8).1
    let b := (m.writeTo b).1
    if b.failed then (b, n) else writeAll b (n + 1) rest

/-- Writes the models of results to a writer with a limit; the count is that of the models written. -/
def writeModels (results : List FunctionResult) (limit : Option Nat) : Text.Written :=
  let (b, count) := writeAll { sink := { limit } } 0 (namedModels results)
  { text := Text.decoded b.sink.taken, count, failed := b.failed }

/-- What a run of the command gives. -/
structure Run where
  kept : List Function
  results : List FunctionResult

/-- Analyzes the functions that the settings leave in. -/
def run (s : Settings) (functions : List Function) : Run :=
  let fs := kept s functions
  { kept := fs, results := fs.map fun f => analyze f (options s) }

/-- The traces of all functions, in order. -/
def Run.trace (r : Run) : String :=
  Text.concat (r.results.map (·.trace))

end LoopConflict.Command
