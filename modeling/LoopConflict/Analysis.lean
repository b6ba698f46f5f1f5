import LoopConflict.Access.Constraints

/-!
The analysis of a function: for every loop with an induction variable, its loads and stores, their
groups, and for each pair that can conflict a model and a verdict. What cannot be described is left
out and listed apart. A trace tells what was found out, loop by loop.
-/
namespace LoopConflict

open Loop (Forest LoopId)
open Program (Function Place Value)
open Evolution (Expr Context Query)
open Access

structure Options where
  trace : Bool := false
  /-- Accesses depend on address computations reached through any operand, not only the address. -/
  wide : Bool := false
  /-- The search nodes for each pair; the default if not positive. -/
  budget : Int := 0
  /-- The label of the objective; the default if empty. -/
  objective : String := ""
deriving DecidableEq, Repr

def defaultObjective : String := "obj"

def Options.label (o : Options) : String :=
  if o.objective = "" then defaultObjective else o.objective

/-- An access without affine indices: the step that has none, and why. -/
structure Dropped where
  place : Place
  step : Place
  error : AffineError
deriving DecidableEq, Repr

/-- The error, after the address computation that it is about. -/
def Dropped.message (c : Context) (d : Dropped) : String :=
  c.function.instructionText d.step ++ ": " ++ d.error.message c

structure Pair where
  a : MemoryAccess
  b : MemoryAccess
  base : Option Expr
  model : Linear.Model
  result : Linear.Result
deriving DecidableEq, Repr

structure LoopResult where
  loop : LoopId
  iv : Option InductionVariable := none
  accesses : List MemoryAccess := []
  dropped : List Dropped := []
  groups : List Group := []
  pairs : List Pair := []
  /-- All pairs at once; none if no variable is used. -/
  model : Option Linear.Model := none
  /-- The groups that could not be paired. -/
  errors : List ArityMismatch := []
deriving DecidableEq, Repr

structure FunctionResult where
  /-- The context at the end of the analysis, in which expressions have their texts. -/
  context : Context
  loops : List LoopResult
  trace : String
deriving Repr

def FunctionResult.function (r : FunctionResult) : Function :=
  r.context.function

/-- The loops that have a model. -/
def FunctionResult.models (r : FunctionResult) : List (LoopId × Linear.Model) :=
  r.loops.filterMap fun l => l.model.map fun m => (l.loop, m)

namespace Analysis

/-- What an analysis has gathered so far. -/
structure State where
  context : Context
  /-- The first load of each stable address in the current loop. -/
  loads : List (AddressKey × Value) := []
  /-- The lines of the trace, the last one first. -/
  lines : List String := []

abbrev Analyze := StateM State

/-- Asks a question about the function. -/
def ask {α : Type} (q : Query α) : Analyze α := fun s =>
  let (a, c) := q s.context
  (a, { s with context := c })

def forest : Analyze Forest :=
  return (← get).context.forest

/-- Adds a line to the trace, indented by the depth of the loop, if there is a trace. -/
def tell (o : Options) (l : LoopId) (line : Context → String) : Analyze Unit :=
  if o.trace then
    modify fun s =>
      { s with lines := (Text.repeated "  " (s.context.forest.depth l - 1) ++ line s.context) :: s.lines }
  else return ()

/-- The value that stands for `v` as a base. Stable loads of one address all stand for the first one. -/
def baseValue (l : LoopId) (v : Value) : Analyze Value := do
  match stableLoad? (← forest) l v with
  | none => return v
  | some key =>
    match (← get).loads.lookup key with
    | some first => return first
    | none =>
      modify fun s => { s with loads := (key, v) :: s.loads }
      return v

/-- The affine indices of address computations. -/
def describeSteps (l : LoopId) (ivs : Variables) :
    List Place → Analyze (Except (Place × AffineError) (List Affine))
  | [] => return .ok []
  | step :: rest => do
    let index ← ask (stepIndex step)
    let offset ← ask (Query.atScope (some l) index)
    match ← ask (decompose ivs offset) with
    | .error e => return .error (step, e)
    | .ok a =>
      match ← describeSteps l ivs rest with
      | .error e => return .error e
      | .ok as => return .ok (a :: as)

/-- Describes the load or store at a place. -/
def describe (o : Options) (ivs : Variables) (l : LoopId) (p : Place) :
    Analyze (Except Dropped MemoryAccess) := do
  let f := (← get).context.function
  let steps := addressSteps f p o.wide
  let base ← match rootBase? f steps with
    | none => pure none
    | some v => do
      let v ← baseValue l v
      let e ← ask (Query.evolution v)
      pure (some e)
  match ← describeSteps l ivs steps with
  | .error (step, e) => return .error ⟨p, step, e⟩
  | .ok equations =>
    let isStore := match f.operation? p with
      | some (.store _ _) => true
      | _ => false
    return .ok ⟨p, isStore, steps, base, equations⟩

/-- Tells the evolution of an integer value. -/
def tellValue (o : Options) (l : LoopId) (p : Place) : Analyze Unit := do
  let f := (← get).context.function
  match (f.instruction? p).bind (·.result) with
  | some _ =>
    if o.trace && f.isInteger (.result p) then
      let e ← ask (Query.evolution (.result p))
      tell o l fun c => "  " ++ f.assignmentText p ++ ": " ++ e.text c
  | none => return ()

/-- The equations of an access, in brackets. -/
def equationsText (f : Function) (equations : List Affine) : String :=
  "[" ++ Text.joined " " (equations.map (·.text f)) ++ "]"

/-- Describes the accesses at the given places. -/
def describeAll (o : Options) (ivs : Variables) (l : LoopId) :
    List Place → Analyze (List MemoryAccess × List Dropped)
  | [] => return ([], [])
  | p :: rest => do
    tellValue o l p
    let f := (← get).context.function
    if ((f.operation? p).map isAccess).getD false then
      match ← describe o ivs l p with
      | .error d =>
        tell o l fun c => "  dropped " ++ f.instructionText p ++ ": " ++ d.message c
        let (accesses, dropped) ← describeAll o ivs l rest
        return (accesses, d :: dropped)
      | .ok a =>
        tell o l fun c =>
          "  " ++ a.text f ++ ": base " ++ baseName c a.base ++ ", equations " ++ equationsText f a.equations
        let (accesses, dropped) ← describeAll o ivs l rest
        return (a :: accesses, dropped)
    else describeAll o ivs l rest

/-- Solves the pairs of a group. -/
def solvePairs (o : Options) (l : LoopId) (base : Option Expr) :
    List (MemoryAccess × MemoryAccess) → Analyze (List Pair)
  | [] => return []
  | (a, b) :: rest => do
    let model ← ask (pairModel o.label (a, b))
    let result := Linear.solve model o.budget
    tell o l fun c => "  " ++ a.kind ++ " and " ++ b.kind ++ " of " ++ baseName c base ++ ": " ++ result.text
    let pairs ← solvePairs o l base rest
    return ⟨a, b, base, model, result⟩ :: pairs

/-- Solves the pairs of all groups; a group with accesses of different arity is left out. -/
def solveGroups (o : Options) (l : LoopId) : List Group → Analyze (List Pair × List ArityMismatch)
  | [] => return ([], [])
  | g :: rest => do
    match g.pairs with
    | .error e =>
      tell o l fun c => "  group " ++ baseName c g.base ++ ": " ++ e.message c.function
      let (pairs, errors) ← solveGroups o l rest
      return (pairs, e :: errors)
    | .ok ps =>
      let first ← solvePairs o l g.base ps
      let (pairs, errors) ← solveGroups o l rest
      return (first ++ pairs, errors)

/-- The places of the instructions directly inside of a loop. -/
def directPlaces (F : Forest) (l : LoopId) : List Place :=
  (F.direct l).flatMap F.function.placesOf

/-- Analyzes a loop. -/
def analyzeLoop (o : Options) (ivs : Variables) (l : LoopId) : Analyze LoopResult := do
  let F ← forest
  tell o l fun _ =>
    "loop " ++ F.name l ++ " in " ++ F.function.text ++ " (depth " ++ Text.nat (F.depth l) ++ ")"
  match ivs.ofLoop? l with
  | none =>
    tell o l fun _ => "  no induction variable"
    return { loop := l }
  | some iv =>
    tell o l fun c => "  induction variable " ++ iv.text c
    modify fun s => { s with loads := [] }
    match ← ask (Query.tripCount l) with
    | some count => tell o l fun _ => "  backedge taken " ++ Text.word count.backedges ++ " times"
    | none => pure ()
    let (accesses, dropped) ← describeAll o ivs l (directPlaces F l)
    let groups := groupByBase accesses
    let (pairs, errors) ← solveGroups o l groups
    let model ← ask (conflictModel? o.label (pairs.map fun p => (p.a, p.b)))
    return { loop := l, iv := some iv, accesses, dropped, groups, pairs, model, errors }

/-- Analyzes loops one after the other. -/
def analyzeLoops (o : Options) (ivs : Variables) : List LoopId → Analyze (List LoopResult)
  | [] => return []
  | l :: rest => do
    let first ← analyzeLoop o ivs l
    let others ← analyzeLoops o ivs rest
    return first :: others

end Analysis

open Analysis in
/-- Analyzes a function whose loops have been found. -/
def analyzeForest (F : Forest) (o : Options) : FunctionResult :=
  let (ivs, context) := recognizeAll (Context.ofForest F)
  let (loops, s) := analyzeLoops o ivs F.ids { context := context }
  { context := s.context
    loops := loops
    trace := Text.concat (s.lines.reverse.map (· ++ "\n")) }

/-- Analyzes the loops of a function. -/
def analyze (f : Function) (o : Options) : FunctionResult :=
  analyzeForest (Forest.ofFunction f) o

end LoopConflict
