import LoopConflict.Evolution.Scope
import LoopConflict.Loop.Counter

/-!
Induction variables: the phi that counts the iterations of a loop, with its recurrence. At most one is
chosen for each loop, the canonical counter if there is one.
-/
namespace LoopConflict.Access

open Loop (Forest LoopId)
open Program (Function Place)
open Evolution (Expr Context Query)

structure InductionVariable where
  phi : Place
  loop : LoopId
  start : Expr
  step : Expr
deriving DecidableEq, Repr

namespace InductionVariable

/-- How the variable evolves. -/
def recurrence (iv : InductionVariable) : Expr :=
  .recur iv.loop iv.start iv.step

/-- The name of the variable in models and traces. -/
def name (f : Function) (iv : InductionVariable) : String :=
  f.sourceName (.result iv.phi)

def text (c : Context) (iv : InductionVariable) : String :=
  iv.name c.function ++ " = " ++ iv.recurrence.text c

end InductionVariable

/-- The variable of a phi that evolves in its loop. -/
def asVariable? (l : LoopId) (phi : Place) : Expr → Option InductionVariable
  | .recur m start step => if m = l then some ⟨phi, l, start, step⟩ else none
  | _ => none

/-- The first phi that can count and grows by a constant in the loop. -/
def firstCounting (l : LoopId) : List Place → Query (Option InductionVariable)
  | [] => return none
  | phi :: rest => do
    let f := (← get).function
    if (f.typeOf (.result phi)).isCounter f.types then
      let e ← Query.evolution (.result phi)
      match asVariable? l phi e with
      | some iv => if iv.step.const?.isSome then return some iv else firstCounting l rest
      | none => firstCounting l rest
    else firstCounting l rest

/-- The induction variable of a loop. The canonical counter is preferred; without one that evolves in
    the loop, a loop with a single entry and a single back edge has its first counting phi. -/
def recognize (l : LoopId) : Query (Option InductionVariable) := do
  let F := (← get).forest
  match F.loop? l with
  | none => return none
  | some x =>
    let others : Query (Option InductionVariable) :=
      if x.latch?.isSome && (x.entry? F.function).isSome then firstCounting l (x.phis F.function)
      else return none
    match x.counter? F.function with
    | none => others
    | some phi =>
      let e ← Query.evolution (.result phi)
      match asVariable? l phi e with
      | some iv => return some iv
      | none => others

/-- The induction variables of the loops of a function. -/
abbrev Variables := List InductionVariable

namespace Variables

/-- The variable of a loop. -/
def ofLoop? (ivs : Variables) (l : LoopId) : Option InductionVariable :=
  ivs.find? (·.loop == l)

/-- The variable with a given recurrence. -/
def withRecurrence? (ivs : Variables) (e : Expr) : Option InductionVariable :=
  ivs.find? (·.recurrence == e)

end Variables

/-- The induction variables of the given loops. -/
def recognizeEach : List LoopId → Query Variables
  | [] => return []
  | l :: rest => do
    let iv ← recognize l
    let ivs ← recognizeEach rest
    return iv.toList ++ ivs

/-- The induction variables of all loops, outer loops first. -/
def recognizeAll : Query Variables := do
  recognizeEach (← get).forest.ids

end LoopConflict.Access
