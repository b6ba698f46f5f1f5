import LoopConflict.Evolution.OfValue
import LoopConflict.Word

/-!
How often a loop runs. The count is known for loops that are left by comparing a recurrence with
constant start and step to a constant, in the header or the latch.
-/
namespace LoopConflict.Evolution

open Loop (Forest LoopId)
open Program (Function Value Comparison)

/-- The first `k` at which `start + step * k` does not compare to `limit` as asked. Nothing is said if
    the step is zero or leads away from the limit. -/
def firstFailure (c : Comparison) (start step limit : Int64) : Option Int64 :=
  if step = 0 then none
  else
    let below (limit : Int64) : Option Int64 :=
      if limit ≤ start then some 0
      else if step < 0 then none
      else some (Word.ceilDiv (limit - start) step)
    let above (limit : Int64) : Option Int64 :=
      if start ≤ limit then some 0
      else if 0 < step then none
      else some (Word.ceilDiv (start - limit) (-step))
    match c with
    | .lt => below limit
    | .le => below (limit + 1)
    | .gt => above limit
    | .ge => above (limit - 1)
    | .ne =>
      let d := limit - start
      if d % step = 0 ∧ 0 ≤ d / step then some (d / step) else none
    | .eq => some (if start = limit then 1 else 0)

/-- The condition of the branch at the end of a block that either stays in the loop or leaves it: the
    comparison under which control stays, and its operands. -/
def stayCondition? (F : Forest) (l : LoopId) (b : Nat) : Option (Comparison × Value × Value) :=
  match F.function.succs b, (F.function.placesOf b).getLast?.bind F.function.operation? with
  | [yes, no], some (.branch condition) =>
    if F.contains l yes = F.contains l no then none
    else match F.function.definition? condition with
      | some (.binary (.compare c) x y) => some (if F.contains l yes then c else c.negate, x, y)
      | _ => none
  | _, _ => none

/-- The start and step of a recurrence over the loop, and the constant that it is compared to. -/
def against? (l : LoopId) (x y : Expr) : Option (Expr × Expr × Int64) :=
  match x, y with
  | .recur m s t, .const n => if m = l then some (s, t, n) else none
  | _, _ => none

/-- Brings the recurrence of a comparison to the left. -/
def oriented? (l : LoopId) (c : Comparison) (x y : Expr) : Option (Comparison × Expr × Expr × Int64) :=
  match against? l x y with
  | some p => some (c, p)
  | none => (against? l y x).map fun p => (c.flip, p)

/-- The first iteration in which the branch at the end of a block leaves the loop. -/
def Query.exitIteration? (l : LoopId) (b : Nat) : Query (Option Int64) := do
  match stayCondition? (← get).forest l b with
  | none => return none
  | some (c, x, y) =>
    let x ← Query.evolution x
    let y ← Query.evolution y
    match oriented? l c x y with
    | some (c, .const start, .const step, limit) => return firstFailure c start step limit
    | _ => return none

/-- How often the back edge of a loop is taken. -/
structure TripCount where
  backedges : Int64
  /-- The loop is left at its top, before the rest of the body runs. -/
  atHeader : Bool
deriving DecidableEq, Repr

/-- The exiting blocks whose test every iteration runs into: the header, then the latch. -/
def exitCandidates (F : Forest) (l : Loop.NaturalLoop) : List Nat :=
  let exiting := l.exiting F.function
  exiting.filter (· == l.header) ++ exiting.filter fun b => b ≠ l.header && some b == l.latch?

/-- The count that the first telling candidate gives. -/
def Query.tripCountFrom (l : LoopId) (x : Loop.NaturalLoop) : List Nat → Query (Option TripCount)
  | [] => return none
  | b :: rest => do
    match ← Query.exitIteration? l b with
    | some n => return some ⟨n, b == x.header && x.latch? ≠ some x.header⟩
    | none => Query.tripCountFrom l x rest

/-- How often the back edge of a loop is taken, if that is known. -/
def Query.tripCount (l : LoopId) : Query (Option TripCount) := do
  let F := (← get).forest
  match F.loop? l with
  | none => return none
  | some x => Query.tripCountFrom l x (exitCandidates F x)

end LoopConflict.Evolution
