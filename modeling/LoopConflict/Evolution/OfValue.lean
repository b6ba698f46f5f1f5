import LoopConflict.Evolution.Context

/-!
The evolution of values. Integer arithmetic is followed through its operands; a phi in the header of
a loop that only grows by a step which the loop does not change is a recurrence. A value that is
asked for again while its own evolution is being found out counts as unknown.
-/
namespace LoopConflict.Evolution

open Loop (Forest LoopId)
open Program (Function Value Place Operation)

/-- The only value of a list, whatever its number of occurrences. -/
def single? : List Value → Option Value
  | [] => none
  | v :: rest => if rest.all (· == v) then some v else none

/-- A phi that counts: its loop, its value in the first iteration, what it grows by, and whether it
    shrinks instead. -/
structure Counting where
  loop : LoopId
  start : Value
  step : Value
  down : Bool
deriving DecidableEq, Repr

/-- The step of a phi that gets `next` in every further iteration. -/
def stepOf? (f : Function) (phi : Place) (next : Value) : Option (Value × Bool) :=
  match f.definition? next with
  | some (.binary .add x y) =>
    if x = .result phi then some (y, false) else if y = .result phi then some (x, false) else none
  | some (.binary .sub x y) => if x = .result phi then some (y, true) else none
  | _ => none

/-- Reads the phi at a place as one that counts: all edges from outside of the loop carry one value,
    all edges from inside carry the phi plus or minus one value that the loop does not define. -/
def counting? (F : Forest) (phi : Place) (edges : List Value) : Option Counting := do
  let l ← F.headedBy? phi.block
  let incoming := (F.function.preds phi.block).zip edges
  let next ← single? ((incoming.filter fun p => F.contains l p.1).map (·.2))
  let start ← single? ((incoming.filter fun p => !F.contains l p.1).map (·.2))
  let (step, down) ← stepOf? F.function phi next
  if F.defines l step then none else some ⟨l, start, step, down⟩

section

variable (self : Value → Query Expr)

/-- The recurrence of a phi that counts, if the loop does not change its step. -/
def evolutionOfCounting (phi : Place) (c : Counting) : Query Expr := do
  let step ← self c.step
  let step ← if c.down then Query.negate step else pure step
  if ← Query.isInvariant c.loop step then
    let start ← self c.start
    Query.recur c.loop start step true
  else Query.unknown (.result phi)

/-- The evolution of the result of an operation with an integer type. -/
def evolutionOfOperation (F : Forest) (p : Place) (operation : Operation) : Query Expr :=
  let f := F.function
  match operation with
  | .binary .add x y => do
    let a ← self x
    let b ← self y
    Query.sum [a, b]
  | .binary .sub x y => do
    let a ← self x
    let b ← self y
    Query.difference a b
  | .binary .mul x y => do
    let a ← self x
    let b ← self y
    Query.product [a, b]
  | .binary .shl x y =>
    match f.constant? y with
    | some n =>
      if 0 ≤ n ∧ n < 63 then do
        let a ← self x
        let b ← Query.const ((1 : Int64) <<< n)
        Query.product [a, b]
      else Query.unknown (.result p)
    | none => Query.unknown (.result p)
  | .convert x => if f.isInteger x then self x else Query.unknown (.result p)
  | .changeType x => if f.isInteger x then self x else Query.unknown (.result p)
  | .phi edges _ =>
    match counting? F p edges with
    | some c => evolutionOfCounting self p c
    | none => Query.unknown (.result p)
  | _ => Query.unknown (.result p)

/-- The evolution of a value that was not asked for before. -/
def findEvolution (v : Value) : Query Expr := do
  let F := (← get).forest
  if F.function.isInteger v then
    match v with
    | .const _ =>
      match F.function.constant? v with
      | some n => Query.const n
      | none => Query.unknown v
    | .result p =>
      match F.function.operation? p with
      | some operation => evolutionOfOperation self F p operation
      | none => Query.unknown v
    | _ => Query.unknown v
  else Query.unknown v

end

/-- Remembers the evolution of a value. -/
def remember (v : Value) (e : Expr) : Query Unit :=
  modify fun c => { c with memo := (v, e) :: c.memo }

/-- The evolution of a value, through at most `depth` values that were not asked for before. While it
    is being found out the value counts as unknown. -/
def evolutionWithin : (depth : Nat) → Value → Query Expr
  | 0, v => Query.unknown v
  | depth + 1, v => do
    match (← get).memo.lookup v with
    | some e => return e
    | none =>
      remember v (← Query.unknown v)
      let e ← findEvolution (evolutionWithin depth) v
      remember v e
      return e

/-- The evolution of a value. -/
def Query.evolution (v : Value) : Query Expr := do
  evolutionWithin ((← get).function.valueCount + 1) v

end LoopConflict.Evolution
