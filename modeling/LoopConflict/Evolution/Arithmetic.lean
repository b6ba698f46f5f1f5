import LoopConflict.Evolution.Plan

/-!
Sums and products in canonical form. Nested sums and products are opened, constants are folded, like
terms are combined and the rest is put in order. Recurrences over one loop are merged; terms that do
not change in the innermost loop of a sum's recurrences go into the start of its recurrence, so that
a sum of linear functions of nested loops is a nest of recurrences with the innermost loop outside.
A constant factor is distributed over sums and recurrences.

Sums and products call for each other on smaller ones. How deep such calls may go is an argument:
`canonical` has no answer if it does not suffice, and `enough` of it always does.
-/
namespace LoopConflict.Evolution

open Loop (Forest LoopId)

def constant (n : Int64) : Plan Expr :=
  made (.const n) fun _ => false

/-- A recurrence; with step zero it is just its start. -/
def recurrence (l : LoopId) (start step : Expr) (noWrap : Table → Bool) : Plan Expr :=
  if step.isZero then return start else made (.recur l start step) noWrap

/-- The loop of the first deepest recurrence among the terms. -/
def leader (F : Forest) (terms : List Expr) : Option LoopId :=
  (terms.filterMap Expr.loop?).foldl (fun best l =>
    match best with
    | none => some l
    | some b => if F.depth b < F.depth l then some l else some b) none

/-- The start and the step of a recurrence over a loop. -/
def partsOver (l : LoopId) : Expr → Option (Expr × Expr)
  | .recur m s t => if m = l then some (s, t) else none
  | _ => none

/-- The starts of the recurrences over a loop. -/
def startsOver (l : LoopId) (terms : List Expr) : List Expr :=
  (terms.filterMap (partsOver l)).map (·.1)

/-- The steps of the recurrences over a loop. -/
def stepsOver (l : LoopId) (terms : List Expr) : List Expr :=
  (terms.filterMap (partsOver l)).map (·.2)

/-- The terms that are no recurrences over a loop. -/
def termsBeside (l : LoopId) (terms : List Expr) : List Expr :=
  terms.filter fun e => (partsOver l e).isNone

/-- No recurrence over the loop wraps around. Marks stay as they were recorded first, so it does not matter when they
    are read. -/
def noneWraps (l : LoopId) (terms : List Expr) (table : Table) : Bool :=
  (terms.filter fun e => (partsOver l e).isSome).all table.noWrap

/-- Adds a term to the entry of its like; one without like goes to the end. -/
def addLike (coeff : Int64) (base : Expr) : List (Int64 × Expr) → List (Int64 × Expr)
  | [] => [(coeff, base)]
  | (c, b) :: rest => if b = base then (c + coeff, b) :: rest else (c, b) :: addLike coeff base rest

/-- The terms with those that differ only in their constant factor added up. -/
def mergeLike (terms : List (Int64 × Expr)) : List (Int64 × Expr) :=
  terms.foldl (fun acc t => addLike t.1 t.2 acc) []

/-- The constant factor of a term, and the term without it. -/
def splitCoeff (e : Expr) : Plan (Int64 × Expr) :=
  match e with
  | .product k factors =>
    if k = 1 then return (1, e) else do
      let base ← request .product factors
      return (k, base)
  | e => return (1, e)

/-- A term with a constant factor: none for zero. -/
def scaled (t : Int64 × Expr) : Plan (List Expr) :=
  if t.1 = 0 then return []
  else if t.1 = 1 then return [t.2]
  else do
    let k ← constant t.1
    let e ← request .product [k, t.2]
    return [e]

/-- Combines like terms. -/
def combineLike (terms : List Expr) : Plan (List Expr) := do
  let parts ← terms.mapM splitCoeff
  let out ← (mergeLike parts).mapM scaled
  return out.flatten

/-- The terms and the constant behind them, unless it is zero. -/
def addConstant (k : Int64) (terms : List Expr) : Plan (List Expr) :=
  if k = 0 then return terms
  else do
    let c ← constant k
    return terms ++ [c]

/-- The sum of terms of which no two are alike. One term alone is no sum. -/
def addUp : List Expr → Plan Expr
  | [] => constant 0
  | [e] => return e
  | terms => made (Expr.sumOf terms) fun _ => false

/-- The sum of a constant and terms of which no two recurrences can be merged. -/
def finishSum (k : Int64) (terms : List Expr) : Plan Expr := do
  let terms ← combineLike terms
  let all ← addConstant k terms
  addUp all

/-- The sum of what recurrences were merged to, of the terms beside them and of a constant. -/
def addMerged (k : Int64) (rest : List Expr) (merged : Expr) : Plan Expr :=
  match merged with
  | .recur _ _ _ => finishSum k (rest ++ [merged])
  | _ => do
    let c ← constant k
    request .sum (rest ++ [merged, c])

/-- The sum of expressions. -/
def sumPlan (F : Forest) (ops : List Expr) : Plan Expr :=
  let (k, terms) := Expr.summandsOf ops
  match leader F terms with
  | none => finishSum k terms
  | some l =>
    if (termsBeside l terms).all (Expr.isInvariant F l) then do
      let c ← constant k
      let start ← request .sum (startsOver l terms ++ termsBeside l terms ++ [c])
      let step ← request .sum (stepsOver l terms)
      recurrence l start step (noneWraps l terms)
    else do
      let start ← request .sum (startsOver l terms)
      let step ← request .sum (stepsOver l terms)
      let merged ← recurrence l start step (noneWraps l terms)
      addMerged k (termsBeside l terms) merged

/-- The product of a constant and factors that are left as they are. -/
def multiplyOut (k : Int64) (factors : List Expr) : Plan Expr := do
  if k ≠ 1 then
    let _ ← constant k
  made (.product k (Expr.ordered factors)) fun _ => false

/-- The product of a constant and an expression: the constant is distributed over sums and recurrences. -/
def distribute (k : Int64) (e : Expr) : Plan Expr := do
  let c ← constant k
  match e with
  | .recur l s t =>
    let start ← request .product [c, s]
    let step ← request .product [c, t]
    recurrence l start step fun table => table.noWrap e
  | .sum n terms =>
    let out ← (Expr.withConstant 0 n terms).mapM fun t => request .product [c, t]
    request .sum out
  | e => multiplyOut k [e]

/-- The product of expressions. -/
def productPlan (ops : List Expr) : Plan Expr :=
  let (k, factors) := Expr.factorsOf ops
  if k = 0 then constant 0
  else match factors with
    | [] => constant k
    | [e] => if k = 1 then return e else distribute k e
    | factors => multiplyOut k factors

/-- What a call does. -/
def Combination.plan (F : Forest) : Combination → List Expr → Plan Expr
  | .sum, ops => sumPlan F ops
  | .product, ops => productPlan ops

/-- Puts expressions together, with calls at most `depth` deep. -/
def canonical (F : Forest) : (depth : Nat) → Callee
  | 0, _, _ => failure
  | depth + 1, op, ops => (op.plan F ops).run (canonical F depth)

/-- A depth of calls that suffices for the given expressions. -/
def enough (ops : List Expr) : Nat :=
  4 * (Expr.sizes ops + 1)

/-- Puts expressions together, with calls as deep as they go. -/
def together (F : Forest) : Callee :=
  fun op ops => canonical F (enough ops) op ops

/-- The expressions put together as they are. -/
def Combination.plain : Combination → List Expr → Expr
  | .sum, ops => .sum 0 ops
  | .product, ops => .product 1 ops

end LoopConflict.Evolution
