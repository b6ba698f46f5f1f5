import LoopConflict.Evolution.TripCount

/-!
Expressions as they are seen from a scope, a loop or the function outside of all loops. A loop that
is not around the scope has finished, so its recurrences have the value of their last iteration.
-/
namespace LoopConflict.Evolution

open Loop (Forest LoopId)

/-- The loop is around the scope. -/
def isAround (F : Forest) (l : LoopId) : Option LoopId → Bool
  | none => false
  | some scope => F.containsLoop l scope

theorem isAround_none (F : Forest) (l : LoopId) : isAround F l none = false :=
  rfl

theorem isAround_some (F : Forest) (l scope : LoopId) : isAround F l (some scope) = F.containsLoop l scope :=
  rfl

mutual

/-- The expression with the recurrences of finished loops replaced by their last value, where the
    number of iterations is known. -/
def Query.atScope (scope : Option LoopId) : Expr → Query Expr
  | .recur l s t => do
    let noWrap ← Query.noWrap (.recur l s t)
    let start ← Query.atScope scope s
    let step ← Query.atScope scope t
    if isAround (← get).forest l scope then Query.recur l start step noWrap
    else match ← Query.tripCount l with
      | none => Query.recur l start step noWrap
      | some count =>
        let n ← Query.const count.backedges
        let growth ← Query.product [step, n]
        Query.sum [start, growth]
  | .sum k ts => do
    let terms ← Query.allAtScope scope ts
    Query.sum (.const k :: terms)
  | .product k ts => do
    let factors ← Query.allAtScope scope ts
    Query.product (.const k :: factors)
  | e => return e

def Query.allAtScope (scope : Option LoopId) : List Expr → Query (List Expr)
  | [] => return []
  | e :: es => do
    let first ← Query.atScope scope e
    let rest ← Query.allAtScope scope es
    return first :: rest

end

end LoopConflict.Evolution
