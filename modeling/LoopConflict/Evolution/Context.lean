import LoopConflict.Evolution.Arithmetic

/-!
The expressions of one function. A context numbers the values that are not looked into in the order
in which they are met, records the expressions that were made, and remembers what was found out about
values.
-/
namespace LoopConflict.Evolution

open Loop (Forest LoopId)
open Program (Function Value)

structure Context where
  forest : Forest
  /-- The unknown values; the position is the number. -/
  unknowns : List Value
  table : Table
  /-- The evolution of values, the latest finding first. -/
  memo : List (Value × Expr)
deriving Repr

/-- A context in which nothing was asked yet. -/
def Context.ofForest (F : Forest) : Context :=
  ⟨F, [], [], []⟩

def Context.function (c : Context) : Function :=
  c.forest.function

/-- Questions about one function, asked one after the other. -/
abbrev Query := StateM Context

/-- Makes an expression; if there is no answer, `plain` stands for it. -/
@[irreducible]
def build (plain : Expr) (plan : Plan Expr) : Query Expr := fun c =>
  match plan.run (together c.forest) c.table with
  | some (e, table) => (e, { c with table := table })
  | none => (plain, c)

theorem build_of_run {plain e : Expr} {plan : Plan Expr} {c : Context} {table : Table}
    (made : plan.run (together c.forest) c.table = some (e, table)) :
    build plain plan c = (e, { c with table := table }) := by
  unfold build
  rw [made]

namespace Query

/-- The constant `n`. -/
def const (n : Int64) : Query Expr :=
  build (.const n) (constant n)

theorem const_apply (n : Int64) (c : Context) :
    const n c = (.const n, { c with table := c.table.record (.const n) false }) :=
  build_of_run rfl

theorem const_fst (n : Int64) (c : Context) : (const n c).1 = .const n := by
  rw [const_apply]

/-- The expression of a value that is not looked into. -/
def unknown (v : Value) : Query Expr := fun c =>
  match c.unknowns.idxOf? v with
  | some number => (.unknown number v, c)
  | none =>
    let e := Expr.unknown c.unknowns.length v
    (e, { c with unknowns := c.unknowns ++ [v], table := c.table.record e false })

/-- The recurrence over a loop with a given start and step. -/
def recur (l : LoopId) (start step : Expr) (noWrap : Bool) : Query Expr :=
  build (.recur l start step) (recurrence l start step fun _ => noWrap)

/-- Puts expressions together in canonical form. -/
def combine (op : Combination) (ops : List Expr) : Query Expr :=
  build (op.plain ops) (request op ops)

/-- The sum of expressions. -/
def sum (ops : List Expr) : Query Expr :=
  combine .sum ops

/-- The product of expressions. -/
def product (ops : List Expr) : Query Expr :=
  combine .product ops

def negate (e : Expr) : Query Expr := do
  let k ← const (-1)
  product [k, e]

theorem negate_apply (e : Expr) (c : Context) : negate e c = product [.const (-1), e] (const (-1) c).2 := by
  change product [(const (-1) c).1, e] (const (-1) c).2 = _
  rw [const_apply]

/-- The difference `x - y`. -/
def difference (x y : Expr) : Query Expr := do
  let n ← negate y
  sum [x, n]

/-- What is recorded about a recurrence. -/
def noWrap (e : Expr) : Query Bool :=
  return (← get).table.noWrap e

/-- The expression has the same value in every iteration of the loop. -/
def isInvariant (l : LoopId) (e : Expr) : Query Bool :=
  return e.isInvariant (← get).forest l

end Query

mutual

/-- The text of an expression, as it is known in a context. -/
def Expr.text (c : Context) : Expr → String
  | .const n => Text.word n
  | .unknown _ v => c.function.sourceName v
  | .recur l s t =>
    "\x7b" ++ s.text c ++ ",+," ++ t.text c ++ "\x7d" ++
      (if c.table.noWrap (.recur l s t) then "<nw>" else "") ++ "<" ++ c.forest.name l ++ ">"
  | .sum k ts => "(" ++ Text.joined " + " ((if k = 0 then [] else [Text.word k]) ++ Expr.texts c ts) ++ ")"
  | .product k ts => "(" ++ Text.joined " * " ((if k = 1 then [] else [Text.word k]) ++ Expr.texts c ts) ++ ")"

def Expr.texts (c : Context) : List Expr → List String
  | [] => []
  | e :: es => e.text c :: Expr.texts c es

end

/-- The text of an expression. -/
def Query.text (e : Expr) : Query String :=
  return e.text (← get)

end LoopConflict.Evolution
