import LoopConflict.Evolution.Expr

/-!
The table of the expressions that were made: each is recorded once, under its key, together with
what is known about it. The first record of an expression stays, whatever is known later.
-/
namespace LoopConflict.Evolution

structure Entry where
  key : List Char
  expr : Expr
  /-- The recurrence does not wrap around while its loop runs. -/
  noWrap : Bool
deriving DecidableEq, Repr

/-- The entries, the latest first. -/
abbrev Table := List Entry

namespace Table

def find? (t : Table) (key : List Char) : Option Entry :=
  List.find? (fun entry => entry.key == key) t

/-- Records an expression unless it is recorded already. -/
def record (t : Table) (e : Expr) (noWrap : Bool) : Table :=
  let key := e.key
  match t.find? key with
  | some _ => t
  | none => ⟨key, e, noWrap⟩ :: t

/-- What is recorded about an expression. -/
def noWrap (t : Table) (e : Expr) : Bool :=
  (t.find? e.key).any (·.noWrap)

end Table

end LoopConflict.Evolution
