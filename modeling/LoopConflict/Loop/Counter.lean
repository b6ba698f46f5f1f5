import LoopConflict.Loop.Forest

/-!
Canonical counters: integer phis in the header of a loop that start at zero and grow by one on the
back edge.
-/
namespace LoopConflict.Loop

open Program (Function Place Value Operation)

/-- The value is the integer constant `n`, possibly given another type. -/
def isConstant (f : Function) (n : Int64) (v : Value) : Bool :=
  match f.definition? v with
  | some (.changeType x) => f.constant? x == some n
  | _ => f.constant? v == some n

/-- The last edge of a phi that comes from a given predecessor. -/
def lastEdge? (preds : List Nat) (edges : List Value) (b : Nat) : Option Value :=
  (((preds.zip edges).filter (·.1 == b)).getLast?).map (·.2)

/-- The value is the result of the phi plus one. -/
def isIncrement (f : Function) (phi : Place) (v : Value) : Bool :=
  match f.definition? v with
  | some (.binary .add x y) =>
    (x == .result phi && isConstant f 1 y) || (y == .result phi && isConstant f 1 x)
  | _ => false

/-- The phi counts from zero in steps of one, from `entry` and `latch`. -/
def isCounter (f : Function) (l : NaturalLoop) (entry latch : Nat) (phi : Place) : Bool :=
  match f.operation? phi with
  | some (.phi edges _) =>
    let preds := f.preds l.header
    f.isInteger (.result phi) && (lastEdge? preds edges entry).any (isConstant f 0) &&
      (lastEdge? preds edges latch).any (isIncrement f phi)
  | _ => false

/-- The first canonical counter of a loop with a single entry and a single back edge. -/
def NaturalLoop.counter? (l : NaturalLoop) (f : Function) : Option Place := do
  let entry ← l.entry? f
  let latch ← l.latch?
  (l.phis f).find? (isCounter f l entry latch)

end LoopConflict.Loop
