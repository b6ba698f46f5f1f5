import LoopConflict.Access.Pairing
import LoopConflict.Linear.Name
import LoopConflict.Linear.Search

/-!
Models of conflicts. Each side of a pair has its own copies of the induction variables; at every index
position the two sides must be equal, and every copy stays within the range that its loop gives the
variable.
-/
namespace LoopConflict.Access

open Program (Function)
open Evolution (Expr Context Query)

/-- The two sides of a pair. -/
inductive Side where
  | first
  | second
deriving DecidableEq, Repr

/-- How a side shows in the names of its variables. -/
def Side.mark : Side → String
  | .first => "a"
  | .second => "B"

/-- The name of a variable's copy for one side. -/
def copyName (f : Function) (side : Side) (iv : InductionVariable) : String :=
  Linear.nameOf (iv.name f ++ "_" ++ side.mark)

/-- The equal indices of pairs, one pair after the other. -/
def equalIndices (pairs : List (MemoryAccess × MemoryAccess)) : List (Affine × Affine) :=
  pairs.flatMap fun p => p.1.equations.zip p.2.equations

/-- The constraints that indices are equal, numbered from 0. -/
def constraintsOf (f : Function) (indices : List (Affine × Affine)) : List Linear.Constraint :=
  indices.zipIdx.map fun (p, i) =>
    { name := "eqn" ++ Text.nat i
      lhs := p.1.linear (copyName f .first)
      rhs := p.2.linear (copyName f .second) }

/-- The variable copies that indices use, in order, with repetitions. -/
def copiesUsed (f : Function) (indices : List (Affine × Affine)) : List (String × InductionVariable) :=
  indices.flatMap fun p =>
    (p.1.coeffs.map fun c => (copyName f .first c.iv, c.iv)) ++
      p.2.coeffs.map fun c => (copyName f .second c.iv, c.iv)

/-- The first entry of each name. -/
def firstByName (entries : List (String × InductionVariable)) : List (String × InductionVariable) :=
  entries.foldl (fun acc e => if acc.any (·.1 == e.1) then acc else acc ++ [e]) []

/-- The smallest and the largest value that a variable takes in the body of its loop, as far as they are
    constant. -/
def bounds (iv : InductionVariable) : Query (Option Int64 × Option Int64) := do
  let parent := ((← get).forest.loop? iv.loop).bind (·.parent)
  let step := iv.step.const?.getD 0
  let first := iv.start.const?
  let last ← do
    match ← Query.atScope parent iv.recurrence with
    | .const exit =>
      -- A value that makes the test at the top leave the loop does not reach the body.
      match ← Query.tripCount iv.loop with
      | some ⟨_, true⟩ => pure (some (if 0 < step then exit - 1 else exit + 1))
      | _ => pure (some exit)
    | _ => pure none
  return if step < 0 then (last, first) else (first, last)

/-- The declarations of variable copies. -/
def declare : List (String × InductionVariable) → Query (List Linear.Var)
  | [] => return []
  | (name, iv) :: rest => do
    let (lower, upper) ← bounds iv
    let vars ← declare rest
    return ⟨name, lower, upper⟩ :: vars

/-- The model in which all pairs have equal indices, if it has a variable. -/
def conflictModel? (label : String) (pairs : List (MemoryAccess × MemoryAccess)) :
    Query (Option Linear.Model) := do
  let f := (← get).function
  let indices := equalIndices pairs
  match firstByName (copiesUsed f indices) with
  | [] => return none
  | copies@((objective, _) :: _) =>
    let vars ← declare copies
    return some ⟨label, vars, objective, constraintsOf f indices⟩

/-- The model of a single pair, with or without variables. -/
def pairModel (label : String) (pair : MemoryAccess × MemoryAccess) : Query Linear.Model := do
  match ← conflictModel? label [pair] with
  | some m => return m
  | none => return ⟨label, [], "", constraintsOf (← get).function (equalIndices [pair])⟩

end LoopConflict.Access
