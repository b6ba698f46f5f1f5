import LoopConflict.Word
import LoopConflict.Linear.Form

/-!
Constraints brought to one side: distinct variables with non-zero coefficients on the left and a
constant on the right. Every step is checked; a constraint that overflows on the way, or that uses
an undeclared variable, is not brought into this form.
-/
namespace LoopConflict.Linear

/-- The sum of the terms, a coefficient for each variable's position, equals `rhs`. -/
structure Equation where
  terms : List (Nat × Int64)
  rhs : Int64
deriving DecidableEq, Repr

/-- What becomes of a constraint. -/
inductive Normalized where
  /-- The constraint holds iff the equation does. -/
  | equation (e : Equation)
  /-- No integers satisfy the constraint. -/
  | infeasible
  /-- The constraint cannot be decided here. -/
  | unknown
deriving DecidableEq, Repr

/-- The position of the last occurrence of a name. -/
def lastIndex? (names : List String) (name : String) : Option Nat :=
  (names.zipIdx.reverse.find? fun p => p.1 == name).map (·.2)

/-- Adds `a` to the coefficient of `i`; a variable not seen before goes to the end. -/
def addCoeff? (i : Nat) (a : Int64) : List (Nat × Int64) → Option (List (Nat × Int64))
  | [] => (Word.add? 0 a).map fun v => [(i, v)]
  | (j, b) :: rest =>
    if j = i then (Word.add? b a).map fun v => (j, v) :: rest
    else (addCoeff? i a rest).map ((j, b) :: ·)

/-- Adds every term, multiplied by `sign`. -/
def addTerms? (index : String → Option Nat) (sign : Int64) :
    List Term → List (Nat × Int64) → Option (List (Nat × Int64))
  | [], acc => some acc
  | t :: rest, acc => do
    let i ← index t.var
    let a ← Word.mul? sign t.coeff
    let acc ← addCoeff? i a acc
    addTerms? index sign rest acc

/-- The coefficients of a constraint, all on the left, and the constant on the right. -/
def collect? (index : String → Option Nat) (c : Constraint) : Option (List (Nat × Int64) × Int64) := do
  let acc ← addTerms? index 1 c.lhs.terms []
  let acc ← addTerms? index (-1) c.rhs.terms acc
  let rhs ← Word.sub? c.rhs.const c.lhs.const
  return (acc, rhs)

/-- Brings a constraint to one side; the greatest common divisor of the coefficients must divide the
    constant. -/
def normalize (index : String → Option Nat) (c : Constraint) : Normalized :=
  match collect? index c with
  | none => .unknown
  | some (acc, rhs) =>
    let terms := acc.filter (·.2 ≠ 0)
    if terms.any (·.2 = Int64.minValue) then .unknown
    else if terms.isEmpty then
      if rhs = 0 then .equation ⟨[], rhs⟩ else .infeasible
    else if rhs % terms.foldl (fun g t => Word.gcd g t.2) 0 = 0 then .equation ⟨terms, rhs⟩
    else .infeasible

end LoopConflict.Linear
