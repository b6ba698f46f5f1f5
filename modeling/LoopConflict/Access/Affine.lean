import LoopConflict.Access.Induction
import LoopConflict.Linear.Form

/-!
Affine functions of induction variables. An index is decomposed by peeling its recurrences one after
the other; each must be a constant multiple of its loop's induction variable, and a constant must
remain.
-/
namespace LoopConflict.Access

open Loop (Forest LoopId)
open Program (Function)
open Evolution (Expr Context Query)

structure Coefficient where
  iv : InductionVariable
  value : Int64
deriving DecidableEq, Repr

/-- The sum of the variables times their coefficients, and a constant. -/
structure Affine where
  coeffs : List Coefficient
  const : Int64
deriving DecidableEq, Repr

/-- The linear form with a name for each variable. -/
def Affine.linear (name : InductionVariable → String) (a : Affine) : Linear.Form :=
  ⟨a.coeffs.map fun c => ⟨c.value, name c.iv⟩, a.const⟩

def Affine.text (f : Function) (a : Affine) : String :=
  (a.linear (InductionVariable.name f)).text

/-- Why an index has no affine form. -/
inductive AffineError where
  | noVariable (loop : LoopId)
  /-- A step is not a multiple of the variable's step. -/
  | notMultiple (step divisor : Expr)
  | notConstant (coefficient : Expr) (iv : InductionVariable)
  | remains (rest : Expr)
deriving DecidableEq, Repr

def AffineError.message (c : Context) : AffineError → String
  | .noVariable l => "no induction variable for loop " ++ c.forest.name l
  | .notMultiple step divisor =>
    "index is not affine: step " ++ step.text c ++ " is not a multiple of " ++ divisor.text c
  | .notConstant coefficient iv =>
    "index is not affine: coefficient " ++ coefficient.text c ++ " of " ++ iv.name c.function ++
      " is not constant"
  | .remains rest => "index is not affine: " ++ rest.text c ++ " remains"

/-- Divides a constant: the quotient must not be zero, and the remainder is added to `rem`. -/
def factorConst (n : Int64) (divisor : Option Int64) (rem : Expr) : Query (Option (Expr × Expr)) :=
  match divisor with
  | none => return none
  | some f =>
    if f = 0 ∨ n / f = 0 then return none
    else do
      let q ← Query.const (n / f)
      let r ← Query.const (n % f)
      let rem ← Query.sum [rem, r]
      return some (q, rem)

/-- Divides the constant factor of a product, which must be a multiple. -/
def factorProduct (k : Int64) (factors : List Expr) (divisor : Option Int64) (rem : Expr) :
    Query (Option (Expr × Expr)) :=
  match divisor with
  | none => return none
  | some f =>
    if k = 1 ∨ f = 0 ∨ k % f ≠ 0 then return none
    else do
      let c ← Query.const (k / f)
      let q ← Query.product (c :: factors)
      return some (q, rem)

/-- Writes `e + rem` as `divisor * q` and a new remainder. Division truncates; other ways to factor are
    not tried. -/
def factor (divisor : Expr) : (e rem : Expr) → Query (Option (Expr × Expr))
  | e, rem => do
    if divisor = .const 1 then return some (e, rem)
    else if e = divisor then
      let q ← Query.const 1
      return some (q, rem)
    else match e with
      | .const n =>
        if n = 0 then
          let q ← Query.const 0
          return some (q, rem)
        else factorConst n divisor.const? rem
      | .product k factors => factorProduct k factors divisor.const? rem
      | .recur l s t =>
        let noWrap ← Query.noWrap (.recur l s t)
        let zero ← Query.const 0
        match ← factor divisor t zero with
        | none => return none
        | some (step, stepRem) =>
          if stepRem.isZero then
            match ← factor divisor s rem with
            | none => return none
            | some (start, rem) =>
              let q ← Query.recur l start step noWrap
              return some (q, rem)
          else return none
      | _ => return none

/-- One peeling: the coefficient of the recurrence's variable, and what is left. -/
def peel (ivs : Variables) (l : LoopId) (start step : Expr) :
    Query (Except AffineError (Coefficient × Expr)) := do
  match ivs.ofLoop? l with
  | none => return .error (.noVariable l)
  | some iv =>
    if ivs.withRecurrence? (.recur l start step) = some iv then
      let zero ← Query.const 0
      return .ok (⟨iv, 1⟩, zero)
    else
      let zero ← Query.const 0
      match ← factor iv.step step zero with
      | none => return .error (.notMultiple step iv.step)
      | some (q, rem) =>
        if rem.isZero then
          match q with
          | .const k =>
            let scaledStart ← Query.product [q, iv.start]
            let rest ← Query.difference start scaledStart
            return .ok (⟨iv, k⟩, rest)
          | _ => return .error (.notConstant q iv)
        else return .error (.notMultiple step iv.step)

/-- Peels recurrences until none is left; there is no answer after `peelings` of them. -/
def peelAll (ivs : Variables) : (peelings : Nat) → Expr → Query (Option (Except AffineError Affine))
  | peelings + 1, .recur l start step => do
    match ← peel ivs l start step with
    | .error err => return some (.error err)
    | .ok (c, rest) =>
      match ← peelAll ivs peelings rest with
      | some (.ok a) => return some (.ok ⟨c :: a.coeffs, a.const⟩)
      | other => return other
  | 0, .recur _ _ _ => return none
  | _, .const k => return some (.ok ⟨[], k⟩)
  | _, e => return some (.error (.remains e))

/-- Enough peelings for an index. A peeling removes a recurrence and brings in those of the start of its
    variable, which are over loops that come before, so they multiply at most once for each loop. -/
def enoughPeelings (F : Forest) (ivs : Variables) (offset : Expr) : Nat :=
  offset.size * Nat.pow (Expr.sizes (ivs.map (·.start)) + 1) F.loops.length

/-- The affine form of an index; its coefficients go from the innermost loop outwards. -/
def decompose (ivs : Variables) (offset : Expr) : Query (Except AffineError Affine) := do
  match ← peelAll ivs (enoughPeelings (← get).forest ivs offset) offset with
  | some answer => return answer
  | none => return .error (.remains offset)

end LoopConflict.Access
