import LoopConflict.Loop.Forest

/-!
Symbolic integers: how a value changes across the iterations of loops. A recurrence has its start
value in the first iteration of its loop and grows by its step with every further one. Sums and
products keep their constant apart from the other terms. The key of an expression is a text that
tells it from every other one; keys also put terms in order.
-/
namespace LoopConflict.Evolution

open Loop (LoopId)
open Program (Value)

inductive Expr where
  | const (n : Int64)
  /-- A value that is not looked into, with the number it got when it was first met. -/
  | unknown (number : Nat) (value : Value)
  /-- The value `start` in the first iteration of the loop, and `step` more in each further one. -/
  | recur (loop : LoopId) (start step : Expr)
  /-- The constant and the terms added up. -/
  | sum (k : Int64) (terms : List Expr)
  /-- The constant and the factors multiplied. -/
  | product (k : Int64) (factors : List Expr)
deriving Repr, Inhabited

namespace Expr

mutual

/-- Equality of expressions can be decided by comparing their parts. -/
def decideEq : (a b : Expr) → Decidable (a = b)
  | .const m, .const n => decidable_of_iff (m = n) (by simp)
  | .unknown i v, .unknown j w => decidable_of_iff (i = j ∧ v = w) (by simp)
  | .recur l s t, .recur l' s' t' =>
    match decEq l l', decideEq s s', decideEq t t' with
    | isTrue hl, isTrue hs, isTrue ht => isTrue (by rw [hl, hs, ht])
    | isFalse hl, _, _ => isFalse (by simp [hl])
    | _, isFalse hs, _ => isFalse (by simp [hs])
    | _, _, isFalse ht => isFalse (by simp [ht])
  | .sum k ts, .sum k' ts' =>
    match decEq k k', decideEqList ts ts' with
    | isTrue hk, isTrue ht => isTrue (by rw [hk, ht])
    | isFalse hk, _ => isFalse (by simp [hk])
    | _, isFalse ht => isFalse (by simp [ht])
  | .product k ts, .product k' ts' =>
    match decEq k k', decideEqList ts ts' with
    | isTrue hk, isTrue ht => isTrue (by rw [hk, ht])
    | isFalse hk, _ => isFalse (by simp [hk])
    | _, isFalse ht => isFalse (by simp [ht])
  | .const _, .unknown _ _ | .const _, .recur _ _ _ | .const _, .sum _ _ | .const _, .product _ _
  | .unknown _ _, .const _ | .unknown _ _, .recur _ _ _ | .unknown _ _, .sum _ _
  | .unknown _ _, .product _ _ | .recur _ _ _, .const _ | .recur _ _ _, .unknown _ _
  | .recur _ _ _, .sum _ _ | .recur _ _ _, .product _ _ | .sum _ _, .const _ | .sum _ _, .unknown _ _
  | .sum _ _, .recur _ _ _ | .sum _ _, .product _ _ | .product _ _, .const _
  | .product _ _, .unknown _ _ | .product _ _, .recur _ _ _ | .product _ _, .sum _ _ =>
    isFalse (by simp)

def decideEqList : (as bs : List Expr) → Decidable (as = bs)
  | [], [] => isTrue rfl
  | [], _ :: _ | _ :: _, [] => isFalse (by simp)
  | a :: as, b :: bs =>
    match decideEq a b, decideEqList as bs with
    | isTrue h, isTrue hs => isTrue (by rw [h, hs])
    | isFalse h, _ => isFalse (by simp [h])
    | _, isFalse hs => isFalse (by simp [hs])

end

instance : DecidableEq Expr := decideEq

/-- The value of a constant. -/
def const? : Expr → Option Int64
  | .const n => some n
  | _ => none

/-- The expression is the constant zero. -/
def isZero (e : Expr) : Bool :=
  e.const? == some 0

/-- The loop of a recurrence. -/
def loop? : Expr → Option LoopId
  | .recur l _ _ => some l
  | _ => none

mutual

/-- The number of parts of an expression. -/
def size : Expr → Nat
  | .const _ => 1
  | .unknown _ _ => 1
  | .recur _ s t => s.size + t.size + 1
  | .sum _ ts => sizes ts + 1
  | .product _ ts => sizes ts + 1

def sizes : List Expr → Nat
  | [] => 0
  | e :: es => e.size + sizes es

end

/-- The terms with the constant in front, unless it is the one that changes nothing. -/
def withConstant (unit k : Int64) (ts : List Expr) : List Expr :=
  if k = unit then ts else .const k :: ts

mutual

/-- The text that tells an expression from all others. -/
def key : Expr → List Char
  | .const n => Text.intChars n.toInt
  | .unknown number _ => '%' :: 'u' :: Text.natChars number
  | .recur l s t =>
    '\x7b' :: s.key ++ [',', '+', ','] ++ t.key ++ ['\x7d', '<', 'L'] ++ Text.natChars l ++ ['>']
  | .sum k ts => ['(', '+'] ++ (if k = 0 then [] else ' ' :: Text.intChars k.toInt) ++ keys ts ++ [')']
  | .product k ts => ['(', '*'] ++ (if k = 1 then [] else ' ' :: Text.intChars k.toInt) ++ keys ts ++ [')']

/-- The keys of the terms, a blank before each. -/
def keys : List Expr → List Char
  | [] => []
  | e :: es => ' ' :: e.key ++ keys es

end

/-- Terms stand in the order of their kinds: constants, unknowns, products, sums, recurrences. -/
def rank : Expr → Nat
  | .const _ => 0
  | .unknown _ _ => 1
  | .product _ _ => 2
  | .sum _ _ => 3
  | .recur _ _ _ => 4

/-- The texts stand in alphabetical order, or are equal. -/
def alphabetical : List Char → List Char → Bool
  | [], _ => true
  | _ :: _, [] => false
  | c :: cs, d :: ds => c.toNat < d.toNat || (c == d && alphabetical cs ds)

/-- `a` stands before `b` or at its side: by kind, then by key. -/
def precedes (a b : Expr) : Bool :=
  a.rank < b.rank || (a.rank == b.rank && alphabetical a.key b.key)

/-- Puts an expression before the first one that it precedes. -/
def place (e : Expr) : List Expr → List Expr
  | [] => [e]
  | x :: xs => if e.precedes x then e :: x :: xs else x :: place e xs

/-- The expressions in order. -/
def ordered : List Expr → List Expr
  | [] => []
  | e :: es => place e (ordered es)

/-- The sum of terms, in order. The first constant among them is kept apart, unless it is zero. -/
def sumOf (terms : List Expr) : Expr :=
  match ordered terms with
  | .const c :: rest => if c = 0 then .sum 0 (.const c :: rest) else .sum c rest
  | ts => .sum 0 ts

mutual

/-- The constant and the other terms of an expression read as a sum; sums inside of sums are opened. -/
def summands : Expr → Int64 × List Expr
  | .const n => (n, [])
  | .sum k ts =>
    let inner := summandsOf ts
    (k + inner.1, inner.2)
  | e => (0, [e])

/-- The constants and the other terms of several expressions, added up. -/
def summandsOf : List Expr → Int64 × List Expr
  | [] => (0, [])
  | e :: es =>
    let first := e.summands
    let rest := summandsOf es
    (first.1 + rest.1, first.2 ++ rest.2)

end

mutual

/-- The constant and the other factors of an expression read as a product; products inside of
    products are opened. -/
def factors : Expr → Int64 × List Expr
  | .const n => (n, [])
  | .product k ts =>
    let inner := factorsOf ts
    (k * inner.1, inner.2)
  | e => (1, [e])

/-- The constants and the other factors of several expressions, multiplied. -/
def factorsOf : List Expr → Int64 × List Expr
  | [] => (1, [])
  | e :: es =>
    let first := e.factors
    let rest := factorsOf es
    (first.1 * rest.1, first.2 ++ rest.2)

end

mutual

/-- The expression has the same value in every iteration of the loop. -/
def isInvariant (F : Loop.Forest) (l : LoopId) : Expr → Bool
  | .const _ => true
  | .unknown _ v => !F.defines l v
  | .recur m s t => !F.containsLoop l m && isInvariant F l s && isInvariant F l t
  | .sum _ ts => areInvariant F l ts
  | .product _ ts => areInvariant F l ts

def areInvariant (F : Loop.Forest) (l : LoopId) : List Expr → Bool
  | [] => true
  | e :: es => isInvariant F l e && areInvariant F l es

end

end Expr

end LoopConflict.Evolution
