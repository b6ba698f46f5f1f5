/-!
Arithmetic on 64-bit signed words. The plain operations wrap around; the checked ones also tell
whether the exact result is a word. The greatest common divisor is computed on wrapped absolute
values, so the least word stays negative on its way through.
-/
namespace LoopConflict.Word

/-- A wrapped result, and whether it is the exact one. -/
structure Checked where
  value : Int64
  exact : Bool
deriving DecidableEq, Repr

/-- The value, if it is exact. -/
def Checked.toOption (c : Checked) : Option Int64 :=
  if c.exact then some c.value else none

/-- The absolute value; the least word, which has none, stays as it is. -/
def abs (a : Int64) : Int64 :=
  if a < 0 then -a else a

/-- A sum is exact iff it moved from `a` in the direction of `b`. -/
def add (a b : Int64) : Checked :=
  ⟨a + b, (a < a + b) == (0 < b)⟩

/-- A product is exact iff dividing it by one factor gives the other; the two products of `-1` and
    the least word, which divide back, are not. -/
def mul (a b : Int64) : Checked :=
  if a = 0 ∨ b = 0 then ⟨0, true⟩
  else if (a = -1 ∧ b = Int64.minValue) ∨ (b = -1 ∧ a = Int64.minValue) then ⟨a * b, false⟩
  else ⟨a * b, a * b / b == a⟩

/-- The exact sum, if it is a word. -/
def add? (a b : Int64) : Option Int64 :=
  (add a b).toOption

/-- The exact product, if it is a word. -/
def mul? (a b : Int64) : Option Int64 :=
  (mul a b).toOption

/-- The exact difference, if it is a word and `b` has a negation. -/
def sub? (a b : Int64) : Option Int64 :=
  if b = Int64.minValue then none else add? a (-b)

theorem natAbs_mod_lt (a b : Int64) (nonzero : ¬ b = 0) :
    (a % b).toInt.natAbs < b.toInt.natAbs := by
  rw [Int64.toInt_mod, Int.natAbs_tmod]
  refine Nat.mod_lt _ (Int.natAbs_pos.2 fun zero => nonzero (Int64.toInt_inj.1 ?_))
  simpa using zero

/-- The last non-zero remainder of the division chain that starts with `a` and `b`. -/
def lastRemainder (a b : Int64) : Int64 :=
  if _nonzero : b = 0 then a else lastRemainder b (a % b)
termination_by b.toInt.natAbs
decreasing_by exact natAbs_mod_lt a b _nonzero

/-- The greatest common divisor of the absolute values; 0 for two zeros. -/
def gcd (a b : Int64) : Int64 :=
  lastRemainder (abs a) (abs b)

/-- The quotient rounded up, for `0 ≤ a` and `0 < b`. -/
def ceilDiv (a b : Int64) : Int64 :=
  (a + b - 1) / b

/-- Dividing by zero has no answer. -/
inductive DivisionError where
  | byZero
deriving DecidableEq, Repr

def DivisionError.message : DivisionError → String
  | .byZero => "runtime error: integer divide by zero"

/-- The quotient rounded up, unless the divisor is zero. -/
def ceilDivChecked (a b : Int64) : Except DivisionError Int64 :=
  if b = 0 then .error .byZero else .ok (ceilDiv a b)

end LoopConflict.Word
